import RiscvMos.AllocFailure
import RiscvMos.LoadImage
import RiscvMos.LoadRoom

/-! What `env_create` puts into the scheduler's queue, when the results that it drops do not
matter: with a page for everything that it asks for, an env with all pages of its image. -/
namespace RiscvMos
open ByteMem IntrusiveQueue LinkChain Function

/-! ### The tables of the new root -/

/-- The table pages below a root that maps the kernel's pages and the pages `W`. -/
def tablesWith (m : Mem) (k : ℕ) (W : Finset ℕ) : ℕ :=
  ((kernelPages m k (2^26) ∪ W).image (fun v => v/512)).card+
    ((kernelPages m k (2^26) ∪ W).image (fun v => v/2^18)).card

theorem kernelPages_congr {m m' : Mem} {k : ℕ} (h : ∀ v, leaf m' k v = leaf m k v) (v : ℕ) :
    kernelPages m' k v = kernelPages m k v := by
  ext w
  rw [mem_kernelPages, mem_kernelPages, h]

section
variable {s₀ s : Phys} {τ : Typing} {sm : ℕ → Prop} {l₀ l : List ℕ} {k u : ℕ} {W : Finset ℕ}

theorem Copied.tables_left (c : Copied s₀ l₀ k u (2^26) s τ l) (he : EmptyRoot s₀ k u l₀)
    (hW : OffSlot W) :
    spaceNeeds s₀.mem k+tablesNeeded (RiscvMos.selfMap s.mem u) u W = tablesWith s₀.mem k W := by
  have hempty (i : ℕ) (hi : i < 512) : ¬Valid (entry s₀.mem u i) := by
    rw [entry_zeroPage he.zero hi]
    exact not_Valid_zero
  have hall (v : ℕ) (hv : v ∈ kernelPages s₀.mem k (2^26) ∪ W) : v < 2^26 := by
    rcases Finset.mem_union.mp hv with hv | hv
    · exact (mem_kernelPages.mp hv).1.2
    · exact (hW v hv).1
  rw [c.typed.tablesNeeded_selfMap c.user hW, ← he.copyNeeds_eq, copyNeeds,
    ← c.covers.tablesNeeded_union (fun v hv => (hW v hv).1), tablesNeeded_no_entry hempty hall]
  rfl

/-- With a free page `env_setup_vm` adds a root with all tables for the kernel's pages, or it
panics because there are not enough pages for these. -/
theorem Roots.envSetupVm {K : Kernel} {l₁ : List ℕ}
    (h : Roots K.kernel_pagetable K.phys τ sm (u :: l₁)) (e : ℕ) :
    (∃ K' τ' l', RiscvMos.envSetupVm K e = .ok (0, K') ∧ K'.kernel_pagetable = K.kernel_pagetable ∧
      K'.envs = update K.envs e { K.envs e with env_pgtable := u } ∧
      RootAdded K.kernel_pagetable K.phys τ sm u K'.phys τ' l' ∧
      l₁.length = l'.length+spaceNeeds K.phys.mem K.kernel_pagetable ∧
      ∀ W, OffSlot W → spaceNeeds K.phys.mem K.kernel_pagetable+tablesNeeded K'.phys.mem u W =
        tablesWith K.phys.mem K.kernel_pagetable W) ∨
      l₁.length < spaceNeeds K.phys.mem K.kernel_pagetable ∧
        RiscvMos.envSetupVm K e = .error (.panic "uvmunmap: not mapped") := by
  have hwf := h.typed.wellFormed_clear h.kernel h.kernel_clear
  rcases hwf.envSetupVm_cons e with ⟨K', l', hrun, hkpt, taken⟩ | hshort
  · left
    rcases envSetupVm_cases hrun with ⟨hr, _⟩ | ⟨_, r, s₁, s₂, hu, hu0, hcopy, rfl⟩
    · exact absurd hr (by decide)
    obtain ⟨l₁', τ₂, l₂, hl, ht, hz, hm, c⟩ := h.setup_calls hu hu0 hcopy
    obtain ⟨rfl, rfl⟩ := List.cons.inj hl
    have a := h.setup_copy hm c
    obtain rfl := a.rooted.typed.free.unique taken.table.free
    -- the same copy, counted
    obtain ⟨l₁', hl', hk₁, he, hsame⟩ := hwf.uvmcreate_empty hu hu0
    obtain rfl := (List.cons.inj hl').2
    have hleaves := hwf.leaf_agree hsame
    rcases he.copy_cases hk₁ with ⟨s₂', τ', l', hcopy', _, copied⟩ | ⟨_, hpanic⟩
    · obtain ⟨_, rfl⟩ := Prod.mk.inj (Except.ok.inj (hcopy.symm.trans hcopy'))
      refine ⟨_, cutTyping τ₂ u, l₂, hrun, hkpt, rfl, a, taken.length, fun W hW => ?_⟩
      have hleft := copied.tables_left he hW
      rwa [spaceNeeds_congr hleaves, tablesWith, kernelPages_congr hleaves] at hleft
    · rw [hpanic] at hcopy
      cases hcopy
  · exact .inr hshort

end

/-! ### What has to be there -/

/-- The pages below MAXVA that the calls of the mapper for the image map. -/
def calledPages (img : Image) (ehdr : Ehdr) : Finset ℕ :=
  ((callsFor (segments img ehdr)).flatMap MapCall.pages).toFinset.filter (· < 2^26)

theorem pagesIn_calledPages (img : Image) (ehdr : Ehdr) :
    PagesIn (calledPages img ehdr) (callsFor (segments img ehdr)) := by
  intro c hc v hv hlt
  rw [calledPages, Finset.mem_filter, List.mem_toFinset, List.mem_flatMap]
  exact ⟨⟨c, hc, hv⟩, hlt⟩

/-- The pages that `env_create` asks for: the root, the tables for the pages of the kernel and
of the image, and one for each call of the mapper. -/
def createPages (K : Kernel) (img : Image) (ehdr : Ehdr) : ℕ :=
  1+tablesWith K.phys.mem K.kernel_pagetable (calledPages img ehdr)+
    (callsFor (segments img ehdr)).length

/-- Nothing that `env_create` asks for runs out, unless it is a table for the kernel's pages;
and no page of the image lies in the slot of the self map. -/
structure Enough (K : Kernel) (img : Image) (l : List ℕ) : Prop where
  free : FreeList K.phys l
  root : l ≠ []
  asid : spaceNeeds K.phys.mem K.kernel_pagetable < l.length →
    ∃ i < NASID, asidBit K.asid_bitmap i = false
  pages : spaceNeeds K.phys.mem K.kernel_pagetable < l.length →
    ∀ ehdr, elfFrom img = some ehdr → createPages K img ehdr ≤ l.length
  slot : ∀ ehdr, elfFrom img = some ehdr → ∀ v ∈ calledPages img ehdr, vpnIndex 2 v ≠ selfSlot

theorem Enough.offSlot {K : Kernel} {img : Image} {l : List ℕ} {ehdr : Ehdr} (h : Enough K img l)
    (hel : elfFrom img = some ehdr) : OffSlot (calledPages img ehdr) :=
  fun v hv => ⟨(Finset.mem_filter.mp hv).2, h.slot ehdr hel v hv⟩

/-! ### What is published -/

/-- Env `e` is runnable and in the queue, and every page of the segments of the image is
mapped to a frame. -/
structure Published (K : Kernel) (e : ℕ) (img : Image) : Prop where
  runnable : (K.envs e).env_status = .ENV_RUNNABLE
  queued : ∃ ql, TailRepr K.env_sched_list ql ∧ e ∈ ql
  mapped : ∃ ehdr, elfFrom img = some ehdr ∧ ∀ ph, Segment img ehdr ph → ∀ i < ph.p_memsz, ∃ pa pte,
    lookup K.phys (K.envs e).env_pgtable (ph.p_vaddr+i) = .ok (pa, some pte) ∧
      KERNEND ≤ pa ∧ pa < PHYEND

/-- `env_create` panics, or returns an env from `env_alloc` with its image. -/
def CreatesWhole (L : Layout) (K : Kernel) (img : Image) (priority : ℤ) : Prop :=
  (∃ msg, envCreate L K img priority = .error (.panic msg)) ∨
    ∃ e K₂ K', envCreate L K img priority = .ok (e, K') ∧ envAlloc L K 0 = .ok (0, some e, K₂) ∧
      Published K' e img

theorem not_createsWhole {L : Layout} {K : Kernel} {img : Image} {priority : ℤ}
    (h : envCreate L K img priority = .error (.unsetPointer "e")) :
    ¬CreatesWhole L K img priority := by
  rintro (⟨msg, hpanic⟩ | ⟨e, K₂, K', hok, _⟩)
  · rw [h] at hpanic
    cases hpanic
  · rw [h] at hok
    cases hok

/-- Boot, calls of `env_create` in which nothing runs out, calls of the scheduler, and programs
that change neither a free page nor a table. `envs` has the image of each env. -/
inductive Creations (L : Layout) : Kernel → List (ℕ × Image) → Prop
  | boot {m : Mem} {K : Kernel} (start : boot L m = .ok K) : Creations L K []
  | create {K K' : Kernel} {envs : List (ℕ × Image)} {e : ℕ} {img : Image} {l : List ℕ}
    {priority : ℤ} (run : Creations L K envs) (enough : Enough K img l)
    (call : envCreate L K img priority = .ok (e, K')) : Creations L K' ((e, img) :: envs)
  | schedule {K K' : Kernel} {envs : List (ℕ × Image)} {yield : Bool} (run : Creations L K envs)
    (call : schedule L K yield = .ok K') : Creations L K' envs
  | write {K : Kernel} {envs : List (ℕ × Image)} {m : Mem} (run : Creations L K envs)
    (kept : ∀ p, IsPage p → OnFreeList K.phys p ∨ TablePage K p → AgreeOn m K.phys.mem p 4096) :
    Creations L (K.setMem m) envs

/-! ### The invariant -/

/-- The queue has the envs `envs`, their roots are the roots next to the kernel's, and each of
them has the pages of its image. -/
structure PublishedInv (K : Kernel) (envs : List (ℕ × Image)) (τ : Typing) (sm : ℕ → Prop)
    (l ql fl : List ℕ) : Prop where
  rooted : Roots K.kernel_pagetable K.phys τ sm l
  sched : SchedInv K ql fl
  curenv : ∀ c, K.curenv = some c → c < NENV
  roots : ∀ r, sm r ↔ ∃ e ∈ ql, r = (K.envs e).env_pgtable
  queue : ∀ e, e ∈ ql ↔ ∃ img, (e, img) ∈ envs
  mapped : ∀ x ∈ envs, ∃ ehdr, elfFrom x.2 = some ehdr ∧ ∀ ph, Segment x.2 ehdr ph →
    SegmentMapped (K.envs x.1).env_pgtable K.phys ph

section
variable {L : Layout} {K : Kernel} {envs : List (ℕ × Image)} {τ : Typing} {sm : ℕ → Prop}
  {l ql fl : List ℕ} {img : Image}

theorem PublishedInv.published (h : PublishedInv K envs τ sm l ql fl) {e : ℕ}
    (he : (e, img) ∈ envs) : Published K e img := by
  have hq := (h.queue e).mpr ⟨img, he⟩
  have hu := (h.roots _).mpr ⟨e, hq, rfl⟩
  obtain ⟨ehdr, hel, hmapped⟩ := h.mapped _ he
  refine ⟨(h.sched.mem_queue e).mp hq, ⟨ql, h.sched.queue, hq⟩, ehdr, hel, fun ph hs i hi => ?_⟩
  obtain ⟨hlt, hslot, hval, huser, hpage⟩ := hmapped ph hs i hi
  obtain ⟨pte, hlook, _⟩ := h.rooted.typed.lookup_user (h.rooted.typed.selfMap hu).1
    (clear_of_index sm _ hslot) hlt hval huser
  exact ⟨_, pte, hlook, hpage.1, hpage.2.1⟩

theorem PublishedInv.keep (h : PublishedInv K envs τ sm l ql fl) {K' : Kernel} {ql' fl' : List ℕ}
    (hrooted : Roots K'.kernel_pagetable K'.phys τ sm l) (hsched : SchedInv K' ql' fl')
    (hcur : ∀ c, K'.curenv = some c → c < NENV)
    (hstatus : ∀ i, (K'.envs i).env_status = (K.envs i).env_status)
    (hroot : ∀ i, (K'.envs i).env_pgtable = (K.envs i).env_pgtable)
    (hkept : LeavesKept sm K.phys K'.phys) : PublishedInv K' envs τ sm l ql' fl' := by
  have hql (e : ℕ) : e ∈ ql' ↔ e ∈ ql := by rw [hsched.mem_queue, h.sched.mem_queue, hstatus]
  constructor
  case rooted => exact hrooted
  case sched => exact hsched
  case curenv => exact hcur
  case roots =>
    intro r
    simp only [h.roots r, hql, hroot]
  case queue => exact fun e => (hql e).trans (h.queue e)
  case mapped =>
    intro x hx
    obtain ⟨ehdr, hel, hmapped⟩ := h.mapped x hx
    refine ⟨ehdr, hel, fun ph hs => ?_⟩
    rw [hroot]
    have hq := (h.queue x.1).mpr ⟨x.2, hx⟩
    exact (hmapped ph hs).kept ((h.roots _).mpr ⟨x.1, hq, rfl⟩) hkept

theorem Roots.write_kept {k : ℕ} {s : Phys} (h : Roots k s τ sm l) {m : Mem}
    (hm : ∀ p, IsPage p → (∀ o, τ p ≠ .frame o) → AgreeOn m s.mem p 4096) :
    LeavesKept sm s ⟨m, s.freelist⟩ := fun _ v hr _ hs _ =>
  h.typed.leafFrom_agree (h.write hm).2 v (h.typed.selfMap hr).1 (clear_of_index sm _ hs)

theorem low_agree {m m' : Mem} (h : ∀ b, KERNEND ≤ b → m b = m' b) {p : ℕ} (hp : IsPage p) :
    AgreeOn m m' p 4096 := fun b hl _ => h b (hp.1.trans hl)

theorem PublishedInv.schedule (h : PublishedInv K envs τ sm l ql fl) {K' : Kernel} {yield : Bool}
    (hcall : RiscvMos.schedule L K yield = .ok K') : ∃ ql', PublishedInv K' envs τ sm l ql' fl := by
  obtain ⟨ql', hs⟩ := h.sched.schedule hcall
  obtain ⟨e, s⟩ := schedule_scheduled hcall
  -- the only write is to the trap frame of the current env
  have hlow (b : ℕ) (hb : KERNEND ≤ b) := saveContext_low L K.phys.mem h.curenv hb
  have hagree (p : ℕ) (hp : IsPage p) (_ : ∀ o, τ p ≠ .frame o) := low_agree hlow hp
  have hrooted := (h.rooted.write hagree).1
  have hkept := h.rooted.write_kept hagree
  rw [← s.phys] at hrooted hkept
  rw [← s.kernel_pagetable] at hrooted
  refine ⟨ql', h.keep hrooted hs (fun c hc => ?_) s.env_status s.env_pgtable hkept⟩
  obtain rfl : e = c := Option.some.inj (s.curenv.symm.trans hc)
  exact (hs.queue_lt e ((hs.mem_queue e).mpr s.runnable)).1

theorem PublishedInv.write (h : PublishedInv K envs τ sm l ql fl) {m : Mem}
    (hw : ∀ p, IsPage p → OnFreeList K.phys p ∨ TablePage K p → AgreeOn m K.phys.mem p 4096) :
    PublishedInv (K.setMem m) envs τ sm l ql fl := by
  have hagree (p : ℕ) (hp : IsPage p) (hno : ∀ o, τ p ≠ .frame o) : AgreeOn m K.phys.mem p 4096 := by
    apply hw p hp
    -- a page that is no frame is free or in the tree of a root
    cases hk : τ p with
    | free => exact .inl ((onFreeList_iff h.rooted.typed.free p).mpr
        ((h.rooted.typed.mem_free p).mpr ⟨hp, hk⟩))
    | frame o => exact absurd hk (hno o)
    | table level par =>
      obtain ⟨r, hr, hat⟩ := h.rooted.typed.exists_tableAt hk
      refine .inr ⟨r, level, (h.rooted.roots r hr).imp_right fun hsm => ?_, hat⟩
      obtain ⟨e, he, hre⟩ := (h.roots r).mp hsm
      exact ⟨e, (h.sched.mem_queue e).mp he, hre⟩
  exact h.keep (h.rooted.write hagree).1 (h.sched.keeps (keepsEnvs_setPhys K ⟨m, K.phys.freelist⟩))
    h.curenv (fun _ => rfl) (fun _ => rfl) (h.rooted.write_kept hagree)

/-! ### env_create -/

theorem LeavesKept.mono {sm' : ℕ → Prop} {s s' : Phys} (h : LeavesKept sm' s s')
    (hsm : ∀ r, sm r → sm' r) : LeavesKept sm s s' := fun r v hr => h r v (hsm r hr)

theorem RootAdded.kept {k u : ℕ} {s s' : Phys} {τ' : Typing} {l' : List ℕ} (h : Typed s τ sm l)
    (a : RootAdded k s τ sm u s' τ' l') : LeavesKept sm s s' := fun _ _ hr hv hs _ =>
  a.old (h.selfMap hr).1 (clear_of_index _ _ hs) (by omega)

/-- `env_alloc` panics for lack of tables, or the env that it returns has a root with pages for
the load. -/
theorem PublishedInv.alloc (h : PublishedInv K envs τ sm l ql fl) (enough : Enough K img l) :
    (∃ msg, envAlloc L K 0 = .error (.panic msg)) ∨
    ∃ e K₂ u τ₂ l₂, envAlloc L K 0 = .ok (0, some e, K₂) ∧ e < NENV ∧ e ∉ ql ∧
      (∀ i, (K₂.envs i).env_pgtable = if i = e then u else (K.envs i).env_pgtable) ∧
      Roots K.kernel_pagetable K₂.phys τ₂ (fun r => sm r ∨ r = u) l₂ ∧
      LeavesKept sm K.phys K₂.phys ∧ ∀ ehdr, elfFrom img = some ehdr →
        (callsFor (segments img ehdr)).length+tablesNeeded K₂.phys.mem u (calledPages img ehdr) ≤
          l₂.length := by
  obtain ⟨e, he, hfirst⟩ := h.sched.first
  cases l with
  | nil => exact absurd rfl enough.root
  | cons u l₁ =>
    rcases h.rooted.envSetupVm e with ⟨K₁, τ₁, l₂, hsetup, hkpt, henvs, a, hlen, htables⟩ | ⟨_, hpanic⟩
    · right
      have hlong : spaceNeeds K.phys.mem K.kernel_pagetable < (u :: l₁).length := by
        rw [List.length_cons]
        omega
      -- the new space has left a page, so an ASID is free
      obtain ⟨i, hi, hbit⟩ := enough.asid hlong
      obtain ⟨⟨asid, bitmap⟩, ha⟩ := Option.ne_none_iff_exists'.mp (asidAlloc_ne_none hi hbit)
      obtain ⟨K₂, halloc, al⟩ := envAlloc_ok L 0 hfirst hsetup ha
      obtain ⟨_, _, _, hq, _⟩ := h.sched.alloc al
      have hagree (p : ℕ) (hp : IsPage p) (_ : ∀ o, τ₁ p ≠ .frame o) :
          AgreeOn (initFrame L K₁.phys.mem e) K₁.phys.mem p 4096 :=
        low_agree (fun b hb => initFrame_low he hb) hp
      have hrooted := (a.rooted.write hagree).1
      have hkept := a.rooted.write_kept hagree
      have hroot := (a.rooted.typed.selfMap (p := u) (.inr rfl)).1
      refine ⟨e, K₂, u, τ₁, l₂, halloc, he, hq, fun i => ?_, ?_, ?_, fun ehdr hel => ?_⟩
      · rw [al.env_pgtable, henvs, update_apply]
        split_ifs with hie
        · rfl
        · rfl
      · rw [al.phys]
        exact hrooted
      · rw [al.phys]
        exact (a.kept h.rooted.typed).trans (hkept.mono fun r hr => .inl hr)
      · have hpages := enough.pages hlong ehdr hel
        have hW := enough.offSlot hel
        have hleft := htables _ hW
        rw [al.phys, a.rooted.typed.tablesNeeded_agree (a.rooted.write hagree).2 hroot hW]
        rw [createPages, List.length_cons] at hpages
        omega
    · left
      refine ⟨"uvmunmap: not mapped", ?_⟩
      rw [envAlloc, hfirst]
      dsimp only
      rw [hpanic]
      rfl

theorem envCreate_bad_elf {K₂ : Kernel} {e : ℕ} (ha : envAlloc L K 0 = .ok (0, some e, K₂))
    (hel : elfFrom img = none) (priority : ℤ) :
    envCreate L K img priority = .error (.panic "load icode: bad elf") := by
  rw [envCreate, ha, ok_bind]
  simp only [loadIcode, hel]
  rfl

theorem envCreate_load_stops {K₂ : Kernel} {e : ℕ} {ehdr : Ehdr} {stop : Stop}
    (ha : envAlloc L K 0 = .ok (0, some e, K₂)) (hel : elfFrom img = some ehdr)
    (hload : loadSegments (loadIcodeMapper img (K₂.envs e).env_pgtable) img ehdr K₂.phys 0
      ehdr.e_phoff = .error stop) (priority : ℤ) : envCreate L K img priority = .error stop := by
  rw [envCreate, ha, ok_bind]
  simp only [loadIcode, hel, Kernel.setEnv, update_self]
  rw [hload]
  rfl

theorem PublishedInv.create (h : PublishedInv K envs τ sm l ql fl) (enough : Enough K img l)
    (priority : ℤ) :
    (∃ msg, envCreate L K img priority = .error (.panic msg)) ∨
    ∃ e K₂ K' τ' sm' l' ql' fl', envCreate L K img priority = .ok (e, K') ∧
      envAlloc L K 0 = .ok (0, some e, K₂) ∧ PublishedInv K' ((e, img) :: envs) τ' sm' l' ql' fl' := by
  rcases h.alloc (L := L) enough with
    ⟨msg, hpanic⟩ | ⟨e, K₂, u, τ₂, l₂, halloc, he, hnq, hroots, hrooted, hkept, hroom⟩
  · left
    refine ⟨msg, ?_⟩
    rw [envCreate, hpanic]
    rfl
  have hue : (K₂.envs e).env_pgtable = u := by rw [hroots, if_pos rfl]
  cases hel : elfFrom img with
  | none => exact .inl ⟨_, envCreate_bad_elf halloc hel priority⟩
  | some ehdr =>
    -- what `env_alloc` left is enough for the calls of the load
    have loading : Loading K.kernel_pagetable u (calledPages img ehdr)
        ((callsFor (segments img ehdr)).length+0) K₂.phys τ₂ (fun r => sm r ∨ r = u) l₂ :=
      ⟨hrooted, .inr rfl, hroom ehdr hel⟩
    rcases loading.loadSegments (enough.offSlot hel) hel (pagesIn_calledPages img ehdr) with
      ⟨msg, hpanic⟩ | ⟨s, τ₃, l₃, hload, h₃, hkept₃, hmapped⟩
    · rw [← hue] at hpanic
      exact .inl ⟨msg, envCreate_load_stops halloc hel hpanic priority⟩
    right
    rw [← hue] at hload
    obtain ⟨K', K₁, hcreate, c⟩ := envCreate_ok priority halloc hel hload
    obtain ⟨fl', _, _, hsched⟩ := h.sched.create c
    -- the entry point goes to the trap frame, below the heap
    have hagree (p : ℕ) (hp : IsPage p) (_ : ∀ o, τ₃ p ≠ .frame o) :
        AgreeOn (store64 s.mem (L.tf e+8*33) ehdr.e_entry) s.mem p 4096 :=
      low_agree (fun b hb => store64_low he (by decide) _ hb) hp
    have hrooted' := (h₃.rooted.write hagree).1
    have hkept' := h₃.rooted.write_kept hagree
    rw [← c.phys] at hrooted' hkept'
    rw [← c.kernel_pagetable] at hrooted'
    have hold : LeavesKept sm K.phys K'.phys :=
      hkept.trans ((hkept₃.trans hkept').mono fun r hr => .inl hr)
    have hroots' (i : ℕ) : (K'.envs i).env_pgtable = if i = e then u else (K.envs i).env_pgtable := by
      rw [← hroots i, c.alloc.env_pgtable, c.env_pgtable]
    -- the envs of the queue keep their roots
    have hqueue (i : ℕ) (hi : i ∈ ql) : (K'.envs i).env_pgtable = (K.envs i).env_pgtable := by
      have hie : i ≠ e := fun hie => hnq (hie ▸ hi)
      rw [hroots', if_neg hie]
    refine ⟨e, K₂, K', τ₃, fun r => sm r ∨ r = u, l₃, e :: ql, fl', hcreate, halloc, ?_⟩
    constructor
    case rooted => exact hrooted'
    case sched => exact hsched
    case curenv =>
      intro i hi
      rw [c.curenv] at hi
      exact h.curenv i hi
    case roots =>
      intro r
      rw [h.roots, List.exists_mem_cons_iff, hroots', if_pos rfl, or_comm]
      refine or_congr Iff.rfl ⟨?_, ?_⟩
      · rintro ⟨i, hi, rfl⟩
        exact ⟨i, hi, (hqueue i hi).symm⟩
      · rintro ⟨i, hi, rfl⟩
        exact ⟨i, hi, hqueue i hi⟩
    case queue =>
      intro i
      rw [List.mem_cons, h.queue]
      constructor
      · rintro (rfl | ⟨img', hi⟩)
        · exact ⟨img, List.mem_cons_self⟩
        · exact ⟨img', List.mem_cons_of_mem _ hi⟩
      · rintro ⟨img', hi⟩
        rcases List.mem_cons.mp hi with hi | hi
        · exact .inl (Prod.mk.inj hi).1
        · exact .inr ⟨img', hi⟩
    case mapped =>
      intro x hx
      rcases List.mem_cons.mp hx with rfl | hx
      · refine ⟨ehdr, hel, fun ph hs => ?_⟩
        rw [hroots', if_pos rfl]
        exact (hmapped ph hs).kept (Or.inr rfl : sm u ∨ u = u) hkept'
      · obtain ⟨ehdr', hel', hmapped'⟩ := h.mapped x hx
        refine ⟨ehdr', hel', fun ph hs => ?_⟩
        have hq := (h.queue x.1).mpr ⟨x.2, hx⟩
        rw [hqueue x.1 hq]
        exact (hmapped' ph hs).kept ((h.roots _).mpr ⟨x.1, hq, rfl⟩) hold

/-- Without a page for the root, or without an ASID after the new space, `env_create` goes on
with a pointer that `env_alloc` has not set. -/
theorem PublishedInv.unset (h : PublishedInv K envs τ sm l ql fl)
    (hnone : l = [] ∨ spaceNeeds K.phys.mem K.kernel_pagetable < l.length ∧
      ∀ i < NASID, asidBit K.asid_bitmap i = true) (img : Image) (priority : ℤ) :
    envCreate L K img priority = .error (.unsetPointer "e") := by
  obtain ⟨e, _, hfirst⟩ := h.sched.first
  rcases hnone with rfl | ⟨hlong, hset⟩
  · have halloc : envAlloc L K 0 = .ok (-E_NO_MEM, none, K) := by
      rw [envAlloc, hfirst]
      dsimp only
      rw [envSetupVm_nil h.rooted.typed.free.chain e]
      rfl
    exact envCreate_unset halloc img priority
  · cases l with
    | nil => cases hlong
    | cons u l₁ =>
      rw [List.length_cons] at hlong
      rcases h.rooted.envSetupVm e with ⟨K₁, _, _, hsetup, _⟩ | ⟨hshort, _⟩
      · have hasid : asidAlloc K.asid_bitmap = none := by
          cases ha : asidAlloc K.asid_bitmap with
          | none => rfl
          | some x =>
            obtain ⟨hi, hbit, _⟩ := asidAllocLoop_spec ha
            rw [hset _ hi] at hbit
            cases hbit
        obtain ⟨K', halloc⟩ := envAlloc_no_asid L 0 hfirst hsetup hasid
        exact envCreate_unset halloc img priority
      · omega

/-! ### Runs -/

theorem boot_published {m : Mem} (hboot : boot L m = .ok K) :
    ∃ τ l fl, PublishedInv K [] τ noSelfMap l [] fl := by
  obtain ⟨fr, τ, l, b⟩ := boot_booted hboot
  refine ⟨τ, l, _, b.spaces.rooted, boot_schedInv hboot, ?_, ?_, by simp, by simp⟩
  · intro c hc
    rw [b.curenv] at hc
    cases hc
  · intro r
    simp

theorem Creations.inv (run : Creations L K envs) :
    ∃ τ sm l ql fl, PublishedInv K envs τ sm l ql fl := by
  induction run with
  | boot start =>
    obtain ⟨τ, l, fl, h⟩ := boot_published start
    exact ⟨τ, noSelfMap, l, [], fl, h⟩
  | create run enough call ih =>
    obtain ⟨τ, sm, l, ql, fl, h⟩ := ih
    obtain rfl := enough.free.unique h.rooted.typed.free
    rcases h.create enough _ with ⟨msg, hpanic⟩ | ⟨e, K₂, K', τ', sm', l', ql', fl', hok, _, h'⟩
    · rw [hpanic] at call
      cases call
    · obtain ⟨rfl, rfl⟩ := Prod.mk.inj (Except.ok.inj (hok.symm.trans call))
      exact ⟨τ', sm', l', ql', fl', h'⟩
  | schedule run call ih =>
    obtain ⟨τ, sm, l, ql, fl, h⟩ := ih
    obtain ⟨ql', h'⟩ := h.schedule call
    exact ⟨τ, sm, l, ql', fl, h'⟩
  | write run kept ih =>
    obtain ⟨τ, sm, l, ql, fl, h⟩ := ih
    exact ⟨τ, sm, l, ql, fl, h.write kept⟩

/-- In runs in which nothing runs out, every runnable env has all pages of its image, and a
call in which nothing runs out panics or returns an env with all pages of its image. Without
a page for the root or an ASID no call does. -/
theorem env_create_publishes_whole (run : Creations L K envs) :
    (∀ e, (K.envs e).env_status = .ENV_RUNNABLE → ∃ img, (e, img) ∈ envs ∧ Published K e img) ∧
    (∀ img l priority, Enough K img l → CreatesWhole L K img priority) ∧
    ∀ img l priority, FreeList K.phys l → (l = [] ∨
      spaceNeeds K.phys.mem K.kernel_pagetable < l.length ∧
        ∀ i < NASID, asidBit K.asid_bitmap i = true) → ¬CreatesWhole L K img priority := by
  obtain ⟨τ, sm, l, ql, fl, h⟩ := run.inv
  refine ⟨fun e he => ?_, fun img l' priority enough => ?_, fun img l' priority free hnone => ?_⟩
  · obtain ⟨img, hi⟩ := (h.queue e).mp ((h.sched.mem_queue e).mpr he)
    exact ⟨img, hi, h.published hi⟩
  · obtain rfl := enough.free.unique h.rooted.typed.free
    rcases h.create (L := L) enough priority with
      hpanic | ⟨e, K₂, K', τ', sm', l', ql', fl', hok, halloc, h'⟩
    · exact .inl hpanic
    · exact .inr ⟨e, K₂, K', hok, halloc, h'.published List.mem_cons_self⟩
  · obtain rfl := free.unique h.rooted.typed.free
    exact not_createsWhole (h.unset hnone img priority)

end

/-! ### The first env, and the 257th -/

theorem OnePage.segments_eq {img : Image} {ehdr : Ehdr} {ph : Phdr} (o : OnePage img ehdr ph) :
    segments img ehdr = [ph] := by
  have hel := elfFrom_phoff o.elf
  have hheader : RiscvMos.header img ehdr 0 = ph := by
    rw [RiscvMos.header, Nat.zero_mul, Nat.add_zero, Nat.mod_eq_of_lt hel, o.header]
  rw [segments, o.num, segmentsFrom_succ, hheader, if_pos o.type]
  rfl

theorem OnePage.calls {img : Image} {ehdr : Ehdr} {ph : Phdr} (o : OnePage img ehdr ph)
    (hal : ph.p_vaddr%4096 = 0) : (callsFor (segments img ehdr)).length = 1 ∧
      ∀ v ∈ calledPages img ehdr, v = ph.p_vaddr/4096 ∨ v = ph.p_vaddr/4096+1 := by
  have hpage : PAGE_SIZE = 4096 := rfl
  have htop : USTACKTOP = 524287*4096 := by decide
  have hbelow := o.below
  have hsize := o.size
  have hfit := o.fit
  have hpos := o.pos
  have hcalls : callsFor (segments img ehdr) = segCalls ph ph.p_offset := by
    rw [o.segments_eq, callsFor, List.flatMap_singleton]
  have hwrap : ph.p_vaddr+ph.p_memsz+PAGE_SIZE < 2^64 := by omega
  have hpages := segCalls_pages hwrap hsize.ge ph.p_offset (.inl hal)
  have hone : (ph.p_vaddr%4096+ph.p_memsz+4095)/4096 = 1 := by omega
  rw [if_neg (by omega), hone] at hpages
  have hlen := congrArg List.length hpages
  rw [List.length_map, List.length_range'] at hlen
  rw [calledPages, hcalls]
  refine ⟨hlen, fun v hv => ?_⟩
  obtain ⟨hv, _⟩ := Finset.mem_filter.mp hv
  obtain ⟨c, hc, hv⟩ := List.mem_flatMap.mp (List.mem_toFinset.mp hv)
  have hcp : c.page ∈ List.range' (ph.p_vaddr/4096) 1 := hpages ▸ List.mem_map_of_mem hc
  rw [List.mem_range'_1] at hcp
  have hc' : c.page = ph.p_vaddr/4096 := by omega
  rw [MapCall.pages, hc'] at hv
  split_ifs at hv
  · exact .inl (List.mem_singleton.mp hv)
  · simpa using hv

theorem OnePage.enough {L : Layout} {m : Mem} {K : Kernel} {img : Image} {ehdr : Ehdr} {ph : Phdr}
    (o : OnePage img ehdr ph) (hal : ph.p_vaddr%4096 = 0) (hboot : boot L m = .ok K) :
    ∃ l, Enough K img l := by
  obtain ⟨fr, τ, l, b⟩ := boot_booted hboot
  have hlen := b.length
  have hneeds := spaceNeeds_le b.building.leaves
  obtain ⟨hcalls, hpages⟩ := o.calls hal
  have htop : USTACKTOP = 524287*4096 := by decide
  have hbelow := o.below
  refine ⟨l, b.building.typed.free, ?_, fun _ => ⟨0, by decide, ?_⟩, fun _ ehdr' hel => ?_,
    fun ehdr' hel v hv => ?_⟩
  · rintro rfl
    rw [List.length_nil] at hlen
    omega
  · rw [b.asid_bitmap]
    rfl
  · obtain rfl := Option.some.inj (o.elf.symm.trans hel)
    have hsub : calledPages img ehdr ⊆ {ph.p_vaddr/4096, ph.p_vaddr/4096+1} := by
      intro v hv
      rw [Finset.mem_insert, Finset.mem_singleton]
      exact hpages v hv
    have hcard := (Finset.card_le_card hsub).trans Finset.card_le_two
    -- the pages of the image are at most two, in at most two regions and groups
    have htables : tablesWith K.phys.mem K.kernel_pagetable (calledPages img ehdr) ≤
        spaceNeeds K.phys.mem K.kernel_pagetable+4 := by
      rw [tablesWith, Finset.image_union, Finset.image_union, spaceNeeds]
      have h₁ := Finset.card_union_le
        ((kernelPages K.phys.mem K.kernel_pagetable (2^26)).image (fun v => v/512))
        ((calledPages img ehdr).image (fun v => v/512))
      have h₂ := Finset.card_union_le
        ((kernelPages K.phys.mem K.kernel_pagetable (2^26)).image (fun v => v/2^18))
        ((calledPages img ehdr).image (fun v => v/2^18))
      have h₃ : ((calledPages img ehdr).image (fun v => v/512)).card ≤ 2 :=
        Finset.card_image_le.trans hcard
      have h₄ : ((calledPages img ehdr).image (fun v => v/2^18)).card ≤ 2 :=
        Finset.card_image_le.trans hcard
      omega
    rw [createPages, hcalls]
    omega
  · obtain rfl := Option.some.inj (o.elf.symm.trans hel)
    apply user_index
    rcases hpages v hv with rfl | rfl
    · omega
    · omega

/-- The first env after boot. -/
theorem env_create_publishes_spin : ∃ K l e K', Creations default K [] ∧
    Enough K (spinImage 0x1000) l ∧ envCreate default K (spinImage 0x1000) 1 = .ok (e, K') ∧
    Published K' e (spinImage 0x1000) := by
  obtain ⟨K, _, _, _, hboot, _⟩ := boot_ok default (fun _ => 0)
  have run : Creations default K [] := .boot hboot
  obtain ⟨l, enough⟩ := spinImage_aligned.enough (by decide) hboot
  obtain ⟨K', _, _, _, _, hcreate, _⟩ := envCreate_first hboot spinImage_aligned 1
  rcases (env_create_publishes_whole run).2.1 _ l 1 enough with
    ⟨msg, hpanic⟩ | ⟨e, K₂, K'', hok, _, published⟩
  · rw [hcreate] at hpanic
    cases hpanic
  · exact ⟨K, l, e, K'', run, enough, hok, published⟩

/-- After 256 envs the 257th call finds no ASID, and `env_create` goes on without an env. -/
theorem env_create_uses_unset : ∃ K₀ cs K, boot default (fun _ => 0) = .ok K₀ ∧
    EnvsCreated default K₀ cs K ∧ cs.length = 256 ∧
    envCreate default K bareImage 1 = .error (.unsetPointer "e") ∧
    ¬CreatesWhole default K bareImage 1 := by
  obtain ⟨K₀, _, _, _, hboot, _⟩ := boot_ok default (fun _ => 0)
  obtain ⟨cs, K, fr, u, l, run, hlen, crowded⟩ := exists_crowd hboot
  obtain ⟨K', halloc⟩ := crowded.alloc_fails 0
  have hunset := envCreate_unset halloc bareImage 1
  exact ⟨K₀, cs, K, hboot, run, hlen, hunset, not_createsWhole hunset⟩

end RiscvMos
