import RiscvMos.CutTables
import RiscvMos.LoadImage
import RiscvMos.OtherSpaces

/-! Where the pages of the heap are: on the free list, in tables, in user pages, in the frames
of the envs, and among those that `env_setup_vm` has lost. -/
namespace RiscvMos
open ByteMem LinkChain Function

/-! ### What one step does to the frames -/

/-- After `n` new spaces: the frames are the user pages of the roots `sm`, the frames `fr` of
the envs, and four pages for each space that nothing leads to. -/
structure Ledger (k : ℕ) (f fr : ℕ → ℕ) (n : ℕ) (s : Phys) (τ : Typing) (sm : ℕ → Prop)
    (l : List ℕ) : Prop where
  spaces : Spaces k f s τ sm l
  page : ∀ p o, τ p = .frame o → IsPage p
  user : ∀ r v p, τ p = .frame (some (r,v)) ↔
    sm r ∧ v < 2^19 ∧ Valid (leaf s.mem r v) ∧ PTE2PA (leaf s.mem r v) = p
  bit : ∀ r v, sm r → v < 2^19 → Valid (leaf s.mem r v) → leaf s.mem r v &&& PTE_U ≠ 0
  lost : ∃ cut : Finset ℕ, cut.card = 4*n ∧ (∀ j < NENV, fr j ∉ cut) ∧
    ∀ p, τ p = .frame none ↔ p ∈ cut ∨ ∃ j < NENV, fr j = p

section
variable {k u n : ℕ} {f fr : ℕ → ℕ} {s s' : Phys} {τ τ' : Typing} {sm : ℕ → Prop} {l l' : List ℕ}

theorem Ledger.keep (h : Ledger k f fr n s τ sm l) (hs : Spaces k f s' τ' sm l')
    (hf : ∀ p o, τ' p = .frame o ↔ τ p = .frame o)
    (hl : ∀ r v, sm r → v < 2^19 → leaf s'.mem r v = leaf s.mem r v) :
    Ledger k f fr n s' τ' sm l' := by
  refine ⟨hs, fun p o hp => h.page p o ((hf p o).mp hp), fun r v p => ?_, fun r v hr hv hval => ?_,
    ?_⟩
  · rw [hf, h.user]
    apply and_congr_right
    intro hr
    apply and_congr_right
    intro hv
    rw [hl r v hr hv]
  · rw [hl r v hr hv] at hval ⊢
    exact h.bit r v hr hv hval
  · simp only [hf]
    exact h.lost

theorem Ledger.write_low (h : Ledger k f fr n s τ sm l) {m : Mem}
    (hm : ∀ b, KERNEND ≤ b → m b = s.mem b) : Ledger k f fr n ⟨m, s.freelist⟩ τ sm l := by
  obtain ⟨hs, hleaf⟩ := h.spaces.write_low hm
  exact h.keep hs (fun _ _ => Iff.rfl)
    (fun r v hr hv => hleaf r v (h.spaces.root_of_sm hr) (clear_of_index sm r (user_index hv)))

/-- A new space loses four pages. -/
theorem Ledger.setup (h : Ledger k f fr n s τ sm l) {cut : Finset ℕ}
    (o : SetupOut k f s τ sm l u s' τ' l') (c : SetupCut τ τ' cut) :
    Ledger k f fr (n+1) s' τ' (fun r => sm r ∨ r = u) l' := by
  obtain ⟨lost, hcard, hfr, hlost⟩ := h.lost
  have hold {r v : ℕ} (hr : sm r) (hv : v < 2^19) : leaf s'.mem r v = leaf s.mem r v :=
    o.old r v hr (by omega) (user_index hv)
  -- What is cut off was no frame before.
  have hnone {p : ℕ} (hp : p ∈ cut) : ¬(p ∈ lost ∨ ∃ j < NENV, fr j = p) := by
    rw [← hlost]
    exact (c.fresh p hp).2 none
  constructor
  case spaces => exact o.spaces
  case page =>
    intro p x hp
    rcases (c.frames p x).mp hp with hold | ⟨_, hcut⟩
    · exact h.page p x hold
    · exact (c.fresh p hcut).1
  case user =>
    intro r v p
    rw [c.frames, or_iff_left (fun hh => Option.some_ne_none _ hh.1), h.user]
    constructor
    · rintro ⟨hr, hv, hleaf⟩
      rw [← hold hr hv] at hleaf
      exact ⟨Or.inl hr, hv, hleaf⟩
    · rintro ⟨hr | rfl, hv, hleaf⟩
      · rw [hold hr hv] at hleaf
        exact ⟨hr, hv, hleaf⟩
      · rw [o.empty v hv] at hleaf
        exact absurd hleaf.1 not_Valid_zero
  case bit =>
    rintro r v (hr | rfl) hv hval
    · rw [hold hr hv] at hval ⊢
      exact h.bit r v hr hv hval
    · rw [o.empty v hv] at hval
      exact absurd hval not_Valid_zero
  case lost =>
    have hdisj : Disjoint lost cut :=
      Finset.disjoint_right.mpr fun p hp hin => hnone hp (Or.inl hin)
    refine ⟨lost ∪ cut, ?_, fun j hj hin => ?_, fun p => ?_⟩
    · rw [Finset.card_union_of_disjoint hdisj, hcard, c.card]
      omega
    · rcases Finset.mem_union.mp hin with hin | hin
      · exact hfr j hj hin
      · exact hnone hin (Or.inr ⟨j, hj, rfl⟩)
    · rw [c.frames, hlost, and_iff_right rfl, Finset.mem_union, or_right_comm]

theorem Ledger.mapped {c v perm : ℕ} {s₁ : Phys} (h : Ledger k f fr n s τ sm (c :: l)) (hu : sm u)
    (hv : v < 2^19) (hf : perm < 1024) (hbit : perm &&& PTE_U ≠ 0)
    (h₁ : Spaces k f s₁ (update τ c (.frame (some (u,v)))) sm l)
    (hleaf : ∀ r w, τ r = .table 2 none → Clear sm r 2 (vpnIndex 2 w) →
      leaf s₁.mem r w = leaf s.mem r w) (hnew : ¬Valid (leaf s₁.mem u v))
    (m : MapOut sm s₁ (update τ c (.frame (some (u,v)))) l u v 1 c perm s' τ' l') :
    Ledger k f fr n s' τ' sm l' := by
  have hc := h.spaces.typed.free.pages c List.mem_cons_self
  have hcfree := h.spaces.typed.free_kind List.mem_cons_self
  have hb := hc.bounds
  rw [hleaf u v (h.spaces.root_of_sm hu) (clear_of_index sm u (user_index hv))] at hnew
  -- Only the kind of `c` and the leaf `v` of `u` are new; the tables that grow are no frames.
  have hkind (p : ℕ) (o : Option (ℕ × ℕ)) :
      τ' p = .frame o ↔ if p = c then some (u,v) = o else τ p = .frame o := by
    rw [m.grows.frame_eq_iff]
    by_cases hp : p = c
    · rw [if_pos hp, hp, update_same_kind, PageKind.frame.injEq]
    · rw [if_neg hp, update_other_kind _ _ hp]
  have hlast {r w : ℕ} (hr : sm r) (hw : w < 2^19) :
      leaf s'.mem r w = if r = u ∧ w = v then mkLeaf c perm else leaf s.mem r w := by
    have hcw := clear_of_index sm r (user_index hw)
    rw [m.leaves (h₁.root_of_sm hr) hcw (by omega), hleaf r w (h.spaces.root_of_sm hr) hcw]
    by_cases hin : r = u ∧ w = v
    · have hpa : (c+4096*(w-v))%2^64 = c := by omega
      rw [if_pos (by omega), if_pos hin, hpa]
    · rw [if_neg (by omega), if_neg hin]
  have hpte : PTE2PA (mkLeaf c perm) = c := by
    rw [PTE2PA_mkLeaf (by omega) hf]
    omega
  constructor
  case spaces => exact h₁.map hu (by omega) m
  case page =>
    intro p o hp
    rw [hkind] at hp
    by_cases hpc : p = c
    · rwa [hpc]
    · rw [if_neg hpc] at hp
      exact h.page p o hp
  case user =>
    intro r w p
    rw [hkind]
    by_cases hin : r = u ∧ w = v
    · obtain ⟨rfl, rfl⟩ := hin
      have hmapped : leaf s'.mem r w = mkLeaf c perm := (hlast hu hv).trans (if_pos ⟨rfl, rfl⟩)
      rw [hmapped, hpte]
      by_cases hpc : p = c
      · rw [if_pos hpc]
        exact iff_of_true rfl ⟨hu, hv, Valid_mkLeaf c hf, hpc.symm⟩
      · -- The page had no leaf before.
        rw [if_neg hpc, h.user]
        exact iff_of_false (fun hh => hnew hh.2.2.1) (fun hh => hpc hh.2.2.2.symm)
    · have hkept : sm r ∧ w < 2^19 ∧ Valid (leaf s'.mem r w) ∧ PTE2PA (leaf s'.mem r w) = p ↔
          τ p = .frame (some (r,w)) := by
        rw [h.user]
        apply and_congr_right
        intro hr
        apply and_congr_right
        intro hw
        rw [hlast hr hw, if_neg hin]
      rw [hkept]
      by_cases hpc : p = c
      · rw [if_pos hpc, hpc, hcfree]
        refine iff_of_false (fun hh => hin ?_) PageKind.noConfusion
        obtain ⟨hr, hw⟩ := Prod.mk.inj (Option.some.inj hh)
        exact ⟨hr.symm, hw.symm⟩
      · rw [if_neg hpc]
  case bit =>
    intro r w hr hw hval
    rw [hlast hr hw] at hval ⊢
    by_cases hin : r = u ∧ w = v
    · rw [if_pos hin, mkLeaf_and c hf (by decide) (by decide)]
      exact hbit
    · rw [if_neg hin] at hval ⊢
      exact h.bit r w hr hw hval
  case lost =>
    obtain ⟨lost, hcard, hfr, hlost⟩ := h.lost
    refine ⟨lost, hcard, hfr, fun p => ?_⟩
    rw [hkind, ← hlost]
    by_cases hpc : p = c
    · rw [if_pos hpc, hpc, hcfree]
      exact iff_of_false (Option.some_ne_none _) PageKind.noConfusion
    · rw [if_neg hpc]

/-- A call of the mapper for the root `u`; where the tables do not fit, no page is left. -/
theorem Ledger.mapper (h : Ledger k f fr n s τ sm l) {va len : ℕ} {img : Image}
    {src : Option ℕ} {ph : Phdr} {res : ℤ} (hu : sm u) (hal : va%PAGE_SIZE = 0)
    (hva : va < USTACKTOP) (hlen : len ≤ PAGE_SIZE) (hfree : s.freelist ≠ 0)
    (hrun : loadIcodeMapper img u s va 0 (segPerm ph) src len = .ok (res, s')) :
    s'.freelist = 0 ∨ ∃ τ' l', Ledger k f fr n s' τ' sm l' := by
  cases l with
  | nil => exact absurd h.spaces.typed.free.chain hfree
  | cons c l =>
    have hpage : PAGE_SIZE = 4096 := rfl
    have htop : USTACKTOP = 524287*4096 := by decide
    have hb := (h.spaces.typed.free.pages c List.mem_cons_self).bounds
    rw [hpage] at hal hlen
    obtain ⟨v, rfl⟩ : ∃ v, va = v*4096 := ⟨va/4096, by omega⟩
    have hv : v < 2^19 := by omega
    obtain ⟨s₁, hmap, h₁, hleaf, _⟩ := h.spaces.loadIcodeMapper img src (some (u,v))
      (by omega : 0+len ≤ 4096)
    rw [hmap, mappages_page_eq (by omega)] at hrun
    have hclear (w : ℕ) (h1 : v ≤ w) (h2 : v ≤ v → w ≤ v) : Clear sm u 2 (vpnIndex 2 w) :=
      clear_of_index sm u (user_index (by omega))
    -- The recursion of the loop is on the pages that are left below MAXVA.
    obtain ⟨j, hj⟩ : ∃ j, 2^26 ≤ v+j := ⟨2^26, Nat.le_add_left _ _⟩
    obtain ⟨τ', l', i, m, _, hfresh, hres⟩ := h₁.typed.mappagesLoop_ok (segPerm_lt ph)
      (HasRWX_segPerm ph) j hj (h₁.root_of_sm hu) (by omega) hclear hrun
    -- The call maps its one page, or the pages have run out on its tables.
    rcases hres with ⟨_, hend, _⟩ | ⟨_, rfl, _⟩
    · obtain rfl : i = 1 := by omega
      exact Or.inr ⟨τ', l', h.mapped hu hv (segPerm_lt ph) (segPerm_and ph (Or.inr rfl)) h₁ hleaf
        (hfresh v le_rfl (by omega)) m⟩
    · exact Or.inl m.typed.free.chain

theorem Ledger.load (h : Ledger k f fr n s τ sm l) (hu : sm u) {img : Image} {ehdr : Ehdr}
    (hal : ∀ ph, Segment img ehdr ph → ph.p_vaddr%PAGE_SIZE = 0)
    (huser : ∀ ph, Segment img ehdr ph →
      ph.p_filesz ≤ ph.p_memsz ∧ ph.p_vaddr+ph.p_memsz ≤ USTACKTOP)
    (hoff : ehdr.e_phoff < 2^64) {calls : List (ℕ × ℕ)}
    (hrun : loadSegments (recordCalls (loadIcodeMapper img u)) img ehdr (s, []) 0
      ehdr.e_phoff = .ok (s', calls)) (hfree : ∀ c ∈ calls, c.2 ≠ 0) :
    s'.freelist = 0 ∨ ∃ τ' l', Ledger k f fr n s' τ' sm l' := by
  let I : Phys → Prop := fun s₁ => s₁.freelist = 0 ∨ ∃ τ' l', Ledger k f fr n s₁ τ' sm l'
  have hinit : I s := Or.inr ⟨τ, l, h⟩
  refine recorded_load (I := I) hal huser hoff ?_ hinit hrun hfree
  intro s₁ s₂ va len src ph res h₁ hva htop hlen hpage hmap
  rw [kalloc_fst] at hpage
  -- A page is left for this call, so the calls before it have kept the ledger.
  obtain ⟨τ₁, l₁, hl⟩ := h₁.resolve_left hpage
  exact hl.mapper hu hva htop hlen hpage hmap

theorem Ledger.released {F : ℕ → Prop} (h : Ledger k f fr n s τ sm l) (o : Released s F l s' l')
    (hF : Closed τ F) (hk : ¬F k) (hown : ∀ p r v, τ p = .frame (some (r,v)) → (F p ↔ F r))
    (hnone : ∀ p, τ p = .frame none → ¬F p) :
    Ledger k f fr n s' (releaseTyping τ F) (fun r => sm r ∧ ¬F r) l' := by
  -- The trees that stay share no table with those that go.
  have hkept {r v : ℕ} (hr : sm r) (hn : ¬F r) (hv : v < 2^19) :
      leaf s'.mem r v = leaf s.mem r v :=
    o.leaf h.spaces.typed hF (h.spaces.root_of_sm hr) hn (clear_of_index _ r (user_index hv))
  have hkind (p : ℕ) (x : Option (ℕ × ℕ)) :
      releaseTyping τ F p = .frame x ↔ τ p = .frame x ∧ ¬F p := releaseTyping_iff (by simp)
  constructor
  case spaces => exact o.spaces h.spaces hF hk
  case page => exact fun p x hp => h.page p x ((hkind p x).mp hp).1
  case user =>
    intro r v p
    rw [hkind]
    constructor
    · rintro ⟨hp, hn⟩
      obtain ⟨hr, hv, hleaf⟩ := (h.user r v p).mp hp
      rw [hown p r v hp] at hn
      rw [← hkept hr hn hv] at hleaf
      exact ⟨⟨hr, hn⟩, hv, hleaf⟩
    · rintro ⟨⟨hr, hn⟩, hv, hleaf⟩
      rw [hkept hr hn hv] at hleaf
      have hp := (h.user r v p).mpr ⟨hr, hv, hleaf⟩
      rw [← hown p r v hp] at hn
      exact ⟨hp, hn⟩
  case bit =>
    rintro r v ⟨hr, hn⟩ hv hval
    rw [hkept hr hn hv] at hval ⊢
    exact h.bit r v hr hv hval
  case lost =>
    obtain ⟨lost, hcard, hfr, hlost⟩ := h.lost
    refine ⟨lost, hcard, hfr, fun p => ?_⟩
    rw [hkind, ← hlost]
    exact and_iff_left_of_imp (hnone p)

end

/-! ### Histories with their calls counted -/

/-- A history with `n` calls of `env_create`, none of which used up the free list. -/
inductive Counted (L : Layout) : ℕ → Kernel → Prop
  | boot {m : Mem} {K : Kernel} (start : boot L m = .ok K) : Counted L 0 K
  | create {n : ℕ} {K K' : Kernel} {e : ℕ} {img : Image} {priority : ℤ} (counted : Counted L n K)
      (user : UserImage img) (aligned : StartsOnPages img)
      (call : envCreate L K img priority = .ok (e, K')) (left : K'.phys.freelist ≠ 0) :
      Counted L (n+1) K'
  | schedule {n : ℕ} {K K' : Kernel} {yield : Bool} (counted : Counted L n K)
      (call : schedule L K yield = .ok K') : Counted L n K'
  | user {n : ℕ} {K : Kernel} {m : Mem} (counted : Counted L n K) (writes : UserWrites K m) :
      Counted L n (K.setMem m)
  | free {n : ℕ} {K : Kernel} {s : Phys} {e : ℕ} (counted : Counted L n K)
      (runnable : (K.envs e).env_status = .ENV_RUNNABLE) (torn : TornDown K e s) :
      Counted L n (envRelease (K.setPhys s) e)
  | forget {n : ℕ} {K : Kernel} (counted : Counted L n K) : Counted L n { K with curenv := none }

theorem Counted.history {L : Layout} {n : ℕ} {K : Kernel} (counted : Counted L n K) :
    History L K := by
  induction counted with
  | boot start => exact .boot start
  | create _ user aligned call left ih =>
    exact .create ih user (ih.loadsWholePages_of_left user aligned call left) call
  | schedule _ call ih => exact .schedule ih call
  | user _ writes ih => exact .user ih writes
  | free _ runnable torn ih => exact .free ih runnable torn
  | forget _ ih => exact .forget ih

/-- `r` is the root of an env. -/
def EnvRoot (K : Kernel) (r : ℕ) : Prop :=
  ∃ e, (K.envs e).env_status = .ENV_RUNNABLE ∧ (K.envs e).env_pgtable = r

/-- The ledger of a kernel. -/
abbrev Balanced (L : Layout) (K : Kernel) (n : ℕ) (fr : ℕ → ℕ) (τ : Typing) (l : List ℕ) : Prop :=
  Ledger K.kernel_pagetable (kernelLeaf L.etext fr) fr n K.phys τ (EnvRoot K) l

section
variable {L : Layout} {K K₁ K₂ K' : Kernel} {s : Phys} {e n : ℕ} {img : Image} {ehdr : Ehdr}
  {fr : ℕ → ℕ} {τ : Typing} {l ql fl : List ℕ}

theorem EnvRoot.congr (hstatus : ∀ i, (K'.envs i).env_status = (K.envs i).env_status)
    (hroot : ∀ i, (K'.envs i).env_pgtable = (K.envs i).env_pgtable) : EnvRoot K' = EnvRoot K := by
  unfold EnvRoot
  simp only [hstatus, hroot]

theorem Created.envRoot (hs : SchedInv K ql fl) (c : Created L K K₁ K₂ K' s e img ehdr)
    (hold : ∀ i ≠ e, (K₁.envs i).env_pgtable = (K.envs i).env_pgtable) :
    EnvRoot K' = fun r => EnvRoot K r ∨ r = (K₁.envs e).env_pgtable := by
  obtain ⟨_, _, _, heq, _⟩ := hs.alloc c.alloc
  -- The slot that env_alloc takes was not runnable.
  have hne {i : ℕ} (hi : (K.envs i).env_status = .ENV_RUNNABLE) : i ≠ e := by
    rintro rfl
    exact heq ((hs.mem_queue i).mpr hi)
  funext r
  apply propext
  constructor
  · rintro ⟨i, hi, rfl⟩
    rw [c.env_pgtable]
    by_cases hie : i = e
    · exact Or.inr (by rw [hie])
    · rw [c.env_status i hie] at hi
      exact Or.inl ⟨i, hi, (hold i hie).symm⟩
  · rintro (⟨i, hi, rfl⟩ | rfl)
    · refine ⟨i, ?_, ?_⟩
      · rw [c.env_status i (hne hi), hi]
      · rw [c.env_pgtable, hold i (hne hi)]
    · exact ⟨e, c.runnable, c.env_pgtable e⟩

theorem Ledger.create (h : Balanced L K n fr τ l) (hs : SchedInv K ql fl)
    (c : Created L K K₁ K₂ K' s e img ehdr) (user : UserImage img) (ok : LoadsWholePages L K img)
    (left : K'.phys.freelist ≠ 0) : ∃ τ' l', Balanced L K' (n+1) fr τ' l' := by
  obtain ⟨_, _, helt, _⟩ := hs.alloc c.alloc
  obtain ⟨hold, τ₁, l₁, cut, o, hcut⟩ :=
    h.spaces.envSetupVm_cut L.etext_gt L.etext_lt c.alloc.setup
  have hroot : (K₂.envs e).env_pgtable = (K₁.envs e).env_pgtable := c.alloc.env_pgtable e
  have hroots := c.envRoot hs hold
  have hrec := c.recorded
  rw [hroot] at hrec
  rw [c.phys] at left
  generalize (K₁.envs e).env_pgtable = u at o hrec hroots
  -- The frame in envs[] lies below the heap, and so does the entry point below.
  have o₁ := (h.setup o hcut).write_low (m := initFrame L K₁.phys.mem e)
    (fun b hb => initFrame_low helt hb)
  rw [← c.alloc.phys] at o₁
  obtain ⟨τ₂, l₂, o₂⟩ := (o₁.load (Or.inr rfl) (fun ph => ok.1 ehdr ph c.elf)
    (fun ph => user ehdr ph c.elf) (elfFrom_phoff c.elf) hrec ok.2).resolve_left left
  have o₃ := o₂.write_low (m := store64 s.mem (L.tf e+8*33) ehdr.e_entry)
    (fun b hb => store64_low helt (by decide) _ hb)
  rw [← c.phys, ← c.kernel_pagetable, ← hroots] at o₃
  exact ⟨τ₂, l₂, o₃⟩

/-- Every page of every env, as if a call of the mapper had asked for it. -/
def anyCalls : List (ℕ × ℕ × ℕ) :=
  (List.range NENV).product ((List.range (2^19)).product (heapPages heapCount))

theorem Ledger.isolationInv (h : Balanced L K n fr τ l) (hs : SchedInv K ql fl)
    (hd : ∀ e e', (K.envs e).env_status = .ENV_RUNNABLE → (K.envs e').env_status = .ENV_RUNNABLE →
      (K.envs e).env_pgtable = (K.envs e').env_pgtable → e = e') :
    IsolationInv L K anyCalls fr τ (EnvRoot K) l ql fl := by
  refine ⟨⟨h.spaces, ?_⟩, hs, fun _ => Iff.rfl, hd⟩
  -- Any list of calls that has all pages serves as the record of the mapper.
  rintro r v ⟨e, he, rfl⟩ hv hval
  have hp := (h.user _ v _).mpr ⟨⟨e, he, rfl⟩, hv, hval, rfl⟩
  have hpage := h.page _ _ hp
  have helt := (hs.queue_lt e ((hs.mem_queue e).mpr he)).1
  refine ⟨hpage, hp, e, he, rfl, ?_⟩
  rw [anyCalls, List.pair_mem_product, List.pair_mem_product, List.mem_range, List.mem_range,
    mem_heapPages_iff_isPage]
  exact ⟨helt, hv, hpage⟩

theorem IsolationInv.envRoot_release {calls : List (ℕ × ℕ × ℕ)} {sm : ℕ → Prop}
    (h : IsolationInv L K calls fr τ sm l ql fl) (he : (K.envs e).env_status = .ENV_RUNNABLE) :
    EnvRoot (envRelease (K.setPhys s) e) = fun r => EnvRoot K r ∧ ¬EnvPage K e r := by
  have hstatus (i : ℕ) : ((envRelease (K.setPhys s) e).envs i).env_status = .ENV_RUNNABLE ↔
      (K.envs i).env_status = .ENV_RUNNABLE ∧ i ≠ e := by
    by_cases hie : i = e
    · simp [hie, envRelease, Kernel.setEnv]
    · simp [hie, envRelease, Kernel.setEnv, Kernel.setPhys]
  have hroot (i : ℕ) :
      ((envRelease (K.setPhys s) e).envs i).env_pgtable = (K.envs i).env_pgtable := by
    by_cases hie : i = e
    · simp [hie, envRelease, Kernel.setEnv, Kernel.setPhys]
    · simp [hie, envRelease, Kernel.setEnv, Kernel.setPhys]
  -- Two runnable envs have different roots.
  have hother {i : ℕ} (hi : (K.envs i).env_status = .ENV_RUNNABLE) :
      ¬EnvPage K e (K.envs i).env_pgtable ↔ i ≠ e := by
    rw [h.envPage_root he (h.root hi)]
    exact not_congr ⟨h.distinct i e hi he, fun hie => by rw [hie]⟩
  funext r
  apply propext
  constructor
  · rintro ⟨i, hi, rfl⟩
    obtain ⟨hi, hie⟩ := (hstatus i).mp hi
    rw [hroot]
    exact ⟨⟨i, hi, rfl⟩, (hother hi).mpr hie⟩
  · rintro ⟨⟨i, hi, rfl⟩, hn⟩
    exact ⟨i, (hstatus i).mpr ⟨hi, (hother hi).mp hn⟩, hroot i⟩

theorem Ledger.free (h : Balanced L K n fr τ l)
    (hi : IsolationInv L K anyCalls fr τ (EnvRoot K) l ql fl)
    (he : (K.envs e).env_status = .ENV_RUNNABLE) (torn : TornDown K e s) :
    ∃ τ' l', Balanced L (envRelease (K.setPhys s) e) n fr τ' l' := by
  obtain ⟨l₀, l', hfree, o⟩ := torn
  obtain rfl := hfree.unique h.spaces.typed.free
  have hF := hi.envPage_closed he
  have hnk : ¬EnvPage K e K.kernel_pagetable := by
    rw [hi.envPage_root he h.spaces.kernel]
    exact fun hk => h.spaces.kernel_clear ⟨e, he, hk.symm⟩
  -- The frames of the env are its user pages.
  have hframe {p : ℕ} {x : Option (ℕ × ℕ)} (hp : τ p = .frame x) :
      EnvPage K e p ↔ ∃ v pte, UserLeaf K e v pte ∧ PTE2PA pte = p := by
    refine or_iff_right ?_
    rintro ⟨level, ht⟩
    obtain ⟨ℓ, par, _, hp', _⟩ := h.spaces.typed.tableAt_selfMap (hi.root he) ht
    rw [hp] at hp'
    cases hp'
  -- A frame of a root goes exactly with it.
  have hown (p r v : ℕ) (hp : τ p = .frame (some (r,v))) : EnvPage K e p ↔ EnvPage K e r := by
    obtain ⟨hr, hv, hval, hpte⟩ := (h.user r v p).mp hp
    rw [hframe hp, hi.envPage_root he (h.spaces.root_of_sm hr)]
    constructor
    · rintro ⟨w, pte, hu, rfl⟩
      obtain ⟨_, ht, _⟩ := hi.userLeaf hu
      rw [hp] at ht
      exact (Prod.mk.inj (Option.some.inj (PageKind.frame.inj ht))).1
    · rintro rfl
      exact ⟨v, _, ⟨he, by omega, user_index hv, rfl, hval, h.bit _ v hr hv hval⟩, hpte⟩
  -- What is lost stays lost: no leaf leads to it.
  have hnone (p : ℕ) (hp : τ p = .frame none) : ¬EnvPage K e p := by
    rw [hframe hp]
    rintro ⟨w, pte, hu, rfl⟩
    obtain ⟨_, ht, _⟩ := hi.userLeaf hu
    rw [hp] at ht
    cases ht
  have hlast := h.released o hF hnk hown hnone
  rw [← hi.envRoot_release he] at hlast
  exact ⟨_, l', hlast⟩

end

/-! ### What the pages are used for -/

section
variable {L : Layout} {K : Kernel} {n p : ℕ} {fr : ℕ → ℕ} {τ : Typing} {l ql fl : List ℕ}

end

end RiscvMos
