import RiscvMos.EnvTables
import RiscvMos.Isolation
import RiscvMos.LoadSpace

/-! `env_create` from any state that calls of `env_create` reach: the user address space of
the new env is the one of its image. -/
namespace RiscvMos
open ByteMem IntrusiveQueue LinkChain Tiling Function

/-! ### The new address space -/

/-- The words that `env_create` stores to the trap frame. -/
def startFrame (L : Layout) (m : Mem) (e entry : ℕ) : Mem :=
  store64 (initFrame L m e) (L.tf e+8*33) entry

/-- The words of the new trap frame: all but three are what they were. -/
theorem startFrame_word (L : Layout) (m : Mem) (e : ℕ) {entry : ℕ} (hentry : entry < 2^64) (i : ℕ) :
    load64 (startFrame L m e entry) (L.tf e+8*i) =
      if i = 33 then entry else if i = 29 then USTACKTOP-4-8 else if i = 32 then SSTATUS_SPIE
        else load64 m (L.tf e+8*i) := by
  have hother (m : Mem) (v : ℕ) {j : ℕ} (hij : i ≠ j) :
      load64 (store64 m (L.tf e+8*j) v) (L.tf e+8*i) = load64 m (L.tf e+8*i) :=
    load_store_disjoint m _ 8 v _ 8 (by omega)
  rw [startFrame, initFrame]
  by_cases h33 : i = 33
  · rw [if_pos h33, h33, load64_store64_same _ _ _ hentry]
  · rw [if_neg h33, hother _ _ h33]
    by_cases h29 : i = 29
    · rw [if_pos h29, h29, load64_store64_same _ _ _ (by decide)]
    · rw [if_neg h29, hother _ _ h29]
      by_cases h32 : i = 32
      · rw [if_pos h32, h32, load64_store64_same _ _ _ (by decide)]
      · rw [if_neg h32, hother _ _ h32]

/-- Pages that suffice for `env_create`: the root and two tables for each region of the
kernel, and frames and tables for the image. -/
def createRoom (img : Image) (ehdr : Ehdr) : ℕ := 146+imageRoom img ehdr

section
variable {k : ℕ} {f : ℕ → ℕ} {u : ℕ} {G : Finset ℕ} {m₀ : Mem} {s : Phys} {τ : Typing}
  {sm : ℕ → Prop} {l : List ℕ} {space : ℕ → Option UserPage} {N : ℕ}

theorem Loaded.write_low (h : Loaded k f u G m₀ s τ sm l space N) {m m₁ : Mem}
    (hm : ∀ b, KERNEND ≤ b → m b = s.mem b) (hlow : ∀ b < KERNEND, m b = m₁ b)
    (hG : ∀ g ∈ G, g < 1024) : Loaded k f u G m₁ ⟨m, s.freelist⟩ τ sm l space N := by
  obtain ⟨hs, hleaf⟩ := h.spaces.write_low hm
  have hroot := h.spaces.root_of_sm h.root
  have hkeep (v : ℕ) (hv : v < 2^19) : leaf m u v = leaf s.mem u v :=
    hleaf u v hroot (clear_of_index sm u (user_index hv))
  refine ⟨hs, h.root, fun v x hx => ?_, fun v hv hn => ?_, ?_, hlow⟩
  · obtain ⟨hv, c, hc, hτ, hl, hbytes⟩ := h.mapped v x hx
    refine ⟨hv, c, hc, hτ, (hkeep v hv).trans hl, fun b hb => ?_⟩
    have hcb := hc.1
    have hsame : m (c+b) = s.mem (c+b) := hm (c+b) (by omega)
    exact hsame.trans (hbytes b hb)
  · show ¬Valid (leaf m u v)
    rw [hkeep v hv]
    exact h.unmapped v hv hn
  · refine h.budget.spend 0 le_rfl (fun g hg hp => ?_)
    obtain ⟨q, hq⟩ := hp
    refine ⟨q, ?_⟩
    have hagree {p ℓ : ℕ} {par : Option (ℕ × ℕ)} (hp : τ p = .table ℓ par) :
        AgreeOn m s.mem p 4096 :=
      fun b hl _ => hm b ((h.spaces.typed.page hp).1.trans hl)
    have hlt := hG g hg
    rw [h.spaces.typed.descend_agree hagree _ hroot (clear_of_index sm u (user_index (by omega))), hq]

theorem initFrame_congr {L : Layout} {m m' : Mem} {b : ℕ} (h : m b = m' b) (e : ℕ) :
    initFrame L m e b = initFrame L m' e b :=
  store_congr (store_congr h (L.tf e+8*32) 8 SSTATUS_SPIE) (L.tf e+8*29) 8 (USTACKTOP-4-8)

theorem Spaces.envCreate_loads {L : Layout} {K : Kernel} {fr : ℕ → ℕ} {img : Image} {ehdr : Ehdr}
    {e asid : ℕ} {bitmap : ℕ → BitVec 32}
    (h : Spaces K.kernel_pagetable (kernelLeaf L.etext fr) K.phys τ sm l) (he : e < NENV)
    (hf : K.env_free_list.first = some e) (ha : asidAlloc K.asid_bitmap = some (asid, bitmap))
    (li : LinkedImage img ehdr) (hroom : createRoom img ehdr ≤ l.length) (priority : ℤ) :
    ∃ K' K₁ K₂ s τ' l' N, envCreate L K img priority = .ok (e, K') ∧
      Created L K K₁ K₂ K' s e img ehdr ∧
      Loaded K.kernel_pagetable (kernelLeaf L.etext fr) (K'.envs e).env_pgtable
        (imageRegions img ehdr) (startFrame L K.phys.mem e ehdr.e_entry) K'.phys τ'
        (fun r => sm r ∨ r = (K'.envs e).env_pgtable) l' (imageSpace img ehdr) N ∧
      l.length ≤ l'.length+createRoom img ehdr := by
  rw [createRoom] at hroom ⊢
  obtain ⟨K₁, τ₁, l₁, hsetup, o, hlen⟩ := h.envSetupVm_map (by omega) e
  obtain ⟨K₂, halloc, a⟩ := envAlloc_ok L 0 hf hsetup ha
  have hroot : (K₂.envs e).env_pgtable = (K₁.envs e).env_pgtable := a.env_pgtable e
  obtain ⟨h₂, hleaf⟩ := o.spaces.write_low (m := initFrame L K₁.phys.mem e)
    (fun b hb => initFrame_low he hb)
  have hempty (v : ℕ) (hv : v < 2^19) :
      ¬Valid (leaf (initFrame L K₁.phys.mem e) (K₂.envs e).env_pgtable v) := by
    have hkeep := hleaf _ v (o.spaces.root_of_sm (Or.inr rfl)) (clear_of_index _ _ (user_index hv))
    rw [hroot, hkeep, o.empty v hv]
    exact not_Valid_zero
  obtain ⟨s, τ', l', hload, h₃⟩ := h₂.loadImage (Or.inr hroot) li hempty (by omega)
  have hphys : K₂.phys = ⟨initFrame L K₁.phys.mem e, K₁.phys.freelist⟩ := a.phys
  rw [← hphys] at hload h₃
  obtain ⟨K', K₁', hcreate, c⟩ := envCreate_ok priority halloc li.elf hload
  have hroot' : (K'.envs e).env_pgtable = (K₂.envs e).env_pgtable := by
    rw [c.env_pgtable, c.alloc.env_pgtable]
  refine ⟨K', K₁', K₂, s, τ', l', l₁.length-(imagePages img ehdr).card, hcreate, c, ?_, ?_⟩
  · rw [hroot', hroot, c.phys]
    rw [hroot] at h₃
    refine h₃.write_low (fun b hb => store64_low he (by decide) _ hb) (fun b hb => ?_)
      (fun g hg => li.region_lt hg)
    apply store_congr
    rw [h₃.low b hb, hphys]
    exact initFrame_congr (h.envSetupVm_low hsetup hb) e
  · obtain ⟨P, hP, _, hle⟩ := h₃.budget
    have hcard := Finset.card_le_card hP
    rw [imageRoom]
    omega

/-! ### Any image below USTACKTOP -/

/-- Without free pages only calls that copy nothing come to `mappages`. -/
theorem loadIcodeMapper_empty {img : Image} {va offset perm len : ℕ} {src : Option ℕ} {r : ℤ}
    {s' : Phys} (hk : kalloc s = (0, s))
    (hrun : loadIcodeMapper img u s va offset perm src len = .ok (r, s')) :
    mappages s u va PAGE_SIZE 0 perm = .ok (r, s') := by
  rw [loadIcodeMapper, hk] at hrun
  cases src with
  | none => exact hrun
  | some src =>
    dsimp only at hrun
    rw [copyToPage] at hrun
    by_cases hlen : 0 < len
    · rw [if_pos ⟨rfl, hlen⟩] at hrun
      cases hrun
    · have hsame : blit s.mem (0+offset) len (fun i => img.bytes (src+i)) = s.mem := by
        funext b
        exact if_neg (by omega)
      rw [if_neg (fun h => hlen h.2), hsame] at hrun
      exact hrun

theorem Spaces.mapper (h : Spaces k f s τ sm l) (hu : sm u) {img : Image} {va offset len : ℕ}
    {src : Option ℕ} {ph : Phdr} {r : ℤ} {s' : Phys} (hva : va < USTACKTOP)
    (hfit : offset+len ≤ PAGE_SIZE)
    (hrun : RiscvMos.loadIcodeMapper img u s va offset (segPerm ph) src len = .ok (r, s')) :
    ∃ τ' l', Spaces k f s' τ' sm l' ∧ (l = [] → l' = []) := by
  have hpage : PAGE_SIZE = 4096 := rfl
  have htop : USTACKTOP = 0x80000000-4096 := rfl
  have huser : va+PAGE_SIZE ≤ 0x80000000 := by omega
  cases l with
  | nil =>
    have hmap := loadIcodeMapper_empty (kalloc_nil h.typed.free) hrun
    obtain ⟨τ', l', _, m, h', _⟩ := h.mappages_user hu huser (by decide) (segPerm_lt ph)
      (HasRWX_segPerm ph) hmap
    exact ⟨τ', l', h', fun _ => List.suffix_nil.mp m.suffix⟩
  | cons c l =>
    have hc := (h.typed.free.pages c List.mem_cons_self).bounds
    obtain ⟨s₁, hmap, h₁, _⟩ := h.loadIcodeMapper img src none (by omega : offset+len ≤ 4096)
    rw [hmap] at hrun
    obtain ⟨τ', l', _, _, h', _⟩ := h₁.mappages_user hu huser (by omega) (segPerm_lt ph)
      (HasRWX_segPerm ph) hrun
    exact ⟨τ', l', h', nofun⟩

/-- The load of an image below USTACKTOP keeps the spaces. When it leaves a page, each of its calls
got one. -/
theorem Spaces.recorded (h : Spaces k f s τ sm l) (hu : sm u) {img : Image} {ehdr : Ehdr}
    (hel : elfFrom img = some ehdr) (user : UserImage img) {s' : Phys} {calls : List (ℕ × ℕ)}
    (hrun : loadSegments (recordCalls (RiscvMos.loadIcodeMapper img u)) img ehdr (s, []) 0
      ehdr.e_phoff = .ok (s', calls)) :
    ∃ τ' l', Spaces k f s' τ' sm l' ∧ (l' ≠ [] → ∀ c ∈ calls, c.2 ≠ 0) := by
  let I : Phys × List (ℕ × ℕ) → Prop := fun st =>
    ∃ τ l, Spaces k f st.1 τ sm l ∧ (l ≠ [] → ∀ c ∈ st.2, c.2 ≠ 0)
  have hI : MapperCalls (recordCalls (RiscvMos.loadIcodeMapper img u)) (fun _ _ => True) I := by
    rintro ⟨s₁, calls₁⟩ ph va offset src len r st' ⟨τ₁, l₁, h₁, hpages⟩ _ hva hfit hcall
    obtain ⟨⟨r', s₂⟩, hmap, hcall⟩ := bind_eq_ok.mp hcall
    cases hcall
    obtain ⟨τ₂, l₂, h₂, hempty⟩ := h₁.mapper hu hva hfit hmap
    -- a page that is left was there before the call
    refine ⟨τ₂, l₂, h₂, fun hne => ?_⟩
    have hne₁ : l₁ ≠ [] := fun hnil => hne (hempty hnil)
    refine List.forall_mem_cons.mpr ⟨?_, hpages hne₁⟩
    show (kalloc s₁).1 ≠ 0
    rw [kalloc_fst]
    exact h₁.typed.free.ne_nil_iff.mp hne₁
  have hoff : (ehdr.e_phoff+0*ehdr.e_phentsize)%2^64 = ehdr.e_phoff := by
    rw [Nat.zero_mul, Nat.add_zero, Nat.mod_eq_of_lt (elfFrom_phoff hel)]
  rw [← hoff] at hrun
  refine loadSegments_invariant (I := I) (fun ph _ _ _ hs h₁ hload => ?_)
    ⟨τ, l, h, by simp⟩ hrun
  obtain ⟨hsize, hbelow⟩ := user ehdr ph hel hs
  exact elfLoadSeg_user hI hsize hbelow h₁ hload

end

/-! ### The states that env_create reaches -/

/-- The tables of the kernel and of the envs next to each other, and the env lists. -/
structure SpacesInv (L : Layout) (K : Kernel) (fr : ℕ → ℕ) (τ : Typing) (sm : ℕ → Prop)
    (l ql fl : List ℕ) : Prop where
  spaces : Spaces K.kernel_pagetable (kernelLeaf L.etext fr) K.phys τ sm l
  sched : SchedInv K ql fl

section
variable {L : Layout} {K K₁ K₂ K' : Kernel} {fr : ℕ → ℕ} {τ : Typing} {sm : ℕ → Prop}
  {l ql fl : List ℕ} {img : Image} {ehdr : Ehdr} {e : ℕ} {s : Phys}

theorem SpacesInv.load (h : SpacesInv L K fr τ sm l ql fl) (c : Created L K K₁ K₂ K' s e img ehdr)
    (user : UserImage img) : ∃ τ' l', Spaces K.kernel_pagetable (kernelLeaf L.etext fr) s τ'
      (fun r => sm r ∨ r = (K₂.envs e).env_pgtable) l' ∧
      (l' ≠ [] → ∀ x ∈ loaderCalls L K img, x.2 ≠ 0) := by
  obtain ⟨_, _, he, _⟩ := h.sched.alloc c.alloc
  obtain ⟨_, ⟨h0, _⟩ | ⟨_, τ₁, l₁, _, o⟩⟩ := envSetupVm_spaces h.spaces c.alloc.setup
  · exact absurd rfl h0
  have hroot : (K₂.envs e).env_pgtable = (K₁.envs e).env_pgtable := c.alloc.env_pgtable e
  rw [← hroot] at o
  obtain ⟨h₂, _⟩ := o.spaces.write_low (m := initFrame L K₁.phys.mem e) (fun b hb => initFrame_low he hb)
  rw [← c.alloc.phys] at h₂
  exact h₂.recorded (Or.inr rfl) c.elf user c.recorded

theorem SpacesInv.create (h : SpacesInv L K fr τ sm l ql fl) (c : Created L K K₁ K₂ K' s e img ehdr)
    (user : UserImage img) : ∃ τ' sm' l' ql' fl', SpacesInv L K' fr τ' sm' l' ql' fl' := by
  obtain ⟨_, _, he, _⟩ := h.sched.alloc c.alloc
  obtain ⟨τ₃, l₃, h₃, _⟩ := h.load c user
  obtain ⟨h₄, _⟩ := h₃.write_low (m := store64 s.mem (L.tf e+8*33) ehdr.e_entry)
    (fun b hb => store64_low he (by decide) _ hb)
  rw [← c.phys, ← c.kernel_pagetable] at h₄
  obtain ⟨fl', _, _, hs⟩ := h.sched.create c
  exact ⟨τ₃, _, l₃, e :: ql, fl', h₄, hs⟩

/-- A call of `env_create` that does not use up the free list has a page for each call of the
mapper. -/
theorem SpacesInv.loadsWholePages (h : SpacesInv L K fr τ sm l ql fl)
    (c : Created L K K₁ K₂ K' s e img ehdr) (user : UserImage img)
    (aligned : StartsOnPages img) (left : K'.phys.freelist ≠ 0) : LoadsWholePages L K img := by
  obtain ⟨_, l', h', hpages⟩ := h.load c user
  rw [c.phys] at left
  exact ⟨aligned, hpages (h'.typed.free.ne_nil_iff.mpr left)⟩

theorem CreateRun.spacesInv {ok : Kernel → Image → Prop} {calls : List (ℕ × ℕ × ℕ)}
    (run : CreateRun L ok K calls) : ∃ fr τ sm l ql fl, SpacesInv L K fr τ sm l ql fl := by
  induction run with
  | boot start =>
    obtain ⟨fr, τ, l, b⟩ := boot_booted start
    exact ⟨fr, τ, noSelfMap, l, [], _, b.spaces, boot_schedInv start⟩
  | create _ user _ call ih =>
    obtain ⟨fr, τ, sm, l, ql, fl, h⟩ := ih
    obtain ⟨K₁, K₂, s, ehdr, c⟩ := envCreate_cases call
    obtain ⟨τ', sm', l', ql', fl', h'⟩ := h.create c user
    exact ⟨fr, τ', sm', l', ql', fl', h'⟩

theorem SpacesInv.envCreate_loads (h : SpacesInv L K fr τ sm l ql fl) (li : LinkedImage img ehdr)
    (hroom : createRoom img ehdr ≤ l.length) (priority : ℤ)
    (ha : asidAlloc K.asid_bitmap ≠ none) :
    ∃ e K' K₁ K₂ s τ' l' N, envCreate L K img priority = .ok (e, K') ∧
      Created L K K₁ K₂ K' s e img ehdr ∧
      Loaded K.kernel_pagetable (kernelLeaf L.etext fr) (K'.envs e).env_pgtable
        (imageRegions img ehdr) (startFrame L K.phys.mem e ehdr.e_entry) K'.phys τ'
        (fun r => sm r ∨ r = (K'.envs e).env_pgtable) l' (imageSpace img ehdr) N ∧
      l.length ≤ l'.length+createRoom img ehdr := by
  cases fl with
  | nil => exact h.sched.free_ne_nil.elim
  | cons e fl =>
    obtain ⟨t, hfree⟩ := h.sched.free
    obtain ⟨x, hx⟩ := Option.ne_none_iff_exists'.mp ha
    exact ⟨e, h.spaces.envCreate_loads (h.sched.free_lt e List.mem_cons_self) (repr_first hfree) hx li
      hroom priority⟩

theorem LinkedImage.userImage (li : LinkedImage img ehdr) : UserImage img := by
  intro ehdr' ph hel hs
  obtain rfl : ehdr = ehdr' := Option.some.inj (li.elf.symm.trans hel)
  exact ⟨li.filesz ph hs, li.below ph hs⟩

theorem LinkedImage.startsOnPages (li : LinkedImage img ehdr) : StartsOnPages img := by
  intro ehdr' ph hel hs
  obtain rfl : ehdr = ehdr' := Option.some.inj (li.elf.symm.trans hel)
  exact li.aligned ph hs

theorem SpacesInv.loadsWholePages_of_room (h : SpacesInv L K fr τ sm l ql fl)
    (li : LinkedImage img ehdr) (hroom : createRoom img ehdr < l.length) {priority : ℤ}
    (call : envCreate L K img priority = .ok (e, K')) : LoadsWholePages L K img := by
  obtain ⟨_, _, _, _, c⟩ := envCreate_cases call
  have ha : asidAlloc K.asid_bitmap ≠ none := by
    rw [c.alloc.asid]
    simp
  obtain ⟨e', K'', _, _, _, _, l', _, hcall, c', hload, hle⟩ :=
    h.envCreate_loads li hroom.le priority ha
  have hne : l' ≠ [] := by
    rintro rfl
    rw [List.length_nil] at hle
    omega
  exact h.loadsWholePages c' li.userImage li.startsOnPages
    (hload.spaces.typed.free.ne_nil_iff.mp hne)

theorem Booted.envCreate_loads {m : Mem} (b : Booted L K fr τ l) (hboot : boot L m = .ok K)
    (li : LinkedImage img ehdr) (hroom : createRoom img ehdr ≤ 30575) (priority : ℤ) :
    ∃ e K' K₁ K₂ s τ' l' N, envCreate L K img priority = .ok (e, K') ∧
      Created L K K₁ K₂ K' s e img ehdr ∧
      Loaded K.kernel_pagetable (kernelLeaf L.etext fr) (K'.envs e).env_pgtable
        (imageRegions img ehdr) (startFrame L K.phys.mem e ehdr.e_entry) K'.phys τ'
        (fun r => noSelfMap r ∨ r = (K'.envs e).env_pgtable) l' (imageSpace img ehdr) N ∧
      l.length ≤ l'.length+createRoom img ehdr := by
  have hinv : SpacesInv L K fr τ noSelfMap l [] _ := ⟨b.spaces, boot_schedInv hboot⟩
  have hasid : asidAlloc K.asid_bitmap ≠ none := by
    rw [b.asid_bitmap]
    exact asidAlloc_ne_none (by decide : 0 < NASID) (by decide)
  exact hinv.envCreate_loads li (hroom.trans b.length) priority hasid

end

/-! ### What walks of the new table find -/

/-- Each segment is mapped for user mode, with the bytes of the file and zeros behind them,
and writable iff PF_W is set; no other page below 0x80000000 is mapped; the trap frame has
the entry point. -/
structure LoadsImage (L : Layout) (K : Kernel) (e : ℕ) (img : Image) (ehdr : Ehdr) : Prop where
  segment : ∀ ph, Segment img ehdr ph → ∀ k < ph.p_memsz, ∃ pa pte,
    lookup K.phys (K.envs e).env_pgtable (ph.p_vaddr+k) = .ok (pa, some pte) ∧
    load64 K.phys.mem pte &&& PTE_U ≠ 0 ∧
    K.phys.mem (pa+(ph.p_vaddr+k)%PAGE_SIZE) =
      (if k < ph.p_filesz then img.bytes (ph.p_offset+k) else 0) ∧
    (load64 K.phys.mem pte &&& PTE_W ≠ 0 ↔ ph.p_flags &&& PF_W ≠ 0)
  other : ∀ va < 0x80000000, (∀ ph, Segment img ehdr ph → ∀ k < ph.p_memsz,
    (ph.p_vaddr+k)/PAGE_SIZE ≠ va/PAGE_SIZE) → leafAt K.phys (K.envs e).env_pgtable va = none
  entry : load64 K.phys.mem (L.tf e+8*33) = ehdr.e_entry

theorem Typed.lookup_user {s : Phys} {τ : Typing} {sm : ℕ → Prop} {l : List ℕ} (h : Typed s τ sm l)
    {r va : ℕ} (hr : τ r = .table 2 none) (hc : Clear sm r 2 (vpnIndex 2 (va/4096)))
    (hva : va < MAXVA) (hval : Valid (leaf s.mem r (va/4096)))
    (hu : leaf s.mem r (va/4096) &&& PTE_U ≠ 0) :
    ∃ pte, lookup s r va = .ok (PTE2PA (leaf s.mem r (va/4096)), some pte) ∧
      load64 s.mem pte = leaf s.mem r (va/4096) := by
  cases hd : descend s.mem 2 r (va/4096) with
  | none =>
    rw [leaf, leafFrom, hd] at hval
    exact absurd hval not_Valid_zero
  | some q =>
    obtain ⟨par, hq⟩ := h.descend_typed hr hc hd
    have hb := (h.page hq).bounds
    have hleaf : load64 s.mem (q+8*vpnIndex 0 (va/4096)) = leaf s.mem r (va/4096) := by
      rw [leaf, leafFrom, hd]
      rfl
    have hne : ¬(q+8*vpnIndex 0 (va/4096) = 0 ∨
        ¬Valid (load64 s.mem (q+8*vpnIndex 0 (va/4096)))) := by
      rw [hleaf]
      rintro (h0 | hn)
      · omega
      · exact hn hval
    refine ⟨q+8*vpnIndex 0 (va/4096), ?_, hleaf⟩
    rw [lookup, walk_noalloc_eq s r hva, ok_bind, hd]
    dsimp only [Option.elim_some]
    rw [if_neg hne, hleaf, if_neg hu]

theorem segPerm_W (ph : Phdr) : segPerm ph &&& PTE_W ≠ 0 ↔ ph.p_flags &&& PF_W ≠ 0 := by
  rw [segPerm]
  split_ifs with hw
  · exact iff_of_true (by decide) hw
  · exact iff_of_false (by decide) hw

section
variable {k : ℕ} {f : ℕ → ℕ} {G : Finset ℕ} {m₀ : Mem} {τ : Typing} {sm : ℕ → Prop} {l : List ℕ}
  {N : ℕ} {img : Image} {ehdr : Ehdr} {K : Kernel} {e : ℕ}

theorem Loaded.segment (h : Loaded k f (K.envs e).env_pgtable G m₀ K.phys τ sm l (imageSpace img ehdr) N)
    (li : LinkedImage img ehdr) {ph : Phdr} (hs : Segment img ehdr ph) {i : ℕ} (hi : i < ph.p_memsz) :
    ∃ pa pte, lookup K.phys (K.envs e).env_pgtable (ph.p_vaddr+i) = .ok (pa, some pte) ∧
      load64 K.phys.mem pte &&& PTE_U ≠ 0 ∧
      K.phys.mem (pa+(ph.p_vaddr+i)%PAGE_SIZE) =
        (if i < ph.p_filesz then img.bytes (ph.p_offset+i) else 0) ∧
      (load64 K.phys.mem pte &&& PTE_W ≠ 0 ↔ ph.p_flags &&& PF_W ≠ 0) := by
  have hmax : MAXVA = 2^38 := by decide
  have htop : USTACKTOP = 524287*4096 := by decide
  have hbelow := li.below ph hs
  obtain ⟨x, hx, hperm, hbyte⟩ := li.imageSpace_seg hs hi
  obtain ⟨hv, c, hc, _, hleaf, hbytes⟩ := h.mapped _ x hx
  have hcb := hc.bounds
  rw [PAGE_SIZE] at hleaf
  rw [hperm] at hleaf
  have huser : leaf K.phys.mem (K.envs e).env_pgtable ((ph.p_vaddr+i)/4096) &&& PTE_U ≠ 0 := by
    rw [hleaf, mkLeaf_and c (segPerm_lt ph) (by decide) (by decide)]
    exact segPerm_and ph (Or.inr rfl)
  have hval : Valid (leaf K.phys.mem (K.envs e).env_pgtable ((ph.p_vaddr+i)/4096)) := by
    rw [hleaf]
    exact Valid_mkLeaf c (segPerm_lt ph)
  obtain ⟨pte, hlook, hpte⟩ := h.spaces.typed.lookup_user (h.spaces.root_of_sm h.root)
    (clear_of_index sm _ (user_index hv)) (by omega) hval huser
  have hpa : PTE2PA (leaf K.phys.mem (K.envs e).env_pgtable ((ph.p_vaddr+i)/4096)) = c := by
    rw [hleaf, PTE2PA_mkLeaf (by omega) (segPerm_lt ph)]
    omega
  refine ⟨c, pte, by rw [hlook, hpa], by rw [hpte]; exact huser, ?_, ?_⟩
  · rw [(seg_page (li.aligned ph hs) i).2, hbytes _ (Nat.mod_lt i PAGE_SIZE_pos), hbyte, segByte]
  · rw [hpte, hleaf, mkLeaf_and c (segPerm_lt ph) (by decide) (by decide)]
    exact segPerm_W ph

theorem Loaded.other (h : Loaded k f (K.envs e).env_pgtable G m₀ K.phys τ sm l (imageSpace img ehdr) N)
    (li : LinkedImage img ehdr) {va : ℕ} (hva : va < 0x80000000)
    (hout : ∀ ph, Segment img ehdr ph → ∀ k < ph.p_memsz, (ph.p_vaddr+k)/PAGE_SIZE ≠ va/PAGE_SIZE) :
    leafAt K.phys (K.envs e).env_pgtable va = none := by
  have hmax : MAXVA = 2^38 := by decide
  have hv : va/4096 < 2^19 := by omega
  have hnot : va/4096 ∉ imagePages img ehdr := by
    rw [mem_imagePages]
    rintro ⟨ph, hs, hmem⟩
    have hal := li.aligned ph hs
    rw [Tile.mem_cells] at hmem
    -- the page starts with a byte of the segment
    refine hout ph hs ((va/4096-ph.p_vaddr/PAGE_SIZE)*PAGE_SIZE) ?_ ?_
    · simp only [segTile, PAGE_SIZE] at hmem ⊢
      omega
    · rw [(seg_page hal _).1, Nat.mul_div_cancel _ PAGE_SIZE_pos]
      simp only [segTile, PAGE_SIZE] at hmem ⊢
      omega
  rw [h.spaces.typed.leafAt_eq (h.spaces.root_of_sm h.root) (clear_of_index sm _ (user_index hv))
    (by omega), if_neg (h.unmapped _ hv (imageSpace_none hnot))]

theorem Loaded.loadsImage {L : Layout} {m : Mem} (li : LinkedImage img ehdr)
    (h : Loaded k f (K.envs e).env_pgtable G (startFrame L m e ehdr.e_entry) K.phys τ sm l
      (imageSpace img ehdr) N) (he : e < NENV) : LoadsImage L K e img ehdr where
  segment _ hs _ hi := h.segment li hs hi
  other _ hva hout := h.other li hva hout
  entry := by
    have hend := L.tf_end he
    have htf : TF_SIZE = 288 := rfl
    have hagree : AgreeOn K.phys.mem (startFrame L m e ehdr.e_entry) (L.tf e+8*33) 8 :=
      fun b _ hu => h.low b (by omega)
    have hentry : ehdr.e_entry < 2^64 := elfFrom_entry li.elf
    rw [load64, load_congr hagree]
    exact load64_store64_same _ _ _ hentry

end

/-! ### The loader -/

/-- From every state that calls of `env_create` reach, with enough free pages, a call for an
image that is laid out as user.lds does it returns an env where an ASID is free, and where it
returns, it has loaded the image. -/
theorem env_create_loads {L : Layout} {K : Kernel} {calls : List (ℕ × ℕ × ℕ)} {l : List ℕ}
    {img : Image} {ehdr : Ehdr} (run : CreateRun L (fun _ _ => True) K calls) (free : FreeList K.phys l)
    (image : LinkedImage img ehdr) (room : createRoom img ehdr ≤ l.length) (priority : ℤ) :
    ((∃ i < NASID, asidBit K.asid_bitmap i = false) →
      ∃ e K', envCreate L K img priority = .ok (e, K')) ∧
    ∀ e K', envCreate L K img priority = .ok (e, K') → LoadsImage L K' e img ehdr := by
  obtain ⟨fr, τ, sm, l', ql, fl, h⟩ := run.spacesInv
  obtain rfl := free.unique h.spaces.typed.free
  refine ⟨?_, fun e K' hcall => ?_⟩
  · rintro ⟨i, hi, hbit⟩
    have ha := asidAlloc_ne_none hi hbit
    obtain ⟨e, K', _, _, _, _, _, _, hcall, _⟩ := h.envCreate_loads image room priority ha
    exact ⟨e, K', hcall⟩
  · obtain ⟨K₁, K₂, s, ehdr', c⟩ := envCreate_cases hcall
    have ha : asidAlloc K.asid_bitmap ≠ none := by
      rw [c.alloc.asid]
      simp
    obtain ⟨e', K'', _, _, _, τ', l'', N, hcall', c', hl, _⟩ := h.envCreate_loads image room priority ha
    obtain ⟨rfl, rfl⟩ := Prod.mk.inj (Except.ok.inj (hcall.symm.trans hcall'))
    obtain ⟨_, _, he, _⟩ := h.sched.alloc c'.alloc
    exact hl.loadsImage image he

theorem OnePage.linked {img : Image} {ehdr : Ehdr} {ph : Phdr} (o : OnePage img ehdr ph)
    (hsize : img.size < 2^64) (hheader : ehdr.e_phoff+PHDR_SIZE ≤ img.size)
    (hbytes : ph.p_offset+ph.p_filesz ≤ img.size) (hal : ph.p_vaddr%PAGE_SIZE = 0) :
    LinkedImage img ehdr := by
  have hnum := o.num
  have hph (ph' : Phdr) (hs : Segment img ehdr ph') : ph' = ph := o.segment o.elf hs
  refine ⟨o.elf, hsize, fun idx hidx => ?_, ?_, ?_, ?_, ?_, fun i j hij hj => by omega⟩
  · obtain rfl : idx = 0 := by omega
    rw [Nat.zero_mul, Nat.add_zero]
    exact hheader
  all_goals
    intro ph' hs
    rw [hph ph' hs]
  · exact hbytes
  · exact hal
  · exact (o.userImage ehdr ph o.elf (by rw [← hph _ hs]; exact hs)).1
  · exact (o.userImage ehdr ph o.elf (by rw [← hph _ hs]; exact hs)).2

theorem spinImage_linked : LinkedImage (spinImage 0x1000) (readEhdr (spinImage 0x1000).bytes) :=
  spinImage_aligned.linked (by decide +kernel) (by decide +kernel) (by decide +kernel) (by decide)

theorem spinImage_room : createRoom (spinImage 0x1000) (readEhdr (spinImage 0x1000).bytes) = 149 := by
  decide +kernel

/-- The first env after boot. -/
theorem env_create_loads_spin : ∃ K l e K', CreateRun default (fun _ _ => True) K [] ∧
    FreeList K.phys l ∧ envCreate default K (spinImage 0x1000) 1 = .ok (e, K') ∧
    LoadsImage default K' e (spinImage 0x1000) (readEhdr (spinImage 0x1000).bytes) := by
  obtain ⟨K, fr, τ, l, hboot, b⟩ := boot_ok default (fun _ => 0)
  have hlen := b.length
  have run : CreateRun default (fun _ _ => True) K [] := .boot hboot
  have hroom : createRoom (spinImage 0x1000) (readEhdr (spinImage 0x1000).bytes) ≤ l.length := by
    rw [spinImage_room]
    omega
  obtain ⟨hcall, hload⟩ := env_create_loads run b.building.typed.free spinImage_linked hroom 1
  obtain ⟨e, K', h⟩ := hcall ⟨0, by decide, by rw [b.asid_bitmap]; decide⟩
  exact ⟨K, l, e, K', run, b.building.typed.free, h, hload e K' h⟩

end RiscvMos
