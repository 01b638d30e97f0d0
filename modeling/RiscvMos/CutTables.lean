import RiscvMos.BootFrames
import RiscvMos.SetupSpace

/-! The tables that the self map of a new address space cuts off: four at each `env_setup_vm`. -/
namespace RiscvMos
open ByteMem LinkChain Function

section
variable {s : Phys} {τ : Typing} {sm : ℕ → Prop} {l : List ℕ} {u : ℕ}

theorem Typed.child_eq (h : Typed s τ sm l) {c p ℓ i : ℕ} (hc : τ c = .table ℓ (some (p,i))) :
    Valid (entry s.mem p i) ∧ c = PTE2PA (entry s.mem p i) := by
  obtain ⟨_, _, _, he⟩ := h.parent hc
  rw [he]
  exact ⟨Valid_table c, (PTE2PA_table (h.page hc)).symm⟩

/-- With tables for the last three regions of the slot there are four pages below it. -/
theorem Typed.cut_four (h : Typed s τ sm l) (hu : τ u = .table 2 none)
    (hc : Clear sm u 2 selfSlot)
    (hpop : ∀ i < 512, Populated s.mem u (selfSlot*512+i) ↔ 509 ≤ i) :
    ∃ cut : Finset ℕ, cut.card = 4 ∧ ∀ c, c ∈ cut ↔ Cut τ u c := by
  have hslot := selfSlot_eq
  -- The level-1 table and its valid entries.
  have hentry (i : ℕ) (hi : i < 512) : Populated s.mem u (selfSlot*512+i) ↔
      Valid (entry s.mem u selfSlot) ∧
        Valid (entry s.mem (PTE2PA (entry s.mem u selfSlot)) i) := by
    have h2 : vpnIndex 2 (512*(selfSlot*512+i)) = selfSlot := by
      simp only [vpnIndex]
      omega
    have h1 : vpnIndex 1 (512*(selfSlot*512+i)) = i := by
      simp only [vpnIndex]
      omega
    rw [populated_iff, h2, h1]
  have hvalid := ((hentry 511 (by decide)).mp ((hpop 511 (by decide)).mpr (by decide))).1
  have hlt : selfSlot < 512 := by omega
  have htop := h.next hu hlt hc hvalid
  set c₁ := PTE2PA (entry s.mem u selfSlot) with hc₁
  have hregion (i : ℕ) (hi : i < 512) : Valid (entry s.mem c₁ i) ↔ 509 ≤ i := by
    rw [← hpop i hi, hentry i hi]
    exact (and_iff_right hvalid).symm
  -- The tables below it, one for each of its valid entries.
  let q : ℕ → ℕ := fun i => PTE2PA (entry s.mem c₁ i)
  have hq (i : ℕ) (hi : 509 ≤ i) (hi' : i < 512) : τ (q i) = .table 0 (some (c₁, i)) :=
    h.next htop hi' (Typed.clear_of_lt sm c₁ i (by decide)) ((hregion i hi').mpr hi)
  have hmem (i : ℕ) : i ∈ Finset.Ico 509 512 ↔ 509 ≤ i ∧ i < 512 := Finset.mem_Ico
  have hinj : Set.InjOn q (Finset.Ico 509 512 : Finset ℕ) := by
    intro i hi j hj hij
    obtain ⟨hi1, hi2⟩ := (hmem i).mp (Finset.mem_coe.mp hi)
    obtain ⟨hj1, hj2⟩ := (hmem j).mp (Finset.mem_coe.mp hj)
    have hqi := hq i hi1 hi2
    rw [hij, hq j hj1 hj2] at hqi
    obtain ⟨_, hpar⟩ := PageKind.table.inj hqi
    exact (Prod.mk.inj (Option.some.inj hpar)).2.symm
  have hnot : c₁ ∉ (Finset.Ico 509 512).image q := by
    intro hin
    obtain ⟨i, hi, he⟩ := Finset.mem_image.mp hin
    obtain ⟨hi1, hi2⟩ := (hmem i).mp hi
    have hqi := hq i hi1 hi2
    rw [he, htop] at hqi
    cases hqi
  refine ⟨insert c₁ ((Finset.Ico 509 512).image q), ?_, fun c => ?_⟩
  · rw [Finset.card_insert_of_notMem hnot, Finset.card_image_of_injOn hinj, Nat.card_Ico]
  · rw [Finset.mem_insert, Finset.mem_image]
    constructor
    · rintro (rfl | ⟨i, hi, rfl⟩)
      · exact Or.inl htop
      · obtain ⟨hi1, hi2⟩ := (hmem i).mp hi
        exact Or.inr ⟨c₁, i, hq i hi1 hi2, htop⟩
    · rintro (hcut | ⟨p, i, hci, hp⟩)
      · exact Or.inl (h.child_eq hcut).2
      · obtain rfl : p = c₁ := (h.child_eq hp).2
        obtain ⟨hv, he⟩ := h.child_eq hci
        have hi := (h.parent hci).1
        exact Or.inr ⟨i, (hmem i).mpr ⟨(hregion i hi).mp hv, hi⟩, he.symm⟩

end

/-! ### env_setup_vm -/

theorem kernelLeaf_slot {etext : ℕ} {fr : ℕ → ℕ} (hlo : 0x80000000 < etext)
    (hhi : etext < KERNEND) {i : ℕ} (hi : i < 512) :
    (∃ v, (2^19 ≤ v ∧ v < 2^26) ∧ Valid (kernelLeaf etext fr v) ∧ v/512 = selfSlot*512+i) ↔
      509 ≤ i := by
  have hslot := selfSlot_eq
  have hn : NENV = 1024 := by decide
  have htop : envsTop = 66846718 := rfl
  constructor
  · rintro ⟨v, ⟨_, hv⟩, hval, hg⟩
    have hboot := kernelLeaf_region hlo hhi hv hval
    rw [hg, mem_bootRegions] at hboot
    omega
  · intro h
    -- The last page of the region is that of an env, or lies right below one.
    obtain ⟨v, hv1, hv2, hg⟩ : ∃ v, envsTop-NENV < v ∧ v ≤ envsTop ∧ v/512 = selfSlot*512+i :=
      ⟨min envsTop ((selfSlot*512+i)*512+511), by omega, by omega, by omega⟩
    refine ⟨v, by omega, ?_, hg⟩
    rw [kernelLeaf_envs ⟨hv1, hv2⟩]
    exact Valid_mkLeaf _ (by decide)

section
variable {s s₁ s₂ : Phys} {τ : Typing} {sm : ℕ → Prop} {l : List ℕ} {k u etext : ℕ} {fr : ℕ → ℕ}

/-- The copied tables in the slot of the self map. -/
theorem Spaces.copied_slot (h : Spaces k (kernelLeaf etext fr) s τ sm l)
    (hlo : 0x80000000 < etext) (hhi : etext < KERNEND) (hu : uvmcreate s = (u, s₁)) (hu0 : u ≠ 0)
    (hcopy : kvmCopyToUserPagetable s₁ k u = .ok (0, s₂)) {i : ℕ} (hi : i < 512) :
    Populated s₂.mem u (selfSlot*512+i) ↔ 509 ≤ i := by
  have hwf := h.typed.wellFormed_clear h.kernel h.kernel_clear
  obtain ⟨l₁, _, hk, he, hsame⟩ := hwf.uvmcreate_empty hu hu0
  have hleaf := hwf.leaf_agree hsame
  rcases he.copy_cases hk with ⟨s', τ', l', hrun, _, c⟩ | ⟨_, hpanic⟩
  case inr =>
    rw [hpanic] at hcopy
    cases hcopy
  rw [hrun] at hcopy
  cases hcopy
  have hslot := selfSlot_eq
  have hzero : ¬Populated s₁.mem u (selfSlot*512+i) := by
    rw [populated_iff, entry_zeroPage he.zero (vpnIndex_lt 2 _)]
    exact fun hh => not_Valid_zero hh.1
  -- The copy has tables for the regions that the kernel maps pages in.
  rw [c.covers.regions _ (by omega), or_iff_right hzero, ← kernelLeaf_slot hlo hhi hi,
    Finset.mem_image]
  apply exists_congr
  intro v
  rw [mem_kernelPages, hleaf, and_assoc]
  apply and_congr_right
  intro hv
  rw [h.kernel_leaves v hv.2]

/-- What `env_setup_vm` makes of the free pages: the tables of the new root, and four pages
that nothing leads to any more. -/
structure SetupCut (τ τ' : Typing) (cut : Finset ℕ) : Prop where
  card : cut.card = 4
  fresh : ∀ c ∈ cut, IsPage c ∧ ∀ o, τ c ≠ .frame o
  frames : ∀ p o, τ' p = .frame o ↔ τ p = .frame o ∨ o = none ∧ p ∈ cut

theorem Spaces.setup_cut (h : Spaces k (kernelLeaf etext fr) s τ sm l)
    (hlo : 0x80000000 < etext) (hhi : etext < KERNEND) (hu : uvmcreate s = (u, s₁)) (hu0 : u ≠ 0)
    (hcopy : kvmCopyToUserPagetable s₁ k u = .ok (0, s₂)) :
    ∃ τ' l' cut, SetupOut k (kernelLeaf etext fr) s τ sm l u ⟨selfMap s₂.mem u, s₂.freelist⟩ τ' l' ∧
      SetupCut τ τ' cut := by
  obtain ⟨l₁, τ₂, l₂, rfl, ht, hz, hm, c⟩ := h.rooted.setup_calls hu hu0 hcopy
  have hfree := h.typed.free_kind List.mem_cons_self
  have huroot : update τ u (.table 2 none) u = .table 2 none := update_same_kind τ u _
  have hroot₂ := c.grows.table huroot
  have hclear : Clear sm u 2 selfSlot :=
    fun hh => Typed.ne_of_free hfree (h.typed.selfMap hh.1).1 rfl
  obtain ⟨cut, hcard, hcut⟩ := c.typed.cut_four hroot₂ hclear
    (fun i hi => h.copied_slot hlo hhi hu hu0 hcopy hi)
  -- The copy makes tables and no frames.
  have hold (p : ℕ) (o : Option (ℕ × ℕ)) : τ₂ p = .frame o ↔ τ p = .frame o := by
    rw [c.grows.frame_eq_iff]
    by_cases hpu : p = u
    · rw [hpu, huroot, hfree]
      exact iff_of_false PageKind.noConfusion PageKind.noConfusion
    · rw [update_other_kind τ _ hpu]
  have htable {p : ℕ} (hp : p ∈ cut) : ∃ ℓ pi, τ₂ p = .table ℓ (some pi) := by
    rcases (hcut p).mp hp with h1 | ⟨p', i, h0, _⟩
    · exact ⟨1, _, h1⟩
    · exact ⟨0, _, h0⟩
  have hfresh (p : ℕ) (hp : p ∈ cut) : IsPage p ∧ ∀ o, τ p ≠ .frame o := by
    obtain ⟨ℓ, pi, hp₂⟩ := htable hp
    refine ⟨c.typed.page hp₂, fun o ho => ?_⟩
    rw [← hold, hp₂] at ho
    cases ho
  refine ⟨cutTyping τ₂ u, l₂, cut, h.setup_copy ht hz hm c, hcard, hfresh, fun p o => ?_⟩
  by_cases hp : p ∈ cut
  · have hframe : cutTyping τ₂ u p = .frame none := if_pos ((hcut p).mp hp)
    rw [hframe, or_iff_right ((hfresh p hp).2 o)]
    constructor
    · intro ho
      exact ⟨(PageKind.frame.inj ho).symm, hp⟩
    · rintro ⟨rfl, _⟩
      rfl
  · rw [cutTyping_of_not (fun hh => hp ((hcut p).mpr hh)), hold]
    exact (or_iff_left fun hh => hp hh.2).symm

theorem Spaces.envSetupVm_cut {K K' : Kernel} {e : ℕ}
    (h : Spaces K.kernel_pagetable (kernelLeaf etext fr) K.phys τ sm l)
    (hlo : 0x80000000 < etext) (hhi : etext < KERNEND) (hrun : envSetupVm K e = .ok (0, K')) :
    (∀ i ≠ e, (K'.envs i).env_pgtable = (K.envs i).env_pgtable) ∧
      ∃ τ' l' cut, SetupOut K.kernel_pagetable (kernelLeaf etext fr) K.phys τ sm l
        (K'.envs e).env_pgtable K'.phys τ' l' ∧ SetupCut τ τ' cut := by
  rcases envSetupVm_cases hrun with ⟨h0, _⟩ | ⟨_, u, s₁, s₂, hu, hu0, hcopy, rfl⟩
  · cases h0
  · refine ⟨fun i hi => ?_, ?_⟩
    · simp only [Kernel.setEnv, Kernel.setPhys, update_of_ne hi]
    · simp only [Kernel.setEnv, update_self]
      exact h.setup_cut hlo hhi hu hu0 hcopy

end

end RiscvMos
