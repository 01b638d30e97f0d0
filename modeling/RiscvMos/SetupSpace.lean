import RiscvMos.BootSpaces
import RiscvMos.CopyTable

/-! `env_setup_vm` next to any well-formed kernel table: the pages that it takes from the free
list, counted. -/
namespace RiscvMos
open ByteMem LinkChain Function

/-- The table pages below the root of a new space: one for each region of 512 pages that the
kernel's table maps something in, and one for each group of 512 regions. -/
def spaceNeeds (m : Mem) (k : ℕ) : ℕ :=
  ((kernelPages m k (2^26)).image (fun v => v/512)).card+
    ((kernelPages m k (2^26)).image (fun v => v/2^18)).card

theorem mem_kernelPages {m : Mem} {k v w : ℕ} :
    w ∈ kernelPages m k v ↔ (2^19 ≤ w ∧ w < v) ∧ Valid (leaf m k w) := by
  rw [kernelPages, Finset.mem_filter, Finset.mem_Ico]

theorem spaceNeeds_congr {m m' : Mem} {k : ℕ} (h : ∀ v, leaf m' k v = leaf m k v) :
    spaceNeeds m' k = spaceNeeds m k := by
  have hpages : kernelPages m' k (2^26) = kernelPages m k (2^26) := by
    ext w
    rw [mem_kernelPages, mem_kernelPages, h]
  rw [spaceNeeds, hpages, spaceNeeds]

theorem spaceNeeds_le {L : Layout} {fr : ℕ → ℕ} {m : Mem} {k : ℕ}
    (h : ∀ v < 2^26, leaf m k v = kernelLeaf L.etext fr v) : spaceNeeds m k ≤ 74 := by
  have hregion {v : ℕ} (hv : v ∈ kernelPages m k (2^26)) : v/512 ∈ bootRegions := by
    obtain ⟨⟨_, hlt⟩, hval⟩ := mem_kernelPages.mp hv
    rw [h v hlt] at hval
    exact kernelLeaf_region L.etext_gt L.etext_lt hlt hval
  have hregions : ((kernelPages m k (2^26)).image (fun v => v/512)).card ≤ 72 := by
    refine le_trans (Finset.card_le_card fun g hg => ?_) bootRegions_card
    obtain ⟨v, hv, rfl⟩ := Finset.mem_image.mp hg
    exact hregion hv
  -- the regions of boot lie in two groups
  have hgroups : ((kernelPages m k (2^26)).image (fun v => v/2^18)).card ≤ 2 := by
    refine le_trans (Finset.card_le_card (t := {2, 254}) fun a ha => ?_) Finset.card_le_two
    obtain ⟨v, hv, rfl⟩ := Finset.mem_image.mp ha
    have hg := mem_bootRegions.mp (hregion hv)
    rw [Finset.mem_insert, Finset.mem_singleton]
    omega
  rw [spaceNeeds]
  omega

section
variable {s : Phys} {k u : ℕ} {l : List ℕ}

theorem EmptyRoot.copyNeeds_eq (h : EmptyRoot s k u l) : copyNeeds s k u = spaceNeeds s.mem k := by
  refine tablesNeeded_no_entry (fun i hi => ?_) (fun v hv => (mem_kernelPages.mp hv).1.2)
  rw [entry_zeroPage h.zero hi]
  exact not_Valid_zero

/-- What is left of the kernel's table and of the free list `l₀` when a space with the tables
that it takes has been built, root aside. -/
structure SpaceTaken (s : Phys) (k : ℕ) (l₀ : List ℕ) (s' : Phys) (l : List ℕ) : Prop where
  table : WellFormed s' k l
  leaves : ∀ v, leaf s'.mem k v = leaf s.mem k v
  suffix : l <:+ l₀
  length : l₀.length = l.length+spaceNeeds s.mem k

/-- The self map of the new root touches no page of the kernel's table. -/
theorem Copied.selfMap {s₀ : Phys} {τ : Typing} {l₀ : List ℕ} (c : Copied s₀ l₀ k u (2^26) s τ l)
    (hk : WellFormed s₀ k l₀) (he : EmptyRoot s₀ k u l₀) (hku : k ≠ u) :
    SpaceTaken s₀ k l₀ ⟨RiscvMos.selfMap s.mem u, s.freelist⟩ l := by
  have ht := c.typed.selfMap_typed c.user
  have hroot : cutTyping τ u k = .table 2 none := by
    rw [cutTyping_of_not (not_Cut_root c.kernel), c.kernel]
  have hkept (level p : ℕ) (hp : TableAt s₀.mem k level p) :
      AgreeOn (RiscvMos.selfMap s.mem u) s₀.mem p 4096 := by
    have hp' := (tableAt_agree c.kept level p).mpr hp
    have hpu : p ≠ u := by
      rintro rfl
      exact hku (c.typed.tableAt_apart c.kernel c.user hp' .root).1
    have hd := (hk.page hp).1.disjoint he.page hpu
    have hslot : VPN_L 2 UVPT = 254 := selfSlot_eq
    refine AgreeOn.trans ?_ (c.kept level p hp)
    exact (store_sameOutside s.mem _ 8 _).agreeOn (by omega)
  constructor
  case table => exact ht.wellFormed_clear hroot (fun hh => hh.elim (fun hh => hh) hku)
  case leaves => exact hk.leaf_agree hkept
  case suffix => exact c.suffix
  case length => rw [c.length, ← he.copyNeeds_eq, copyNeeds]

end

/-! ### On the kernel's state -/

theorem envSetupVm_nil {K : Kernel} (h : K.phys.freelist = 0) (e : ℕ) :
    envSetupVm K e = .ok (-E_NO_MEM, K) := by
  rw [envSetupVm, uvmcreate_nil ⟨h, by simp⟩]
  rfl

/-- With a page for the root the space is built, or the free list is too short for the
tables below it and the clean-up of the copy panics. -/
theorem WellFormed.envSetupVm_cons {K : Kernel} {u : ℕ} {l₁ : List ℕ}
    (h : WellFormed K.phys K.kernel_pagetable (u :: l₁)) (e : ℕ) :
    (∃ K' l', envSetupVm K e = .ok (0, K') ∧ K'.kernel_pagetable = K.kernel_pagetable ∧
      SpaceTaken K.phys K.kernel_pagetable l₁ K'.phys l') ∨
      l₁.length < spaceNeeds K.phys.mem K.kernel_pagetable ∧
        envSetupVm K e = .error (.panic "uvmunmap: not mapped") := by
  obtain ⟨s₁, hu, hu0⟩ := uvmcreate_cons h.free
  obtain ⟨l, hl, hk, he, hsame⟩ := h.uvmcreate_empty hu hu0
  obtain rfl : l₁ = l := (List.cons.inj hl).2
  have hleaves := h.leaf_agree hsame
  rw [envSetupVm, hu]
  dsimp only
  rw [if_neg hu0]
  rcases he.copy_cases hk with ⟨s₂, τ, l', hrun, hku, c⟩ | ⟨hshort, hpanic⟩
  · have t := c.selfMap hk he hku
    refine .inl ⟨(K.setPhys ⟨selfMap s₂.mem u, s₂.freelist⟩).setEnv e
      { K.envs e with env_pgtable := u }, l', ?_, rfl, ?_⟩
    · rw [hrun, ok_bind]
      rfl
    · constructor
      case table => exact t.table
      case leaves => exact fun v => (t.leaves v).trans (hleaves v)
      case suffix => exact t.suffix
      case length => rw [t.length, spaceNeeds_congr hleaves]
  · refine .inr ⟨?_, ?_⟩
    · rwa [he.copyNeeds_eq, spaceNeeds_congr hleaves] at hshort
    · rw [hpanic]
      rfl

end RiscvMos
