import RiscvMos.PageTypingSteps

/-! The store of `env_setup_vm` that makes a root map itself. The tables that hung
below the slot lose their parent, and nobody refers to them any more. -/
namespace RiscvMos
open ByteMem LinkChain Function

/-- The memory with the self map in the root. -/
def selfMap (m : Mem) (pagetable : ℕ) : Mem :=
  store64 m (pagetable+8*VPN_L 2 UVPT) (PA2PTE pagetable ||| PTE_V ||| PTE_R ||| PTE_U)

theorem selfSlot_eq : selfSlot = 254 := by decide

theorem selfPte_eq (p : ℕ) : selfPte p = PA2PTE p ||| (PTE_V ||| PTE_R ||| PTE_U) := by
  rw [selfPte, Nat.or_assoc, Nat.or_assoc, ← Nat.or_assoc PTE_V]

theorem Valid_selfPte (p : ℕ) : Valid (selfPte p) := by
  rw [selfPte_eq, Valid_mkPte p _ (by decide)]
  decide

theorem PTE2PA_selfPte {p : ℕ} (hp : IsPage p) : PTE2PA (selfPte p) = p := by
  have hb := hp.bounds
  rw [selfPte_eq, PTE2PA_mkPte p _ (by omega) (by decide)]
  omega

theorem selfPte_lt {p : ℕ} (hp : IsPage p) : selfPte p < 2^54 := by
  have hb := hp.bounds
  have hf : PTE_V ||| PTE_R ||| PTE_U < 1024 := by decide
  rw [selfPte_eq, mkPte_eq p _ hf]
  omega

/-- The page hangs in the self-map slot of `u`, directly or one level further down. -/
def Cut (τ : Typing) (u c : ℕ) : Prop :=
  τ c = .table 1 (some (u, selfSlot)) ∨
    ∃ p i, τ c = .table 0 (some (p, i)) ∧ τ p = .table 1 (some (u, selfSlot))

open Classical in
/-- The cut pages are no tables any more, and no one holds them. -/
noncomputable def cutTyping (τ : Typing) (u : ℕ) : Typing := fun c =>
  if Cut τ u c then .frame none else τ c

theorem cutTyping_of_not {τ : Typing} {u c : ℕ} (h : ¬Cut τ u c) : cutTyping τ u c = τ c :=
  if_neg h

theorem cutTyping_table_iff {τ : Typing} {u c ℓ : ℕ} {par : Option (ℕ × ℕ)} :
    cutTyping τ u c = .table ℓ par ↔ τ c = .table ℓ par ∧ ¬Cut τ u c := by
  by_cases h : Cut τ u c
  · rw [cutTyping, if_pos h]
    exact ⟨fun hh => PageKind.noConfusion hh, fun hh => absurd h hh.2⟩
  · rw [cutTyping_of_not h]
    exact ⟨fun hh => ⟨hh, h⟩, fun hh => hh.1⟩

theorem cutTyping_free_iff {τ : Typing} {u c : ℕ} : cutTyping τ u c = .free ↔ τ c = .free := by
  by_cases h : Cut τ u c
  · have ht : τ c ≠ .free := by
      rcases h with h | ⟨p, i, h, _⟩
      · rw [h]
        exact PageKind.noConfusion
      · rw [h]
        exact PageKind.noConfusion
    rw [cutTyping, if_pos h]
    exact ⟨fun hh => PageKind.noConfusion hh, fun hh => absurd hh ht⟩
  · rw [cutTyping_of_not h]

theorem cutTyping_frame {τ : Typing} {u c : ℕ} {o : Option (ℕ × ℕ)} (h : τ c = .frame o) :
    cutTyping τ u c = .frame o := by
  have hn : ¬Cut τ u c := by
    rintro (hc | ⟨p, i, hc, _⟩)
    · rw [h] at hc
      exact PageKind.noConfusion hc
    · rw [h] at hc
      exact PageKind.noConfusion hc
  rw [cutTyping_of_not hn, h]

theorem not_Cut_root {τ : Typing} {u r : ℕ} {par : Option (ℕ × ℕ)} (h : τ r = .table 2 par) :
    ¬Cut τ u r := by
  rintro (hc | ⟨p, i, hc, _⟩)
  · rw [h] at hc
    injection hc with h2
    omega
  · rw [h] at hc
    injection hc with h2
    omega

section
variable {s : Phys} {τ : Typing} {sm : ℕ → Prop} {l : List ℕ} {u : ℕ}

theorem Typed.selfMap_entry (h : Typed s τ sm l) (hu : τ u = .table 2 none) {p i : ℕ}
    (hp : IsPage p) (hi : i < 512) (hne : ¬(p = u ∧ i = selfSlot)) :
    entry (RiscvMos.selfMap s.mem u) p i = entry s.mem p i :=
  entry_store_ne _ _ (h.page hu) hp (by decide) hi hne

theorem Typed.selfMap_entry_self (h : Typed s τ sm l) (hu : τ u = .table 2 none) :
    entry (RiscvMos.selfMap s.mem u) u selfSlot = selfPte u := by
  have hlt := selfPte_lt (h.page hu)
  exact entry_store_same s.mem u selfSlot (selfPte u) (by omega)

theorem not_Cut_parent (h : Typed s τ sm l) {c ℓ p i : ℕ}
    (hc : τ c = .table ℓ (some (p, i))) (hcut : ¬Cut τ u c) :
    ¬Cut τ u p ∧ ¬(p = u ∧ ℓ = 1 ∧ i = selfSlot) := by
  obtain ⟨_, _, ⟨par, hp⟩, _⟩ := h.parent hc
  have hℓ := (h.level hp).1
  refine ⟨?_, ?_⟩
  · rintro (hp' | ⟨p', i', hp', _⟩)
    · have h1 : ℓ+1 = 1 := by
        rw [hp] at hp'
        injection hp'
      have h0 : ℓ = 0 := by omega
      rw [h0] at hc
      exact hcut (Or.inr ⟨p, i, hc, hp'⟩)
    · rw [hp] at hp'
      injection hp' with h1
      omega
  · rintro ⟨rfl, rfl, rfl⟩
    exact hcut (Or.inl hc)

/-- The self map keeps the typing, with the root among the tables that map themselves. -/
theorem Typed.selfMap_typed (h : Typed s τ sm l) (hu : τ u = .table 2 none) :
    Typed ⟨RiscvMos.selfMap s.mem u, s.freelist⟩ (cutTyping τ u) (fun r => sm r ∨ r = u) l := by
  have hpage := h.page hu
  have hslot : selfSlot < 512 := by decide
  constructor
  case free =>
    apply h.free.write
    intro p hp
    have hne : p ≠ u := by
      rintro rfl
      rw [h.free_kind hp] at hu
      exact PageKind.noConfusion hu
    have hd := (h.free.pages p hp).disjoint hpage hne
    have hs : VPN_L 2 UVPT = 254 := selfSlot_eq
    exact (store_sameOutside s.mem _ 8 _).agreeOn (by omega)
  case mem_free =>
    intro p
    rw [h.mem_free p, cutTyping_free_iff]
  case page => exact fun hp => h.page (cutTyping_table_iff.mp hp).1
  case level => exact fun hp => h.level (cutTyping_table_iff.mp hp).1
  case parent =>
    intro c ℓ p i hc
    obtain ⟨hc, hcut⟩ := cutTyping_table_iff.mp hc
    obtain ⟨hi, hcl, ⟨par, hp⟩, hen⟩ := h.parent hc
    obtain ⟨hpc, hps⟩ := not_Cut_parent h hc hcut
    have hne : ¬(p = u ∧ i = selfSlot) := by
      rintro ⟨rfl, rfl⟩
      rw [hu] at hp
      injection hp with h2
      exact hps ⟨rfl, by omega, rfl⟩
    refine ⟨hi, ?_, ⟨par, cutTyping_table_iff.mpr ⟨hp, hpc⟩⟩, ?_⟩
    · rintro ⟨hsm | rfl, h2, hs⟩
      · exact hcl ⟨hsm, h2, hs⟩
      · exact hne ⟨rfl, hs⟩
    · rw [h.selfMap_entry hu (h.page hp) hi hne, hen]
  case child =>
    intro p ℓ par i hp' hi hcl hv
    obtain ⟨hp, hpc⟩ := cutTyping_table_iff.mp hp'
    have hne : ¬(p = u ∧ i = selfSlot) := by
      rintro ⟨rfl, rfl⟩
      rw [hu] at hp
      injection hp with h2
      exact hcl ⟨Or.inr rfl, h2.symm, rfl⟩
    have hcl' : Clear sm p (ℓ+1) i := fun hh => hcl ⟨Or.inl hh.1, hh.2⟩
    rw [h.selfMap_entry hu (h.page hp) hi hne] at hv
    obtain ⟨c, hc⟩ := h.child hp hi hcl' hv
    refine ⟨c, cutTyping_table_iff.mpr ⟨hc, ?_⟩⟩
    -- a cut child would have a cut parent or hang in the slot
    rintro (hc' | ⟨p', i', hc', hp'⟩)
    · rw [hc] at hc'
      injection hc' with _ hpar
      obtain ⟨rfl, rfl⟩ := Prod.mk.inj (Option.some.inj hpar)
      exact hne ⟨rfl, rfl⟩
    · rw [hc] at hc'
      injection hc' with _ hpar
      obtain ⟨rfl, rfl⟩ := Prod.mk.inj (Option.some.inj hpar)
      exact hpc (Or.inl hp')
  case leafOk =>
    intro p par i hp' hi hv
    obtain ⟨hp, _⟩ := cutTyping_table_iff.mp hp'
    have hne : ¬(p = u ∧ i = selfSlot) := by
      rintro ⟨rfl, _⟩
      rw [hu] at hp
      injection hp with h2
      omega
    rw [h.selfMap_entry hu (h.page hp) hi hne] at hv ⊢
    exact h.leafOk hp hi hv
  case selfMap =>
    intro p hp
    by_cases hpu : p = u
    · rw [hpu]
      exact ⟨cutTyping_table_iff.mpr ⟨hu, not_Cut_root hu⟩, h.selfMap_entry_self hu⟩
    · obtain ⟨hr, hen⟩ := h.selfMap (hp.resolve_right hpu)
      refine ⟨cutTyping_table_iff.mpr ⟨hr, not_Cut_root hr⟩, ?_⟩
      rw [h.selfMap_entry hu (h.page hr) hslot (fun hh => hpu hh.1), hen]

theorem Typed.selfMap_descend (h : Typed s τ sm l) (hu : τ u = .table 2 none) {k p : ℕ}
    (v : ℕ) {par : Option (ℕ × ℕ)} (hp : τ p = .table k par)
    (hc : Clear (fun r => sm r ∨ r = u) p k (vpnIndex k v)) :
    descend (RiscvMos.selfMap s.mem u) k p v = descend s.mem k p v := by
  induction k generalizing p par with
  | zero => rfl
  | succ k ih =>
    have hne : ¬(p = u ∧ vpnIndex (k+1) v = selfSlot) := by
      rintro ⟨rfl, hs⟩
      rw [hu] at hp
      injection hp with h2
      exact hc ⟨Or.inr rfl, h2.symm, hs⟩
    have he := h.selfMap_entry hu (h.page hp) (vpnIndex_lt (k+1) v) hne
    by_cases hv : Valid (entry s.mem p (vpnIndex (k+1) v))
    · have hn := h.next hp (vpnIndex_lt _ _) (fun hh => hc ⟨Or.inl hh.1, hh.2⟩) hv
      have hℓ := (h.level hp).1
      rw [descend_succ_of_valid hv, descend_succ_of_valid (by rwa [he]), he]
      exact ih hn (Typed.clear_of_lt _ _ _ (by omega))
    · rw [descend_succ_of_not_valid hv, descend_succ_of_not_valid (by rwa [he])]

theorem Typed.selfMap_leafFrom (h : Typed s τ sm l) (hu : τ u = .table 2 none) {k p : ℕ}
    (v : ℕ) {par : Option (ℕ × ℕ)} (hp : τ p = .table k par)
    (hc : Clear (fun r => sm r ∨ r = u) p k (vpnIndex k v)) :
    leafFrom (RiscvMos.selfMap s.mem u) k p v = leafFrom s.mem k p v := by
  rw [leafFrom, leafFrom, h.selfMap_descend hu v hp hc]
  cases hd : descend s.mem k p v with
  | none => rfl
  | some q =>
    obtain ⟨par', hq⟩ := h.descend_typed hp (fun hh => hc ⟨Or.inl hh.1, hh.2⟩) hd
    refine h.selfMap_entry hu (h.page hq) (vpnIndex_lt 0 v) ?_
    rintro ⟨rfl, _⟩
    rw [hu] at hq
    cases hq

end

end RiscvMos
