import RiscvMos.PageTypingSteps

/-! What `walk` does on typed memory, for a free list of any length. -/
namespace RiscvMos
open ByteMem LinkChain Function

/-! ### The cases of one level -/

theorem walkLoop_valid {s : Phys} {p va ℓ : ℕ} {alloc : Bool}
    (hv : Valid (entry s.mem p (vpnIndex (ℓ+1) (va/4096)))) :
    walkLoop s p va alloc (ℓ+1) =
      walkLoop s (PTE2PA (entry s.mem p (vpnIndex (ℓ+1) (va/4096)))) va alloc ℓ := by
  rw [entry, ← VPN_L_eq] at hv ⊢
  rw [walkLoop, if_pos hv]

theorem walkLoop_full {s : Phys} {p va ℓ : ℕ}
    (hv : ¬Valid (entry s.mem p (vpnIndex (ℓ+1) (va/4096)))) (hk : kalloc s = (0, s)) :
    walkLoop s p va true (ℓ+1) = (0, s) := by
  rw [entry, ← VPN_L_eq] at hv
  rw [walkLoop, if_neg hv, hk]
  rfl

/-- The state in which a new table `c` has been linked. -/
def linkState (s₁ : Phys) (c p i : ℕ) : Phys :=
  ⟨store64 (memset s₁.mem c 0 PAGE_SIZE).2 (p+8*i) (PA2PTE c ||| PTE_V), s₁.freelist⟩

theorem linkState_freelist (s₁ : Phys) (c p i : ℕ) :
    (linkState s₁ c p i).freelist = s₁.freelist := rfl

theorem walkLoop_link {s s₁ : Phys} {p va ℓ c : ℕ}
    (hv : ¬Valid (entry s.mem p (vpnIndex (ℓ+1) (va/4096)))) (hk : kalloc s = (c, s₁))
    (hc : c ≠ 0) :
    walkLoop s p va true (ℓ+1) =
      walkLoop (linkState s₁ c p (vpnIndex (ℓ+1) (va/4096))) c va true ℓ := by
  rw [entry, ← VPN_L_eq] at hv
  rw [linkState, ← VPN_L_eq, walkLoop, if_neg hv, hk]
  simp only [hc, if_true, if_false]

theorem Typed.link_walk {sm : ℕ → Prop} {s : Phys} {τ : Typing} {l : List ℕ} {c p ℓ i : ℕ}
    {par : Option (ℕ × ℕ)} (h : Typed s τ sm (c :: l)) (hp : τ p = .table (ℓ+1) par) (hi : i < 512)
    (hc : Clear sm p (ℓ+1) i) (hv : ¬Valid (entry s.mem p i)) (hlow : ℓ = 1 → i < 256) :
    ∃ s₁, kalloc s = (c, s₁) ∧ c ≠ 0 ∧ Typed.Linked s.mem (linkState s₁ c p i).mem c p i ∧
      Typed (linkState s₁ c p i) (update τ c (.table ℓ (some (p,i)))) sm l ∧
      Grows s τ (linkState s₁ c p i) (update τ c (.table ℓ (some (p,i)))) := by
  obtain ⟨s₁, hk, hf, _, hm⟩ := kalloc_cons h.free
  have hpage := h.free.pages c List.mem_cons_self
  have hc0 : c ≠ 0 := by
    have := hpage.bounds
    omega
  have hpc : p ≠ c := Typed.ne_of_free (h.free_kind List.mem_cons_self) hp
  have hlink : Typed.Linked s.mem (linkState s₁ c p i).mem c p i :=
    Typed.linked_of_kalloc hpage (h.page hp) hpc hi hm
  have hf₂ := h.link_freeList hf hp hm hlink (linkState_freelist s₁ c p i)
  exact ⟨s₁, hk, hc0, hlink, h.link_table hf₂ hp hi hc hv hlink, h.link_grows hp hv hlow hlink⟩

/-- The outcome of a walk that may allocate: only empty tables are added, at most
one for each level, and it fails only when the free list is used up. -/
structure WalkOut (sm : ℕ → Prop) (s : Phys) (τ : Typing) (l : List ℕ) (ℓ p v r : ℕ)
    (s' : Phys) (τ' : Typing) (l' : List ℕ) : Prop where
  typed : Typed s' τ' sm l'
  grows : Grows s τ s' τ'
  leaves : ∀ {k q par} w, τ q = .table k par → Clear sm q k (vpnIndex k w) →
    leafFrom s'.mem k q w = leafFrom s.mem k q w
  used : ∃ u, l = u ++ l' ∧ u.length ≤ ℓ
  found : (r = 0 ∧ l' = [] ∧ descend s'.mem ℓ p v = none) ∨
    ∃ q, descend s'.mem ℓ p v = some q ∧ r = q+8*vpnIndex 0 v
  hit : ∀ q, descend s.mem ℓ p v = some q → l' = l

theorem WalkOut.stay {sm : ℕ → Prop} {s : Phys} {τ : Typing} {l : List ℕ} {ℓ p v r : ℕ}
    (h : Typed s τ sm l)
    (hr : (r = 0 ∧ l = [] ∧ descend s.mem ℓ p v = none) ∨
      ∃ q, descend s.mem ℓ p v = some q ∧ r = q+8*vpnIndex 0 v) :
    WalkOut sm s τ l ℓ p v r s τ l :=
  ⟨h, Grows.refl s τ, fun _ _ _ => rfl, ⟨[], rfl, Nat.zero_le ℓ⟩, hr, fun _ _ => rfl⟩

theorem walkLoop_alloc {sm : ℕ → Prop} (va : ℕ) (hva : va/4096 < 2^26) (ℓ : ℕ) :
    ∀ {s : Phys} {τ : Typing} {l : List ℕ} {p : ℕ} {par : Option (ℕ × ℕ)},
    Typed s τ sm l → τ p = .table ℓ par → Clear sm p ℓ (vpnIndex ℓ (va/4096)) →
    ∃ τ' l', WalkOut sm s τ l ℓ p (va/4096) (walkLoop s p va true ℓ).1
      (walkLoop s p va true ℓ).2 τ' l' := by
  induction ℓ with
  | zero =>
    intro s τ l p par h _ _
    refine ⟨τ, l, WalkOut.stay h (Or.inr ⟨p, rfl, ?_⟩)⟩
    simp only [walkLoop, VPN_L_eq]
  | succ ℓ ih =>
    intro s τ l p par h hp hc
    have hi := vpnIndex_lt (ℓ+1) (va/4096)
    have hℓ := (h.level hp).1
    have hclear (q : ℕ) : Clear sm q ℓ (vpnIndex ℓ (va/4096)) :=
      Typed.clear_of_lt sm _ _ (by omega)
    by_cases hv : Valid (entry s.mem p (vpnIndex (ℓ+1) (va/4096)))
    · -- the next table is there already
      rw [walkLoop_valid hv]
      have hn := h.next hp hi hc hv
      obtain ⟨τ', l', w⟩ := ih h hn (hclear _)
      have hkeep := w.grows.entries hp hi hv
      refine ⟨τ', l', w.typed, w.grows, w.leaves, ?_, ?_, ?_⟩
      · obtain ⟨u, hu, hlen⟩ := w.used
        exact ⟨u, hu, hlen.trans (Nat.le_succ ℓ)⟩
      · rw [descend_succ_of_valid (by rwa [hkeep]), hkeep]
        exact w.found
      · intro q hq
        rw [descend_succ_of_valid hv] at hq
        exact w.hit q hq
    · have hnone : descend s.mem (ℓ+1) p (va/4096) = none := descend_succ_of_not_valid hv
      cases l with
      | nil =>
        -- no page is left for the next table
        rw [walkLoop_full hv (kalloc_nil h.free)]
        exact ⟨τ, [], WalkOut.stay h (Or.inl ⟨rfl, rfl, hnone⟩)⟩
      | cons c l =>
        have hpage := h.free.pages c List.mem_cons_self
        have hlow : ℓ = 1 → vpnIndex (ℓ+1) (va/4096) < 256 := by
          rintro rfl
          simp only [vpnIndex]
          omega
        obtain ⟨s₁, hk, hc0, hlink, h₂, g₂⟩ := h.link_walk hp hi hc hv hlow
        rw [walkLoop_link hv hk hc0]
        obtain ⟨τ', l', w⟩ := ih h₂ (update_same_kind τ c _) (hclear c)
        have hval := Valid_table c
        rw [← hlink.link] at hval
        have hentry := (w.grows.entries (g₂.table hp) hi hval).trans hlink.link
        refine ⟨τ', l', w.typed, g₂.trans w.grows, ?_, ?_, ?_, ?_⟩
        · intro k q par' v' hq hcl
          exact (w.leaves v' (g₂.table hq) hcl).trans (h.link_leafFrom hp hv hlink v' hq hcl)
        · obtain ⟨u, hu, hlen⟩ := w.used
          exact ⟨c :: u, by rw [hu]; rfl, Nat.succ_le_succ hlen⟩
        · rw [descend_succ_of_valid (by rw [hentry]; exact Valid_table c), hentry,
            PTE2PA_table hpage]
          exact w.found
        · intro q hq
          rw [hnone] at hq
          cases hq

end RiscvMos
