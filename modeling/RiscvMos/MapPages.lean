import RiscvMos.PageTable
import RiscvMos.UvmunmapSpec

/-! `mappages` on any well-formed table, for a free list of any length. -/
namespace RiscvMos
open ByteMem LinkChain Function

/-- The number of pages that meet the `size` bytes from `va` on. -/
def rangePages (va size : ℕ) : ℕ := (va+size-1)/PAGE_SIZE-va/PAGE_SIZE+1

/-- From the page of `va` on `n` pages are mapped to consecutive frames from `pa` on, and
`walk` finds for every other address what it found in `s`. -/
structure MapsPages (s : Phys) (pagetable va pa perm n : ℕ) (s' : Phys) : Prop where
  mapped : ∀ k < n, ∃ pte, leafAt s' pagetable (ROUNDDOWN va PAGE_SIZE+k*PAGE_SIZE) = some pte ∧
    PTE2PA pte = pa+k*PAGE_SIZE ∧ PTE_FLAGS pte = perm ||| PTE_V
  other : ∀ a, (∀ k < n, a/PAGE_SIZE ≠ va/PAGE_SIZE+k) → leafAt s' pagetable a = leafAt s pagetable a

section
variable {s : Phys} {τ : Typing} {l : List ℕ} {r va : ℕ}

theorem Typed.leafAt_none (h : Typed s τ noSelfMap l) (hr : τ r = .table 2 none) (hva : va < MAXVA) :
    leafAt s r va = none ↔ ¬Valid (leaf s.mem r (va/4096)) := by
  rw [h.leafAt_eq hr (clear_noSelfMap _ _ _) hva]
  split_ifs with hv <;> simp [hv]

/-- The loop on unmapped pages does not panic. -/
theorem Typed.mappagesLoop_total {vl perm : ℕ} (hf : perm < 1024) (hx : HasRWX perm) (hvl : vl < 2^26)
    (n : ℕ) : ∀ {s : Phys} {τ : Typing} {l : List ℕ} {v pa : ℕ}, v+n = vl →
      Typed s τ noSelfMap l → τ r = .table 2 none → pa < 2^64 →
      (∀ w, v ≤ w → w ≤ vl → ¬Valid (leaf s.mem r w)) →
      ∃ res s', mappagesLoop s r (v*4096) (vl*4096) pa perm = .ok (res, s') := by
  induction n with
  | zero =>
    intro s τ l v pa hn h hr hpa hun
    obtain ⟨a, s₁, τ₁, l₁, _, hcase⟩ :=
      h.mappages_turn vl hr (clear_noSelfMap r 2 (vpnIndex 2 v)) (by omega) hpa hf hx
    rcases hcase with ⟨_, _, he⟩ | ⟨hval, _⟩ | ⟨_, s', _, _, he⟩
    · exact ⟨_, _, he⟩
    · exact absurd hval (hun v le_rfl (by omega))
    · rw [if_pos (by omega)] at he
      exact ⟨_, _, he⟩
  | succ n ih =>
    intro s τ l v pa hn h hr hpa hun
    obtain ⟨a, s₁, τ₁, l₁, _, hcase⟩ :=
      h.mappages_turn vl hr (clear_noSelfMap r 2 (vpnIndex 2 v)) (by omega) hpa hf hx
    rcases hcase with ⟨_, _, he⟩ | ⟨hval, _⟩ | ⟨_, s', m, _, he⟩
    · exact ⟨_, _, he⟩
    · exact absurd hval (hun v le_rfl (by omega))
    · rw [if_neg (by omega)] at he
      rw [he]
      apply ih (by omega) m.typed (m.grows.table hr) (Nat.mod_lt _ (by decide))
      intro w h1 h2
      rw [m.leaves hr (clear_noSelfMap _ _ _) (by omega), if_neg (by omega)]
      exact hun w (by omega) h2

theorem MapOut.mapsPages {n pa perm : ℕ} {s' : Phys} {τ' : Typing} {l' : List ℕ}
    (m : MapOut noSelfMap s τ l r (va/4096) n pa perm s' τ' l') (h : Typed s τ noSelfMap l)
    (hr : τ r = .table 2 none) (hn : va/4096+n ≤ 2^26) (hpa : pa%PAGE_SIZE = 0)
    (hwrap : pa+n*PAGE_SIZE ≤ 2^64) (hf : perm < 1024) :
    MapsPages s r va pa perm n s' := by
  have hpage : PAGE_SIZE = 4096 := rfl
  have hmax : MAXVA = 2^38 := by decide
  have hr' := m.grows.table hr
  rw [hpage] at hpa hwrap
  constructor
  · intro k hk
    have hround : ROUNDDOWN va PAGE_SIZE+k*PAGE_SIZE = (va/4096+k)*4096 := by
      rw [ROUNDDOWN_page _ (by omega), hpage]
      omega
    have hdiv : (va/4096+k)*4096/4096 = va/4096+k := by omega
    have hleaf : leaf s'.mem r (va/4096+k) = mkLeaf (pa+4096*k) perm := by
      rw [m.leaves hr (clear_noSelfMap _ _ _) (by omega), if_pos ⟨rfl, by omega, by omega⟩,
        Nat.mod_eq_of_lt (by omega)]
      congr 2
      omega
    refine ⟨mkLeaf (pa+4096*k) perm, ?_, ?_, PTE_FLAGS_mkLeaf _ hf⟩
    · rw [hround, m.typed.leafAt_eq hr' (clear_noSelfMap _ _ _) (by omega), hdiv, hleaf,
        if_pos (Valid_mkLeaf _ hf)]
    · rw [PTE2PA_mkLeaf (by omega) hf, hpage]
      omega
  · intro a ha
    by_cases hlt : a < MAXVA
    · have hout : ¬(r = r ∧ va/4096 ≤ a/4096 ∧ a/4096 < va/4096+n) := by
        rintro ⟨_, h1, h2⟩
        have hk := ha (a/4096-va/4096) (by omega)
        rw [hpage] at hk
        omega
      rw [m.typed.leafAt_eq hr' (clear_noSelfMap _ _ _) hlt, h.leafAt_eq hr (clear_noSelfMap _ _ _) hlt,
        m.leaves hr (clear_noSelfMap _ _ _) (by omega), if_neg hout]
    · rw [leafAt_of_ge (by omega), leafAt_of_ge (by omega)]

end

/-! ### An empty table -/

theorem emptyTable_wellFormed {s : Phys} {r : ℕ} {l : List ℕ} (hf : FreeList s l) (hr : IsPage r)
    (hl : r ∉ l) (hz : ZeroPage s.mem r) : WellFormed s r l ∧ (∀ v, leaf s.mem r v = 0) ∧
      ∀ level p, TableAt s.mem r level p → p = r := by
  have hentry {level p i : ℕ} (hp : TableAt s.mem r level p) (hi : i < 512) :
      ¬Valid (entry s.mem p i) ∧ p = r := by
    induction hp generalizing i with
    | root =>
      rw [entry_zeroPage hz hi]
      exact ⟨not_Valid_zero, rfl⟩
    | next _ hj hv ih => exact absurd hv (ih hj).1
  refine ⟨?_, leafFrom_zeroPage hz 2, fun level p hp => (hentry hp (by decide : 0 < 512)).2⟩
  constructor
  case free => exact hf
  case page =>
    intro level p hp
    rw [(hentry hp (by decide : 0 < 512)).2]
    exact ⟨hr, hl⟩
  case inner => exact fun hp hi hv => absurd hv (hentry hp hi).1
  case leafOk => exact fun hp hi hv => absurd hv (hentry hp hi).1
  case root => exact fun hp hi hv => absurd hv (hentry hp hi).1
  case once => exact fun hp _ hi _ hv => absurd hv (hentry hp hi).1

theorem exists_emptyTable {n : ℕ} (hn : n < heapCount) :
    ∃ s, WellFormed s (heapPage n) (heapPages n) ∧ (∀ v, leaf s.mem (heapPage n) v = 0) ∧
      ∀ level p, TableAt s.mem (heapPage n) level p → p = heapPage n := by
  have hdrain (k : ℕ) (hk : k ≤ heapCount) : ∃ s, FreeList s (heapPages (heapCount-k)) := by
    induction k with
    | zero =>
      obtain ⟨s, _, hf⟩ := kinit_heap (fun _ => 0)
      exact ⟨s, hf⟩
    | succ k ih =>
      obtain ⟨s, hf⟩ := ih (by omega)
      have hsub : heapCount-k = heapCount-(k+1)+1 := by omega
      rw [hsub, heapPages_succ] at hf
      obtain ⟨s', _, hf', _⟩ := kalloc_cons hf
      exact ⟨s', hf'⟩
  obtain ⟨s, hf⟩ := hdrain (heapCount-(n+1)) (by omega)
  have hsub : heapCount-(heapCount-(n+1)) = n+1 := by omega
  rw [hsub, heapPages_succ] at hf
  obtain ⟨s', _, hf', hz, _⟩ := kalloc_cons hf
  exact ⟨s', emptyTable_wellFormed hf' (heapPage_isPage hn)
    (List.nodup_cons.mp hf.nodup).1 hz⟩

theorem WellFormed.leafAt_empty {s : Phys} {r : ℕ} {l : List ℕ} (h : WellFormed s r l)
    (he : ∀ v, leaf s.mem r v = 0) (a : ℕ) : leafAt s r a = none := by
  obtain ⟨ht, hr⟩ := h.typed
  by_cases ha : a < MAXVA
  · rw [ht.leafAt_none hr ha, he]
    exact not_Valid_zero
  · exact leafAt_of_ge (by omega)

end RiscvMos
