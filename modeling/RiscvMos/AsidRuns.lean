import RiscvMos.SchedInv
import Mathlib.Data.Finset.Option

/-! The ASID allocator as a set: after any calls of `asid_alloc` and `asid_free` the bits of
`asid_bitmap` are the ASIDs that are held. -/
namespace RiscvMos

/-- The return value of `asid_alloc`, what it stores in `*asid`, and the bitmap. -/
def asidAllocReturn (b : ℕ → BitVec 32) : ℤ × Option ℕ × (ℕ → BitVec 32) :=
  match asidAlloc b with
  | some (i, b') => (0, some i, b')
  | none => (-E_NO_FREE_ENV, none, b)

/-- The bitmap and the ASIDs that are held, after calls of which each `asid_free` is on an
ASID that is held. -/
inductive AsidRun : (ℕ → BitVec 32) → Finset ℕ → Prop
  | start : AsidRun (fun _ => 0) ∅
  | alloc {b b' : ℕ → BitVec 32} {held : Finset ℕ} {r : ℤ} {asid : Option ℕ} :
    AsidRun b held → asidAllocReturn b = (r, asid, b') → AsidRun b' (held ∪ asid.toFinset)
  | free {b : ℕ → BitVec 32} {held : Finset ℕ} {i : ℕ} :
    AsidRun b held → i ∈ held → AsidRun (asidFree b i) (held.erase i)

/-- The bits are the set `held`, and no bit is set behind the last ASID. -/
structure AsidSet (b : ℕ → BitVec 32) (held : Finset ℕ) : Prop where
  bit : ∀ j, asidBit b j = true ↔ j ∈ held
  lt : ∀ j ∈ held, j < NASID

section
variable {b b' : ℕ → BitVec 32} {held : Finset ℕ}

theorem AsidSet.start : AsidSet (fun _ => 0) ∅ where
  bit j := by simp [asidBit]
  lt j hj := absurd hj (Finset.notMem_empty j)

theorem asidAllocLoop_first {i k : ℕ} (h : asidAllocLoop b k = some (i, b')) :
    ∀ j, k ≤ j → j < i → asidBit b j = true := by
  fun_induction asidAllocLoop b k with
  | case1 k hk index inner hfree =>
    intro j hkj hji
    have hki := congrArg Prod.fst (Option.some.inj h)
    dsimp only at hki
    omega
  | case2 k hk index inner hused ih =>
    intro j hkj hji
    by_cases hj : j = k
    · subst hj
      rw [and_one_shift_eq_zero (Nat.and_lt_two_pow j (by decide : 31 < 2^5))] at hused
      simp only [index, asid_index] at hused
      exact (Bool.not_eq_false _).mp hused
    · exact ih h j (by omega) hji
  | case3 k hge => cases h

theorem AsidSet.bit_eq_false (h : AsidSet b held) (j : ℕ) : asidBit b j = false ↔ j ∉ held := by
  rw [← Bool.not_eq_true, h.bit]

theorem AsidSet.alloc_eq_none (h : AsidSet b held) :
    asidAlloc b = none ↔ ∀ i < NASID, i ∈ held := by
  constructor
  · intro hnone i hi
    by_contra hfree
    exact asidAlloc_ne_none hi ((h.bit_eq_false i).mpr hfree) hnone
  · intro hall
    by_contra hsome
    obtain ⟨⟨i, b'⟩, hi⟩ := Option.ne_none_iff_exists'.mp hsome
    obtain ⟨hlt, hbit, _⟩ := asidAllocLoop_spec hi
    exact (h.bit_eq_false i).mp hbit (hall i hlt)

theorem AsidSet.alloc (h : AsidSet b held) {i : ℕ} (hi : asidAlloc b = some (i, b')) :
    AsidSet b' (insert i held) := by
  obtain ⟨hlt, _, hbits⟩ := asidAllocLoop_spec hi
  constructor
  · intro j
    rw [hbits, Bool.or_eq_true, decide_eq_true_eq, h.bit, Finset.mem_insert, or_comm]
  · intro j hj
    rcases Finset.mem_insert.mp hj with rfl | hj
    · exact hlt
    · exact h.lt j hj

theorem AsidSet.free (h : AsidSet b held) (i : ℕ) : AsidSet (asidFree b i) (held.erase i) := by
  constructor
  · intro j
    rw [asidBit_free, Bool.and_eq_true, decide_eq_true_eq, h.bit, Finset.mem_erase, and_comm]
  · intro j hj
    exact h.lt j (Finset.mem_of_mem_erase hj)

theorem AsidRun.asidSet (run : AsidRun b held) : AsidSet b held := by
  induction run with
  | start => exact .start
  | @alloc b b' held r asid _ call ih =>
    rw [asidAllocReturn] at call
    split at call
    · next i b'' hi =>
      cases call
      have hset := ih.alloc hi
      rwa [Finset.insert_eq, Finset.union_comm] at hset
    · cases call
      rwa [Option.toFinset_none, Finset.union_empty]
  | free _ _ ih => exact ih.free _

theorem AsidSet.alloc_first (h : AsidSet b held) (hcard : held.card < NASID) :
    ∃ i b', asidAlloc b = some (i, b') ∧ i < NASID ∧ i ∉ held ∧ (∀ j < i, j ∈ held) ∧
      ∀ j, asidBit b' j = (asidBit b j || decide (j = i)) := by
  have hlt : held.card < (Finset.range NASID).card := by rwa [Finset.card_range]
  obtain ⟨k, hk, hfree⟩ := Finset.exists_mem_notMem_of_card_lt_card hlt
  have hsome : asidAlloc b ≠ none := fun hnone =>
    hfree (h.alloc_eq_none.mp hnone k (Finset.mem_range.mp hk))
  obtain ⟨⟨i, b'⟩, hi⟩ := Option.ne_none_iff_exists'.mp hsome
  obtain ⟨hlt, hbit, hbits⟩ := asidAllocLoop_spec hi
  refine ⟨i, b', hi, hlt, (h.bit_eq_false i).mp hbit, fun j hj => ?_, hbits⟩
  exact (h.bit j).mp (asidAllocLoop_first hi j (Nat.zero_le j) hj)

theorem AsidRun.range {n : ℕ} (hn : n ≤ NASID) : ∃ b, AsidRun b (Finset.range n) := by
  induction n with
  | zero => exact ⟨_, .start⟩
  | succ n ih =>
    obtain ⟨b, run⟩ := ih (by omega)
    obtain ⟨i, b', hi, _, hfree, hfirst, _⟩ := run.asidSet.alloc_first (by rwa [Finset.card_range])
    obtain rfl : i = n := by
      refine le_antisymm (not_lt.mp fun hlt => ?_) (not_lt.mp fun hlt => ?_)
      · exact absurd (Finset.mem_range.mp (hfirst n hlt)) (lt_irrefl n)
      · exact hfree (Finset.mem_range.mpr hlt)
    have hcall : asidAllocReturn b = (0, some i, b') := by rw [asidAllocReturn, hi]
    have hrun := run.alloc hcall
    rw [Option.toFinset_some, Finset.union_comm, ← Finset.insert_eq, ← Finset.range_add_one] at hrun
    exact ⟨b', hrun⟩

end

/-- After any sequence of calls from the zero bitmap, with each `asid_free` on an ASID that is
held: the set bits are the ASIDs that are held; `asid_alloc` gives the smallest one that
nobody holds while there is one, and -E_NO_FREE_ENV with the bitmap as it was if and only if
all are held; no call changes the bit of another ASID. -/
theorem asid_allocator {b : ℕ → BitVec 32} {held : Finset ℕ} (run : AsidRun b held) :
    (∀ j, asidBit b j = true ↔ j ∈ held) ∧
    (held.card < NASID → ∃ i b', asidAllocReturn b = (0, some i, b') ∧ i < NASID ∧ i ∉ held ∧
      (∀ j < i, j ∈ held) ∧ asidBit b' i = true ∧ ∀ j ≠ i, asidBit b' j = asidBit b j) ∧
    ((asidAllocReturn b).1 = -E_NO_FREE_ENV ↔ ∀ i < NASID, i ∈ held) ∧
    ((∀ i < NASID, i ∈ held) → (asidAllocReturn b).2.2 = b) ∧
    ∀ i ∈ held, asidBit (asidFree b i) i = false ∧
      ∀ j ≠ i, asidBit (asidFree b i) j = asidBit b j := by
  have hset := run.asidSet
  refine ⟨hset.bit, fun hcard => ?_, ?_, fun hall => ?_, fun i _ => ⟨?_, fun j hj => ?_⟩⟩
  · obtain ⟨i, b', hi, hlt, hfree, hfirst, hbits⟩ := hset.alloc_first hcard
    refine ⟨i, b', by rw [asidAllocReturn, hi], hlt, hfree, hfirst, ?_, fun j hj => ?_⟩
    · rw [hbits, decide_eq_true rfl, Bool.or_true]
    · rw [hbits, decide_eq_false hj, Bool.or_false]
  · rw [← hset.alloc_eq_none, asidAllocReturn]
    cases asidAlloc b with
    | none => simp
    | some r => simp [E_NO_FREE_ENV]
  · rw [asidAllocReturn, hset.alloc_eq_none.mpr hall]
  · rw [asidBit_free, decide_eq_false (fun h => h rfl), Bool.and_false]
  · rw [asidBit_free, decide_eq_true hj, Bool.and_true]

/-- With 40 ASIDs held, the last one of the first word is freed and given out again. -/
theorem asid_allocator_reuse : ∃ b b', AsidRun b ((Finset.range 40).erase 31) ∧
    asidAllocReturn b = (0, some 31, b') ∧ asidBit b 31 = false ∧ asidBit b' 31 = true ∧
    ∀ j ≠ 31, asidBit b' j = true ↔ j < 40 := by
  obtain ⟨b₀, run₀⟩ := AsidRun.range (by decide : 40 ≤ NASID)
  have run := run₀.free (by decide : 31 ∈ Finset.range 40)
  obtain ⟨hbit, hsome, _⟩ := asid_allocator run
  obtain ⟨i, b', hr, _, hfree, hfirst, hset, hkept⟩ := hsome (by decide)
  obtain rfl : i = 31 := by
    simp only [Finset.mem_erase, Finset.mem_range] at hfree hfirst
    by_contra hne
    have hle : ¬31 < i := fun hlt => (hfirst 31 hlt).1 rfl
    omega
  refine ⟨asidFree b₀ 31, b', run, hr, ?_, hset, fun j hj => ?_⟩
  · have h31 := hbit 31
    simpa using h31
  · rw [hkept j hj, hbit]
    simp [hj]

end RiscvMos
