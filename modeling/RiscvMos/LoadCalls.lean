import RiscvMos.SegmentPlan
import RiscvMos.UserSpace

/-! Where the calls of `elf_load_seg` map different pages below MAXVA, they cover the segment. -/
namespace RiscvMos
open ByteMem

/-! ### The pages of the segment -/

theorem loopCalls_cons (ph : Phdr) (bin : ℕ) {i : ℕ} (hi : i < max ph.p_filesz ph.p_memsz) :
    ∃ c, c.va = (ph.p_vaddr+i)%2^64 ∧
      binCalls ph bin i ++ zeroCalls ph (i+4096*loopPages ph.p_filesz i) =
        c :: (binCalls ph bin (i+PAGE_SIZE) ++
          zeroCalls ph (i+PAGE_SIZE+4096*loopPages ph.p_filesz (i+PAGE_SIZE))) := by
  have hpage : PAGE_SIZE = 4096 := rfl
  by_cases hfile : i < ph.p_filesz
  · have hend : i+4096*loopPages ph.p_filesz i =
        i+PAGE_SIZE+4096*loopPages ph.p_filesz (i+PAGE_SIZE) := by
      rw [loopPages_next hfile]
      omega
    rw [hend, binCalls, if_pos hfile, List.cons_append]
    exact ⟨_, rfl, rfl⟩
  · have hnext : binCalls ph bin (i+PAGE_SIZE) = [] := by
      rw [binCalls, if_neg (by omega)]
    rw [hnext, binCalls, if_neg hfile, loopPages_end (by omega), loopPages_end (by omega),
      Nat.mul_zero, Nat.add_zero, Nat.add_zero, List.nil_append, List.nil_append, zeroCalls,
      if_pos (by omega)]
    exact ⟨_, rfl, rfl⟩

theorem loopCalls_turn (ph : Phdr) (bin j : ℕ) : ∀ {i}, i+4096*j < max ph.p_filesz ph.p_memsz →
    ∃ c ∈ binCalls ph bin i ++ zeroCalls ph (i+4096*loopPages ph.p_filesz i),
      c.va = (ph.p_vaddr+(i+4096*j))%2^64 := by
  have hpage : PAGE_SIZE = 4096 := rfl
  induction j with
  | zero =>
    intro i hi
    obtain ⟨c, hva, heq⟩ := loopCalls_cons ph bin hi
    rw [Nat.mul_zero, Nat.add_zero] at hva heq ⊢
    rw [heq]
    exact ⟨c, List.mem_cons_self, hva⟩
  | succ j ih =>
    intro i hi
    obtain ⟨_, _, heq⟩ := loopCalls_cons ph bin (by omega : i < max ph.p_filesz ph.p_memsz)
    obtain ⟨c, hc, hva⟩ := ih (by omega : i+PAGE_SIZE+4096*j < max ph.p_filesz ph.p_memsz)
    have hi' : i+PAGE_SIZE+4096*j = i+4096*(j+1) := by omega
    rw [hi'] at hva
    rw [heq]
    exact ⟨c, List.mem_cons_of_mem _ hc, hva⟩

/-- From an index on a page boundary, calls below MAXVA cover the rest of the segment. -/
theorem loopCalls_cover {ph : Phdr} {bin i : ℕ} (hal : (ph.p_vaddr+i)%4096 = 0)
    (hi : ph.p_vaddr+i < 2^64)
    (hlow : ∀ c ∈ binCalls ph bin i ++ zeroCalls ph (i+4096*loopPages ph.p_filesz i), c.va < 2^38)
    {k : ℕ} (hik : i ≤ k) (hk : k < ph.p_memsz) :
    ph.p_vaddr+k < 2^38 ∧ ∃ c ∈ binCalls ph bin i ++ zeroCalls ph (i+4096*loopPages ph.p_filesz i),
      c.page = (ph.p_vaddr+k)/PAGE_SIZE := by
  have hpage : PAGE_SIZE = 4096 := rfl
  have hcall (j : ℕ) (hj : i+4096*j < max ph.p_filesz ph.p_memsz)
      (h64 : ph.p_vaddr+(i+4096*j) < 2^64) : ph.p_vaddr+(i+4096*j) < 2^38 := by
    obtain ⟨c, hc, hva⟩ := loopCalls_turn ph bin _ hj
    have h38 := hlow c hc
    rwa [hva, Nat.mod_eq_of_lt h64] at h38
  -- the addresses of the calls do not wrap
  have hturn (j : ℕ) (hj : i+4096*j < max ph.p_filesz ph.p_memsz) : ph.p_vaddr+(i+4096*j) < 2^38 := by
    induction j with
    | zero => exact hcall 0 hj (by rwa [Nat.mul_zero, Nat.add_zero])
    | succ j ih =>
      have hprev := ih (by omega)
      apply hcall (j+1) hj
      rw [Nat.mul_add_one, ← Nat.add_assoc i, ← Nat.add_assoc ph.p_vaddr]
      exact (Nat.add_lt_add_right hprev 4096).trans (by decide)
  have hj : i+4096*((k-i)/4096) < max ph.p_filesz ph.p_memsz := by omega
  have h38 := hturn _ hj
  obtain ⟨c, hc, hva⟩ := loopCalls_turn ph bin _ hj
  rw [Nat.mod_eq_of_lt (by omega)] at hva
  refine ⟨by omega, c, hc, ?_⟩
  rw [MapCall.page, hva, hpage]
  omega

theorem segCalls_cover {ph : Phdr} (hva : ph.p_vaddr < 2^64) {bin : ℕ}
    (hlow : ∀ c ∈ segCalls ph bin, c.va < 2^38)
    (hdistinct : ((segCalls ph bin).map MapCall.page).Nodup) {k : ℕ} (hk : k < ph.p_memsz) :
    ph.p_vaddr+k < 2^38 ∧ ∃ c ∈ segCalls ph bin, c.page = (ph.p_vaddr+k)/PAGE_SIZE := by
  have hpage : PAGE_SIZE = 4096 := rfl
  rw [segCalls, List.append_assoc] at hlow hdistinct ⊢
  by_cases h0 : ph.p_vaddr%4096 = 0
  · simp only [firstCalls, binStart, h0, ne_eq, not_true_eq_false, if_false, List.nil_append]
      at hlow ⊢
    exact loopCalls_cover (by omega) (by omega) hlow (Nat.zero_le k) hk
  simp only [firstCalls, binStart, h0, ne_eq, not_false_eq_true, if_true, List.singleton_append]
    at hlow hdistinct ⊢
  obtain ⟨hfirst, hrest⟩ := List.forall_mem_cons.mp hlow
  dsimp only at hfirst
  by_cases hfill : 4096-ph.p_vaddr%4096 ≤ ph.p_filesz
  · have hmin : min ph.p_filesz (PAGE_SIZE-ph.p_vaddr%4096) = 4096-ph.p_vaddr%4096 := by omega
    by_cases hin : k < 4096-ph.p_vaddr%4096
    · refine ⟨by omega, _, List.mem_cons_self, ?_⟩
      simp only [MapCall.page, hpage]
      omega
    · rw [hmin] at hrest ⊢
      obtain ⟨h38, c, hc, hcp⟩ := loopCalls_cover (by omega) (by omega) hrest (by omega) hk
      exact ⟨h38, c, List.mem_cons_of_mem _ hc, hcp⟩
  · -- the file ends in the first page, and a call for more would map that page again
    have hmin : min ph.p_filesz (PAGE_SIZE-ph.p_vaddr%4096) = ph.p_filesz := by omega
    have hend : ph.p_memsz ≤ ph.p_filesz := by
      by_contra hmore
      rw [hmin, List.map_cons, List.nodup_cons] at hdistinct
      obtain ⟨c, hc, hcva⟩ := loopCalls_turn ph bin 0
        (by omega : ph.p_filesz+4096*0 < max ph.p_filesz ph.p_memsz)
      apply hdistinct.1
      refine List.mem_map.mpr ⟨c, hc, ?_⟩
      rw [Nat.mul_zero, Nat.add_zero, Nat.mod_eq_of_lt (by omega)] at hcva
      simp only [MapCall.page, hcva, hpage]
      omega
    refine ⟨by omega, _, List.mem_cons_self, ?_⟩
    simp only [MapCall.page, hpage]
    omega

end RiscvMos
