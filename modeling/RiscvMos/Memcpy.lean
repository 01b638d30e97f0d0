import RiscvMos.CString

/-! `memcpy` of string.c, with its byte and word loops, on addresses that do not wrap. -/
namespace RiscvMos
open ByteMem

/-- `while (((u_long)dst & 3) && dst < max) *(char *)dst++ = *(char *)src++;` -/
def memcpyAlign (m : Mem) (dst src max : ℕ) : ℕ × ℕ × Mem :=
  if dst &&& 3 ≠ 0 ∧ dst < max then
    memcpyAlign (store m dst 1 (m src).toNat) (dst+1) (src+1) max
  else (dst, src, m)
  termination_by max-dst

/-- `while (dst + 4 <= max) { *(uint32_t *)dst = *(uint32_t *)src; dst += 4; src += 4; }` -/
def memcpyWords (m : Mem) (dst src max : ℕ) : ℕ × ℕ × Mem :=
  if dst+4 ≤ max then memcpyWords (store m dst 4 (load m src 4)) (dst+4) (src+4) max
  else (dst, src, m)
  termination_by max-dst

/-- `while (dst < max) *(char *)dst++ = *(char *)src++;` -/
def memcpyBytes (m : Mem) (dst src max : ℕ) : Mem :=
  if dst < max then memcpyBytes (store m dst 1 (m src).toNat) (dst+1) (src+1) max else m
  termination_by max-dst

/-- Returns `dstaddr` and the memory. -/
def memcpy (m : Mem) (dst src n : ℕ) : ℕ × Mem :=
  let max := dst+n
  if src &&& 3 ≠ dst &&& 3 then (dst, memcpyBytes m dst src max)
  else
    let (d₁, s₁, m₁) := memcpyAlign m dst src max
    let (d₂, s₂, m₂) := memcpyWords m₁ d₁ s₁ max
    (dst, memcpyBytes m₂ d₂ s₂ max)

/-! ### Every loop extends a forward copy -/

theorem copyForward_one (m : Mem) (dst src : ℕ) :
    copyForward m dst src 1 = store m dst 1 (m src).toNat := rfl

/-- With equal alignment the distance of the two ranges is a multiple of four, so no byte of a
word is written before it is read. -/
theorem store_word_eq_copyForward (m : Mem) {dst src : ℕ} (h : src%4 = dst%4) :
    store m dst 4 (load m src 4) = copyForward m dst src 4 := by
  have hapart : dst ≤ src ∨ src+4 ≤ dst := by omega
  rw [store_load_eq_blit, copyForward_eq_blit m hapart]

theorem memcpyAlign_eq (m : Mem) (src : ℕ) {dst max : ℕ} (h : dst ≤ max) :
    ∃ k, dst+k ≤ max ∧
      memcpyAlign m dst src max = (dst+k, src+k, copyForward m dst src k) := by
  induction hk : max-dst generalizing m src dst with
  | zero =>
    have hstop : ¬(dst &&& 3 ≠ 0 ∧ dst < max) := by omega
    refine ⟨0, by omega, ?_⟩
    rw [memcpyAlign, if_neg hstop]
    rfl
  | succ n ih =>
    rw [memcpyAlign]
    split_ifs with hgo
    · obtain ⟨k, hkm, he⟩ := ih (store m dst 1 (m src).toNat) (src+1)
        (by omega : dst+1 ≤ max) (by omega)
      refine ⟨1+k, by omega, ?_⟩
      rw [he, copyForward_add, copyForward_one, Nat.add_assoc, Nat.add_assoc]
    · exact ⟨0, by omega, rfl⟩

theorem memcpyWords_eq (m : Mem) {dst src max : ℕ} (hmod : src%4 = dst%4) (h : dst ≤ max) :
    ∃ k, dst+k ≤ max ∧
      memcpyWords m dst src max = (dst+k, src+k, copyForward m dst src k) := by
  induction hk : max-dst using Nat.strong_induction_on generalizing m dst src with
  | _ n ih =>
    rw [memcpyWords]
    split_ifs with hgo
    · obtain ⟨k, hkm, he⟩ := ih (max-(dst+4)) (by omega) (store m dst 4 (load m src 4))
        (by omega : (src+4)%4 = (dst+4)%4) (by omega) rfl
      refine ⟨4+k, by omega, ?_⟩
      rw [he, copyForward_add, store_word_eq_copyForward m hmod, Nat.add_assoc, Nat.add_assoc]
    · exact ⟨0, by omega, rfl⟩

theorem memcpyBytes_eq (m : Mem) {dst src max : ℕ} (h : dst ≤ max) :
    memcpyBytes m dst src max = copyForward m dst src (max-dst) := by
  induction hk : max-dst generalizing m dst src with
  | zero =>
    rw [memcpyBytes, if_neg (by omega)]
    rfl
  | succ n ih =>
    rw [memcpyBytes, if_pos (by omega), ih _ (by omega) (by omega), Nat.add_comm n 1,
      copyForward_add, copyForward_one]

theorem memcpy_eq_copyForward (m : Mem) (dst src n : ℕ) :
    memcpy m dst src n = (dst, copyForward m dst src n) := by
  have hthree (a : ℕ) : a &&& 3 = a%4 := Nat.and_two_pow_sub_one_eq_mod a 2
  rw [memcpy]
  simp only [hthree]
  split_ifs with hmod
  · rw [memcpyBytes_eq m (by omega), Nat.add_sub_cancel_left]
  · obtain ⟨k₁, h₁, e₁⟩ := memcpyAlign_eq m src (by omega : dst ≤ dst+n)
    obtain ⟨k₂, h₂, e₂⟩ := memcpyWords_eq (copyForward m dst src k₁)
      (by omega : (src+k₁)%4 = (dst+k₁)%4) h₁
    have hlen : n = k₁+(k₂+(dst+n-(dst+k₁+k₂))) := by omega
    rw [e₁]
    dsimp only
    rw [e₂]
    dsimp only
    rw [memcpyBytes_eq _ h₂, hlen, copyForward_add, copyForward_add, ← hlen]

theorem memcpy_eq_blit (m : Mem) {dst src n : ℕ} (h : src+n ≤ dst ∨ dst+n ≤ src) :
    memcpy m dst src n = (dst, blit m dst n (fun i => m (src+i))) := by
  rw [memcpy_eq_copyForward, copyForward_eq_blit m (by omega)]

/-- For any alignment, also where the ranges overlap, `memcpy` is the loop over the bytes; for
disjoint ranges the destination holds what the source held, and nothing else changes. -/
theorem memcpy_copies (m : Mem) (dst src n : ℕ) :
    memcpy m dst src n = (dst, copyForward m dst src n) ∧
    (src+n ≤ dst ∨ dst+n ≤ src →
      (∀ k < n, (memcpy m dst src n).2 (dst+k) = m (src+k)) ∧
        SameOutside m (memcpy m dst src n).2 dst n) := by
  refine ⟨memcpy_eq_copyForward m dst src n, fun h => ?_⟩
  rw [memcpy_eq_blit m h]
  dsimp only
  refine ⟨fun k hk => ?_, blit_sameOutside m dst n _⟩
  have hin : dst ≤ dst+k ∧ dst+k < dst+n := by omega
  rw [blit, if_pos hin, Nat.add_sub_cancel_left]

/-- Five bytes to an address of the same alignment. -/
theorem memcpy_copies_five (m : Mem) :
    memcpy m 0x1001 0x2005 5 = (0x1001, copyForward m 0x1001 0x2005 5) ∧
      (memcpy m 0x1001 0x2005 5).2 0x1005 = m 0x2009 :=
  ⟨(memcpy_copies m 0x1001 0x2005 5).1,
    ((memcpy_copies m 0x1001 0x2005 5).2 (.inr (by decide))).1 4 (by decide)⟩

end RiscvMos
