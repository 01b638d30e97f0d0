import RiscvMos.Mmu

/-! `memset` of string.c, with its byte and word loops, on addresses that do
not wrap. -/
namespace RiscvMos
open ByteMem

/-- `while (((u_long)dst & 3) && dst < max) *(u_char *)dst++ = byte;` -/
def memsetAlign (m : Mem) (dst max : ℕ) (byte : UInt8) : ℕ × Mem :=
  if dst &&& 3 ≠ 0 ∧ dst < max then memsetAlign (store m dst 1 byte.toNat) (dst+1) max byte
  else (dst, m)
  termination_by max-dst

/-- `while (dst + 4 <= max) { *(uint32_t *)dst = word; dst += 4; }` -/
def memsetWords (m : Mem) (dst max word : ℕ) : ℕ × Mem :=
  if dst+4 ≤ max then memsetWords (store m dst 4 word) (dst+4) max word else (dst, m)
  termination_by max-dst

/-- `while (dst < max) *(u_char *)dst++ = byte;` -/
def memsetBytes (m : Mem) (dst max : ℕ) (byte : UInt8) : Mem :=
  if dst < max then memsetBytes (store m dst 1 byte.toNat) (dst+1) max byte else m
  termination_by max-dst

/-- Returns `dstaddr` and the memory. -/
def memset (m : Mem) (dst c n : ℕ) : ℕ × Mem :=
  let max := dst+n
  let byte := UInt8.ofNat (c &&& 0xff)
  let word := byte.toNat ||| byte.toNat <<< 8 ||| byte.toNat <<< 16 ||| byte.toNat <<< 24
  let (d₁, m₁) := memsetAlign m dst max byte
  let (d₂, m₂) := memsetWords m₁ d₁ max word
  (dst, memsetBytes m₂ d₂ max byte)

/-! ### Every loop extends a fill -/

theorem store_byte_eq_fill (m : Mem) (a : ℕ) (c : UInt8) :
    store m a 1 c.toNat = fill m a 1 c := by
  funext b
  by_cases hb : a ≤ b ∧ b < a+1
  · have hba : b-a = 0 := by omega
    simp only [store, fill, hb, and_self, if_true, hba, Nat.pow_zero, Nat.div_one,
      UInt8.ofNat_toNat]
  · simp only [store, fill, hb, if_false]

theorem or_shiftLeft_of_lt (a b k : ℕ) (ha : a < 2^k) : a ||| b <<< k = a+b*2^k := by
  rw [Nat.or_comm, ← Nat.shiftLeft_add_eq_or_of_lt ha, Nat.shiftLeft_eq, Nat.add_comm]

theorem repeated_word_byte (c : UInt8) (i : ℕ) (hi : i < 4) :
    UInt8.ofNat ((c.toNat ||| c.toNat <<< 8 ||| c.toNat <<< 16 ||| c.toNat <<< 24)/256^i) =
      c := by
  have hc : c.toNat < 256 := c.toNat_lt
  have hsum : c.toNat ||| c.toNat <<< 8 ||| c.toNat <<< 16 ||| c.toNat <<< 24 =
      c.toNat*16843009 := by
    rw [or_shiftLeft_of_lt _ _ 8 (by omega), or_shiftLeft_of_lt _ _ 16 (by omega),
      or_shiftLeft_of_lt _ _ 24 (by omega)]
    omega
  rw [hsum]
  apply UInt8.toNat_inj.mp
  rw [UInt8.toNat_ofNat']
  have hcases : i = 0 ∨ i = 1 ∨ i = 2 ∨ i = 3 := by omega
  -- shifting out i copies of c leaves a sum whose other copies are multiples of 256
  have h1 : c.toNat*16843009/256 = c.toNat*65793 := by omega
  have h2 : c.toNat*16843009/65536 = c.toNat*257 := by omega
  have h3 : c.toNat*16843009/16777216 = c.toNat := by omega
  rcases hcases with rfl | rfl | rfl | rfl <;> simp only [Nat.reducePow, h1, h2, h3] <;> omega

theorem store_word_eq_fill (m : Mem) (a : ℕ) (c : UInt8) :
    store m a 4 (c.toNat ||| c.toNat <<< 8 ||| c.toNat <<< 16 ||| c.toNat <<< 24) =
      fill m a 4 c := by
  funext b
  by_cases hb : a ≤ b ∧ b < a+4
  · simp only [store, fill, hb, and_self, if_true]
    exact repeated_word_byte c (b-a) (by omega)
  · simp only [store, fill, hb, if_false]

theorem fill_fill (m : Mem) (a k n : ℕ) (c : UInt8) :
    fill (fill m a k c) (a+k) n c = fill m a (k+n) c := by
  funext b
  simp only [fill]
  grind

theorem fill_zero (m : Mem) (a : ℕ) (c : UInt8) : fill m a 0 c = m := by
  funext b
  have hb : ¬(a ≤ b ∧ b < a+0) := by omega
  simp only [fill, hb, if_false]

theorem memsetAlign_eq (m : Mem) (dst max : ℕ) (c : UInt8) (h : dst ≤ max) :
    ∃ k, dst+k ≤ max ∧ memsetAlign m dst max c = (dst+k, fill m dst k c) := by
  induction hk : max-dst generalizing m dst with
  | zero =>
    have hstop : ¬(dst &&& 3 ≠ 0 ∧ dst < max) := by omega
    refine ⟨0, by omega, ?_⟩
    rw [memsetAlign, if_neg hstop, Nat.add_zero, fill_zero]
  | succ n ih =>
    rw [memsetAlign]
    split_ifs with hgo
    · obtain ⟨k, hkm, he⟩ := ih (store m dst 1 c.toNat) (dst+1) (by omega) (by omega)
      refine ⟨1+k, by omega, ?_⟩
      rw [he, store_byte_eq_fill, fill_fill, Nat.add_assoc]
    · exact ⟨0, by omega, by rw [Nat.add_zero, fill_zero]⟩

theorem memsetWords_eq (m : Mem) (dst max : ℕ) (c : UInt8) (h : dst ≤ max) :
    ∃ k, dst+k ≤ max ∧ memsetWords m dst max
      (c.toNat ||| c.toNat <<< 8 ||| c.toNat <<< 16 ||| c.toNat <<< 24) =
        (dst+k, fill m dst k c) := by
  induction hk : max-dst using Nat.strong_induction_on generalizing m dst with
  | _ n ih =>
    rw [memsetWords]
    split_ifs with hgo
    · obtain ⟨k, hkm, he⟩ := ih (max-(dst+4)) (by omega)
        (store m dst 4 (c.toNat ||| c.toNat <<< 8 ||| c.toNat <<< 16 ||| c.toNat <<< 24))
        (dst+4) (by omega) rfl
      refine ⟨4+k, by omega, ?_⟩
      rw [he, store_word_eq_fill, fill_fill, Nat.add_assoc]
    · exact ⟨0, by omega, by rw [Nat.add_zero, fill_zero]⟩

theorem memsetBytes_eq (m : Mem) (dst max : ℕ) (c : UInt8) (h : dst ≤ max) :
    memsetBytes m dst max c = fill m dst (max-dst) c := by
  induction hk : max-dst generalizing m dst with
  | zero => rw [memsetBytes, if_neg (by omega), fill_zero]
  | succ n ih =>
    rw [memsetBytes, if_pos (by omega), ih _ _ (by omega) (by omega), store_byte_eq_fill,
      fill_fill, Nat.add_comm 1 n]

/-- The three loops together are one fill of the range. -/
theorem memset_eq_fill (m : Mem) (dst c n : ℕ) :
    memset m dst c n = (dst, fill m dst n (UInt8.ofNat (c &&& 0xff))) := by
  obtain ⟨k₁, h₁, e₁⟩ := memsetAlign_eq m dst (dst+n) (UInt8.ofNat (c &&& 0xff)) (by omega)
  obtain ⟨k₂, h₂, e₂⟩ := memsetWords_eq (fill m dst k₁ (UInt8.ofNat (c &&& 0xff)))
    (dst+k₁) (dst+n) (UInt8.ofNat (c &&& 0xff)) h₁
  simp only [memset, e₁, e₂]
  rw [memsetBytes_eq _ _ _ _ h₂, Nat.add_assoc, fill_fill, fill_fill]
  congr 2
  omega

theorem memset_sameOutside (m : Mem) (dst c n : ℕ) :
    SameOutside m (memset m dst c n).2 dst n := by
  rw [memset_eq_fill]
  exact fill_sameOutside _ _ _ _

end RiscvMos
