import RiscvMos.CString
import Mathlib.Data.BitVec

/-! `memset` of string.c on machine integers: pointers of 64 bits, an `int` for the byte and a
word that is put together by shifts. Where no address wraps it is the `memset` on naturals. -/
namespace RiscvMos.Memset
open ByteMem

/-- `u_char byte = c & 0xff;` -/
def byteOf (c : BitVec 32) : BitVec 8 := (c &&& 0xff).setWidth 8

/-- `uint32_t word = byte | byte << 8 | byte << 16 | byte << 24;`, where `byte` is an `int`. -/
def wordOf (byte : BitVec 8) : BitVec 32 :=
  let byte := byte.setWidth 32
  byte ||| byte <<< 8 ||| byte <<< 16 ||| byte <<< 24

/-- `while (((u_long)dst & 3) && dst < max)`, with a bound on the turns. -/
def alignLoop : ℕ → Mem → BitVec 64 → BitVec 64 → BitVec 8 → Option (BitVec 64 × Mem)
  | 0, _, _, _, _ => none
  | fuel+1, m, dst, max, byte =>
    if dst &&& 3 ≠ 0 ∧ dst < max then
      alignLoop fuel (store m dst.toNat 1 byte.toNat) (dst+1) max byte
    else some (dst, m)

/-- `while (dst + 4 <= max)` -/
def wordLoop : ℕ → Mem → BitVec 64 → BitVec 64 → BitVec 32 → Option (BitVec 64 × Mem)
  | 0, _, _, _, _ => none
  | fuel+1, m, dst, max, word =>
    if dst+4 ≤ max then wordLoop fuel (store m dst.toNat 4 word.toNat) (dst+4) max word
    else some (dst, m)

/-- `while (dst < max)` -/
def byteLoop : ℕ → Mem → BitVec 64 → BitVec 64 → BitVec 8 → Option Mem
  | 0, _, _, _, _ => none
  | fuel+1, m, dst, max, byte =>
    if dst < max then byteLoop fuel (store m dst.toNat 1 byte.toNat) (dst+1) max byte
    else some m

/-- Returns `dstaddr` and the memory. -/
def memset (fuel : ℕ) (m : Mem) (dst : BitVec 64) (c : BitVec 32) (n : BitVec 64) :
    Option (BitVec 64 × Mem) := do
  let dstaddr := dst
  let max := dst+n
  let byte := byteOf c
  let word := wordOf byte
  let (dst, m) ← alignLoop fuel m dst max byte
  let (dst, m) ← wordLoop fuel m dst max word
  let m ← byteLoop fuel m dst max byte
  some (dstaddr, m)

/-! ### The byte and the word -/

theorem byteOf_eq (c : BitVec 32) : UInt8.ofBitVec (byteOf c) = UInt8.ofNat (c.toNat &&& 0xff) := by
  apply UInt8.toNat_inj.mp
  show (byteOf c).toNat = _
  rw [byteOf, BitVec.toNat_setWidth, BitVec.toNat_and, UInt8.toNat_ofNat']
  rfl

/-- The highest shift goes into the sign bit of the `int`, and none goes out of it. -/
theorem wordOf_toNat (byte : BitVec 8) : (wordOf byte).toNat =
    byte.toNat ||| byte.toNat <<< 8 ||| byte.toNat <<< 16 ||| byte.toNat <<< 24 := by
  have hb : byte.toNat < 2^8 := byte.isLt
  have hshift (k : ℕ) (hk : k ≤ 24) : byte.toNat <<< k%2^32 = byte.toNat <<< k := by
    apply Nat.mod_eq_of_lt
    rw [Nat.shiftLeft_eq]
    calc
      byte.toNat*2^k < 2^8*2^k := Nat.mul_lt_mul_of_pos_right hb (Nat.two_pow_pos k)
      _ ≤ 2^8*2^24 := Nat.mul_le_mul_left _ (Nat.pow_le_pow_right (by decide) hk)
      _ = 2^32 := rfl
  have hwidth : (byte.setWidth 32).toNat = byte.toNat := by
    rw [BitVec.toNat_setWidth, Nat.mod_eq_of_lt (by omega)]
  simp only [wordOf, BitVec.toNat_or, BitVec.toNat_shiftLeft, hwidth]
  rw [hshift 8 (by decide), hshift 16 (by decide), hshift 24 (by decide)]

/-! ### Without a wrap every loop is the one on naturals -/

section
variable {m : Mem} {dst max n : BitVec 64} {fuel : ℕ}

theorem toNat_add_of_lt {a b : BitVec 64} (h : a.toNat+b.toNat < 2^64) :
    (a+b).toNat = a.toNat+b.toNat := by
  rw [BitVec.toNat_add, Nat.mod_eq_of_lt h]

theorem succ_toNat (h : dst < max) : (dst+1).toNat = dst.toNat+1 :=
  toNat_add_of_lt ((Nat.succ_le_of_lt h).trans_lt max.isLt)

theorem unaligned_iff (dst : BitVec 64) : dst &&& 3 ≠ 0 ↔ dst.toNat &&& 3 ≠ 0 := by
  rw [ne_eq, ne_eq, ← BitVec.toNat_inj, BitVec.toNat_and]
  rfl

theorem alignLoop_eq (byte : BitVec 8) (hle : dst.toNat ≤ max.toNat)
    (hfuel : max.toNat-dst.toNat < fuel) :
    ∃ d m', alignLoop fuel m dst max byte = some (d, m') ∧ dst.toNat ≤ d.toNat ∧
      d.toNat ≤ max.toNat ∧
      memsetAlign m dst.toNat max.toNat (UInt8.ofBitVec byte) = (d.toNat, m') := by
  induction fuel generalizing m dst with
  | zero => exact absurd hfuel (Nat.not_lt_zero _)
  | succ fuel ih =>
    have hiff : dst &&& 3 ≠ 0 ∧ dst < max ↔ dst.toNat &&& 3 ≠ 0 ∧ dst.toNat < max.toNat :=
      and_congr (unaligned_iff dst) BitVec.lt_def
    rw [alignLoop, memsetAlign]
    by_cases hgo : dst &&& 3 ≠ 0 ∧ dst < max
    · have hlt : dst.toNat < max.toNat := (hiff.mp hgo).2
      have hnext := succ_toNat hgo.2
      obtain ⟨d, m', hrun, hlow, hhigh, hnat⟩ :=
        @ih (store m dst.toNat 1 byte.toNat) (dst+1) (by omega) (by omega)
      rw [hnext] at hlow hnat
      rw [if_pos hgo, if_pos (hiff.mp hgo)]
      exact ⟨d, m', hrun, Nat.le_of_succ_le hlow, hhigh, hnat⟩
    · rw [if_neg hgo, if_neg (hiff.not.mp hgo)]
      exact ⟨dst, m, rfl, le_rfl, hle, rfl⟩

theorem wordLoop_eq (byte : BitVec 8) (hle : dst.toNat ≤ max.toNat)
    (hwrap : max.toNat+4 < 2^64) (hfuel : max.toNat-dst.toNat < fuel) :
    ∃ d m', wordLoop fuel m dst max (wordOf byte) = some (d, m') ∧ dst.toNat ≤ d.toNat ∧
      d.toNat ≤ max.toNat ∧
      memsetWords m dst.toNat max.toNat (wordOf byte).toNat = (d.toNat, m') := by
  induction fuel generalizing m dst with
  | zero => exact absurd hfuel (Nat.not_lt_zero _)
  | succ fuel ih =>
    -- `dst + 4` is compared before the word is stored, so it must not wrap behind the range either
    have hfour : (4 : BitVec 64).toNat = 4 := rfl
    have hnext : (dst+4).toNat = dst.toNat+4 := toNat_add_of_lt (by omega)
    have hiff : dst+4 ≤ max ↔ dst.toNat+4 ≤ max.toNat := by rw [BitVec.le_def, hnext]
    rw [wordLoop, memsetWords]
    by_cases hgo : dst+4 ≤ max
    · have hlast := hiff.mp hgo
      obtain ⟨d, m', hrun, hlow, hhigh, hnat⟩ :=
        @ih (store m dst.toNat 4 (wordOf byte).toNat) (dst+4) (by omega) (by omega)
      rw [hnext] at hlow hnat
      rw [if_pos hgo, if_pos hlast]
      exact ⟨d, m', hrun, by omega, hhigh, hnat⟩
    · rw [if_neg hgo, if_neg (hiff.not.mp hgo)]
      exact ⟨dst, m, rfl, le_rfl, hle, rfl⟩

theorem byteLoop_eq (byte : BitVec 8) (hfuel : max.toNat-dst.toNat < fuel) :
    byteLoop fuel m dst max byte =
      some (memsetBytes m dst.toNat max.toNat (UInt8.ofBitVec byte)) := by
  induction fuel generalizing m dst with
  | zero => exact absurd hfuel (Nat.not_lt_zero _)
  | succ fuel ih =>
    rw [byteLoop, memsetBytes]
    by_cases hgo : dst < max
    · have hlt : dst.toNat < max.toNat := BitVec.lt_def.mp hgo
      have hnext := succ_toNat hgo
      rw [if_pos hgo, if_pos hlt, ih (by omega), hnext]
      rfl
    · rw [if_neg hgo, if_neg (BitVec.lt_def.not.mp hgo)]

theorem memset_eq (m : Mem) (c : BitVec 32) (hwrap : dst.toNat+n.toNat+4 < 2^64)
    (hfuel : n.toNat < fuel) : memset fuel m dst c n =
      some (dst, (RiscvMos.memset m dst.toNat c.toNat n.toNat).2) := by
  have hmax : (dst+n).toNat = dst.toNat+n.toNat := toNat_add_of_lt (by omega)
  -- each loop starts where the one before it stopped, at or before the end of the range
  obtain ⟨d₁, m₁, hrun₁, hlow₁, hhigh₁, hnat₁⟩ :=
    @alignLoop_eq m dst (dst+n) fuel (byteOf c) (by omega) (by omega)
  obtain ⟨d₂, m₂, hrun₂, hlow₂, hhigh₂, hnat₂⟩ :=
    @wordLoop_eq m₁ d₁ (dst+n) fuel (byteOf c) hhigh₁ (by omega) (by omega)
  have hrun₃ := @byteLoop_eq m₂ d₂ (dst+n) fuel (byteOf c) (by omega)
  have hbyte : (UInt8.ofNat (c.toNat &&& 0xff)).toNat = (byteOf c).toNat := by
    rw [← byteOf_eq]
    rfl
  rw [byteOf_eq, hmax] at hnat₁ hrun₃
  rw [hmax, wordOf_toNat] at hnat₂
  simp only [memset, RiscvMos.memset, hrun₁, hrun₂, hrun₃, hnat₁, hbyte, hnat₂, Option.bind_eq_bind,
    Option.bind_some]

/-- For every `int`, every alignment and every range whose end has four bytes behind it, `memset`
returns `dst` and has written the low byte of `c` to the whole range and nowhere else. -/
theorem memset_fills (m : Mem) {dst n : BitVec 64} (c : BitVec 32)
    (hwrap : dst.toNat+n.toNat+4 < 2^64) : ∀ fuel > n.toNat,
    ∃ m', memset fuel m dst c n = some (dst, m') ∧
      (∀ b, dst.toNat ≤ b → b < dst.toNat+n.toNat → ((m' b).toNat : ℤ) = c.toInt%256) ∧
      SameOutside m m' dst.toNat n.toNat := by
  intro fuel hfuel
  have hrun : memset fuel m dst c n =
      some (dst, fill m dst.toNat n.toNat (UInt8.ofNat (c.toNat &&& 0xff))) := by
    rw [memset_eq m c hwrap hfuel, memset_eq_fill]
  refine ⟨_, hrun, fun b hlow hhigh => ?_, fill_sameOutside _ _ _ _⟩
  have hand : c.toNat &&& 0xff = c.toNat%2^8 := Nat.and_two_pow_sub_one_eq_mod c.toNat 8
  have hlast : c.toInt%256 = ((c.toNat%256 : ℕ) : ℤ) := by
    rw [BitVec.toInt_eq_toNat_cond]
    split_ifs <;> push_cast <;> omega
  rw [fill_apply_mem _ _ _ _ _ ⟨hlow, hhigh⟩, UInt8.toNat_ofNat', hand, Nat.mod_mod, hlast]
  rfl

end

/-- Three bytes of the `int` -1 to an odd address. -/
theorem memset_fills_three :
    ∃ m', memset 4 (fun _ => 0) 0x1001 (-1) 3 = some (0x1001, m') ∧
      ((m' 0x1003).toNat : ℤ) = (-1)%256 ∧ m' 0x1004 = 0 := by
  obtain ⟨m', hrun, hfill, hsame⟩ := @memset_fills (fun _ => 0) 0x1001 3 (-1) (by decide) 4 (by decide)
  exact ⟨m', hrun, hfill 0x1003 (by decide) (by decide), hsame 0x1004 (by decide)⟩

end RiscvMos.Memset
