import RiscvMos.PrintFormat

/-! `print_num` with the size of its buffer: every index is checked against `char buf[length + 70]`,
and none means one outside of it. Where there is none the text is that of the unchecked loops. -/
namespace RiscvMos.PrintNum
open Function Buffer

/-- The `do`-`while` loop; `base` is at least 2. -/
def digitLoop (size base : ℕ) (upcase : Bool) (buf : ℕ → Char) (p u : ℕ) :
    Option ((ℕ → Char) × ℕ) := do
  let buf ← write size buf p (digitChar upcase (u%base))
  if 1 < base ∧ u/base ≠ 0 then digitLoop size base upcase buf (p+1) (u/base)
  else some (buf, p+1)
  termination_by u
  decreasing_by
    rename_i h
    exact div_base_lt h.1 h.2

/-- `for (; i < length; i++) buf[i] = padc;` -/
def padLoop (size : ℕ) (buf : ℕ → Char) (padc : Char) (i length : ℕ) : Option (ℕ → Char) :=
  if i < length then do
    let buf ← write size buf i padc
    padLoop size buf padc (i+1) length
  else some buf
  termination_by length-i

/-- `while (end > begin)` -/
def swapLoop (size : ℕ) (buf : ℕ → Char) (first last : ℕ) : Option (ℕ → Char) :=
  if last > first then do
    let tmp ← fetch size buf first
    let c ← fetch size buf last
    let buf ← write size buf first c
    let buf ← write size buf last tmp
    swapLoop size buf (first+1) (last-1)
  else some buf
  termination_by last-first

/-- The chunks that are passed to `out`. -/
def printNum (stack : ℕ → Char) (u base : ℕ) (neg_flag : Bool) (length : ℤ) (ladjust : Bool)
    (padc : Char) (upcase : Bool) : Option (List (List Char)) := do
  let size := (wrapInt (length+70)).toNat
  let (buf, p) ← digitLoop size base upcase stack 0 u
  let (buf, p) ←
    if neg_flag then do
      let buf ← write size buf p '-'
      some (buf, p+1)
    else some (buf, p)
  let actualLength := p
  let length := atLeast actualLength length
  let padc := if ladjust then ' ' else padc
  let buf ←
    if neg_flag ∧ ¬ladjust ∧ padc = '0' then do
      let buf ← padLoop size buf padc (actualLength-1) (length-1)
      write size buf (length-1) '-'
    else padLoop size buf padc actualLength length
  let last := if ladjust then actualLength-1 else length-1
  let buf ← swapLoop size buf 0 last
  let text ← fetchFirst size buf length
  some [text]

/-! ### Inside the buffer -/

section
variable {size base : ℕ} {buf : ℕ → Char}

theorem digitLoop_eq (hb : 1 < base) (upcase : Bool) {u p : ℕ}
    (h : p+(revDigits base upcase u).length ≤ size) :
    digitLoop size base upcase buf p u = some (RiscvMos.digitLoop base upcase buf p u) := by
  -- the digits that are left are those of the quotient
  induction u using Nat.strong_induction_on generalizing buf p with
  | _ u ih =>
    have hp : p < size := by
      have hpos := List.length_pos_iff.mpr (revDigits_ne_nil base upcase u)
      omega
    rw [digitLoop, RiscvMos.digitLoop, write_of_lt buf hp, Option.bind_eq_bind, Option.bind_some]
    by_cases hgo : 1 < base ∧ u/base ≠ 0
    · rw [if_pos hgo, if_pos hgo]
      rw [revDigits_step upcase hb hgo.2, List.length_cons] at h
      exact ih _ (div_base_lt hb hgo.2) (by omega)
    · rw [if_neg hgo, if_neg hgo]

theorem padLoop_eq (padc : Char) {i length : ℕ} (h : length ≤ size) :
    padLoop size buf padc i length = some (RiscvMos.padLoop buf padc i length) := by
  fun_induction RiscvMos.padLoop buf padc i length with
  | case1 buf i hi ih =>
    rw [padLoop, if_pos hi, write_of_lt buf (hi.trans_le h)]
    exact ih
  | case2 buf i hi => rw [padLoop, if_neg hi]

theorem swapLoop_eq {first last : ℕ} (h : last < size) :
    swapLoop size buf first last = some (RiscvMos.swapLoop buf first last) := by
  fun_induction RiscvMos.swapLoop buf first last with
  | case1 buf first last hlt tmp buf₁ buf₂ ih =>
    have hfirst : first < size := hlt.trans h
    rw [swapLoop, if_pos hlt, fetch_of_lt buf hfirst, fetch_of_lt buf h]
    simp only [Option.bind_eq_bind, Option.bind_some, write_of_lt _ hfirst, write_of_lt _ h]
    exact ih (by omega)
  | case2 buf first last hge => rw [swapLoop, if_neg hge]

end

theorem revDigits_length_le {base u : ℕ} (hb : 1 < base) (upcase : Bool) (hu : u < 2^64) :
    (revDigits base upcase u).length ≤ 64 := by
  unfold revDigits
  split_ifs with h0
  · rw [List.length_singleton]
    omega
  · rw [List.length_map, Nat.digits_length_le_iff hb]
    exact hu.trans_le (Nat.pow_le_pow_left hb 64)

theorem printNum_inside (stack : ℕ → Char) {u base : ℕ} (hb : 1 < base) (hu : u < 2^64)
    (neg_flag : Bool) {length : ℤ} (h0 : 0 ≤ length) (hlen : length ≤ 2^31-1-70) (ladjust : Bool)
    (padc : Char) (upcase : Bool) :
    printNum stack u base neg_flag length ladjust padc upcase =
      some [RiscvMos.printNum stack u base neg_flag length ladjust padc upcase] := by
  obtain ⟨n, rfl⟩ := Int.eq_ofNat_of_zero_le h0
  have hsize : (wrapInt (n+70)).toNat = n+70 := by
    have hwrap := wrapInt_of_lt (by omega : n+70 < 2^31)
    rw [Nat.cast_add, Nat.cast_ofNat] at hwrap
    rw [hwrap]
    omega
  have hdigits := revDigits_length_le hb upcase hu
  have hpos := List.length_pos_iff.mpr (revDigits_ne_nil base upcase u)
  rw [printNum, RiscvMos.printNum, hsize, digitLoop_eq hb upcase (by omega),
    RiscvMos.digitLoop_eq hb, Nat.zero_add]
  generalize put stack 0 (revDigits base upcase u) = buf
  generalize (revDigits base upcase u).length = p at hdigits hpos
  simp only [Option.bind_eq_bind, Option.bind_some]
  -- the number with its sign has at most 65 characters
  have hroom (q : ℕ) (hq : q ≤ 65) : q ≤ atLeast q n ∧ atLeast q n ≤ n+70 := by
    rw [atLeast_eq]
    omega
  cases neg_flag with
  | false =>
    obtain ⟨hle, hfit⟩ := hroom p (by omega)
    simp only [Bool.false_eq_true, false_and, if_false]
    rw [padLoop_eq _ hfit, Option.bind_some, swapLoop_eq (by split_ifs <;> omega),
      Option.bind_some, fetchFirst_of_le _ hfit]
    rfl
  | true =>
    obtain ⟨hle, hfit⟩ := hroom (p+1) (by omega)
    simp only [if_true, true_and, write_of_lt _ (by omega : p < n+70), Option.bind_some]
    by_cases hzero : ¬ladjust ∧ (if ladjust then ' ' else padc) = '0'
    · -- the sign moves to the last index of the field
      rw [if_pos hzero, if_pos hzero, padLoop_eq _ (by omega), Option.bind_some,
        write_of_lt _ (by omega), Option.bind_some, swapLoop_eq (by split_ifs <;> omega),
        Option.bind_some, fetchFirst_of_le _ hfit]
      rfl
    · rw [if_neg hzero, if_neg hzero, padLoop_eq _ hfit, Option.bind_some,
        swapLoop_eq (by split_ifs <;> omega), Option.bind_some, fetchFirst_of_le _ hfit]
      rfl

/-! ### The text -/

def signText (neg_flag : Bool) : List Char := if neg_flag then ['-'] else []

/-- What is left of `length` characters behind `text`. -/
def padding (length : ℤ) (text : List Char) (c : Char) : List Char :=
  List.replicate (length.toNat-text.length) c

/-- The text of `sign` and `digits` in a field of `length` characters: padded with spaces on the
right, with zeros behind the sign or with spaces on the left. -/
structure InField (length : ℤ) (ladjust : Bool) (padc : Char) (sign digits text : List Char) :
    Prop where
  length_eq : (text.length : ℤ) = max length (digits.length+sign.length)
  text_eq : text =
    if ladjust then sign ++ digits ++ padding length (sign ++ digits) ' '
    else if padc = '0' then sign ++ padding length (sign ++ digits) '0' ++ digits
    else padding length (sign ++ digits) ' ' ++ sign ++ digits

theorem field_inField {length : ℤ} (h0 : 0 ≤ length) (ladjust : Bool) {padc : Char}
    (hpadc : padc = ' ' ∨ padc = '0') (sign digits : List Char) :
    InField length ladjust padc sign digits (field length.toNat ladjust padc sign digits) where
  length_eq := by
    rw [field_length]
    omega
  text_eq := by
    simp only [field, padding, List.length_append]
    rcases hpadc with rfl | rfl
    · split_ifs <;> simp
    · rfl

/-- For every width that the size of the buffer allows `print_num` makes one call, with the
digits of `u` in the base and no zero in front of them. -/
theorem print_num_text (stack : ℕ → Char) (u : BitVec 64) {base : ℕ} (hbase : base ∈ [2, 8, 10, 16])
    (neg_flag : Bool) {length : ℤ} (h0 : 0 ≤ length) (hlen : length ≤ 2^31-1-70) (ladjust : Bool)
    {padc : Char} (hpadc : padc = ' ' ∨ padc = '0') (upcase : Bool) :
    ∃ text, printNum stack u.toNat base neg_flag length ladjust padc upcase = some [text] ∧
      InField length ladjust padc (signText neg_flag) (numeral base upcase u.toNat) text ∧
      (u = 0 → numeral base upcase u.toNat = ['0']) ∧
      (u ≠ 0 → (numeral base upcase u.toNat).head? ≠ some '0') := by
  have hbounds : 1 < base ∧ base ≤ 16 := by
    simp only [List.mem_cons, List.not_mem_nil, or_false] at hbase
    omega
  obtain ⟨hb, hle⟩ := hbounds
  refine ⟨_, ?_, field_inField h0 ladjust hpadc (signText neg_flag) _, ?_, ?_⟩
  · rw [printNum_inside stack hb u.isLt neg_flag h0 hlen, printNum_eq stack hb,
      revDigits_reverse hb hle, signText]
  · rintro rfl
    rfl
  · intro hu
    have hne : u.toNat ≠ 0 := fun h => hu (BitVec.eq_of_toNat_eq h)
    obtain ⟨c, cs, hcs, hc⟩ := numeral_cons hb hle upcase hne
    rw [hcs, List.head?_cons, ne_eq, Option.some.injEq]
    exact hc

theorem print_num_text_zeros :
    printNum (fun _ => ' ') (42#64).toNat 10 true 5 false '0' false =
      some [['-', '0', '0', '4', '2']] := by
  obtain ⟨text, hrun, hfield, -, -⟩ := print_num_text (fun _ => ' ') 42#64
    (by decide : 10 ∈ [2, 8, 10, 16]) true (by decide : (0 : ℤ) ≤ 5) (by decide) false
    (Or.inr rfl : '0' = ' ' ∨ '0' = '0') false
  rw [hrun, hfield.text_eq]
  rfl

end RiscvMos.PrintNum
