import RiscvMos.LibCDecl
import RiscvMos.PrintSpec

/-! The text that `vprintfmt` should print, and when it does: an argument of 32 bits is
extended as a signed number also where it is printed as an unsigned one. -/
namespace RiscvMos
open Function Buffer

/-! ### Formats -/

inductive Conv
  | b | d | D | o | O | u | U | x | X | c | s
  deriving DecidableEq

def Conv.char : Conv → Char
  | .b => 'b'
  | .d => 'd'
  | .D => 'D'
  | .o => 'o'
  | .O => 'O'
  | .u => 'u'
  | .U => 'U'
  | .x => 'x'
  | .X => 'X'
  | .c => 'c'
  | .s => 's'

/-- What a conversion prints. -/
inductive Kind
  | signed
  | unsigned (base : ℕ) (upcase : Bool)
  | char
  | string

def Conv.kind : Conv → Kind
  | .b => .unsigned 2 false
  | .d | .D => .signed
  | .o | .O => .unsigned 8 false
  | .u | .U => .unsigned 10 false
  | .x => .unsigned 16 false
  | .X => .unsigned 16 true
  | .c => .char
  | .s => .string

/-- `%[-][0][width][l]c`, with the digits of the width. A zero in front of the width is the flag. -/
structure Directive where
  minus : Bool
  zero : Bool
  digits : List ℕ
  long : Bool
  conv : Conv
  digits_lt : ∀ i ∈ digits, i < 10
  digits_head : zero = false → digits.head? ≠ some 0

inductive Item
  | lit (c : Char) (hc : c ≠ '%')
  | percent
  | dir (d : Directive)

namespace Directive

def width (d : Directive) : ℕ := Nat.ofDigits 10 d.digits.reverse

/-- The directive behind its '%'. -/
def body (d : Directive) : List Char :=
  (if d.minus then ['-'] else []) ++ ((if d.zero then ['0'] else []) ++
    (d.digits.map Nat.digitChar ++ ((if d.long then ['l'] else []) ++ [d.conv.char])))

end Directive

def Item.format : Item → List Char
  | .lit c _ => [c]
  | .percent => ['%', '%']
  | .dir d => '%' :: d.body

def formatOf (items : List Item) : List Char := items.flatMap Item.format

/-! ### The reference -/

/-- The digits of `n` in a base up to 16. -/
def numeral (base : ℕ) (upcase : Bool) (n : ℕ) : List Char :=
  let digit (i : ℕ) := if upcase then (Nat.digitChar i).toUpper else Nat.digitChar i
  if n = 0 then ['0'] else ((Nat.digits base n).map digit).reverse

namespace Directive

def number (d : Directive) (neg : Bool) (base : ℕ) (upcase : Bool) (n : ℕ) : List Char :=
  field d.width d.minus (if d.zero then '0' else ' ') (if neg then ['-'] else [])
    (numeral base upcase n)

/-- The text for an argument of the type that the directive takes. -/
def text (d : Directive) : Arg → Option (List Char)
  | .int v =>
    match d.conv.kind, d.long with
    | .signed, false => some (d.number (v.toInt < 0) 10 false v.toInt.natAbs)
    | .unsigned base upcase, false => some (d.number false base upcase v.toNat)
    | .char, _ => some (field d.width d.minus ' ' [] [Char.ofNat (v.toNat%256)])
    | _, _ => none
  | .long v =>
    match d.conv.kind, d.long with
    | .signed, true => some (d.number (v.toInt < 0) 10 false v.toInt.natAbs)
    | .unsigned base upcase, true => some (d.number false base upcase v.toNat)
    | _, _ => none
  | .str s =>
    match d.conv.kind with
    | .string => some (field d.width d.minus ' ' [] s)
    | _ => none

end Directive

/-- The text of a format, where the argument list matches it. -/
def reference : List Item → List Arg → Option (List Char)
  | [], [] => some []
  | .lit c _ :: items, ap => (reference items ap).map (fun t => c :: t)
  | .percent :: items, ap => (reference items ap).map (fun t => '%' :: t)
  | .dir d :: items, a :: ap => do
    let t ← d.text a
    let ts ← reference items ap
    some (t ++ ts)
  | _, _ => none

/-! ### Numerals -/

theorem Conv.base_bounds {conv : Conv} {base : ℕ} {upcase : Bool}
    (h : conv.kind = .unsigned base upcase) : 1 < base ∧ base ≤ 16 := by
  cases conv <;> cases h <;> decide

theorem digitChar_eq {i : ℕ} (hi : i < 16) (upcase : Bool) :
    digitChar upcase i = if upcase then (Nat.digitChar i).toUpper else Nat.digitChar i := by
  have hall : ∀ i < 16, ∀ upcase, digitChar upcase i =
      if upcase then (Nat.digitChar i).toUpper else Nat.digitChar i := by decide
  exact hall i hi upcase

theorem revDigits_reverse {base : ℕ} (hb : 1 < base) (hle : base ≤ 16) (upcase : Bool) (n : ℕ) :
    (revDigits base upcase n).reverse = numeral base upcase n := by
  unfold revDigits numeral
  by_cases h0 : n = 0
  · rw [if_pos h0, if_pos h0, digitChar_eq (by decide)]
    cases upcase <;> rfl
  · rw [if_neg h0, if_neg h0]
    apply congrArg List.reverse
    apply List.map_congr_left
    intro i hi
    exact digitChar_eq ((Nat.digits_lt_base hb hi).trans_le hle) upcase

theorem mem_numeral {base : ℕ} (hb : 1 < base) (hle : base ≤ 16) {upcase : Bool} {n : ℕ} {c : Char}
    (hc : c ∈ numeral base upcase n) : c ≠ ' ' := by
  have hdigit : ∀ i < 16, ∀ upcase, digitChar upcase i ≠ ' ' := by decide
  rw [← revDigits_reverse hb hle, List.mem_reverse] at hc
  unfold revDigits at hc
  split_ifs at hc with h0
  · rw [List.mem_singleton.mp hc]
    exact hdigit 0 (by decide) upcase
  · obtain ⟨i, hi, rfl⟩ := List.mem_map.mp hc
    exact hdigit i ((Nat.digits_lt_base hb hi).trans_le hle) upcase

theorem numeral_cons {base : ℕ} (hb : 1 < base) (hle : base ≤ 16) (upcase : Bool) {n : ℕ} (h0 : n ≠ 0) :
    ∃ c cs, numeral base upcase n = c :: cs ∧ c ≠ '0' := by
  have hdigit : ∀ i < 16, ∀ upcase, i ≠ 0 → digitChar upcase i ≠ '0' := by decide
  have hne : Nat.digits base n ≠ [] := Nat.digits_ne_nil_iff_ne_zero.mpr h0
  have hlast := Nat.digits_lt_base hb (List.getLast_mem hne)
  rw [← revDigits_reverse hb hle, revDigits, if_neg h0, ← List.dropLast_append_getLast hne,
    List.map_append, List.reverse_append]
  refine ⟨_, _, rfl, ?_⟩
  exact hdigit _ (hlast.trans_le hle) upcase (Nat.getLast_digit_ne_zero base h0)

theorem numeral_length (base : ℕ) (upcase : Bool) {n : ℕ} (h0 : n ≠ 0) :
    (numeral base upcase n).length = (Nat.digits base n).length := by
  rw [numeral, if_neg h0, List.length_reverse, List.length_map]

theorem numeral_eq {base n : ℕ} (h0 : n ≠ 0) :
    numeral base false n = ((Nat.digits base n).map Nat.digitChar).reverse :=
  if_neg h0

theorem digitsVal_numeral {base : ℕ} (hb : 1 < base) (hle : base ≤ 16) (n : ℕ) :
    CDecl.digitsVal base 0 (numeral base false n) = some n := by
  by_cases h0 : n = 0
  · subst h0
    show (if 0 < base then some (0*base+0) else none) = some 0
    rw [if_pos (by omega), Nat.zero_mul]
  · rw [numeral_eq h0, CDecl.digitsVal_digits hle _ (fun d hd => Nat.digits_lt_base hb hd),
      Nat.ofDigits_digits]

/-! ### Fields -/

theorem field_length (width : ℕ) (ladjust : Bool) (padc : Char) (sign digits : List Char) :
    (field width ladjust padc sign digits).length = max width (sign.length+digits.length) := by
  unfold field
  dsimp only
  split_ifs <;> simp only [List.length_append, List.length_replicate] <;> omega

theorem dropWhile_zeros (k : ℕ) {c : Char} (cs : List Char) (hc : c ≠ '0') :
    (List.replicate k '0' ++ c :: cs).dropWhile (fun x => x = '0') = c :: cs := by
  induction k with
  | zero => simp [hc]
  | succ k ih => rw [List.replicate_succ, List.cons_append, List.dropWhile_cons_of_pos (by simp), ih]

theorem filter_pad (k : ℕ) : (List.replicate k ' ').filter (fun c => c ≠ ' ') = [] := by
  rw [List.filter_eq_nil_iff]
  intro c hc
  simp [List.eq_of_mem_replicate hc]

theorem filter_text {cs : List Char} (hcs : ∀ c ∈ cs, c ≠ ' ') :
    cs.filter (fun c => c ≠ ' ') = cs := by
  rw [List.filter_eq_self]
  intro c hc
  simp [hcs c hc]

/-- Fields of one width tell numerals without a leading zero apart. -/
theorem field_injective {width : ℕ} {ladjust zero : Bool} {x y : List Char}
    (hx : ∀ c ∈ x, c ≠ ' ') (hy : ∀ c ∈ y, c ≠ ' ') (hx0 : ∃ c cs, x = c :: cs ∧ c ≠ '0')
    (hy0 : ∃ c cs, y = c :: cs ∧ c ≠ '0')
    (h : field width ladjust (if zero then '0' else ' ') [] x =
      field width ladjust (if zero then '0' else ' ') [] y) : x = y := by
  unfold field at h
  dsimp only at h
  simp only [List.nil_append] at h
  generalize width-(([] : List Char).length+x.length) = k at h
  generalize width-(([] : List Char).length+y.length) = k' at h
  cases ladjust with
  | true =>
    -- without the spaces behind them
    simp only [if_true] at h
    have hf := congrArg (List.filter (fun c => c ≠ ' ')) h
    rwa [List.filter_append, List.filter_append, filter_pad, filter_pad, filter_text hx,
      filter_text hy, List.append_nil, List.append_nil] at hf
  | false =>
    cases zero with
    | true =>
      obtain ⟨c, cs, rfl, hc⟩ := hx0
      obtain ⟨c', cs', rfl, hc'⟩ := hy0
      simp only [Bool.false_eq_true, if_false, if_true] at h
      have hd := congrArg (List.dropWhile (fun x => x = '0')) h
      rwa [dropWhile_zeros k cs hc, dropWhile_zeros k' cs' hc'] at hd
    | false =>
      have hpad : ' ' ≠ '0' := by decide
      simp only [Bool.false_eq_true, if_false, hpad] at h
      have hf := congrArg (List.filter (fun c => c ≠ ' ')) h
      rwa [List.filter_append, List.filter_append, filter_pad, filter_pad, filter_text hx,
        filter_text hy] at hf

/-! ### One directive -/

theorem printChar_eq (c : Char) (width : ℕ) (ladjust : Bool) :
    (printChar c width ladjust).flatten = field width ladjust ' ' [] [c] := by
  have hpad : ' ' ≠ '0' := by decide
  rw [printChar, atLeast_eq, Int.toNat_natCast, Nat.add_sub_cancel_left]
  unfold field
  cases ladjust <;> simp [hpad]

theorem printStr_eq (s : List Char) (width : ℕ) (ladjust : Bool) :
    (printStr s width ladjust).flatten = field width ladjust ' ' [] s := by
  have hpad : ' ' ≠ '0' := by decide
  rw [printStr, atLeast_eq, Int.toNat_natCast, Nat.add_sub_cancel_left]
  unfold field
  cases ladjust <;> simp [hpad]

/-- The magnitude of a number after `num = -num`, as an unsigned number. -/
theorem toNat_magnitude (num : BitVec 64) :
    num.slt 0 = decide (num.toInt < 0) ∧
      (if num.slt 0 then -num else num).toNat = num.toInt.natAbs := by
  have hslt : num.slt 0 = decide (num.toInt < 0) := rfl
  refine ⟨hslt, ?_⟩
  have hlt := num.isLt
  rw [hslt, BitVec.toInt_eq_toNat_cond]
  by_cases hneg : 2*num.toNat < 2^64
  · rw [if_pos hneg, if_neg (by simp)]
    simp
  · rw [if_neg hneg, if_pos (by simp; omega), BitVec.toNat_neg]
    omega

theorem toNat_extend (v : BitVec 32) : (v.signExtend 64).toNat =
    if v.toNat < 2^31 then v.toNat else v.toNat+(2^64-2^32) := by
  have hlt := v.isLt
  rw [BitVec.toNat_signExtend, BitVec.msb_eq_decide]
  simp only [BitVec.toNat_setWidth]
  split_ifs with h1 h2 h3 <;> simp at * <;> omega

/-- What the code prints for an argument of the type that the directive takes. -/
def Directive.shown (d : Directive) (a : Arg) : Option (List Char) :=
  match d.conv.kind, a with
  | .unsigned base upcase, .int v =>
    if d.long then none else some (d.number false base upcase (v.signExtend 64).toNat)
  | _, _ => d.text a

/-- An argument that is not extended to a larger unsigned number. -/
def Directive.Fits (d : Directive) (a : Arg) : Prop :=
  ∀ base upcase v, d.conv.kind = .unsigned base upcase → a = .int v → v.toNat < 2^31

theorem printNum_number (stack : ℕ → Char) (d : Directive) (neg : Bool) {base : ℕ} (hb : 1 < base)
    (hle : base ≤ 16) (upcase : Bool) (n : ℕ) :
    printNum stack n base neg d.width d.minus (if d.zero then '0' else ' ') upcase =
      d.number neg base upcase n := by
  rw [printNum_eq stack hb, Int.toNat_natCast, revDigits_reverse hb hle, Directive.number]

theorem convert_char (stack : ℕ → Char) (f : Flags) (conv : Conv) (ap : List Arg) :
    convert stack f conv.char ap = match conv.kind with
      | .signed => (vaNum f.long_flag ap).bind fun x =>
        some ([printNum stack (if x.1.slt 0 then -x.1 else x.1).toNat 10 (x.1.slt 0) f.width
          f.ladjust f.padc false], x.2)
      | .unsigned base upcase => (vaNum f.long_flag ap).bind fun x =>
        some ([printNum stack x.1.toNat base false f.width f.ladjust f.padc upcase], x.2)
      | .char => (vaChar ap).bind fun x => some (printChar x.1 f.width f.ladjust, x.2)
      | .string => (vaStr ap).bind fun x => some (printStr x.1 f.width f.ladjust, x.2) := by
  cases conv <;> rfl

theorem Directive.convert_shown (stack : ℕ → Char) (d : Directive) (a : Arg) (ap : List Arg)
    {t : List Char} (ht : d.shown a = some t) :
    ∃ chunks, convert stack ⟨d.minus, if d.zero then '0' else ' ', d.width, d.long⟩ d.conv.char
      (a :: ap) = some (chunks, ap) ∧ chunks.flatten = t := by
  rw [convert_char]
  unfold Directive.shown Directive.text at ht
  cases hk : d.conv.kind with
  | signed =>
    -- a signed number goes to `printNum` as its magnitude and its sign
    have hprint (num : BitVec 64) : printNum stack (if num.slt 0 then -num else num).toNat 10
        (num.slt 0) d.width d.minus (if d.zero then '0' else ' ') false =
          d.number (num.toInt < 0) 10 false num.toInt.natAbs := by
      obtain ⟨hneg, hmag⟩ := toNat_magnitude num
      rw [hmag, hneg, printNum_number stack d _ (by decide) (by decide)]
    rw [hk] at ht
    cases a with
    | int v =>
      cases hl : d.long with
      | true => simp [hl] at ht
      | false =>
        simp only [hl, Option.some.injEq] at ht
        refine ⟨_, rfl, ?_⟩
        rw [List.flatten_singleton, hprint, ← ht, BitVec.toInt_signExtend_of_le (by decide)]
    | long v =>
      cases hl : d.long with
      | false => simp [hl] at ht
      | true =>
        simp only [hl, Option.some.injEq] at ht
        refine ⟨_, rfl, ?_⟩
        rw [List.flatten_singleton, hprint, ← ht]
    | str s => simp at ht
  | unsigned base upcase =>
    obtain ⟨hb, hle⟩ := Conv.base_bounds hk
    rw [hk] at ht
    cases a with
    | int v =>
      cases hl : d.long with
      | true => simp [hl] at ht
      | false =>
        simp only [hl, Bool.false_eq_true, if_false, Option.some.injEq] at ht
        refine ⟨_, rfl, ?_⟩
        rw [List.flatten_singleton, printNum_number stack d _ hb hle, ← ht]
    | long v =>
      cases hl : d.long with
      | false => simp [hl] at ht
      | true =>
        simp only [hl, Option.some.injEq] at ht
        refine ⟨_, rfl, ?_⟩
        rw [List.flatten_singleton, printNum_number stack d _ hb hle, ← ht]
    | str s => simp at ht
  | char =>
    rw [hk] at ht
    cases a with
    | int v =>
      simp only [Option.some.injEq] at ht
      exact ⟨_, rfl, by rw [printChar_eq, ← ht]⟩
    | long v => simp at ht
    | str s => simp at ht
  | string =>
    rw [hk] at ht
    cases a with
    | int v => simp at ht
    | long v => simp at ht
    | str s =>
      simp only [Option.some.injEq] at ht
      exact ⟨_, rfl, by rw [printStr_eq, ← ht]⟩

theorem Directive.shown_text (d : Directive) {a : Arg} {t : List Char} (ht : d.text a = some t) :
    ∃ t', d.shown a = some t' ∧ t.length ≤ t'.length ∧ (t' = t ↔ d.Fits a) := by
  have hsame (hs : d.shown a = d.text a)
      (hf : ∀ base upcase v, d.conv.kind = .unsigned base upcase → a ≠ .int v) :
      ∃ t', d.shown a = some t' ∧ t.length ≤ t'.length ∧ (t' = t ↔ d.Fits a) :=
    ⟨t, by rw [hs, ht], le_rfl, fun _ base upcase v hk ha => absurd ha (hf base upcase v hk), fun _ => rfl⟩
  cases hk : d.conv.kind with
  | signed => exact hsame (by simp only [Directive.shown, hk]) (fun _ _ _ h => by rw [hk] at h; cases h)
  | char => exact hsame (by simp only [Directive.shown, hk]) (fun _ _ _ h => by rw [hk] at h; cases h)
  | string => exact hsame (by simp only [Directive.shown, hk]) (fun _ _ _ h => by rw [hk] at h; cases h)
  | unsigned base upcase =>
    cases a with
    | long v => exact hsame (by simp only [Directive.shown, hk]) (fun _ _ _ _ h => by cases h)
    | str s => exact hsame (by simp only [Directive.shown, hk]) (fun _ _ _ _ h => by cases h)
    | int v =>
      obtain ⟨hb, hle⟩ := Conv.base_bounds hk
      unfold Directive.text at ht
      rw [hk] at ht
      cases hl : d.long with
      | true => simp [hl] at ht
      | false =>
        simp only [hl, Option.some.injEq] at ht
        have hfits : d.Fits (.int v) ↔ v.toNat < 2^31 := by
          constructor
          · exact fun h => h base upcase v hk rfl
          · rintro h _ _ _ _ hv
            cases hv
            exact h
        refine ⟨d.number false base upcase (v.signExtend 64).toNat, ?_, ?_⟩
        · simp [Directive.shown, hk, hl]
        rw [hfits, toNat_extend, ← ht]
        by_cases hv : v.toNat < 2^31
        · rw [if_pos hv]
          exact ⟨le_rfl, fun _ => hv, fun _ => rfl⟩
        · rw [if_neg hv]
          have h0 : v.toNat ≠ 0 := by omega
          have h0' : v.toNat+(2^64-2^32) ≠ 0 := by omega
          refine ⟨?_, fun heq => ?_, fun h => absurd h hv⟩
          · -- the larger number has no fewer digits
            rw [Directive.number, Directive.number, field_length, field_length,
              numeral_length _ _ h0, numeral_length _ _ h0']
            have hlen := Nat.le_length_digits_le base v.toNat (v.toNat+(2^64-2^32)) (by omega)
            omega
          · exfalso
            have hnum := field_injective (fun c hc => mem_numeral hb hle hc)
              (fun c hc => mem_numeral hb hle hc) (numeral_cons hb hle upcase h0')
              (numeral_cons hb hle upcase h0) heq
            -- but it has more digits, being more than `base` times as large
            have hlen := congrArg List.length hnum
            rw [numeral_length _ _ h0', numeral_length _ _ h0] at hlen
            have hmul : base*v.toNat ≤ 16*v.toNat := Nat.mul_le_mul_right _ hle
            have hlt := v.isLt
            have hmore := Nat.le_length_digits_le base (base*v.toNat) (v.toNat+(2^64-2^32)) (by omega)
            rw [Nat.digits_base_mul hb (by omega), List.length_cons] at hmore
            omega

end RiscvMos
