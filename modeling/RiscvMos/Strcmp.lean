import RiscvMos.LibByteMemory
import RiscvMos.LibReadLog
import RiscvMos.LibThreeWay
import Mathlib.Data.BitVec

/-! `strcmp` of string.c, for both kinds of plain `char`. Every read is logged with the pointer
that it goes through. -/
namespace RiscvMos.Strcmp
open ByteMem ReadLog ReadLog.Logged ThreeWay

/-- The two arguments. -/
inductive Operand
  | p
  | q
  deriving DecidableEq

/-- The bound on the number of turns is reached. -/
inductive NoEnd
  | fuel
  deriving DecidableEq

abbrev Compare := Logged (Operand × ℕ) NoEnd

/-- A plain `char` as an `int`; the conversion to `u_int` keeps the bits. -/
def charInt (char_signed : Bool) (b : UInt8) : BitVec 32 :=
  if char_signed then b.toBitVec.signExtend 32 else b.toBitVec.setWidth 32

variable (char_signed : Bool) (m : Mem)

/-- `*p` and `*q` -/
def readChar (operand : Operand) (a : ℕ) : Compare (BitVec 32) :=
  read [(operand, a)] (charInt char_signed (m a))

/-- `while (*p && *p == *q) p++, q++;` -/
def strcmpLoop : ℕ → ℕ → ℕ → Compare (ℕ × ℕ)
  | 0, _, _ => lift (.error .fuel)
  | fuel+1, p, q => do
    if (← readChar char_signed m .p p) ≠ 0 then
      if (← readChar char_signed m .p p) = (← readChar char_signed m .q q) then
        strcmpLoop fuel (p+1) (q+1)
      else pure (p, q)
    else pure (p, q)

/-- The two comparisons behind the loop. -/
def compareChars (p q : ℕ) : Compare ℤ := do
  if (← readChar char_signed m .p p) < (← readChar char_signed m .q q) then pure (-1)
  else
    if (← readChar char_signed m .p p) > (← readChar char_signed m .q q) then pure 1
    else pure 0

def strcmp (fuel p q : ℕ) : Compare ℤ := do
  let (p, q) ← strcmpLoop char_signed m fuel p q
  compareChars char_signed m p q

/-! ### Strings -/

/-- The bytes `s` stand at `p`, with the first NUL behind them. -/
def BytesAt (m : Mem) (p : ℕ) : List UInt8 → Prop
  | [] => m p = 0
  | b :: s => m p = b ∧ b ≠ 0 ∧ BytesAt m (p+1) s

/-- The read lies in its string, or at the NUL behind it. -/
def InStrings (p q : ℕ) (s t : List UInt8) : Operand × ℕ → Prop
  | (.p, a) => p ≤ a ∧ a ≤ p+s.length
  | (.q, a) => q ≤ a ∧ a ≤ q+t.length

/-- The bytes as unsigned numbers. -/
def values (s : List UInt8) : List ℕ := s.map UInt8.toNat

/-- With enough turns the call returns `v`. -/
def Returns (p q : ℕ) (v : ℤ) : Prop :=
  ∃ turns, ∀ fuel ≥ turns, (strcmp char_signed m fuel p q).result = .ok v

variable {char_signed : Bool} {m : Mem} {p q : ℕ} {s t : List UInt8} {b c : UInt8}

/-! ### Characters -/

theorem charInt_toNat (char_signed : Bool) (b : UInt8) : (charInt char_signed b).toNat =
    if char_signed ∧ 128 ≤ b.toNat then b.toNat+(2^32-2^8) else b.toNat := by
  have hb : b.toBitVec.toNat = b.toNat := rfl
  have hlt : b.toNat < 256 := b.toNat_lt
  have hwidth : b.toNat%2^32 = b.toNat := Nat.mod_eq_of_lt (by omega)
  cases char_signed with
  | false => simp [charInt]
  | true =>
    rw [charInt, if_pos rfl, BitVec.toNat_signExtend, BitVec.toNat_setWidth, hb, hwidth,
      BitVec.msb_eq_decide, hb]
    by_cases hhigh : 128 ≤ b.toNat
    · simp [hhigh]
    · simp [hhigh]

/-- The conversion keeps the order of the bytes, signed or not. -/
theorem charInt_lt_iff (char_signed : Bool) (b c : UInt8) :
    charInt char_signed b < charInt char_signed c ↔ b.toNat < c.toNat := by
  have hb : b.toNat < 256 := b.toNat_lt
  have hc : c.toNat < 256 := c.toNat_lt
  rw [BitVec.lt_def, charInt_toNat, charInt_toNat]
  cases char_signed with
  | false => simp
  | true =>
    simp only [true_and]
    split_ifs <;> omega

theorem charInt_inj : charInt char_signed b = charInt char_signed c ↔ b = c := by
  constructor
  · intro h
    have hbc : ¬b.toNat < c.toNat := by
      rw [← charInt_lt_iff char_signed, h]
      exact BitVec.lt_irrefl _
    have hcb : ¬c.toNat < b.toNat := by
      rw [← charInt_lt_iff char_signed, h]
      exact BitVec.lt_irrefl _
    exact UInt8.toNat_inj.mp (le_antisymm (not_lt.mp hcb) (not_lt.mp hbc))
  · rintro rfl
    rfl

theorem charInt_ne_zero : charInt char_signed b ≠ 0 ↔ b ≠ 0 := by
  have hzero : charInt char_signed 0 = 0 := by cases char_signed <;> decide
  rw [ne_eq, ne_eq, ← hzero, charInt_inj]

/-! ### The loop -/

theorem InStrings.tail {r : Operand × ℕ} (h : InStrings (p+1) (q+1) s t r) :
    InStrings p q (b :: s) (c :: t) r := by
  obtain ⟨operand, a⟩ := r
  cases operand with
  | p =>
    obtain ⟨hlo, hhi⟩ : p+1 ≤ a ∧ a ≤ p+1+s.length := h
    refine ⟨Nat.le_of_succ_le hlo, ?_⟩
    rw [List.length_cons]
    omega
  | q =>
    obtain ⟨hlo, hhi⟩ : q+1 ≤ a ∧ a ≤ q+1+t.length := h
    refine ⟨Nat.le_of_succ_le hlo, ?_⟩
    rw [List.length_cons]
    omega

theorem BytesAt.head (h : BytesAt m p s) : m p = s.headD 0 := by
  cases s with
  | nil => exact h
  | cons b s => exact h.1

theorem readChar_p (char_signed : Bool) (h : BytesAt m p s) (q : ℕ) (t : List UInt8) :
    Ends (InStrings p q s t) (readChar char_signed m .p p)
      (.ok (charInt char_signed (s.headD 0))) := by
  refine ⟨by rw [← h.head]; rfl, fun r hr => ?_⟩
  obtain rfl := List.mem_singleton.mp hr
  exact ⟨le_rfl, Nat.le_add_right _ _⟩

theorem readChar_q (char_signed : Bool) (h : BytesAt m q t) (p : ℕ) (s : List UInt8) :
    Ends (InStrings p q s t) (readChar char_signed m .q q)
      (.ok (charInt char_signed (t.headD 0))) := by
  refine ⟨by rw [← h.head]; rfl, fun r hr => ?_⟩
  obtain rfl := List.mem_singleton.mp hr
  exact ⟨le_rfl, Nat.le_add_right _ _⟩

/-- Where the loop stops: at strings `s'` and `t'` whose first bytes decide, as the first of them
has ended or they differ. -/
structure Stopped (m : Mem) (p q : ℕ) (s t : List UInt8) (p' q' : ℕ) (s' t' : List UInt8) :
    Prop where
  left : BytesAt m p' s'
  right : BytesAt m q' t'
  inside : ∀ r, InStrings p' q' s' t' r → InStrings p q s t r
  answer_eq : answer (values s') (values t') = answer (values s) (values t)
  decided : s' = [] ∨ s'.headD 0 ≠ t'.headD 0

theorem Stopped.cons {p' q' : ℕ} {s' t' : List UInt8} (h : Stopped m (p+1) (q+1) s t p' q' s' t')
    (b : UInt8) : Stopped m p q (b :: s) (b :: t) p' q' s' t' where
  left := h.left
  right := h.right
  inside r hr := (h.inside r hr).tail
  answer_eq := by
    rw [h.answer_eq, values, values, values, values, List.map_cons, List.map_cons,
      answer_cons_same]
  decided := h.decided

theorem stopped_here (hs : BytesAt m p s) (ht : BytesAt m q t)
    (h : s = [] ∨ s.headD 0 ≠ t.headD 0) : Stopped m p q s t p q s t :=
  ⟨hs, ht, fun _ => id, rfl, h⟩

theorem strcmpLoop_ends (char_signed : Bool) {fuel : ℕ} (hs : BytesAt m p s) (ht : BytesAt m q t)
    (hfuel : min s.length t.length < fuel) :
    ∃ p' q' s' t', Ends (InStrings p q s t) (strcmpLoop char_signed m fuel p q) (.ok (p', q')) ∧
      Stopped m p q s t p' q' s' t' := by
  -- each turn leaves the tails of both strings to a bound that is one smaller
  induction fuel generalizing p q s t with
  | zero => exact absurd hfuel (Nat.not_lt_zero _)
  | succ fuel ih =>
    have hreadp := readChar_p char_signed hs q t
    have hreadq := readChar_q char_signed ht p s
    cases s with
    | nil =>
      -- `q` is not read, and what stands there does not matter to the loop
      refine ⟨p, q, [], t, hreadp.bind ?_, stopped_here hs ht (.inl rfl)⟩
      rw [if_neg (not_not.mpr (by cases char_signed <;> rfl))]
      exact ends_pure _ _
    | cons b s =>
      have hb : charInt char_signed ((b :: s).headD 0) ≠ 0 := charInt_ne_zero.mpr hs.2.1
      by_cases hbc : (b :: s).headD 0 = t.headD 0
      · -- equal bytes are not the NUL of either string
        cases t with
        | nil => exact absurd hbc hs.2.1
        | cons c t =>
          have hchars := congrArg (charInt char_signed) hbc
          obtain rfl : b = c := hbc
          rw [List.length_cons, List.length_cons, Nat.succ_min_succ] at hfuel
          obtain ⟨p', q', s', t', hends, hstop⟩ := ih hs.2.2 ht.2.2 (Nat.lt_of_succ_lt_succ hfuel)
          refine ⟨p', q', s', t', hreadp.bind ?_, hstop.cons b⟩
          rw [if_pos hb]
          refine hreadp.bind (hreadq.bind ?_)
          rw [if_pos hchars]
          exact ⟨hends.result, fun r hr => (hends.reads r hr).tail⟩
      · refine ⟨p, q, b :: s, t, hreadp.bind ?_, stopped_here hs ht (.inr hbc)⟩
        rw [if_pos hb]
        refine hreadp.bind (hreadq.bind ?_)
        rw [if_neg (charInt_inj.not.mpr hbc)]
        exact ends_pure _ _

/-! ### The answer -/

theorem answer_heads (hs : BytesAt m p s) (ht : BytesAt m q t)
    (h : s = [] ∨ s.headD 0 ≠ t.headD 0) :
    answer (values s) (values t) = answer (s.headD 0).toNat (t.headD 0).toNat := by
  have hpos {a : ℕ} {b : UInt8} {s : List UInt8} (h : BytesAt m a (b :: s)) : 0 < b.toNat :=
    Nat.pos_of_ne_zero fun h0 => h.2.1 (UInt8.toNat_inj.mp h0)
  cases s with
  | nil =>
    cases t with
    | nil => rw [values, List.map_nil, answer_self, List.headD_nil, answer_self]
    | cons c t => exact (answer_nil_cons _ _).trans (answer_of_lt (hpos ht)).symm
  | cons b s =>
    cases t with
    | nil => exact (answer_cons_nil _ _).trans (answer_of_gt (hpos hs)).symm
    | cons c t =>
      have hne : b ≠ c := h.resolve_left (List.cons_ne_nil b s)
      exact answer_cons_ne (UInt8.toNat_inj.not.mpr hne) _ _

theorem compareChars_ends (char_signed : Bool) (hs : BytesAt m p s) (ht : BytesAt m q t) :
    Ends (InStrings p q s t) (compareChars char_signed m p q)
      (.ok (answer (s.headD 0).toNat (t.headD 0).toNat)) := by
  have hreadp := readChar_p char_signed hs q t
  have hreadq := readChar_q char_signed ht p s
  refine hreadp.bind (hreadq.bind ?_)
  by_cases hlt : (s.headD 0).toNat < (t.headD 0).toNat
  · rw [if_pos ((charInt_lt_iff _ _ _).mpr hlt), answer_of_lt hlt]
    exact ends_pure _ _
  · rw [if_neg ((charInt_lt_iff _ _ _).not.mpr hlt)]
    refine hreadp.bind (hreadq.bind ?_)
    by_cases hgt : (t.headD 0).toNat < (s.headD 0).toNat
    · rw [if_pos ((charInt_lt_iff _ _ _).mpr hgt), answer_of_gt hgt]
      exact ends_pure _ _
    · rw [if_neg ((charInt_lt_iff _ _ _).not.mpr hgt),
        answer_eq_zero_iff.mpr (le_antisymm (not_lt.mp hgt) (not_lt.mp hlt))]
      exact ends_pure _ _

theorem strcmp_ends (char_signed : Bool) {fuel : ℕ} (hs : BytesAt m p s) (ht : BytesAt m q t)
    (hfuel : min s.length t.length < fuel) :
    Ends (InStrings p q s t) (strcmp char_signed m fuel p q)
      (.ok (answer (values s) (values t))) := by
  obtain ⟨p', q', s', t', hends, hstop⟩ := strcmpLoop_ends char_signed hs ht hfuel
  refine hends.bind ?_
  rw [← hstop.answer_eq, answer_heads hstop.left hstop.right hstop.decided]
  obtain ⟨hresult, hreads⟩ := compareChars_ends char_signed hstop.left hstop.right
  exact ⟨hresult, fun r hr => hstop.inside r (hreads r hr)⟩

theorem returns_iff (hs : BytesAt m p s) (ht : BytesAt m q t) {v : ℤ} :
    Returns char_signed m p q v ↔ v = answer (values s) (values t) := by
  constructor
  · rintro ⟨turns, hturns⟩
    have hfuel : min s.length t.length < max turns (min s.length t.length+1) :=
      (Nat.lt_succ_self _).trans_le (le_max_right _ _)
    have hresult := (strcmp_ends char_signed hs ht hfuel).result
    rw [hturns _ (le_max_left _ _)] at hresult
    exact Except.ok.inj hresult
  · rintro rfl
    exact ⟨min s.length t.length+1, fun fuel hfuel => (strcmp_ends char_signed hs ht hfuel).result⟩

theorem values_inj : values s = values t ↔ s = t :=
  (List.map_injective_iff.mpr fun _ _ => UInt8.toNat_inj.mp).eq_iff

/-- On all strings in memory, for both kinds of plain `char`: with a bound on the turns above the
length of one of them `strcmp` ends with -1, 0 or 1, as the bytes of `s` come before, with or
behind those of `t` in the lexicographic order of unsigned numbers, and reads neither string
behind its NUL. So it returns 0 exactly for equal strings, the opposite for the arguments the
other way round, and what is negative for `p` and `q` and for `q` and `r` is so for `p` and `r`. -/
theorem strcmp_lexicographic (char_signed : Bool) (m : Mem) {p q : ℕ} {s t : List UInt8}
    (hs : BytesAt m p s) (ht : BytesAt m q t) :
    (∀ fuel > min s.length t.length,
      (strcmp char_signed m fuel p q).result = .ok (answer (values s) (values t)) ∧
      ∀ r ∈ (strcmp char_signed m fuel p q).reads, InStrings p q s t r) ∧
    (Returns char_signed m p q 0 ↔ s = t) ∧
    (∀ v, Returns char_signed m p q v ↔ Returns char_signed m q p (-v)) ∧
    ∀ r u, BytesAt m r u → ∀ v < 0, Returns char_signed m p q v →
      ∀ w < 0, Returns char_signed m q r w → ∃ x < 0, Returns char_signed m p r x := by
  -- the laws of the answer come from the linear order of the lists
  refine ⟨fun fuel hfuel => ?_, ?_, fun v => ?_, fun r u hu v hv hpq w hw hqr => ?_⟩
  · have hends := strcmp_ends char_signed hs ht hfuel
    exact ⟨hends.result, hends.reads⟩
  · rw [returns_iff hs ht, eq_comm, answer_eq_zero_iff, values_inj]
  · rw [returns_iff hs ht, returns_iff ht hs, answer_swap (values s) (values t), neg_inj]
  · rw [returns_iff hs ht] at hpq
    rw [returns_iff ht hu] at hqr
    have hst := answer_neg_iff.mp (hpq ▸ hv)
    have htu := answer_neg_iff.mp (hqr ▸ hw)
    exact ⟨_, answer_neg_iff.mpr (hst.trans htu), (returns_iff hs hu).mpr rfl⟩

/-- The strings "a" at 0 and 0x80 at 2, which comes behind it for a signed `char` too. -/
def twoStrings (a : ℕ) : UInt8 := if a = 0 then 97 else if a = 2 then 0x80 else 0

theorem strcmp_lexicographic_high :
    (strcmp true twoStrings 2 0 2).result = .ok (-1) ∧
      ∀ r ∈ (strcmp true twoStrings 2 0 2).reads, InStrings 0 2 [97] [0x80] r := by
  have hs : BytesAt twoStrings 0 [97] := ⟨rfl, by decide, rfl⟩
  have ht : BytesAt twoStrings 2 [0x80] := ⟨rfl, by decide, rfl⟩
  exact (strcmp_lexicographic true twoStrings hs ht).1 2 (by decide)

end RiscvMos.Strcmp
