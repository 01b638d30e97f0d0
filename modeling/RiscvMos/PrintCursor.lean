import RiscvMos.PrintFormat
import RiscvMos.LibReadLog

/-! `vprintfmt` with its cursor: the format is read from memory byte by byte, and the reads
are logged. The bytes are given as characters. -/
namespace RiscvMos
open ReadLog ReadLog.Logged

abbrev NUL : Char := Char.ofNat 0

/-- The characters `s` stand at `p`, with the first NUL behind them. -/
def StringAt (m : ℕ → Char) (p : ℕ) : List Char → Prop
  | [] => m p = NUL
  | c :: s => m p = c ∧ c ≠ NUL ∧ StringAt m (p+1) s

instance decidableStringAt (m : ℕ → Char) : ∀ (p : ℕ) (s : List Char), Decidable (StringAt m p s)
  | p, [] => inferInstanceAs (Decidable (m p = NUL))
  | p, c :: s =>
    have := decidableStringAt m (p+1) s
    inferInstanceAs (Decidable (m p = c ∧ c ≠ NUL ∧ StringAt m (p+1) s))

/-- Why a call gives no result: an argument is missing or has another type, or the bound on
the number of turns is reached. -/
inductive NoResult
  | va_arg
  | fuel
  deriving DecidableEq

/-- Computations with the addresses that they read. -/
abbrev Scan := Logged ℕ NoResult

/-- `*fmt` -/
def deref (m : ℕ → Char) (fmt : ℕ) : Scan Char := read [fmt] (m fmt)

def derefFlag (m : ℕ → Char) (flag : Char) (fmt : ℕ) : Scan (Bool × ℕ) := do
  if (← deref m fmt) = flag then pure (true, fmt+1) else pure (false, fmt)

/-- `while (*fmt >= '0' && *fmt <= '9')` -/
def derefWidth (m : ℕ → Char) : ℕ → ℤ → ℕ → Scan (ℤ × ℕ)
  | 0, _, _ => lift (.error .fuel)
  | fuel+1, width, fmt => do
    let c ← deref m fmt
    if '0' ≤ c ∧ c ≤ '9' then
      derefWidth m fuel (wrapInt (width*10+((c.toNat : ℤ)- '0'.toNat))) (fmt+1)
    else pure (width, fmt)

/-- The flags, the width and the `l` of a directive. -/
def derefFlags (m : ℕ → Char) (fuel fmt : ℕ) : Scan (Flags × ℕ) := do
  let (ladjust, fmt) ← derefFlag m '-' fmt
  let (zero, fmt) ← derefFlag m '0' fmt
  let (width, fmt) ← derefWidth m fuel 0 fmt
  let (long_flag, fmt) ← derefFlag m 'l' fmt
  pure (⟨ladjust, if zero then '0' else ' ', width, long_flag⟩, fmt)

/-- One turn of `for (;;)`: what it prints, where `fmt` stands after it and which arguments
are left, or none for `break`. -/
def turn (stack m : ℕ → Char) (fuel fmt : ℕ) (ap : List Arg) :
    Scan (Option (List (List Char) × ℕ × List Arg)) := do
  if (← deref m fmt) ≠ '%' then
    if (← deref m fmt) = NUL then pure none
    else
      let c ← deref m fmt
      pure (some ([[c]], fmt+1, ap))
  else
    let fmt := fmt+1
    if (← deref m fmt) = NUL then pure none
    else
      let (f, fmt) ← derefFlags m fuel fmt
      let c ← deref m fmt
      -- `case '\0': fmt--;`, and the `fmt++` behind the switch
      if c = NUL then pure (some ([], fmt-1+1, ap))
      else
        match convert stack f c ap with
        | some (chunks, ap) => pure (some (chunks, fmt+1, ap))
        | none => lift (.error .va_arg)

/-- The loop, with a bound on its turns. -/
def vprintfmtAt (stack m : ℕ → Char) : ℕ → ℕ → List Arg → Scan (List (List Char))
  | 0, _, _ => lift (.error .fuel)
  | fuel+1, fmt, ap => do
    match ← turn stack m (fuel+1) fmt ap with
    | none => pure []
    | some (chunks, fmt, ap) => do
      let rest ← vprintfmtAt stack m fuel fmt ap
      pure (chunks ++ rest)

/-- `while (*s1++) len++;` of `print_str` -/
def lenLoop (m : ℕ → Char) : ℕ → ℕ → ℕ → Scan ℕ
  | 0, _, _ => lift (.error .fuel)
  | fuel+1, s1, len => do
    if (← deref m s1) ≠ NUL then lenLoop m fuel (s1+1) (len+1) else pure len

/-- `print_str` on the string at `s`. -/
def printStrAt (m : ℕ → Char) (fuel s : ℕ) (length : ℤ) (ladjust : Bool) :
    Scan (List (List Char)) := do
  let len ← lenLoop m fuel s 0
  -- `out(data, s, len)`
  let text ← read (List.range' s len) ((List.range' s len).map m)
  pure (printStr text length ladjust)

/-! ### The cursor stays inside the string -/

/-- The cursor `p` lies in a string from `lo` to its NUL at `e`; `s` is what it has not passed. -/
structure Cursor (m : ℕ → Char) (lo e p : ℕ) (s : List Char) : Prop where
  string : StringAt m p s
  rest : p+s.length = e
  le : lo ≤ p

/-- An address between the first byte and the NUL. -/
def Within (lo e a : ℕ) : Prop := lo ≤ a ∧ a ≤ e

section
variable {m : ℕ → Char} {lo e p : ℕ} {s : List Char} {c : Char}

theorem StringAt.cursor (h : StringAt m p s) : Cursor m p (p+s.length) p s :=
  ⟨h, rfl, le_rfl⟩

theorem Cursor.tail (h : Cursor m lo e p (c :: s)) : Cursor m lo e (p+1) s where
  string := h.string.2.2
  rest := by
    have hrest := h.rest
    rw [List.length_cons] at hrest
    omega
  le := Nat.le_succ_of_le h.le

theorem Cursor.deref_nil (h : Cursor m lo e p []) : Ends (Within lo e) (deref m p) (.ok NUL) := by
  obtain ⟨hnul, hrest, hle⟩ := h
  refine ⟨congrArg Except.ok hnul, fun a ha => ?_⟩
  obtain rfl := List.mem_singleton.mp ha
  exact ⟨hle, hrest.le⟩

theorem Cursor.deref_cons (h : Cursor m lo e p (c :: s)) :
    Ends (Within lo e) (deref m p) (.ok c) := by
  refine ⟨congrArg Except.ok h.string.1, fun a ha => ?_⟩
  obtain rfl := List.mem_singleton.mp ha
  exact ⟨h.le, h.rest ▸ Nat.le_add_right a _⟩

theorem Cursor.flag (h : Cursor m lo e p s) {flag : Char} (hflag : NUL ≠ flag) :
    ∃ p', Ends (Within lo e) (derefFlag m flag p) (.ok ((scanFlag flag s).1, p')) ∧
      Cursor m lo e p' (scanFlag flag s).2 := by
  cases s with
  | nil =>
    refine ⟨p, h.deref_nil.bind ?_, h⟩
    rw [if_neg hflag]
    exact ends_pure _ _
  | cons c s =>
    rw [scanFlag]
    split_ifs with hc
    · refine ⟨p+1, h.deref_cons.bind ?_, h.tail⟩
      rw [if_pos hc]
      exact ends_pure _ _
    · refine ⟨p, h.deref_cons.bind ?_, h⟩
      rw [if_neg hc]
      exact ends_pure _ _

theorem Cursor.width {fuel : ℕ} (h : Cursor m lo e p s) (hfuel : s.length < fuel) (w : ℤ) :
    ∃ p', Ends (Within lo e) (derefWidth m fuel w p) (.ok ((scanWidth w s).1, p')) ∧
      Cursor m lo e p' (scanWidth w s).2 := by
  induction fuel generalizing p s w with
  | zero => exact absurd hfuel (Nat.not_lt_zero _)
  | succ fuel ih =>
    cases s with
    | nil =>
      refine ⟨p, h.deref_nil.bind ?_, h⟩
      rw [if_neg (by decide)]
      exact ends_pure _ _
    | cons c s =>
      rw [scanWidth]
      split_ifs with hc
      · obtain ⟨p', hends, hcur⟩ := ih h.tail (Nat.lt_of_succ_lt_succ hfuel)
          (wrapInt (w*10+((c.toNat : ℤ)- '0'.toNat)))
        refine ⟨p', h.deref_cons.bind ?_, hcur⟩
        rw [if_pos hc]
        exact hends
      · refine ⟨p, h.deref_cons.bind ?_, h⟩
        rw [if_neg hc]
        exact ends_pure _ _

theorem Cursor.flags {fuel : ℕ} (h : Cursor m lo e p s) (hfuel : s.length < fuel) :
    ∃ p', Ends (Within lo e) (derefFlags m fuel p) (.ok ((scanFlags s).1, p')) ∧
      Cursor m lo e p' (scanFlags s).2 := by
  obtain ⟨p₁, e₁, h₁⟩ := h.flag (by decide : NUL ≠ '-')
  obtain ⟨p₂, e₂, h₂⟩ := h₁.flag (by decide : NUL ≠ '0')
  have hlen : (scanFlag '0' (scanFlag '-' s).2).2.length < fuel :=
    ((scanFlag_length _ _).trans (scanFlag_length _ _)).trans_lt hfuel
  obtain ⟨p₃, e₃, h₃⟩ := h₂.width hlen 0
  obtain ⟨p₄, e₄, h₄⟩ := h₃.flag (by decide : NUL ≠ 'l')
  exact ⟨p₄, e₁.bind (e₂.bind (e₃.bind (e₄.bind (ends_pure _ _)))), h₄⟩

/-! ### A turn -/

/-- What a turn does at `p` before the string `s`: it stops, it finds no argument, or it goes
on behind at least one byte. -/
inductive Turned (stack m : ℕ → Char) (lo e p : ℕ) (s : List Char) (ap : List Arg) :
    Except NoResult (Option (List (List Char) × ℕ × List Arg)) → Prop
  | stop : vprintfmt stack s ap = some [] → Turned stack m lo e p s ap (.ok none)
  | noArg : vprintfmt stack s ap = none → Turned stack m lo e p s ap (.error .va_arg)
  | next {chunks : List (List Char)} {p' : ℕ} {s' : List Char} {ap' : List Arg} :
    Cursor m lo e p' s' → s'.length < s.length →
    vprintfmt stack s ap = (vprintfmt stack s' ap').map (fun rest => chunks ++ rest) →
    Turned stack m lo e p s ap (.ok (some (chunks, p', ap')))

theorem vprintfmt_nil (stack : ℕ → Char) (ap : List Arg) : vprintfmt stack [] ap = some [] := by
  rw [vprintfmt]

/-- A directive that the NUL cuts short. -/
theorem vprintfmt_cut (stack : ℕ → Char) {fmt : List Char} (h : (scanFlags fmt).2 = [])
    (ap : List Arg) : vprintfmt stack ('%' :: fmt) ap = some [] := by
  rw [vprintfmt, if_neg (by decide)]
  split
  · rfl
  · next h' =>
    rw [h] at h'
    cases h'

theorem Cursor.turn_lit {fuel : ℕ} (h : Cursor m lo e p (c :: s)) (hc : c ≠ '%')
    (stack : ℕ → Char) (ap : List Arg) :
    Ends (Within lo e) (turn stack m fuel p ap) (.ok (some ([[c]], p+1, ap))) := by
  refine h.deref_cons.bind ?_
  rw [if_pos hc]
  refine h.deref_cons.bind ?_
  rw [if_neg h.string.2.1]
  exact h.deref_cons.bind (ends_pure _ _)

theorem Cursor.turn_percent {fuel : ℕ} (h : Cursor m lo e p ('%' :: s)) (hfuel : s.length < fuel)
    (stack : ℕ → Char) (ap : List Arg) :
    ∃ r, Ends (Within lo e) (turn stack m fuel p ap) r ∧
      Turned stack m lo e p ('%' :: s) ap r := by
  cases s with
  | nil =>
    refine ⟨_, h.deref_cons.bind ?_, .stop (vprintfmt_cut stack rfl ap)⟩
    rw [if_neg (fun hne => hne rfl)]
    refine h.tail.deref_nil.bind ?_
    rw [if_pos rfl]
    exact ends_pure _ _
  | cons c s =>
    obtain ⟨p', hends, hcur⟩ := h.tail.flags hfuel
    have hshort := scanFlags_length (c :: s)
    -- the part of the turn up to the switch
    have hturn {r : Except NoResult (Option (List (List Char) × ℕ × List Arg))}
        (hswitch : Ends (Within lo e) (do
          let c' ← deref m p'
          if c' = NUL then pure (some ([], p'-1+1, ap))
          else
            match convert stack (scanFlags (c :: s)).1 c' ap with
            | some (chunks, ap) => pure (some (chunks, p'+1, ap))
            | none => lift (.error .va_arg)) r) :
        Ends (Within lo e) (turn stack m fuel p ap) r := by
      refine h.deref_cons.bind ?_
      rw [if_neg (fun hne => hne rfl)]
      refine h.tail.deref_cons.bind ?_
      rw [if_neg h.tail.string.2.1]
      exact hends.bind hswitch
    cases hrest : (scanFlags (c :: s)).2 with
    | nil =>
      rw [hrest] at hcur
      have hback : p'-1+1 = p' := by
        have he := h.rest
        have he' := hcur.rest
        rw [List.length_cons] at he
        rw [List.length_nil] at he'
        omega
      have hnext : Turned stack m lo e p ('%' :: c :: s) ap (.ok (some ([], p'-1+1, ap))) := by
        have hend : Cursor m lo e (p'-1+1) [] := by rwa [hback]
        refine .next hend (Nat.succ_pos _) ?_
        rw [vprintfmt_cut stack hrest, vprintfmt_nil]
        rfl
      refine ⟨_, hturn (hcur.deref_nil.bind ?_), hnext⟩
      rw [if_pos rfl]
      exact ends_pure _ _
    | cons c' s' =>
      rw [hrest] at hcur
      have hlen : (c' :: s').length ≤ (c :: s).length := hrest ▸ hshort
      rw [List.length_cons] at hlen
      have hscan : scanFlags (c :: s) = ((scanFlags (c :: s)).1, c' :: s') := by rw [← hrest]
      have hparse := vprintfmt_percent stack hscan ap
      cases hconv : convert stack (scanFlags (c :: s)).1 c' ap with
      | none =>
        rw [hconv, Option.bind_none] at hparse
        refine ⟨_, hturn (hcur.deref_cons.bind ?_), .noArg hparse⟩
        rw [if_neg hcur.string.2.1, hconv]
        exact ends_lift _ _
      | some x =>
        rw [hconv, Option.bind_some] at hparse
        refine ⟨_, hturn (hcur.deref_cons.bind ?_), .next hcur.tail ?_ hparse⟩
        · rw [if_neg hcur.string.2.1, hconv]
          exact ends_pure _ _
        · rw [List.length_cons]
          omega

/-- One lemma for every turn: where it reads, and how it relates to the rest of the string. -/
theorem Cursor.turn {fuel : ℕ} (h : Cursor m lo e p s) (hfuel : s.length < fuel)
    (stack : ℕ → Char) (ap : List Arg) :
    ∃ r, Ends (Within lo e) (RiscvMos.turn stack m fuel p ap) r ∧ Turned stack m lo e p s ap r := by
  cases s with
  | nil =>
    refine ⟨_, h.deref_nil.bind ?_, .stop (vprintfmt_nil stack ap)⟩
    rw [if_pos (by decide)]
    refine h.deref_nil.bind ?_
    rw [if_pos rfl]
    exact ends_pure _ _
  | cons c s =>
    by_cases hc : c = '%'
    · subst hc
      exact h.turn_percent (Nat.lt_of_succ_lt hfuel) stack ap
    · exact ⟨_, h.turn_lit hc stack ap,
        .next h.tail (Nat.lt_succ_self _) (vprintfmt_lit stack hc s ap)⟩

/-! ### The loop -/

theorem Cursor.run {fuel : ℕ} (h : Cursor m lo e p s) (hfuel : s.length < fuel)
    (stack : ℕ → Char) (ap : List Arg) :
    Ends (Within lo e) (vprintfmtAt stack m fuel p ap)
      ((vprintfmt stack s ap).elim (.error .va_arg) .ok) := by
  induction fuel generalizing p s ap with
  | zero => exact absurd hfuel (Nat.not_lt_zero _)
  | succ fuel ih =>
    obtain ⟨r, hends, hturned⟩ := h.turn hfuel stack ap
    cases hturned with
    | stop hstop =>
      rw [hstop]
      exact hends.bind (ends_pure _ _)
    | noArg hnone =>
      rw [hnone]
      exact hends.bind_error _
    | @next chunks p' s' ap' hcur hlen hparse =>
      have hrest := ih hcur (by omega) ap'
      refine hends.bind ?_
      rw [hparse]
      cases hv : vprintfmt stack s' ap' with
      | none =>
        rw [hv] at hrest
        exact hrest.bind_error _
      | some rest =>
        rw [hv] at hrest
        exact hrest.bind (ends_pure _ _)

theorem Cursor.lenLoop {fuel : ℕ} (h : Cursor m lo e p s) (hfuel : s.length < fuel) (len : ℕ) :
    Ends (Within lo e) (RiscvMos.lenLoop m fuel p len) (.ok (len+s.length)) := by
  induction fuel generalizing p s len with
  | zero => exact absurd hfuel (Nat.not_lt_zero _)
  | succ fuel ih =>
    cases s with
    | nil =>
      refine h.deref_nil.bind ?_
      rw [if_neg (fun hne => hne rfl)]
      exact ends_pure _ _
    | cons c s =>
      refine h.deref_cons.bind ?_
      rw [if_pos h.string.2.1]
      have hloop := ih h.tail (Nat.lt_of_succ_lt_succ hfuel) (len+1)
      rwa [Nat.add_assoc, Nat.add_comm 1] at hloop

theorem StringAt.drop (h : StringAt m p s) {k : ℕ} (hk : k ≤ s.length) :
    StringAt m (p+k) (s.drop k) := by
  induction k generalizing p s with
  | zero => exact h
  | succ k ih =>
    cases s with
    | nil => exact absurd hk (Nat.not_succ_le_zero k)
    | cons c s =>
      have hdrop := ih h.2.2 (Nat.le_of_succ_le_succ hk)
      rwa [Nat.add_assoc, Nat.add_comm 1] at hdrop

theorem StringAt.map_range' (h : StringAt m p s) : (List.range' p s.length).map m = s := by
  induction s generalizing p with
  | nil => rfl
  | cons c s ih => rw [List.length_cons, List.range'_succ, List.map_cons, h.1, ih h.2.2]

theorem StringAt.printStr {fuel : ℕ} (h : StringAt m p s) (hfuel : s.length < fuel) (length : ℤ)
    (ladjust : Bool) : Ends (Within p (p+s.length)) (printStrAt m fuel p length ladjust)
      (.ok (RiscvMos.printStr s length ladjust)) := by
  refine (h.cursor.lenLoop hfuel 0).bind ?_
  rw [Nat.zero_add, h.map_range']
  refine Ends.bind (a := s) ⟨rfl, fun a ha => ?_⟩ (ends_pure _ _)
  obtain ⟨hlo, hhi⟩ := List.mem_range'_1.mp ha
  exact ⟨hlo, hhi.le⟩

end

/-- On every string in memory, also one that ends inside a directive: with a bound on the turns
above its length `vprintfmt` ends (it prints what the list of the characters says, or an argument
is missing) and reads no byte of the format behind the NUL; every turn that does not stop moves
`fmt` on, to a place not behind the NUL. `print_str` reads its argument to the NUL only. -/
theorem vprintfmt_safe (stack m : ℕ → Char) {p : ℕ} {s : List Char} (h : StringAt m p s) :
    (∀ fuel > s.length, ∀ ap,
      (vprintfmtAt stack m fuel p ap).result =
        (vprintfmt stack s ap).elim (.error .va_arg) .ok ∧
      ∀ a ∈ (vprintfmtAt stack m fuel p ap).reads, p ≤ a ∧ a ≤ p+s.length) ∧
    (∀ fuel > s.length, ∀ ap ap' chunks p',
      (turn stack m fuel p ap).result = .ok (some (chunks, p', ap')) →
      p < p' ∧ p' ≤ p+s.length ∧ StringAt m p' (s.drop (p'-p))) ∧
    ∀ fuel > s.length, ∀ length ladjust,
      (printStrAt m fuel p length ladjust).result = .ok (printStr s length ladjust) ∧
      ∀ a ∈ (printStrAt m fuel p length ladjust).reads, p ≤ a ∧ a ≤ p+s.length := by
  refine ⟨fun fuel hfuel ap => ?_, fun fuel hfuel ap ap' chunks p' hturn => ?_,
    fun fuel hfuel length ladjust => ?_⟩
  · have hrun := h.cursor.run hfuel stack ap
    exact ⟨hrun.result, hrun.reads⟩
  · obtain ⟨r, hends, hturned⟩ := h.cursor.turn hfuel stack ap
    rw [hends.result] at hturn
    subst hturn
    cases hturned with
    | next hcur hlen _ =>
      have hrest := hcur.rest
      have hplace : p+(p'-p) = p' := by omega
      have hdrop := h.drop (by omega : p'-p ≤ s.length)
      rw [hplace] at hdrop
      exact ⟨by omega, by omega, hdrop⟩
  · have hprint := h.printStr hfuel length ladjust
    exact ⟨hprint.result, hprint.reads⟩

/-- `%-` at address 8 -/
def cutFormat (a : ℕ) : Char := if a = 8 then '%' else if a = 9 then '-' else NUL

theorem vprintfmt_safe_cut :
    (vprintfmtAt (fun _ => NUL) cutFormat 3 8 []).result = .ok [] ∧
      ∀ a ∈ (vprintfmtAt (fun _ => NUL) cutFormat 3 8 []).reads, 8 ≤ a ∧ a ≤ 10 := by
  have hstring : StringAt cutFormat 8 ['%', '-'] := by decide
  have hsafe := (vprintfmt_safe (fun _ => NUL) cutFormat hstring).1 3 (by decide) []
  rw [vprintfmt_cut _ (by decide)] at hsafe
  exact hsafe

end RiscvMos
