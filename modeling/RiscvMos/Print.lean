import Mathlib.Data.Nat.Digits.Defs
import RiscvMos.LibBuffer

/-! The formatted output of print.c. A string is the list of its characters before the NUL,
and a call gives the list of the chunks that it passes to `out`. -/
namespace RiscvMos
open Function Buffer

/-- The value an `int` holds after arithmetic. -/
def wrapInt (n : ℤ) : ℤ := n.bmod (2^32)

/-- `if (length < least) { length = least; }` -/
def atLeast (least : ℕ) (length : ℤ) : ℕ := if length < least then least else length.toNat

def printChar (c : Char) (length : ℤ) (ladjust : Bool) : List (List Char) :=
  let length := atLeast 1 length
  if ladjust then [c] :: List.replicate (length-1) [' ']
  else List.replicate (length-1) [' '] ++ [[c]]

def printStr (s : List Char) (length : ℤ) (ladjust : Bool) : List (List Char) :=
  let len := s.length
  let length := atLeast len length
  if ladjust then s :: List.replicate (length-len) [' ']
  else List.replicate (length-len) [' '] ++ [s]

/-! ### Numbers -/

/-- The character that `print_num` stores for a digit. -/
def digitChar (upcase : Bool) (tmp : ℕ) : Char :=
  if tmp ≤ 9 then Char.ofNat ('0'.toNat+tmp)
  else if upcase then Char.ofNat ('A'.toNat+tmp-10)
  else Char.ofNat ('a'.toNat+tmp-10)

theorem div_base_lt {base u : ℕ} (hb : 1 < base) (h : u/base ≠ 0) : u/base < u := by
  apply Nat.div_lt_self _ hb
  by_contra h0
  obtain rfl : u = 0 := by omega
  exact h (Nat.zero_div base)

/-- The `do`-`while` loop of `print_num`, with `p` as an index; `base` is at least 2. -/
def digitLoop (base : ℕ) (upcase : Bool) (buf : ℕ → Char) (p u : ℕ) : (ℕ → Char) × ℕ :=
  let buf := update buf p (digitChar upcase (u%base))
  if 1 < base ∧ u/base ≠ 0 then digitLoop base upcase buf (p+1) (u/base) else (buf, p+1)
  termination_by u
  decreasing_by
    rename_i h
    exact div_base_lt h.1 h.2

/-- `for (; i < length; i++) buf[i] = padc;` -/
def padLoop (buf : ℕ → Char) (padc : Char) (i length : ℕ) : ℕ → Char :=
  if i < length then padLoop (update buf i padc) padc (i+1) length else buf
  termination_by length-i

/-- `while (end > begin)`: swaps the two ends of the buffer. -/
def swapLoop (buf : ℕ → Char) (first last : ℕ) : ℕ → Char :=
  if last > first then
    let tmp := buf first
    let buf := update buf first (buf last)
    let buf := update buf last tmp
    swapLoop buf (first+1) (last-1)
  else buf
  termination_by last-first

/-- `stack` is what the memory of `buf` held before. -/
def printNum (stack : ℕ → Char) (u base : ℕ) (neg_flag : Bool) (length : ℤ) (ladjust : Bool)
    (padc : Char) (upcase : Bool) : List Char :=
  let (buf, p) := digitLoop base upcase stack 0 u
  let (buf, p) := if neg_flag then (update buf p '-', p+1) else (buf, p)
  let actualLength := p
  let length := atLeast actualLength length
  let padc := if ladjust then ' ' else padc
  let buf :=
    if neg_flag ∧ ¬ladjust ∧ padc = '0' then
      update (padLoop buf padc (actualLength-1) (length-1)) (length-1) '-'
    else padLoop buf padc actualLength length
  let last := if ladjust then actualLength-1 else length-1
  get (swapLoop buf 0 last) 0 length

/-! ### The format string -/

/-- What the next variadic argument is. -/
inductive Arg
  | int (v : BitVec 32)
  | long (v : BitVec 64)
  | str (s : List Char)
  deriving DecidableEq

/-- `num = long_flag ? va_arg(ap, long int) : va_arg(ap, int)`, where the argument has the
type that is asked for. -/
def vaNum (long_flag : Bool) : List Arg → Option (BitVec 64 × List Arg)
  | .int v :: ap => if long_flag then none else some (v.signExtend 64, ap)
  | .long v :: ap => if long_flag then some (v, ap) else none
  | _ => none

/-- `(char)va_arg(ap, int)` -/
def vaChar : List Arg → Option (Char × List Arg)
  | .int v :: ap => some (Char.ofNat (v.toNat%256), ap)
  | _ => none

/-- `va_arg(ap, char *)` -/
def vaStr : List Arg → Option (List Char × List Arg)
  | .str s :: ap => some (s, ap)
  | _ => none

/-- What a directive says before its last character. -/
structure Flags where
  ladjust : Bool
  padc : Char
  width : ℤ
  long_flag : Bool

/-- A flag, if it is the next character. -/
def scanFlag (flag : Char) : List Char → Bool × List Char
  | c :: fmt => if c = flag then (true, fmt) else (false, c :: fmt)
  | [] => (false, [])

/-- `while (*fmt >= '0' && *fmt <= '9')` -/
def scanWidth (width : ℤ) : List Char → ℤ × List Char
  | c :: fmt =>
    if '0' ≤ c ∧ c ≤ '9' then scanWidth (wrapInt (width*10+((c.toNat : ℤ)- '0'.toNat))) fmt
    else (width, c :: fmt)
  | [] => (width, [])

/-- The part of a directive between its '%' and its last character. -/
def scanFlags (fmt : List Char) : Flags × List Char :=
  let (ladjust, fmt) := scanFlag '-' fmt
  let (zero, fmt) := scanFlag '0' fmt
  let (width, fmt) := scanWidth 0 fmt
  let (long_flag, fmt) := scanFlag 'l' fmt
  (⟨ladjust, if zero then '0' else ' ', width, long_flag⟩, fmt)

/-- The `switch (*fmt)`, apart from the case of the NUL. -/
def convert (stack : ℕ → Char) (f : Flags) (c : Char) (ap : List Arg) :
    Option (List (List Char) × List Arg) :=
  let unsigned (base : ℕ) (upcase : Bool) := do
    let (num, ap) ← vaNum f.long_flag ap
    some ([printNum stack num.toNat base false f.width f.ladjust f.padc upcase], ap)
  match c with
  | 'b' => unsigned 2 false
  | 'd' | 'D' => do
    let (num, ap) ← vaNum f.long_flag ap
    let neg_flag := num.slt 0
    -- the most negative value stays as it is
    let num := if neg_flag then -num else num
    some ([printNum stack num.toNat 10 neg_flag f.width f.ladjust f.padc false], ap)
  | 'o' | 'O' => unsigned 8 false
  | 'u' | 'U' => unsigned 10 false
  | 'x' => unsigned 16 false
  | 'X' => unsigned 16 true
  | 'c' => do
    let (c, ap) ← vaChar ap
    some (printChar c f.width f.ladjust, ap)
  | 's' => do
    let (s, ap) ← vaStr ap
    some (printStr s f.width f.ladjust, ap)
  | c => some ([[c]], ap)

theorem scanFlag_length (flag : Char) (fmt : List Char) :
    (scanFlag flag fmt).2.length ≤ fmt.length := by
  cases fmt with
  | nil => exact le_rfl
  | cons c fmt =>
    rw [scanFlag]
    split_ifs
    · exact Nat.le_succ _
    · exact le_rfl

theorem scanWidth_length (width : ℤ) (fmt : List Char) :
    (scanWidth width fmt).2.length ≤ fmt.length := by
  induction fmt generalizing width with
  | nil => exact le_rfl
  | cons c fmt ih =>
    rw [scanWidth]
    split_ifs
    · exact (ih _).trans (Nat.le_succ _)
    · exact le_rfl

theorem scanFlags_length (fmt : List Char) : (scanFlags fmt).2.length ≤ fmt.length :=
  (scanFlag_length _ _).trans <| (scanWidth_length _ _).trans <|
    (scanFlag_length _ _).trans (scanFlag_length _ _)

/-- The chunks of a call, or none where an argument has another type than the directive
asks for. -/
def vprintfmt (stack : ℕ → Char) : List Char → List Arg → Option (List (List Char))
  | [], _ => some []
  | c :: fmt, ap =>
    if c ≠ '%' then do
      let chunks ← vprintfmt stack fmt ap
      some ([c] :: chunks)
    else
      match _h : (scanFlags fmt).2 with
      -- the string ends inside the directive
      | [] => some []
      | c :: fmt' => do
        let (chunks, ap) ← convert stack (scanFlags fmt).1 c ap
        let rest ← vprintfmt stack fmt' ap
        some (chunks ++ rest)
  termination_by fmt => fmt.length
  decreasing_by
  · exact Nat.lt_succ_self _
  · have hlen := scanFlags_length fmt
    rw [_h, List.length_cons] at hlen
    exact Nat.lt_succ_of_le (by omega)

end RiscvMos
