import Mathlib.Data.Nat.Digits.Defs
import Mathlib.Data.List.TakeWhile

/-! A reader for two kinds of C declarations: an `unsigned int` with its value and an array of
`unsigned char` with its elements. -/
namespace CDecl

/-- The characters of identifiers and keywords. -/
def isIdent (c : Char) : Bool := c.isAlphanum || c == '_'

theorem isIdent_of_all {cs : List Char} (h : cs.all isIdent = true) : ∀ c ∈ cs, isIdent c :=
  List.all_eq_true.mp h

inductive Tok
  | word (s : List Char)
  | const (n : ℕ)
  | punct (c : Char)
  deriving DecidableEq

/-! ### Constants -/

def digitVal (c : Char) : Option ℕ :=
  if '0' ≤ c ∧ c ≤ '9' then some (c.toNat - '0'.toNat)
  else if 'a' ≤ c ∧ c ≤ 'f' then some (c.toNat - 'a'.toNat+10)
  else if 'A' ≤ c ∧ c ≤ 'F' then some (c.toNat - 'A'.toNat+10)
  else none

def digitsVal (base : ℕ) (n : ℕ) : List Char → Option ℕ
  | [] => some n
  | c :: cs => do
    let d ← digitVal c
    if d < base then digitsVal base (n*base+d) cs else none

/-- The value of an integer constant: hexadecimal, octal or decimal. -/
def constVal : List Char → Option ℕ
  | '0' :: 'x' :: c :: cs => digitsVal 16 0 (c :: cs)
  | '0' :: cs => digitsVal 8 0 cs
  | cs => digitsVal 10 0 cs

/-! ### Tokens -/

/-- A run of identifier characters: a constant if it starts with a digit. -/
def runTok (run : List Char) : Option Tok :=
  if run.head?.any Char.isDigit then (constVal run).map .const else some (.word run)

/-- The longest run of identifier characters is one token. -/
def lex : List Char → Option (List Tok)
  | [] => some []
  | c :: cs =>
    if c = ' ' ∨ c = '\n' then lex cs
    else if isIdent c then do
      let t ← runTok (c :: cs.takeWhile isIdent)
      let ts ← lex (cs.dropWhile isIdent)
      some (t :: ts)
    else if c ∈ ['{', '}', '[', ']', '=', ',', ';'] then (lex cs).map (fun ts => .punct c :: ts)
    else none
  termination_by cs => cs.length
  decreasing_by
  · exact Nat.lt_succ_self _
  · exact Nat.lt_succ_of_le (List.dropWhile_sublist _).length_le
  · exact Nat.lt_succ_self _

/-! ### Declarations -/

def closing : List Tok → Option (List Tok)
  | .punct c :: ts => if c = '}' then some ts else none
  | _ => none

/-- The elements up to the closing brace, with an optional comma before it. -/
def elements : List Tok → Option (List ℕ × List Tok)
  | .const n :: .punct c :: ts =>
    if c = '}' then some ([n], ts)
    else if c = ',' then
      match closing ts with
      | some ts => some ([n], ts)
      | none => (elements ts).map (fun r => (n :: r.1, r.2))
    else none
  | _ => none

/-- The keywords of the declarations. -/
def kwUnsigned : List Char := ['u', 'n', 's', 'i', 'g', 'n', 'e', 'd']
def kwInt : List Char := ['i', 'n', 't']
def kwChar : List Char := ['c', 'h', 'a', 'r']

/-- `unsigned int name = n;` -/
def intDecl : List Tok → Option ((List Char × ℕ) × List Tok)
  | .word u :: .word i :: .word name :: .punct eq :: .const n :: .punct semi :: ts =>
    if u = kwUnsigned ∧ i = kwInt ∧ eq = '=' ∧ semi = ';' then some ((name, n), ts)
    else none
  | _ => none

/-- `unsigned char name[] = { ... };` -/
def arrayDecl : List Tok → Option ((List Char × List ℕ) × List Tok)
  | .word u :: .word ch :: .word name :: .punct l :: .punct r :: .punct eq :: .punct brace :: ts =>
    if u = kwUnsigned ∧ ch = kwChar ∧ l = '[' ∧ r = ']' ∧ eq = '=' ∧ brace = '{' then
      match elements ts with
      | some (ns, .punct semi :: ts) => if semi = ';' then some ((name, ns), ts) else none
      | _ => none
    else none
  | _ => none

/-- An `unsigned int` and an array, with their names, and nothing behind them. -/
def parse (text : List Char) : Option ((List Char × ℕ) × (List Char × List ℕ)) := do
  let ts ← lex text
  let (size, ts) ← intDecl ts
  let (array, ts) ← arrayDecl ts
  if ts = [] then some (size, array) else none

/-! ### Reading back digits -/

theorem digitVal_digitChar {d : ℕ} (hd : d < 16) : digitVal (Nat.digitChar d) = some d := by
  have hall : ∀ d < 16, digitVal (Nat.digitChar d) = some d := by decide
  exact hall d hd

theorem digitsVal_append (base n : ℕ) (cs cs' : List Char) :
    digitsVal base n (cs ++ cs') = (digitsVal base n cs).bind (fun k => digitsVal base k cs') := by
  induction cs generalizing n with
  | nil => rfl
  | cons c cs ih =>
    rw [List.cons_append, digitsVal, digitsVal]
    cases digitVal c with
    | none => rfl
    | some d =>
      show (if d < base then _ else none) = (if d < base then _ else none).bind _
      split_ifs
      · exact ih _
      · rfl

theorem digitsVal_digits {base : ℕ} (hb : base ≤ 16) (ds : List ℕ) (hd : ∀ d ∈ ds, d < base) :
    digitsVal base 0 (ds.map Nat.digitChar).reverse = some (Nat.ofDigits base ds) := by
  induction ds with
  | nil => rfl
  | cons d ds ih =>
    have hlt := hd d List.mem_cons_self
    rw [List.map_cons, List.reverse_cons, digitsVal_append,
      ih (fun i hi => hd i (List.mem_cons_of_mem d hi)), Option.bind_some, digitsVal,
      digitVal_digitChar (hlt.trans_le hb), Nat.ofDigits_cons]
    show (if d < base then some (Nat.ofDigits base ds*base+d) else none) = _
    rw [if_pos hlt, Nat.mul_comm, Nat.add_comm]

/-! ### Lexing one token -/

theorem takeWhile_run {run rest : List Char} (hrun : ∀ c ∈ run, isIdent c)
    (hrest : ∀ c ∈ rest.head?, isIdent c = false) :
    (run ++ rest).takeWhile isIdent = run ∧ (run ++ rest).dropWhile isIdent = rest := by
  induction run with
  | nil =>
    cases rest with
    | nil => exact ⟨rfl, rfl⟩
    | cons c rest =>
      have hc := hrest c rfl
      exact ⟨List.takeWhile_cons_of_neg (by simp [hc]), List.dropWhile_cons_of_neg (by simp [hc])⟩
  | cons c run ih =>
    have hc := hrun c List.mem_cons_self
    obtain ⟨ht, hd⟩ := ih (fun d hd => hrun d (List.mem_cons_of_mem c hd))
    rw [List.cons_append, List.takeWhile_cons_of_pos hc, List.dropWhile_cons_of_pos hc, ht, hd]
    exact ⟨rfl, rfl⟩

theorem isIdent_ne_blank {c : Char} (hc : isIdent c) : ¬(c = ' ' ∨ c = '\n') := by
  rintro (rfl | rfl) <;> exact absurd hc (by decide)

/-- A run of identifier characters with another character behind it. -/
theorem lex_run {run rest : List Char} {t : Tok} (hne : run ≠ []) (hrun : ∀ c ∈ run, isIdent c)
    (ht : runTok run = some t) (hrest : ∀ c ∈ rest.head?, isIdent c = false) :
    lex (run ++ rest) = (lex rest).map (fun ts => t :: ts) := by
  obtain ⟨c, run, rfl⟩ := List.exists_cons_of_ne_nil hne
  have hc := hrun c List.mem_cons_self
  obtain ⟨htake, hdrop⟩ := takeWhile_run (fun d hd => hrun d (List.mem_cons_of_mem c hd)) hrest
  rw [List.cons_append, lex, if_neg (isIdent_ne_blank hc), if_pos hc, htake, hdrop, ht]
  cases lex rest <;> rfl

theorem runTok_const {c : Char} {run : List Char} {n : ℕ} (hdigit : c.isDigit)
    (hval : constVal (c :: run) = some n) : runTok (c :: run) = some (.const n) := by
  rw [runTok, List.head?_cons, Option.any_some, hdigit, hval]
  rfl

theorem lex_blank {c : Char} (hc : c = ' ' ∨ c = '\n') (rest : List Char) :
    lex (c :: rest) = lex rest := by
  rw [lex, if_pos hc]

theorem lex_punct {c : Char} (hc : c ∈ ['{', '}', '[', ']', '=', ',', ';']) (rest : List Char) :
    lex (c :: rest) = (lex rest).map (fun ts => .punct c :: ts) := by
  have hblank : ¬(c = ' ' ∨ c = '\n') ∧ isIdent c = false := by
    have hall : ∀ c ∈ ['{', '}', '[', ']', '=', ',', ';'],
        ¬(c = ' ' ∨ c = '\n') ∧ isIdent c = false := by
      simp only [List.forall_mem_cons]
      exact ⟨by decide, by decide, by decide, by decide, by decide, by decide, by decide, nofun⟩
    exact hall c hc
  rw [lex, if_neg hblank.1, if_neg (by rw [hblank.2]; decide), if_pos hc]

theorem runTok_word {run w : List Char} (h : runTok run = some (.word w)) : w = run := by
  rw [runTok] at h
  split_ifs at h
  · obtain ⟨n, _, hn⟩ := Option.map_eq_some_iff.mp h
    cases hn
  · cases h
    rfl

theorem lex_isIdent {text : List Char} {ts : List Tok} (h : lex text = some ts) {w : List Char}
    (hw : .word w ∈ ts) : ∀ c ∈ w, isIdent c := by
  fun_induction lex text generalizing ts with
  | case1 =>
    cases h
    exact absurd hw List.not_mem_nil
  | case2 c cs _ ih => exact ih h hw
  | case3 c cs _ hc ih =>
    obtain ⟨t, ht, h⟩ := Option.bind_eq_some_iff.mp h
    obtain ⟨ts', hts, h⟩ := Option.bind_eq_some_iff.mp h
    cases h
    rcases List.mem_cons.mp hw with rfl | hw
    · rw [runTok_word ht]
      intro d hd
      rcases List.mem_cons.mp hd with rfl | hd
      · exact hc
      · exact List.mem_takeWhile_imp hd
    · exact ih hts hw
  | case4 c cs _ _ _ ih =>
    obtain ⟨ts', hts, rfl⟩ := Option.map_eq_some_iff.mp h
    rcases List.mem_cons.mp hw with hne | hw
    · cases hne
    · exact ih hts hw
  | case5 => cases h

end CDecl
