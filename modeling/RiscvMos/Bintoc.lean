import RiscvMos.LibCDecl
import RiscvMos.PrintText

/-! The tool bintoc: a file as the initialiser of a C array. -/
namespace RiscvMos.Bintoc
open CDecl

def BMAX : ℕ := 4 <<< 25

/-- `fprintf(out, "0x%x%c", binary[i], i < size - 1 ? ',' : '}')` for every byte. -/
def byteLoop (binary : List UInt8) (i : ℕ) : List Char :=
  if i < binary.length then
    ['0', 'x'] ++ numeral 16 false (binary.getD i 0).toNat ++
      [if i < binary.length-1 then ',' else '}'] ++ byteLoop binary (i+1)
  else []
  termination_by binary.length-i

/-- `binary_%s_%s_size` -/
def sizeName (pre bin_file : List Char) : List Char :=
  ['b', 'i', 'n', 'a', 'r', 'y', '_'] ++ pre ++ ['_'] ++ bin_file ++ ['_', 's', 'i', 'z', 'e']

/-- `binary_%s_%s_start` -/
def startName (pre bin_file : List Char) : List Char :=
  ['b', 'i', 'n', 'a', 'r', 'y', '_'] ++ pre ++ ['_'] ++ bin_file ++ ['_', 's', 't', 'a', 'r', 't']

/-- What `fprintf` and `fputc` write: `unsigned int %s = %d;` and `unsigned char %s[] = {...};`
on a line each. -/
def declarations (pre bin_file : List Char) (binary : List UInt8) : List Char :=
  kwUnsigned ++ ' ' :: kwInt ++ ' ' :: sizeName pre bin_file ++ [' ', '=', ' '] ++
    numeral 10 false binary.length ++ [';', '\n'] ++
    (kwUnsigned ++ ' ' :: kwChar ++ ' ' :: startName pre bin_file ++
      ['[', ']', ' ', '=', ' ', '{'] ++ byteLoop binary 0 ++ [';', '\n'])

/-- `bin_file` is cut at its first dot. -/
def stem (bin_file : List Char) : List Char := bin_file.takeWhile (fun c => c ≠ '.')

/-- The text that `main` writes for a file, unless `assert(size < BMAX)` fails. -/
def main (pre bin_file : List Char) (binary : List UInt8) : Option (List Char) :=
  if binary.length < BMAX then some (declarations pre (stem bin_file) binary) else none

/-- Whether C reads the text as the size of the file and its bytes. -/
def Decodes (pre bin_file : List Char) (binary : List UInt8) : Prop :=
  ∃ text, main pre bin_file binary = some text ∧
    parse text = some ((sizeName pre (stem bin_file), binary.length),
      (startName pre (stem bin_file), binary.map UInt8.toNat))

/-! ### Constants -/

theorem numeral_ne_nil (base n : ℕ) : numeral base false n ≠ [] := by
  by_cases h0 : n = 0
  · rw [h0]
    exact List.cons_ne_nil _ _
  · have hne : Nat.digits base n ≠ [] := Nat.digits_ne_nil_iff_ne_zero.mpr h0
    rw [numeral_eq h0]
    simpa using hne

theorem numeral_digits {base n : ℕ} (hb : 1 < base) (hle : base ≤ 16) {c : Char}
    (hc : c ∈ numeral base false n) : ∃ d < base, Nat.digitChar d = c := by
  by_cases h0 : n = 0
  · rw [h0] at hc
    exact ⟨0, by omega, (List.mem_singleton.mp hc).symm⟩
  · rw [numeral_eq h0, List.mem_reverse] at hc
    obtain ⟨d, hd, rfl⟩ := List.mem_map.mp hc
    exact ⟨d, Nat.digits_lt_base hb hd, rfl⟩

theorem numeral_isIdent {base n : ℕ} (hb : 1 < base) (hle : base ≤ 16) :
    ∀ c ∈ numeral base false n, isIdent c := by
  have hall : ∀ d < 16, isIdent (Nat.digitChar d) := by decide
  intro c hc
  obtain ⟨d, hd, rfl⟩ := numeral_digits hb hle hc
  exact hall d (hd.trans_le hle)

theorem runTok_hex (n : ℕ) : runTok ('0' :: 'x' :: numeral 16 false n) = some (.const n) := by
  obtain ⟨c, cs, hcs⟩ := List.exists_cons_of_ne_nil (numeral_ne_nil 16 n)
  have hval := digitsVal_numeral (by decide) (by decide : 16 ≤ 16) n
  refine runTok_const (by decide) ?_
  rw [hcs] at hval ⊢
  exact hval

/-- A decimal numeral is not read as an octal constant. -/
theorem runTok_decimal (n : ℕ) : runTok (numeral 10 false n) = some (.const n) := by
  by_cases h0 : n = 0
  · rw [h0]
    rfl
  · have hval := digitsVal_numeral (by decide : 1 < 10) (by decide) n
    have hdigit : ∀ d < 10, (Nat.digitChar d).isDigit := by decide
    obtain ⟨c, cs, hcs, hc⟩ := numeral_cons (by decide : 1 < 10) (by decide) false h0
    obtain ⟨d, hd, hdc⟩ := numeral_digits (by decide : 1 < 10) (by decide) (n := n)
      (by rw [hcs]; exact List.mem_cons_self)
    rw [hcs] at hval ⊢
    refine runTok_const (hdc ▸ hdigit d hd) ?_
    rw [constVal]
    · exact hval
    · intro c' cs' he
      exact hc (List.cons.inj he).1
    · intro cs' he
      exact hc (List.cons.inj he).1

/-! ### The elements -/

/-- The elements with their separators. -/
def bytesText : List UInt8 → List Char
  | [] => []
  | b :: bs =>
    '0' :: 'x' :: numeral 16 false b.toNat ++ (if bs = [] then '}' else ',') :: bytesText bs

def bytesToks : List UInt8 → List Tok
  | [] => []
  | b :: bs => .const b.toNat :: .punct (if bs = [] then '}' else ',') :: bytesToks bs

theorem byteLoop_eq (binary : List UInt8) (i : ℕ) :
    byteLoop binary i = bytesText (binary.drop i) := by
  fun_induction byteLoop binary i with
  | case1 i hi ih =>
    have hlast : i < binary.length-1 ↔ binary.drop (i+1) ≠ [] := by
      rw [ne_eq, List.drop_eq_nil_iff]
      omega
    have hget : binary.getD i 0 = binary[i] := by simp [hi]
    rw [ih, List.drop_eq_getElem_cons hi, bytesText, hget]
    by_cases hend : binary.drop (i+1) = []
    · rw [if_neg (fun h => hlast.mp h hend), if_pos hend]
      simp
    · rw [if_pos (hlast.mpr hend), if_neg hend]
      simp
  | case2 i hi =>
    rw [List.drop_eq_nil_of_le (by omega)]
    rfl

theorem lex_bytesText (bs : List UInt8) (rest : List Char) :
    lex (bytesText bs ++ rest) = (lex rest).map (fun ts => bytesToks bs ++ ts) := by
  induction bs with
  | nil => exact (Option.map_id' (x := lex rest)).symm
  | cons b bs ih =>
    have hsep : (if bs = [] then '}' else ',') ∈ ['{', '}', '[', ']', '=', ',', ';'] := by
      split_ifs <;> decide
    have hident : ∀ c ∈ '0' :: 'x' :: numeral 16 false b.toNat, isIdent c := by
      intro c hc
      rcases List.mem_cons.mp hc with rfl | hc
      · decide
      rcases List.mem_cons.mp hc with rfl | hc
      · decide
      exact numeral_isIdent (by decide) (by decide) c hc
    rw [bytesText, List.append_assoc, lex_run (List.cons_ne_nil _ _) hident (runTok_hex b.toNat),
      List.cons_append, lex_punct hsep, ih, Option.map_map, Option.map_map]
    · rfl
    · intro c hc
      obtain rfl := Option.some.inj hc
      split_ifs <;> decide

theorem elements_bytesToks {bs : List UInt8} (hne : bs ≠ []) (ts : List Tok) :
    elements (bytesToks bs ++ ts) = some (bs.map UInt8.toNat, ts) := by
  induction bs with
  | nil => exact absurd rfl hne
  | cons b bs ih =>
    cases bs with
    | nil => rfl
    | cons b' bs =>
      have hrest := ih (List.cons_ne_nil _ _)
      show (elements (bytesToks (b' :: bs) ++ ts)).map (fun r => (b.toNat :: r.1, r.2)) = _
      rw [hrest]
      rfl

/-! ### The whole text -/

section
variable {pre bin_file : List Char} {binary : List UInt8}

/-- The tokens of the two declarations. -/
def sizeToks (pre bin_file : List Char) (size : ℕ) : List Tok :=
  [.word kwUnsigned, .word kwInt, .word (sizeName pre bin_file), .punct '=',
    .const size, .punct ';']

def arrayToks (pre bin_file : List Char) (binary : List UInt8) : List Tok :=
  [.word kwUnsigned, .word kwChar, .word (startName pre bin_file), .punct '[',
    .punct ']', .punct '=', .punct '{'] ++ bytesToks binary ++ [.punct ';']

theorem sizeName_ne_nil (pre bin_file : List Char) : sizeName pre bin_file ≠ [] :=
  List.cons_ne_nil _ _

theorem startName_ne_nil (pre bin_file : List Char) : startName pre bin_file ≠ [] :=
  List.cons_ne_nil _ _

theorem sizeName_isIdent : (∀ c ∈ sizeName pre bin_file, isIdent c) ↔
    ∀ c ∈ pre ++ bin_file, isIdent c := by
  rw [sizeName]
  simp only [List.forall_mem_append]
  constructor
  · rintro ⟨⟨⟨⟨_, hpre⟩, _⟩, hfile⟩, _⟩
    exact ⟨hpre, hfile⟩
  · rintro ⟨hpre, hfile⟩
    exact ⟨⟨⟨⟨isIdent_of_all rfl, hpre⟩, isIdent_of_all rfl⟩, hfile⟩, isIdent_of_all rfl⟩

theorem startName_isIdent (h : ∀ c ∈ pre ++ bin_file, isIdent c) :
    ∀ c ∈ startName pre bin_file, isIdent c := by
  obtain ⟨hpre, hfile⟩ := List.forall_mem_append.mp h
  rw [startName]
  simp only [List.forall_mem_append]
  exact ⟨⟨⟨⟨isIdent_of_all rfl, hpre⟩, isIdent_of_all rfl⟩, hfile⟩, isIdent_of_all rfl⟩

theorem lex_word {w rest : List Char} {c : Char} (hne : w ≠ []) (hw : ∀ c ∈ w, isIdent c)
    (ht : runTok w = some (.word w)) (hc : isIdent c = false) :
    lex (w ++ c :: rest) = (lex (c :: rest)).map (fun ts => .word w :: ts) := by
  refine lex_run hne hw ht fun d hd => ?_
  obtain rfl := Option.some.inj hd
  exact hc

theorem lex_kwUnsigned (rest : List Char) :
    lex (kwUnsigned ++ ' ' :: rest) = (lex rest).map (fun ts => .word kwUnsigned :: ts) := by
  rw [lex_word (by decide) (isIdent_of_all rfl) rfl (by decide), lex_blank (.inl rfl)]

theorem lex_size (h : ∀ c ∈ pre ++ bin_file, isIdent c) (size : ℕ) (rest : List Char) :
    lex (kwUnsigned ++ ' ' :: kwInt ++ ' ' :: sizeName pre bin_file ++ [' ', '=', ' '] ++
        numeral 10 false size ++ [';', '\n'] ++ rest) =
      (lex rest).map (fun ts => sizeToks pre bin_file size ++ ts) := by
  have hname := sizeName_isIdent.mpr h
  have hnum : ∀ c ∈ numeral 10 false size, isIdent c := numeral_isIdent (by decide) (by decide)
  have hdecimal : lex (numeral 10 false size ++ ';' :: '\n' :: rest) =
      (lex (';' :: '\n' :: rest)).map (fun ts => .const size :: ts) := by
    refine lex_run (numeral_ne_nil 10 size) hnum (runTok_decimal size) fun c hc => ?_
    obtain rfl := Option.some.inj hc
    decide
  have htext : kwUnsigned ++ ' ' :: kwInt ++ ' ' :: sizeName pre bin_file ++ [' ', '=', ' '] ++
      numeral 10 false size ++ [';', '\n'] ++ rest =
        kwUnsigned ++ ' ' :: (kwInt ++ ' ' :: (sizeName pre bin_file ++
          ' ' :: '=' :: ' ' :: (numeral 10 false size ++ ';' :: '\n' :: rest))) := by
    simp only [List.append_assoc, List.cons_append, List.nil_append]
  rw [htext, lex_kwUnsigned, lex_word (by decide) (isIdent_of_all rfl) rfl (by decide), lex_blank (.inl rfl),
    lex_word (sizeName_ne_nil _ _) hname rfl (by decide), lex_blank (.inl rfl),
    lex_punct (by decide), lex_blank (.inl rfl), hdecimal, lex_punct (by decide),
    lex_blank (.inr rfl)]
  simp only [Option.map_map]
  rfl

theorem lex_array (h : ∀ c ∈ pre ++ bin_file, isIdent c) :
    lex (kwUnsigned ++ ' ' :: kwChar ++ ' ' :: startName pre bin_file ++
      ['[', ']', ' ', '=', ' ', '{'] ++ byteLoop binary 0 ++ [';', '\n']) =
        some (arrayToks pre bin_file binary) := by
  have hname := startName_isIdent h
  have hend : lex [';', '\n'] = some [.punct ';'] := by
    rw [lex_punct (by decide), lex_blank (.inr rfl), lex]
    rfl
  have htext : kwUnsigned ++ ' ' :: kwChar ++ ' ' :: startName pre bin_file ++
      ['[', ']', ' ', '=', ' ', '{'] ++ byteLoop binary 0 ++ [';', '\n'] =
        kwUnsigned ++ ' ' :: (kwChar ++ ' ' :: (startName pre bin_file ++
          '[' :: ']' :: ' ' :: '=' :: ' ' :: '{' :: (bytesText binary ++ [';', '\n']))) := by
    simp only [List.append_assoc, List.cons_append, List.nil_append, byteLoop_eq, List.drop_zero]
  rw [htext, lex_kwUnsigned, lex_word (by decide) (isIdent_of_all rfl) rfl (by decide), lex_blank (.inl rfl),
    lex_word (startName_ne_nil _ _) hname rfl (by decide), lex_punct (by decide),
    lex_punct (by decide), lex_blank (.inl rfl), lex_punct (by decide), lex_blank (.inl rfl),
    lex_punct (by decide), lex_bytesText, hend]
  simp only [Option.map_some]
  rfl

/-- With C identifiers as names the text is read back unless the array has no element. -/
theorem parse_declarations (h : ∀ c ∈ pre ++ bin_file, isIdent c) :
    parse (declarations pre bin_file binary) = if binary = [] then none else
      some ((sizeName pre bin_file, binary.length),
        (startName pre bin_file, binary.map UInt8.toNat)) := by
  rw [parse, declarations, lex_size h, lex_array h]
  show (arrayDecl (arrayToks pre bin_file binary)).bind _ = _
  split_ifs with hne
  · rw [hne]
    rfl
  · have helem := elements_bytesToks hne [.punct ';']
    have harray : arrayDecl (arrayToks pre bin_file binary) =
        some ((startName pre bin_file, binary.map UInt8.toNat), []) := by
      simp only [arrayToks, List.cons_append, List.nil_append, arrayDecl, helem, and_self, if_true]
    rw [harray]
    rfl

theorem intDecl_mem {ts rest : List Tok} {name : List Char} {n : ℕ}
    (h : intDecl ts = some ((name, n), rest)) : .word name ∈ ts := by
  unfold intDecl at h
  split at h
  · split_ifs at h
    cases h
    simp
  · cases h

theorem parse_isIdent {text : List Char} {name name' : List Char} {n : ℕ} {ns : List ℕ}
    (h : parse text = some ((name, n), (name', ns))) : ∀ c ∈ name, isIdent c := by
  obtain ⟨ts, hlex, h⟩ := Option.bind_eq_some_iff.mp h
  obtain ⟨⟨size, ts₁⟩, hint, h⟩ := Option.bind_eq_some_iff.mp h
  obtain ⟨⟨array, ts₂⟩, _, h⟩ := Option.bind_eq_some_iff.mp h
  dsimp only at h
  split_ifs at h
  cases h
  exact lex_isIdent hlex (intDecl_mem hint)

end

/-- For a file of less than BMAX bytes the output decodes to it if and only if the file is not
empty and the names are C identifiers. -/
theorem bintoc_decodes (pre bin_file : List Char) {binary : List UInt8}
    (hsize : binary.length < BMAX) : Decodes pre bin_file binary ↔
      binary ≠ [] ∧ ∀ c ∈ pre ++ stem bin_file, isIdent c := by
  rw [Decodes, main, if_pos hsize]
  constructor
  · rintro ⟨text, htext, hparse⟩
    obtain rfl := Option.some.inj htext
    have hident := sizeName_isIdent.mp (parse_isIdent hparse)
    refine ⟨fun hnil => ?_, hident⟩
    rw [parse_declarations hident, if_pos hnil] at hparse
    cases hparse
  · rintro ⟨hne, hident⟩
    exact ⟨_, rfl, by rw [parse_declarations hident, if_neg hne]⟩

theorem bintoc_decodes_three :
    Decodes ['u', 's', 'e', 'r'] ['l', 'o', 'o', 'p', '.', 'b'] [0x7f, 0, 0x13] :=
  (bintoc_decodes _ _ (by decide)).mpr ⟨by decide, isIdent_of_all rfl⟩

/-- Without a byte there is no closing brace. -/
theorem bintoc_empty : ¬Decodes ['u', 's', 'e', 'r'] ['l', 'o', 'o', 'p', '.', 'b'] [] := by
  rintro ⟨text, htext, hparse⟩
  obtain rfl := Option.some.inj htext
  rw [parse_declarations (isIdent_of_all rfl), if_pos rfl] at hparse
  cases hparse

end RiscvMos.Bintoc
