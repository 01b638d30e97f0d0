import RiscvMos.LibCDecl
import RiscvMos.Mmu
import RiscvMos.PrintFormat

/-! The console behind printk, and how much of a trap frame the dump of it tells. -/
namespace RiscvMos.Console
open ByteMem CDecl

/-- What the firmware gets for one character; `'\r'` goes out as it is. -/
def printcharc (ch : Char) : List Char := (if ch = '\n' then ['\r'] else []) ++ [ch]

def outputk (buf : List Char) : List Char := buf.flatMap printcharc

def printk (stack : ℕ → Char) (fmt : String) (ap : List Arg) : Option (List Char) :=
  (vprintfmt stack fmt.toList ap).map fun chunks => chunks.flatMap outputk

/-- A `u_long` where the format takes an `int`: `va_arg` reads the low word of its slot. -/
def slotInt (v : ℕ) : Arg := .int (BitVec.ofNat 32 v)

/-- The loop over the registers, from `i` on; each call finds another stack. -/
def printRegs (stack : ℕ → ℕ → Char) (m : Mem) (tf : ℕ) : ℕ → ℕ → Option (List Char)
  | 0, _ => some []
  | n+1, i => do
    let line ← printk (stack i) "$%2d = %08x\n" [slotInt i, slotInt (load64 m (tf+8*i))]
    let rest ← printRegs stack m tf n (i+1)
    some (line ++ rest)

def printTf (stack : ℕ → ℕ → Char) (m : Mem) (tf : ℕ) : Option (List Char) := do
  let regs ← printRegs stack m tf 32 0
  let sstatus ← printk (stack 32) "sstatus  = %08x\n" [slotInt (load64 m (tf+8*32))]
  let sepc ← printk (stack 33) "sepc  = %08x\n\n" [slotInt (load64 m (tf+8*33))]
  let stval ← printk (stack 34) "stval    = %08x\n" [slotInt (load64 m (tf+8*34))]
  let scause ← printk (stack 35) "scause  = %08x\n" [slotInt (load64 m (tf+8*35))]
  some (regs ++ (sstatus ++ (sepc ++ (stval ++ scause))))

/-! ### One call -/

section
variable (stack : ℕ → Char)

theorem outputk_append (s t : List Char) : outputk (s ++ t) = outputk s ++ outputk t :=
  List.flatMap_append

theorem outputk_flatten (chunks : List (List Char)) :
    chunks.flatMap outputk = outputk chunks.flatten := by
  induction chunks with
  | nil => rfl
  | cons chunk chunks ih => rw [List.flatMap_cons, ih, List.flatten_cons, outputk_append]

theorem outputk_of_not_mem {s : List Char} (hs : '\n' ∉ s) : outputk s = s := by
  induction s with
  | nil => rfl
  | cons c s ih =>
    have hc : c ≠ '\n' := (List.ne_of_not_mem_cons hs).symm
    have hs' := List.not_mem_of_not_mem_cons hs
    have hout : printcharc c = [c] := by rw [printcharc, if_neg hc, List.nil_append]
    have hcons : outputk (c :: s) = printcharc c ++ outputk s := List.flatMap_cons
    rw [hcons, hout, ih hs', List.singleton_append]

theorem vprintfmt_lits {pre : List Char} (hpre : '%' ∉ pre) (fmt : List Char) (ap : List Arg) :
    vprintfmt stack (pre ++ fmt) ap =
      (vprintfmt stack fmt ap).map fun chunks => pre.map (fun c => [c]) ++ chunks := by
  induction pre with
  | nil =>
    simp only [List.nil_append, List.map_nil]
    exact Option.map_id'.symm
  | cons c pre ih =>
    have hc : c ≠ '%' := (List.ne_of_not_mem_cons hpre).symm
    have hpre' := List.not_mem_of_not_mem_cons hpre
    rw [List.cons_append, vprintfmt_lit stack hc, ih hpre', Option.map_map]
    rfl

/-- `%08x` -/
def hexField (v : ℕ) : List Char :=
  field 8 false '0' [] (revDigits 16 false ((BitVec.ofNat 32 v).signExtend 64).toNat).reverse

/-- `%2d` -/
def regField (i : ℕ) : List Char :=
  let num := (BitVec.ofNat 32 i).signExtend 64
  let neg_flag := num.slt 0
  field 2 false ' ' (if neg_flag then ['-'] else [])
    (revDigits 10 false (if neg_flag then -num else num).toNat).reverse

theorem vprintfmt_hex (v : ℕ) (fmt : List Char) (ap : List Arg) :
    vprintfmt stack ('%' :: '0' :: '8' :: 'x' :: fmt) (slotInt v :: ap) =
      (vprintfmt stack fmt ap).map fun rest => [hexField v] ++ rest := by
  have hscan : scanFlags ('0' :: '8' :: 'x' :: fmt) = (⟨false, '0', 8, false⟩, 'x' :: fmt) := rfl
  have hnum : printNum stack ((BitVec.ofNat 32 v).signExtend 64).toNat 16 false 8 false '0' false =
      hexField v := printNum_eq stack (by omega) _ _ _ _ _ _
  rw [vprintfmt_percent stack hscan, ← hnum]
  rfl

theorem vprintfmt_reg (i : ℕ) (fmt : List Char) (ap : List Arg) :
    vprintfmt stack ('%' :: '2' :: 'd' :: fmt) (slotInt i :: ap) =
      (vprintfmt stack fmt ap).map fun rest => [regField i] ++ rest := by
  have hscan : scanFlags ('2' :: 'd' :: fmt) = (⟨false, ' ', 2, false⟩, 'd' :: fmt) := rfl
  have hnum : (let num := (BitVec.ofNat 32 i).signExtend 64
      printNum stack (if num.slt 0 then -num else num).toNat 10 (num.slt 0) 2 false ' ' false) =
      regField i := printNum_eq stack (by omega) _ _ _ _ _ _
  rw [vprintfmt_percent stack hscan, ← hnum]
  rfl

theorem flatten_singletons (s : List Char) : (s.map fun c => [c]).flatten = s :=
  List.flatMap_singleton' s

theorem printk_hex {fmt : String} {pre post : List Char}
    (hfmt : fmt.toList = pre ++ '%' :: '0' :: '8' :: 'x' :: post) (hpre : '%' ∉ pre)
    (hpost : '%' ∉ post) (v : ℕ) :
    printk stack fmt [slotInt v] = some (outputk (pre ++ (hexField v ++ post))) := by
  have hend : vprintfmt stack post [] = some (post.map fun c => [c]) := by
    have hlits := vprintfmt_lits stack hpost [] []
    rw [List.append_nil, vprintfmt] at hlits
    rw [hlits, Option.map_some, List.append_nil]
  rw [printk, hfmt, vprintfmt_lits stack hpre, vprintfmt_hex, hend]
  simp only [Option.map_some, outputk_flatten, List.flatten_append, flatten_singletons,
    List.flatten_singleton]

theorem printk_reg (i v : ℕ) : printk stack "$%2d = %08x\n" [slotInt i, slotInt v] =
    some (outputk ('$' :: (regField i ++ (" = ".toList ++ (hexField v ++ ['\n']))))) := by
  have hfmt : "$%2d = %08x\n".toList =
      ['$'] ++ '%' :: '2' :: 'd' :: (" = ".toList ++ '%' :: '0' :: '8' :: 'x' :: ['\n']) := rfl
  have hend : vprintfmt stack ['\n'] [] = some [['\n']] := by
    have hlits := vprintfmt_lits stack (show '%' ∉ ['\n'] by decide) [] []
    rw [List.append_nil, vprintfmt] at hlits
    exact hlits
  rw [printk, hfmt, vprintfmt_lits stack (by decide), vprintfmt_reg,
    vprintfmt_lits stack (by decide), vprintfmt_hex, hend]
  simp only [Option.map_some, outputk_flatten, List.flatten_append, flatten_singletons,
    List.flatten_singleton]
  rw [List.singleton_append]

end

/-! ### The lines -/

/-- Without the characters that end a line on the console. -/
def OneLine (line : List Char) : Prop := ∀ c ∈ line, c ≠ '\n' ∧ c ≠ '\r'

instance (line : List Char) : Decidable (OneLine line) :=
  List.decidableBAll (fun c => c ≠ '\n' ∧ c ≠ '\r') line

theorem OneLine.append {s t : List Char} (hs : OneLine s) (ht : OneLine t) : OneLine (s ++ t) := by
  intro c hc
  rcases List.mem_append.mp hc with hc | hc
  · exact hs c hc
  · exact ht c hc

theorem revDigits_oneLine {base : ℕ} (hb : 1 < base) (hle : base ≤ 16) (upcase : Bool) (n : ℕ) :
    OneLine (revDigits base upcase n).reverse := by
  have hdigit : ∀ i < 16, ∀ upcase, digitChar upcase i ≠ '\n' ∧ digitChar upcase i ≠ '\r' := by
    decide
  intro c hc
  rw [List.mem_reverse, revDigits] at hc
  split_ifs at hc with h0
  · rw [List.mem_singleton.mp hc]
    exact hdigit 0 (by omega) upcase
  · obtain ⟨i, hi, rfl⟩ := List.mem_map.mp hc
    exact hdigit i ((Nat.digits_lt_base hb hi).trans_le hle) upcase

theorem field_oneLine {sign digits : List Char} (hs : OneLine sign) (hd : OneLine digits)
    (width : ℕ) (zero : Bool) :
    OneLine (field width false (if zero then '0' else ' ') sign digits) := by
  have hpad (k : ℕ) (zero : Bool) : OneLine (List.replicate k (if zero then '0' else ' ')) := by
    intro c hc
    rw [List.eq_of_mem_replicate hc]
    cases zero <;> decide
  unfold field
  cases zero with
  | true => exact (hs.append (hpad _ true)).append hd
  | false => exact (hpad _ false).append (hs.append hd)

theorem hexField_oneLine (v : ℕ) : OneLine (hexField v) :=
  field_oneLine (by decide) (revDigits_oneLine (by omega) (by omega) _ _) 8 true

theorem regField_oneLine (i : ℕ) : OneLine (regField i) := by
  refine field_oneLine ?_ (revDigits_oneLine (by omega) (by omega) _ _) 2 false
  split <;> decide

/-- What the console gets for lines. -/
def sent (lines : List (List Char)) : List Char := lines.flatMap fun line => line ++ ['\r', '\n']

theorem outputk_line {line : List Char} (h : OneLine line) :
    outputk (line ++ ['\n']) = sent [line] := by
  have hout : outputk line = line := outputk_of_not_mem fun hn => (h _ hn).1 rfl
  rw [outputk_append, hout, sent, List.flatMap_singleton]
  rfl

/-- The console tells lines apart. -/
theorem sent_injective {ls ls' : List (List Char)} (h : ∀ l ∈ ls, OneLine l)
    (h' : ∀ l ∈ ls', OneLine l) (heq : sent ls = sent ls') : ls = ls' := by
  induction ls generalizing ls' with
  | nil =>
    cases ls' with
    | nil => rfl
    | cons l' ls' => simp [sent] at heq
  | cons l ls ih =>
    cases ls' with
    | nil => simp [sent] at heq
    | cons l' ls' =>
      -- Up to the first carriage return the texts are the first lines.
      have hline {l : List Char} (hl : OneLine l) (rest : List Char) :
          (l ++ '\r' :: rest).takeWhile (· ≠ '\r') = l := by
        rw [List.takeWhile_append_of_pos fun c hc => by simpa using (hl c hc).2]
        simp
      have hcons (l : List Char) (ls : List (List Char)) :
          sent (l :: ls) = l ++ '\r' :: '\n' :: sent ls := by simp [sent]
      rw [hcons, hcons] at heq
      have hl : l = l' := by
        have htake := congrArg (List.takeWhile (· ≠ '\r')) heq
        rwa [hline (h l List.mem_cons_self), hline (h' l' List.mem_cons_self)] at htake
      rw [hl] at heq ⊢
      have hrest : sent ls = sent ls' := by simpa using heq
      rw [ih (fun k hk => h k (List.mem_cons_of_mem _ hk))
        (fun k hk => h' k (List.mem_cons_of_mem _ hk)) hrest]

/-! ### The dump -/

theorem digitsVal_zeros (k : ℕ) : digitsVal 16 0 (List.replicate k '0') = some 0 := by
  induction k with
  | zero => rfl
  | succ k ih =>
    rw [List.replicate_succ, digitsVal]
    exact ih

/-- The field reads back as the number in it, whatever its zeros. -/
theorem digitsVal_hexField (v : ℕ) :
    digitsVal 16 0 (hexField v) = some ((BitVec.ofNat 32 v).signExtend 64).toNat := by
  unfold hexField field
  simp only [Bool.false_eq_true, if_false, if_true, List.nil_append]
  rw [digitsVal_append, digitsVal_zeros, Option.bind_some,
    revDigits_reverse (by omega) (by omega), digitsVal_numeral (by omega) (by omega)]

theorem hexField_eq_iff (v v' : ℕ) : hexField v = hexField v' ↔ v%2^32 = v'%2^32 := by
  constructor
  · intro h
    have hread := congrArg (digitsVal 16 0) h
    rw [digitsVal_hexField, digitsVal_hexField, Option.some.injEq, toNat_extend, toNat_extend,
      BitVec.toNat_ofNat, BitVec.toNat_ofNat] at hread
    have hv := Nat.mod_lt v (show 0 < 2^32 by omega)
    have hv' := Nat.mod_lt v' (show 0 < 2^32 by omega)
    split_ifs at hread <;> omega
  · intro h
    have hw : BitVec.ofNat 32 v = BitVec.ofNat 32 v' := BitVec.eq_of_toNat_eq (by simpa using h)
    rw [hexField, hw, hexField]

def regLine (i v : ℕ) : List Char := '$' :: (regField i ++ (" = ".toList ++ hexField v))

/-- The lines for a frame of the words `w`; the third of the last five is empty. -/
def frameLines (w : ℕ → ℕ) : List (List Char) :=
  (List.range 32).map (fun i => regLine i (w i)) ++
    ["sstatus  = ".toList ++ hexField (w 32), "sepc  = ".toList ++ hexField (w 33), [],
      "stval    = ".toList ++ hexField (w 34), "scause  = ".toList ++ hexField (w 35)]

theorem regLine_oneLine (i v : ℕ) : OneLine (regLine i v) := by
  have hdollar : OneLine ['$'] := by decide
  have heq : OneLine " = ".toList := by decide
  rw [regLine, ← List.singleton_append]
  exact hdollar.append ((regField_oneLine i).append (heq.append (hexField_oneLine v)))

theorem frameLines_oneLine (w : ℕ → ℕ) : ∀ line ∈ frameLines w, OneLine line := by
  have hlast {s : String} (hs : OneLine s.toList) (v : ℕ) : OneLine (s.toList ++ hexField v) :=
    hs.append (hexField_oneLine v)
  intro line hline
  rcases List.mem_append.mp hline with hline | hline
  · obtain ⟨i, _, rfl⟩ := List.mem_map.mp hline
    exact regLine_oneLine i (w i)
  · simp only [List.mem_cons, List.not_mem_nil, or_false] at hline
    rcases hline with rfl | rfl | rfl | rfl | rfl
    · exact hlast (by decide) _
    · exact hlast (by decide) _
    · decide
    · exact hlast (by decide) _
    · exact hlast (by decide) _

theorem sent_append (ls ls' : List (List Char)) : sent (ls ++ ls') = sent ls ++ sent ls' :=
  List.flatMap_append

theorem sent_cons (l : List Char) (ls : List (List Char)) : sent (l :: ls) = sent [l] ++ sent ls :=
  sent_append [l] ls

theorem printRegs_eq (stack : ℕ → ℕ → Char) (m : Mem) (tf n i : ℕ) :
    printRegs stack m tf n i =
      some (sent ((List.range' i n).map fun i => regLine i (load64 m (tf+8*i)))) := by
  induction n generalizing i with
  | zero => rfl
  | succ n ih =>
    have hline : outputk ('$' :: (regField i ++ (" = ".toList ++
        (hexField (load64 m (tf+8*i)) ++ ['\n'])))) = sent [regLine i (load64 m (tf+8*i))] := by
      rw [← outputk_line (regLine_oneLine _ _)]
      simp [regLine]
    rw [printRegs, printk_reg, hline, ih, List.range'_succ, List.map_cons,
      sent_cons (regLine i (load64 m (tf+8*i))) (List.map _ _)]
    simp only [Option.bind_eq_bind, Option.bind_some]

theorem printk_line (stack : ℕ → Char) {fmt : String} {pre : List Char}
    (hfmt : fmt.toList = pre ++ '%' :: '0' :: '8' :: 'x' :: ['\n']) (hpre : '%' ∉ pre)
    (hone : OneLine pre) (v : ℕ) :
    printk stack fmt [slotInt v] = some (sent [pre ++ hexField v]) := by
  have hend : '%' ∉ ['\n'] := by decide
  rw [printk_hex stack hfmt hpre hend, ← outputk_line (hone.append (hexField_oneLine v)),
    List.append_assoc]

theorem printTf_eq (stack : ℕ → ℕ → Char) (m : Mem) (tf : ℕ) :
    printTf stack m tf = some (sent (frameLines fun i => load64 m (tf+8*i))) := by
  have hsstatus (v : ℕ) : printk (stack 32) "sstatus  = %08x\n" [slotInt v] =
      some (sent ["sstatus  = ".toList ++ hexField v]) :=
    printk_line _ rfl (by decide) (by decide) v
  have hstval (v : ℕ) : printk (stack 34) "stval    = %08x\n" [slotInt v] =
      some (sent ["stval    = ".toList ++ hexField v]) :=
    printk_line _ rfl (by decide) (by decide) v
  have hscause (v : ℕ) : printk (stack 35) "scause  = %08x\n" [slotInt v] =
      some (sent ["scause  = ".toList ++ hexField v]) :=
    printk_line _ rfl (by decide) (by decide) v
  -- The format of sepc ends in two newlines, so that an empty line follows.
  have hsepc (v : ℕ) : printk (stack 33) "sepc  = %08x\n\n" [slotInt v] =
      some (sent ["sepc  = ".toList ++ hexField v, []]) := by
    have hone : OneLine ("sepc  = ".toList ++ hexField v) :=
      OneLine.append (by decide) (hexField_oneLine v)
    have hfmt : "sepc  = %08x\n\n".toList =
        "sepc  = ".toList ++ '%' :: '0' :: '8' :: 'x' :: ['\n', '\n'] := rfl
    have htext : outputk ("sepc  = ".toList ++ (hexField v ++ ['\n', '\n'])) =
        sent ["sepc  = ".toList ++ hexField v, []] := by
      calc
        _ = outputk ("sepc  = ".toList ++ hexField v ++ ['\n']) ++ outputk ([] ++ ['\n']) := by
          rw [← outputk_append]
          simp
        _ = sent ["sepc  = ".toList ++ hexField v] ++ sent [[]] := by
          rw [outputk_line hone, outputk_line (by decide)]
        _ = sent ["sepc  = ".toList ++ hexField v, []] := (sent_append _ _).symm
    rw [printk_hex _ hfmt (by decide) (by decide), htext]
  have hregs := printRegs_eq stack m tf 32 0
  rw [← List.range_eq_range'] at hregs
  rw [printTf, hregs, hsstatus, hsepc, hstval, hscause, frameLines, sent_append]
  simp only [Option.bind_eq_bind, Option.bind_some, ← sent_append, List.cons_append,
    List.nil_append]

/-- The dump of a trap frame tells the low word of each of its fields, and no more: frames are
dumped alike iff they agree in these. -/
theorem print_tf_low_words (stack stack' : ℕ → ℕ → Char) (m m' : Mem) (tf tf' : ℕ) :
    printTf stack m tf ≠ none ∧ (printTf stack m tf = printTf stack' m' tf' ↔
      ∀ i < 36, load64 m (tf+8*i)%2^32 = load64 m' (tf'+8*i)%2^32) := by
  rw [printTf_eq, printTf_eq, Option.some.injEq]
  refine ⟨Option.some_ne_none _, ?_, ?_⟩
  · intro h
    have hlines := sent_injective (frameLines_oneLine _) (frameLines_oneLine _) h
    obtain ⟨hregs, hlast⟩ := List.append_inj hlines (by simp)
    simp only [List.cons.injEq, List.append_cancel_left_eq, hexField_eq_iff, true_and,
      and_true] at hlast
    obtain ⟨h32, h33, h34, h35⟩ := hlast
    have hreg (i : ℕ) (hi : i < 32) : load64 m (tf+8*i)%2^32 = load64 m' (tf'+8*i)%2^32 := by
      have hline := List.map_inj_left.mp hregs i (List.mem_range.mpr hi)
      simpa only [regLine, List.cons.injEq, List.append_cancel_left_eq, hexField_eq_iff,
        true_and] using hline
    intro i hi
    obtain hlt | rfl | rfl | rfl | rfl : i < 32 ∨ i = 32 ∨ i = 33 ∨ i = 34 ∨ i = 35 := by omega
    · exact hreg i hlt
    · exact h32
    · exact h33
    · exact h34
    · exact h35
  · intro h
    have hhex (i : ℕ) (hi : i < 36) := (hexField_eq_iff _ _).mpr (h i hi)
    have hregs : (List.range 32).map (fun i => regLine i (load64 m (tf+8*i))) =
        (List.range 32).map (fun i => regLine i (load64 m' (tf'+8*i))) := by
      apply List.map_congr_left
      intro i hi
      have hi' := List.mem_range.mp hi
      rw [regLine, hhex i (by omega), regLine]
    unfold frameLines
    rw [hregs, hhex 32 (by omega), hhex 33 (by omega), hhex 34 (by omega), hhex 35 (by omega)]

end RiscvMos.Console
