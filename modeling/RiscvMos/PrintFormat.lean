import RiscvMos.PrintText

/-! The parser of `vprintfmt` on formats of the reference, and the text of a whole call. -/
namespace RiscvMos

/-! ### Parsing a directive -/

theorem wrapInt_of_lt {n : ℕ} (h : n < 2^31) : wrapInt n = n := by
  unfold wrapInt
  rw [Int.bmod_eq_of_le] <;> omega

theorem scanFlag_eq (flag : Char) (b : Bool) (fmt : List Char)
    (h : b = false → fmt.head? ≠ some flag) :
    scanFlag flag ((if b then [flag] else []) ++ fmt) = (b, fmt) := by
  cases b with
  | true => simp [scanFlag]
  | false =>
    cases fmt with
    | nil => rfl
    | cons c fmt =>
      have hc : c ≠ flag := fun he => h rfl (by rw [he]; rfl)
      simp [scanFlag, hc]

theorem digitChar_digit {i : ℕ} (hi : i < 10) :
    '0' ≤ Nat.digitChar i ∧ Nat.digitChar i ≤ '9' ∧ (Nat.digitChar i).toNat = '0'.toNat+i ∧
      Nat.digitChar i ≠ '-' ∧ (i ≠ 0 → Nat.digitChar i ≠ '0') := by
  have hall : ∀ i < 10, '0' ≤ Nat.digitChar i ∧ Nat.digitChar i ≤ '9' ∧
      (Nat.digitChar i).toNat = '0'.toNat+i ∧ Nat.digitChar i ≠ '-' ∧
        (i ≠ 0 → Nat.digitChar i ≠ '0') := by decide
  exact hall i hi

theorem scanWidth_eq {c : Char} (hc : ¬('0' ≤ c ∧ c ≤ '9')) (rest : List Char) (digits : List ℕ) :
    ∀ w : ℕ, (∀ i ∈ digits, i < 10) → w*10^digits.length+Nat.ofDigits 10 digits.reverse < 2^31 →
      scanWidth w (digits.map Nat.digitChar ++ c :: rest) =
        (((w*10^digits.length+Nat.ofDigits 10 digits.reverse : ℕ) : ℤ), c :: rest) := by
  induction digits with
  | nil =>
    intro w _ _
    rw [List.map_nil, List.nil_append, scanWidth, if_neg hc]
    simp
  | cons i digits ih =>
    intro w hi hw
    obtain ⟨hlo, hhi, hval, _⟩ := digitChar_digit (hi i List.mem_cons_self)
    have hnum : w*10^(i :: digits).length+Nat.ofDigits 10 (i :: digits).reverse =
        (w*10+i)*10^digits.length+Nat.ofDigits 10 digits.reverse := by
      rw [List.reverse_cons, Nat.ofDigits_append, Nat.ofDigits_singleton, List.length_reverse,
        List.length_cons, Nat.pow_succ]
      ring
    rw [hnum] at hw ⊢
    have hle : w*10+i ≤ (w*10+i)*10^digits.length :=
      Nat.le_mul_of_pos_right _ (Nat.pow_pos (by decide))
    have hstep : wrapInt ((w : ℤ)*10+(((Nat.digitChar i).toNat : ℤ)- '0'.toNat)) = (w*10+i : ℕ) := by
      rw [← wrapInt_of_lt (by omega : w*10+i < 2^31), hval]
      congr 1
      push_cast
      ring
    rw [List.map_cons, List.cons_append, scanWidth, if_pos ⟨hlo, hhi⟩, hstep]
    exact ih (w*10+i) (fun j hj => hi j (List.mem_cons_of_mem i hj)) hw

namespace Directive

/-- The end of a directive starts no flag and no width. -/
theorem tail_cons (d : Directive) (rest : List Char) :
    ∃ c cs, (if d.long then ['l'] else []) ++ d.conv.char :: rest = c :: cs ∧
      ¬('0' ≤ c ∧ c ≤ '9') ∧ c ≠ '-' ∧ c ≠ '0' := by
  cases d.long with
  | true => exact ⟨'l', _, rfl, by decide⟩
  | false =>
    refine ⟨d.conv.char, rest, rfl, ?_⟩
    cases d.conv <;> decide

theorem scanFlags_body (d : Directive) (rest : List Char) (hw : d.width+70 < 2^31) :
    scanFlags (d.body ++ rest) =
      (⟨d.minus, if d.zero then '0' else ' ', d.width, d.long⟩, d.conv.char :: rest) := by
  obtain ⟨c, cs, htail, hdigit, hminus, hzero⟩ := d.tail_cons rest
  have hbody : d.body ++ rest = (if d.minus then ['-'] else []) ++ ((if d.zero then ['0'] else []) ++
      (d.digits.map Nat.digitChar ++ c :: cs)) := by
    rw [← htail, body]
    simp only [List.append_assoc, List.singleton_append]
  -- what stands behind the flags
  have hhead (flag : Char) (hflag : c ≠ flag) (hd : ∀ i ∈ d.digits.head?, Nat.digitChar i ≠ flag) :
      (d.digits.map Nat.digitChar ++ c :: cs).head? ≠ some flag := by
    cases hds : d.digits with
    | nil => simpa using hflag
    | cons i is =>
      rw [hds] at hd
      simpa using hd i rfl
  have hzeroFlag := scanFlag_eq '0' d.zero _ (fun hz => hhead '0' hzero (fun i hi => by
    have hne : i ≠ 0 := fun h0 => d.digits_head hz (by rw [← h0]; exact hi)
    exact (digitChar_digit (d.digits_lt i (List.mem_of_mem_head? hi))).2.2.2.2 hne))
  have hminusFlag := scanFlag_eq '-' d.minus ((if d.zero then ['0'] else []) ++
      (d.digits.map Nat.digitChar ++ c :: cs)) (fun _ => by
    cases d.zero with
    | true => simp
    | false => exact hhead '-' hminus (fun i hi =>
        (digitChar_digit (d.digits_lt i (List.mem_of_mem_head? hi))).2.2.2.1))
  have hwidth := scanWidth_eq hdigit cs d.digits 0 d.digits_lt (by
    rw [Nat.zero_mul, Nat.zero_add]
    unfold width at hw
    omega)
  have hconv : d.conv.char ≠ 'l' := by cases d.conv <;> decide
  have hlong := scanFlag_eq 'l' d.long (d.conv.char :: rest) (fun _ => by simpa using hconv)
  rw [Nat.zero_mul, Nat.zero_add, ← width, Nat.cast_zero] at hwidth
  rw [htail] at hlong
  unfold scanFlags
  rw [hbody, hminusFlag]
  dsimp only
  rw [hzeroFlag]
  dsimp only
  rw [hwidth]
  dsimp only
  rw [hlong]

end Directive

/-! ### The whole text -/

theorem vprintfmt_lit (stack : ℕ → Char) {c : Char} (hc : c ≠ '%') (fmt : List Char) (ap : List Arg) :
    vprintfmt stack (c :: fmt) ap = (vprintfmt stack fmt ap).map (fun chunks => [c] :: chunks) := by
  rw [vprintfmt, if_pos hc]
  cases vprintfmt stack fmt ap <;> rfl

theorem vprintfmt_percent (stack : ℕ → Char) {fmt fmt' : List Char} {f : Flags} {c : Char}
    (h : scanFlags fmt = (f, c :: fmt')) (ap : List Arg) :
    vprintfmt stack ('%' :: fmt) ap = (convert stack f c ap).bind (fun x =>
      (vprintfmt stack fmt' x.2).map (fun rest => x.1 ++ rest)) := by
  rw [vprintfmt, if_neg (by decide)]
  split
  next h' =>
    rw [h] at h'
    cases h'
  next c' fmt'' h' =>
    rw [h] at h'
    cases h'
    rw [h]
    cases hconv : convert stack f c ap with
    | none => rfl
    | some x =>
      rw [Option.bind_some, Option.map_eq_bind]
      rfl

/-- No argument of 32 bits for an unsigned conversion is 2^31 or more. -/
def ArgsFit : List Item → List Arg → Prop
  | .dir d :: items, a :: ap => d.Fits a ∧ ArgsFit items ap
  | .lit _ _ :: items, ap => ArgsFit items ap
  | .percent :: items, ap => ArgsFit items ap
  | _, _ => True

/-- Texts of which none is longer than the other's part agree iff their parts do. -/
theorem append_eq_iff {t t' u u' : List Char} (ht : t.length ≤ t'.length) (hu : u.length ≤ u'.length) :
    t' ++ u' = t ++ u ↔ t' = t ∧ u' = u := by
  constructor
  · intro h
    have hlen := congrArg List.length h
    rw [List.length_append, List.length_append] at hlen
    exact List.append_inj h (by omega)
  · rintro ⟨rfl, rfl⟩
    rfl

theorem vprintfmt_text (stack : ℕ → Char) (items : List Item) : ∀ {ap : List Arg} {text : List Char},
    (∀ d, .dir d ∈ items → d.width+70 < 2^31) → reference items ap = some text →
    ∃ chunks, vprintfmt stack (formatOf items) ap = some chunks ∧
      text.length ≤ chunks.flatten.length ∧ (chunks.flatten = text ↔ ArgsFit items ap) := by
  induction items with
  | nil =>
    intro ap text _ href
    cases ap with
    | cons a ap => cases href
    | nil =>
      cases href
      refine ⟨[], ?_, le_rfl, fun _ => trivial, fun _ => rfl⟩
      show vprintfmt stack [] [] = some []
      rw [vprintfmt]
  | cons item items ih =>
    intro ap text hw href
    have hw' : ∀ d, .dir d ∈ items → d.width+70 < 2^31 := fun d hd => hw d (List.mem_cons_of_mem _ hd)
    cases item with
    | lit c hc =>
      obtain ⟨ts, hts, rfl⟩ := Option.map_eq_some_iff.mp href
      obtain ⟨chunks, hrun, hlen, hiff⟩ := ih hw' hts
      refine ⟨[c] :: chunks, ?_, Nat.succ_le_succ hlen, ?_⟩
      · show vprintfmt stack (c :: formatOf items) ap = _
        rw [vprintfmt_lit stack hc, hrun]
        rfl
      · show c :: chunks.flatten = c :: ts ↔ ArgsFit items ap
        rw [List.cons_inj_right, hiff]
    | percent =>
      obtain ⟨ts, hts, rfl⟩ := Option.map_eq_some_iff.mp href
      obtain ⟨chunks, hrun, hlen, hiff⟩ := ih hw' hts
      have hscan : scanFlags ('%' :: formatOf items) = (⟨false, ' ', 0, false⟩, '%' :: formatOf items) := rfl
      refine ⟨['%'] :: chunks, ?_, Nat.succ_le_succ hlen, ?_⟩
      · show vprintfmt stack ('%' :: '%' :: formatOf items) ap = _
        rw [vprintfmt_percent stack hscan]
        show (vprintfmt stack (formatOf items) ap).map (fun rest => [['%']] ++ rest) = _
        rw [hrun]
        rfl
      · show '%' :: chunks.flatten = '%' :: ts ↔ ArgsFit items ap
        rw [List.cons_inj_right, hiff]
    | dir d =>
      cases ap with
      | nil => cases href
      | cons a ap =>
        obtain ⟨t, ht, href⟩ := Option.bind_eq_some_iff.mp href
        obtain ⟨ts, hts, htext⟩ := Option.bind_eq_some_iff.mp href
        cases htext
        obtain ⟨rest, hrun, hlen, hiff⟩ := ih hw' hts
        obtain ⟨t', hshown, hle, hfits⟩ := d.shown_text ht
        obtain ⟨chunks, hconv, rfl⟩ := d.convert_shown stack a ap hshown
        have hscan := d.scanFlags_body (formatOf items) (hw d List.mem_cons_self)
        refine ⟨chunks ++ rest, ?_, ?_, ?_⟩
        · show vprintfmt stack ('%' :: (d.body ++ formatOf items)) (a :: ap) = _
          rw [vprintfmt_percent stack hscan, hconv]
          show (vprintfmt stack (formatOf items) ap).map (fun rest => chunks ++ rest) = _
          rw [hrun]
          rfl
        · rw [List.flatten_append, List.length_append, List.length_append]
          exact Nat.add_le_add hle hlen
        · rw [List.flatten_append, append_eq_iff hle hlen, hfits, hiff]
          rfl

/-- `vprintfmt` prints the reference text iff no argument of 32 bits for an unsigned
conversion is 2^31 or more. -/
theorem vprintfmt_reference (stack : ℕ → Char) {items : List Item} {ap : List Arg} {text : List Char}
    (hw : ∀ d, .dir d ∈ items → d.width+70 < 2^31) (href : reference items ap = some text) :
    (∃ chunks, vprintfmt stack (formatOf items) ap = some chunks ∧ chunks.flatten = text) ↔
      ArgsFit items ap := by
  obtain ⟨chunks, hrun, _, hiff⟩ := vprintfmt_text stack items hw href
  rw [← hiff]
  constructor
  · rintro ⟨chunks', hrun', h⟩
    rw [hrun] at hrun'
    cases hrun'
    exact h
  · exact fun h => ⟨chunks, hrun, h⟩

/-- `%-05d,%x` -/
def exampleItems : List Item :=
  [.dir ⟨true, true, [5], false, .d, by decide, by decide⟩, .lit ',' (by decide),
    .dir ⟨false, false, [], false, .x, by decide, by decide⟩]

theorem exampleItems_width (d : Directive) (hd : .dir d ∈ exampleItems) : d.width+70 < 2^31 := by
  simp only [exampleItems, List.mem_cons, Item.dir.injEq, reduceCtorEq, List.not_mem_nil, or_false,
    false_or] at hd
  rcases hd with rfl | rfl <;> decide

theorem vprintfmt_reference_two :
    (∃ chunks, vprintfmt (fun _ => ' ') (formatOf exampleItems) [.int (-42), .int 42] =
      some chunks ∧ chunks.flatten = "-42  ,2a".toList) ↔ ArgsFit exampleItems [.int (-42), .int 42] :=
  vprintfmt_reference _ exampleItems_width (by decide)

/-- An unsigned argument with its highest bit set is printed with 16 digits. -/
theorem vprintfmt_extends : ∃ items ap text, (∀ d, .dir d ∈ items → d.width+70 < 2^31) ∧
    reference items ap = some text ∧ text = "-42  ,ffffffff".toList ∧
    ∀ stack, ¬∃ chunks, vprintfmt stack (formatOf items) ap = some chunks ∧ chunks.flatten = text := by
  refine ⟨exampleItems, [.int (-42), .int 0xffffffff], _, exampleItems_width, by decide, rfl, ?_⟩
  rintro stack ⟨chunks, hrun, htext⟩
  obtain ⟨chunks', hrun', _, hiff⟩ := vprintfmt_text stack exampleItems exampleItems_width
    (by decide : reference exampleItems [.int (-42), .int 0xffffffff] = some "-42  ,ffffffff".toList)
  rw [hrun] at hrun'
  cases hrun'
  have hfits := (hiff.mp htext).2.1
  exact absurd (hfits 16 false _ rfl rfl) (by decide)

end RiscvMos
