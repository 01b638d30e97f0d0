import Mathlib.Data.Nat.Digits.Lemmas
import RiscvMos.Print

/-! What the loops of `print_num` leave in the buffer, as lists. -/
namespace RiscvMos
open Function Buffer

/-- The digits of `u` as the first loop writes them, the lowest first. -/
def revDigits (base : ℕ) (upcase : Bool) (u : ℕ) : List Char :=
  if u = 0 then [digitChar upcase 0] else (Nat.digits base u).map (digitChar upcase)

theorem revDigits_small {base u : ℕ} (upcase : Bool) (hb : 1 < base) (h : u/base = 0) :
    revDigits base upcase u = [digitChar upcase (u%base)] := by
  have hlt : u < base := by
    by_contra hge
    have hpos := Nat.div_pos (Nat.le_of_not_lt hge) (by omega : 0 < base)
    omega
  rw [Nat.mod_eq_of_lt hlt]
  unfold revDigits
  split_ifs with h0
  · rw [h0]
  · rw [Nat.digits_of_lt base u h0 hlt]
    rfl

theorem revDigits_step {base u : ℕ} (upcase : Bool) (hb : 1 < base) (h : u/base ≠ 0) :
    revDigits base upcase u = digitChar upcase (u%base) :: revDigits base upcase (u/base) := by
  have h0 : u ≠ 0 := by
    rintro rfl
    exact h (Nat.zero_div base)
  rw [revDigits, revDigits, if_neg h0, if_neg h, Nat.digits_def' hb (Nat.pos_of_ne_zero h0),
    List.map_cons]

theorem digitLoop_eq {base : ℕ} (hb : 1 < base) (upcase : Bool) (u : ℕ) (buf : ℕ → Char) (p : ℕ) :
    digitLoop base upcase buf p u =
      (put buf p (revDigits base upcase u), p+(revDigits base upcase u).length) := by
  induction u using Nat.strong_induction_on generalizing buf p with
  | _ u ih =>
    unfold digitLoop
    by_cases h : u/base = 0
    · rw [if_neg (fun hh => hh.2 h), revDigits_small upcase hb h]
      rfl
    · rw [if_pos ⟨hb, h⟩, ih _ (div_base_lt hb h), revDigits_step upcase hb h, put, List.length_cons]
      congr 1
      omega

theorem padLoop_eq (padc : Char) (n : ℕ) (buf : ℕ → Char) (i : ℕ) :
    padLoop buf padc i (i+n) = put buf i (List.replicate n padc) := by
  induction n generalizing buf i with
  | zero =>
    rw [padLoop, if_neg (by omega)]
    rfl
  | succ n ih =>
    have hnext : i+(n+1) = i+1+n := by omega
    rw [padLoop, if_pos (by omega), hnext, ih, List.replicate_succ, put]

theorem swapLoop_apply (n : ℕ) : ∀ (buf : ℕ → Char) (first last i : ℕ), last ≤ first+n →
    swapLoop buf first last i = if first ≤ i ∧ i ≤ last then buf (first+(last-i)) else buf i := by
  induction n with
  | zero =>
    intro buf first last i h
    rw [swapLoop, if_neg (by omega)]
    split_ifs with hi
    · apply congrArg buf
      omega
    · rfl
  | succ n ih =>
    intro buf first last i h
    rw [swapLoop]
    by_cases hgo : last > first
    case neg =>
      rw [if_neg hgo]
      split_ifs with hi
      · congr 1
        omega
      · rfl
    rw [if_pos hgo, ih _ _ _ _ (by omega)]
    by_cases hf : i = first
    · -- the two ends were swapped in this turn
      rw [if_neg (by omega), if_pos (by omega), update_of_ne (by omega), hf, update_self]
      apply congrArg buf
      omega
    by_cases hl : i = last
    · rw [if_neg (by omega), if_pos (by omega), hl, update_self, Nat.sub_self, Nat.add_zero]
    by_cases hi : first ≤ i ∧ i ≤ last
    · rw [if_pos (by omega), if_pos hi, update_of_ne (by omega), update_of_ne (by omega)]
      congr 1
      omega
    · rw [if_neg (by omega), if_neg hi, update_of_ne hl, update_of_ne hf]

/-- The first `n` elements are reversed and the others stay. -/
theorem get_swapLoop (buf : ℕ → Char) {n : ℕ} (hn : 0 < n) (k : ℕ) :
    get (swapLoop buf 0 (n-1)) 0 (n+k) = (get buf 0 n).reverse ++ get buf n k := by
  have happly (i : ℕ) := swapLoop_apply n buf 0 (n-1) i (by omega)
  rw [get_add, get_reverse, Nat.zero_add]
  congr 1
  · apply get_congr
    intro i _ hi
    rw [happly i, if_pos (by omega)]
  · apply get_congr
    intro i hi _
    rw [happly i, if_neg (by omega)]

theorem get_swapLoop_put (stack : ℕ → Char) {xs : List Char} (hxs : xs ≠ []) (ys : List Char) :
    get (swapLoop (put stack 0 (xs ++ ys)) 0 (xs.length-1)) 0 (xs ++ ys).length =
      xs.reverse ++ ys := by
  have hwhole := get_put stack 0 (xs ++ ys)
  rw [List.length_append, get_add, Nat.zero_add] at hwhole
  obtain ⟨hx, hy⟩ := List.append_inj hwhole (by rw [get_length])
  rw [List.length_append, get_swapLoop _ (List.length_pos_iff.mpr hxs), hx, hy]

/-! ### The whole number -/

theorem atLeast_eq (n : ℕ) (length : ℤ) : atLeast n length = n+(length.toNat-n) := by
  unfold atLeast
  split_ifs <;> omega

/-- The text of a number in a field: sign, digits and padding. -/
def field (width : ℕ) (ladjust : Bool) (padc : Char) (sign digits : List Char) : List Char :=
  let pad := List.replicate (width-(sign.length+digits.length))
  if ladjust then sign ++ digits ++ pad ' '
  else if padc = '0' then sign ++ pad '0' ++ digits
  else pad padc ++ (sign ++ digits)

theorem revDigits_ne_nil (base : ℕ) (upcase : Bool) (u : ℕ) : revDigits base upcase u ≠ [] := by
  unfold revDigits
  split_ifs with h0
  · exact List.cons_ne_nil _ _
  · rw [ne_eq, List.map_eq_nil_iff]
    exact Nat.digits_ne_nil_iff_ne_zero.mpr h0

theorem printNum_eq (stack : ℕ → Char) {base : ℕ} (hb : 1 < base) (u : ℕ) (neg_flag : Bool)
    (length : ℤ) (ladjust : Bool) (padc : Char) (upcase : Bool) :
    printNum stack u base neg_flag length ladjust padc upcase =
      field length.toNat ladjust padc (if neg_flag then ['-'] else [])
        (revDigits base upcase u).reverse := by
  have hne := revDigits_ne_nil base upcase u
  rw [printNum, digitLoop_eq hb, Nat.zero_add]
  generalize revDigits base upcase u = D at hne
  have hpos := List.length_pos_iff.mpr hne
  -- the buffer after the sign
  generalize hS : (if neg_flag then ['-'] else [] : List Char) = S
  have hsign : (if neg_flag then (update (put stack 0 D) D.length '-', D.length+1)
      else (put stack 0 D, D.length)) = (put stack 0 (D ++ S), D.length+S.length) := by
    rw [put_append, Nat.zero_add, ← hS]
    cases neg_flag <;> rfl
  dsimp only
  rw [hsign]
  dsimp only
  generalize hk : length.toNat-(D.length+S.length) = k
  have hpad (c : Char) : padLoop (put stack 0 (D ++ S)) c (D.length+S.length)
      (D.length+S.length+k) = put stack 0 (D ++ S ++ List.replicate k c) := by
    rw [padLoop_eq, put_append stack 0 (D ++ S), List.length_append, Nat.zero_add]
  have hSr : S.reverse = S := by
    rw [← hS]
    cases neg_flag <;> rfl
  have hfield : length.toNat-(S.length+D.reverse.length) = k := by
    rw [List.length_reverse, Nat.add_comm, hk]
  rw [atLeast_eq, hk]
  unfold field
  dsimp only
  rw [hfield]
  cases ladjust with
  | true =>
    -- only the number itself is reversed
    have hrun := get_swapLoop_put stack (List.append_ne_nil_of_left_ne_nil hne S) (List.replicate k ' ')
    simp only [List.length_append, List.length_replicate, List.reverse_append, hSr] at hrun
    simp only [not_true_eq_false, false_and, and_false, if_false, if_true, hpad]
    exact hrun
  | false =>
    by_cases hzero : neg_flag = true ∧ padc = '0'
    · -- the sign moves behind the zeros
      obtain ⟨rfl, rfl⟩ := hzero
      obtain rfl : S = ['-'] := hS.symm
      have hbuf : update (padLoop (put stack 0 (D ++ ['-'])) '0' D.length (D.length+k)) (D.length+k) '-' =
          put stack 0 (D ++ (List.replicate k '0' ++ ['-'])) := by
        rw [padLoop_eq, put_append, put_append stack 0 D, Nat.zero_add,
          ← put_put _ _ (by simp : ['-'].length ≤ (List.replicate k '0' ++ ['-']).length),
          put_append _ _ (List.replicate k '0'), List.length_replicate]
        rfl
      have hrun := get_swapLoop_put stack
        (List.append_ne_nil_of_left_ne_nil hne (List.replicate k '0' ++ ['-'])) []
      simp only [List.append_nil, List.reverse_append, List.reverse_replicate, List.length_append,
        List.length_replicate, List.length_singleton] at hrun
      have hlast : D.length+1+k-1 = D.length+k := by omega
      have hlen : D.length+(k+1)-1 = D.length+k := by omega
      have hall : D.length+(k+1) = D.length+1+k := by omega
      rw [hlen, hall] at hrun
      simp only [Bool.false_eq_true, not_false_eq_true, and_self, if_true, if_false,
        List.length_singleton, Nat.add_sub_cancel, hlast, hbuf, hrun]
      simp
    · have hrun := get_swapLoop_put stack
        (List.append_ne_nil_of_left_ne_nil (List.append_ne_nil_of_left_ne_nil hne S)
          (List.replicate k padc)) []
      simp only [List.append_nil, List.reverse_append, List.reverse_replicate, List.length_append,
        List.length_replicate, hSr] at hrun
      have hcond : ¬(neg_flag = true ∧ ¬false = true ∧ padc = '0') := fun hh => hzero ⟨hh.1, hh.2.2⟩
      simp only [Bool.false_eq_true, if_false] at hcond ⊢
      rw [if_neg hcond, hpad, hrun]
      split_ifs with h0
      · -- zeros only stand before a number without a sign
        obtain rfl : S = [] := by
          cases neg_flag with
          | true => exact absurd ⟨rfl, h0⟩ hzero
          | false => exact hS.symm
        rw [h0]
        rfl
      · rfl

end RiscvMos
