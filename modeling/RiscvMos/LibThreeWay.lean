import Mathlib.Data.List.Lex
import Mathlib.Order.Compare
import Mathlib.Order.Lattice

/-! Three-way comparisons, as a C function answers them: -1, 0 or 1. -/
namespace ThreeWay

variable {α β : Type*} [LinearOrder α] [LinearOrder β]

/-- The answer for `a` against `b`. -/
def answer (a b : α) : ℤ :=
  match cmp a b with
  | .lt => -1
  | .eq => 0
  | .gt => 1

variable {a b : α}

theorem answer_of_lt (h : a < b) : answer a b = -1 := by rw [answer, cmp_eq_lt_iff _ _ |>.mpr h]

@[simp] theorem answer_self (a : α) : answer a a = 0 := by rw [answer, cmp_self_eq_eq]

theorem answer_swap (a b : α) : answer b a = -answer a b := by
  rw [answer, answer, ← cmp_swap a b]
  cases cmp a b <;> rfl

theorem answer_of_gt (h : b < a) : answer a b = 1 := by
  rw [answer_swap, answer_of_lt h]
  rfl

theorem answer_neg_iff : answer a b < 0 ↔ a < b := by
  rw [answer, ← cmp_eq_lt_iff a b]
  cases cmp a b <;> decide

theorem answer_eq_zero_iff : answer a b = 0 ↔ a = b := by
  rw [answer, ← cmp_eq_eq_iff a b]
  cases cmp a b <;> decide

theorem answer_congr {a b : α} {c d : β} (hlt : a < b ↔ c < d) (hgt : b < a ↔ d < c) :
    answer a b = answer c d := by
  simp only [answer, cmp, cmpUsing, hlt, hgt]

/-! ### Lists in lexicographic order -/

theorem answer_cons_same (a : α) (s t : List α) : answer (a :: s) (a :: t) = answer s t := by
  have hcons (s t : List α) : a :: s < a :: t ↔ s < t := by
    rw [List.cons_lt_cons_iff, or_iff_right (fun h => lt_irrefl a h), and_iff_right rfl]
  exact answer_congr (hcons s t) (hcons t s)

/-- The first difference decides. -/
theorem answer_cons_ne (h : a ≠ b) (s t : List α) : answer (a :: s) (b :: t) = answer a b := by
  rcases lt_or_gt_of_ne h with hlt | hgt
  · rw [answer_of_lt hlt, answer_of_lt (List.cons_lt_cons_iff.mpr (.inl hlt))]
  · rw [answer_of_gt hgt, answer_of_gt (List.cons_lt_cons_iff.mpr (.inl hgt))]

theorem answer_nil_cons (b : α) (t : List α) : answer [] (b :: t) = -1 :=
  answer_of_lt (List.nil_lt_cons b t)

theorem answer_cons_nil (a : α) (s : List α) : answer (a :: s) [] = 1 :=
  answer_of_gt (List.nil_lt_cons a s)

end ThreeWay
