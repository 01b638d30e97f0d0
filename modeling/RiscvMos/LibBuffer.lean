import Mathlib.Data.List.Range
import Mathlib.Logic.Function.Basic

/-! Buffers as functions from indices, written and read as lists. -/
namespace Buffer
open Function

variable {α : Type}

/-- The list `xs` written from index `p` on. -/
def put (b : ℕ → α) (p : ℕ) : List α → ℕ → α
  | [] => b
  | x :: xs => put (update b p x) (p+1) xs

/-- The `n` elements from index `p` on. -/
def get (b : ℕ → α) (p n : ℕ) : List α := (List.range' p n).map b

@[simp] theorem get_length (b : ℕ → α) (p n : ℕ) : (get b p n).length = n := by
  rw [get, List.length_map, List.length_range']

theorem put_append (b : ℕ → α) (p : ℕ) (xs ys : List α) :
    put b p (xs ++ ys) = put (put b p xs) (p+xs.length) ys := by
  induction xs generalizing b p with
  | nil => rfl
  | cons x xs ih =>
    have hlen : p+(x :: xs).length = p+1+xs.length := by
      rw [List.length_cons]
      omega
    rw [List.cons_append, put, put, ih, hlen]

theorem put_lt (b : ℕ → α) {p i : ℕ} (xs : List α) (h : i < p) : put b p xs i = b i := by
  induction xs generalizing b p with
  | nil => rfl
  | cons x xs ih => rw [put, ih _ (by omega), update_of_ne (by omega)]

theorem put_ge (b : ℕ → α) {p i : ℕ} (xs : List α) (h : p+xs.length ≤ i) : put b p xs i = b i := by
  induction xs generalizing b p with
  | nil => rfl
  | cons x xs ih =>
    rw [List.length_cons] at h
    rw [put, ih _ (by omega), update_of_ne (by omega)]

/-- Where the list was written nothing shines through. -/
theorem put_congr (b b' : ℕ → α) {p i : ℕ} (xs : List α) (hl : p ≤ i) (hu : i < p+xs.length) :
    put b p xs i = put b' p xs i := by
  induction xs generalizing b b' p with
  | nil =>
    rw [List.length_nil] at hu
    omega
  | cons x xs ih =>
    rw [List.length_cons] at hu
    rw [put, put]
    by_cases hip : i = p
    · rw [hip, put_lt _ _ (by omega), put_lt _ _ (by omega), update_self, update_self]
    · exact ih _ _ (by omega) (by omega)

theorem put_put (b : ℕ → α) (p : ℕ) {xs ys : List α} (h : xs.length ≤ ys.length) :
    put (put b p xs) p ys = put b p ys := by
  funext i
  by_cases hl : p ≤ i
  · by_cases hu : i < p+ys.length
    · exact put_congr _ _ ys hl hu
    · rw [put_ge _ _ (by omega), put_ge _ _ (by omega), put_ge _ _ (by omega)]
  · rw [put_lt _ _ (by omega), put_lt _ _ (by omega), put_lt _ _ (by omega)]

theorem get_add (b : ℕ → α) (p m n : ℕ) : get b p (m+n) = get b p m ++ get b (p+m) n := by
  rw [get, get, get, ← List.map_append, List.range'_append_1]

theorem get_congr {b b' : ℕ → α} {p n : ℕ} (h : ∀ i, p ≤ i → i < p+n → b i = b' i) :
    get b p n = get b' p n := by
  apply List.map_congr_left
  intro i hi
  obtain ⟨h1, h2⟩ := List.mem_range'_1.mp hi
  exact h i h1 h2

theorem get_put (b : ℕ → α) (p : ℕ) (xs : List α) : get (put b p xs) p xs.length = xs := by
  induction xs generalizing b p with
  | nil => rfl
  | cons x xs ih =>
    have hhead : put (update b p x) (p+1) xs p = x := by
      rw [put_lt _ _ (by omega), update_self]
    rw [put, List.length_cons, Nat.add_comm xs.length 1, get_add, ih]
    show [put (update b p x) (p+1) xs p] ++ xs = x :: xs
    rw [hhead, List.singleton_append]

theorem get_reverse (b : ℕ → α) (p n : ℕ) :
    (get b p n).reverse = get (fun i => b (p+(p+n-1-i))) p n := by
  apply List.ext_getElem
  · simp
  · intro i h1 h2
    simp only [get, List.length_reverse, List.length_map, List.length_range'] at h1
    simp only [get, List.getElem_reverse, List.getElem_map, List.getElem_range', List.length_map,
      List.length_range', Nat.one_mul]
    apply congrArg b
    omega

/-! ### Buffers of `size` elements -/

/-- `b[p] = x`, or none outside of the buffer. -/
def write (size : ℕ) (b : ℕ → α) (p : ℕ) (x : α) : Option (ℕ → α) :=
  if p < size then some (update b p x) else none

/-- `b[p]`, or none outside of the buffer. -/
def fetch (size : ℕ) (b : ℕ → α) (p : ℕ) : Option α := if p < size then some (b p) else none

/-- The first `n` elements, or none where the buffer is shorter. -/
def fetchFirst (size : ℕ) (b : ℕ → α) (n : ℕ) : Option (List α) :=
  if n ≤ size then some (get b 0 n) else none

variable {size p : ℕ}

theorem write_of_lt (b : ℕ → α) (h : p < size) (x : α) : write size b p x = some (update b p x) :=
  if_pos h

theorem fetch_of_lt (b : ℕ → α) (h : p < size) : fetch size b p = some (b p) := if_pos h

theorem fetchFirst_of_le (b : ℕ → α) {n : ℕ} (h : n ≤ size) :
    fetchFirst size b n = some (get b 0 n) := if_pos h

end Buffer
