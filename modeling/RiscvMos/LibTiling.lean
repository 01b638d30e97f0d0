import Mathlib.Algebra.GroupWithZero.Nat
import Mathlib.Data.Finset.Union
import Mathlib.Order.Interval.Finset.Nat

/-! Partial maps on numbers that are filled tile by tile: a tile has a first number, a
count and one value for each of its places. -/
namespace Tiling
open Function

variable {α : Type*}

/-- `value j` belongs to the number `first+j`. -/
structure Tile (α : Type*) where
  first : ℕ
  count : ℕ
  value : ℕ → α

/-- The numbers that a tile covers. -/
def Tile.cells (t : Tile α) : Finset ℕ := Finset.Ico t.first (t.first+t.count)

theorem Tile.mem_cells {t : Tile α} {v : ℕ} :
    v ∈ t.cells ↔ t.first ≤ v ∧ v < t.first+t.count := Finset.mem_Ico

theorem Tile.card_cells (t : Tile α) : t.cells.card = t.count := by
  rw [cells, Nat.card_Ico, Nat.add_sub_cancel_left]

/-- The map `f` with the first `j` places of the tile `t`. -/
def put (f : ℕ → Option α) (t : Tile α) (j : ℕ) : ℕ → Option α := fun v =>
  if t.first ≤ v ∧ v < t.first+j then some (t.value (v-t.first)) else f v

theorem put_zero (f : ℕ → Option α) (t : Tile α) : put f t 0 = f := by
  funext v
  apply if_neg
  omega

theorem put_succ (f : ℕ → Option α) (t : Tile α) (j : ℕ) :
    put f t (j+1) = update (put f t j) (t.first+j) (some (t.value j)) := by
  funext v
  by_cases hv : v = t.first+j
  · have hin : t.first ≤ v ∧ v < t.first+(j+1) := by omega
    rw [put, if_pos hin, hv, update_self, Nat.add_sub_cancel_left]
  · have hiff : (t.first ≤ v ∧ v < t.first+(j+1)) ↔ (t.first ≤ v ∧ v < t.first+j) := by omega
    rw [update_of_ne hv]
    exact if_congr hiff rfl rfl

theorem put_of_mem (f : ℕ → Option α) {t : Tile α} {v : ℕ} (hv : v ∈ t.cells) :
    put f t t.count v = some (t.value (v-t.first)) := if_pos (Tile.mem_cells.mp hv)

theorem put_of_not_mem (f : ℕ → Option α) {t : Tile α} {v : ℕ} (hv : v ∉ t.cells) :
    put f t t.count v = f v := if_neg (fun h => hv (Tile.mem_cells.mpr h))

/-- All tiles of the list, one after the other. -/
def layOut (f : ℕ → Option α) (ts : List (Tile α)) : ℕ → Option α :=
  ts.foldl (fun f t => put f t t.count) f

theorem layOut_cons (f : ℕ → Option α) (t : Tile α) (ts : List (Tile α)) :
    layOut f (t :: ts) = layOut (put f t t.count) ts := rfl

/-- What all tiles of the list cover. -/
def cells (ts : List (Tile α)) : Finset ℕ := ts.foldr (fun t s => t.cells ∪ s) ∅

theorem mem_cells {ts : List (Tile α)} {v : ℕ} : v ∈ cells ts ↔ ∃ t ∈ ts, v ∈ t.cells := by
  induction ts with
  | nil => simp [cells]
  | cons t ts ih =>
    rw [List.exists_mem_cons_iff, ← ih]
    exact Finset.mem_union

/-- No two tiles meet. -/
def Apart (ts : List (Tile α)) : Prop := ts.Pairwise (fun t t' => Disjoint t.cells t'.cells)

theorem layOut_of_not_mem {ts : List (Tile α)} {v : ℕ} (f : ℕ → Option α) (hv : v ∉ cells ts) :
    layOut f ts v = f v := by
  induction ts generalizing f with
  | nil => rfl
  | cons t ts ih =>
    rw [mem_cells, List.exists_mem_cons_iff, not_or, ← mem_cells] at hv
    rw [layOut_cons, ih _ hv.2, put_of_not_mem f hv.1]

/-- Tiles that are apart keep their values, whatever comes after them. -/
theorem layOut_of_mem {ts : List (Tile α)} {t : Tile α} {v : ℕ} (f : ℕ → Option α) (h : Apart ts)
    (ht : t ∈ ts) (hv : v ∈ t.cells) : layOut f ts v = some (t.value (v-t.first)) := by
  induction ts generalizing f with
  | nil => cases ht
  | cons t' ts ih =>
    obtain ⟨hhead, htail⟩ := List.pairwise_cons.mp h
    rw [layOut_cons]
    rcases List.mem_cons.mp ht with rfl | ht
    · have hout : v ∉ cells ts := by
        rw [mem_cells]
        rintro ⟨t', ht', hv'⟩
        exact Finset.disjoint_left.mp (hhead t' ht') hv hv'
      rw [layOut_of_not_mem _ hout, put_of_mem f hv]
    · exact ih _ htail ht

theorem Apart.card_cells {ts : List (Tile α)} (h : Apart ts) :
    (cells ts).card = (ts.map Tile.count).sum := by
  induction ts with
  | nil => rfl
  | cons t ts ih =>
    obtain ⟨hhead, htail⟩ := List.pairwise_cons.mp h
    have hdisj : Disjoint t.cells (cells ts) := by
      rw [Finset.disjoint_left]
      intro v hv hm
      obtain ⟨t', ht', hv'⟩ := mem_cells.mp hm
      exact Finset.disjoint_left.mp (hhead t' ht') hv hv'
    show (t.cells ∪ cells ts).card = t.count+(ts.map Tile.count).sum
    rw [Finset.card_union_of_disjoint hdisj, t.card_cells, ih htail]

end Tiling
