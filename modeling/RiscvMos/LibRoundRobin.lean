import Mathlib.Data.List.Basic
import Mathlib.Data.Nat.Basic

/-! Weighted round robin with a queue: the head holds the processor for as many
turns as its weight, then goes to the tail. -/
namespace RoundRobin

variable {α : Type*}

/-- The infinite repetition of `l`. -/
def cyc (l : List α) (j : ℕ) : Option α := l[j%l.length]?

/-- One round: every element as often as its weight. -/
def shares (w : α → ℕ) (l : List α) : List α := l.flatMap (fun a => List.replicate (w a) a)

@[simp] theorem shares_cons (w : α → ℕ) (a : α) (l : List α) :
    shares w (a :: l) = List.replicate (w a) a ++ shares w l := rfl

theorem shares_append (w : α → ℕ) (l l' : List α) :
    shares w (l ++ l') = shares w l ++ shares w l' := List.flatMap_append

theorem shares_rotate (w : α → ℕ) (a : α) (l : List α) :
    shares w (l ++ [a]) = shares w l ++ List.replicate (w a) a := by
  rw [shares_append, shares_cons]
  simp [shares]

theorem cyc_of_lt {l : List α} {j : ℕ} (h : j < l.length) : cyc l j = l[j]? := by
  rw [cyc, Nat.mod_eq_of_lt h]

theorem cyc_append (l l' : List α) (j : ℕ) : cyc (l ++ l') (l.length+j) = cyc (l' ++ l) j := by
  have hlen : (l ++ l').length = l.length+l'.length := List.length_append
  have hlen' : (l' ++ l).length = l.length+l'.length := by
    rw [List.length_append, Nat.add_comm]
  rcases Nat.eq_zero_or_pos (l.length+l'.length) with h0 | hpos
  · have hl : l = [] := List.eq_nil_of_length_eq_zero (by omega)
    have hl' : l' = [] := List.eq_nil_of_length_eq_zero (by omega)
    rw [hl, hl']
    simp [cyc]
  rw [cyc, cyc, hlen, hlen']
  have hr := Nat.mod_lt j hpos
  rw [← Nat.add_mod_mod]
  by_cases hin : j%(l.length+l'.length) < l'.length
  · rw [Nat.mod_eq_of_lt (by omega), List.getElem?_append_right (Nat.le_add_right _ _),
      Nat.add_sub_cancel_left, List.getElem?_append_left hin]
  · have hwrap : (l.length+j%(l.length+l'.length))%(l.length+l'.length) =
        j%(l.length+l'.length)-l'.length := by
      rw [Nat.mod_eq_sub_mod (by omega), Nat.mod_eq_of_lt (by omega)]
      omega
    rw [hwrap, List.getElem?_append_left (by omega), List.getElem?_append_right (by omega)]

/-- The head of the queue, the rest, and the turns that the head has left. -/
structure Turn (α : Type*) where
  head : α
  rest : List α
  left : ℕ

/-- The next head: the same one while it has turns left, else the next in the queue. -/
def Turn.next (w : α → ℕ) (t : Turn α) : Turn α :=
  if 0 < t.left then ⟨t.head, t.rest, t.left-1⟩
  else match t.rest ++ [t.head] with
    | [] => t
    | b :: l => ⟨b, l, w b-1⟩

/-- Who holds the processor in the turns to come. -/
def Turn.future (w : α → ℕ) (t : Turn α) (j : ℕ) : Option α :=
  if j < t.left then some t.head else cyc (shares w (t.rest ++ [t.head])) (j-t.left)

theorem future_first {w : α → ℕ} {b : α} {l : List α} (hb : 1 ≤ w b) (j : ℕ) :
    cyc (shares w (b :: l)) j =
      if j = 0 then some b else (⟨b, l, w b-1⟩ : Turn α).future w (j-1) := by
  have hlen : (List.replicate (w b) b).length = w b := List.length_replicate
  by_cases hj : j < w b
  · have hj' : j < (shares w (b :: l)).length := by
      rw [shares_cons, List.length_append, hlen]
      omega
    rw [cyc_of_lt hj', shares_cons, List.getElem?_append_left (by omega),
      List.getElem?_replicate, if_pos hj]
    split_ifs with h0
    · rfl
    · rw [Turn.future, if_pos (by dsimp only; omega)]
  · have hsum : j = (List.replicate (w b) b).length+(j-w b) := by omega
    have hback : j-1-(w b-1) = j-w b := by omega
    rw [if_neg (by omega), Turn.future, if_neg (by dsimp only; omega)]
    rw [shares_cons, hsum, cyc_append, ← shares_rotate, ← hsum, hback]

/-- The next head is the first of the future, and its future is the rest of it. -/
theorem Turn.future_next {w : α → ℕ} {t : Turn α} (hw : ∀ a ∈ t.head :: t.rest, 1 ≤ w a)
    (j : ℕ) :
    t.future w j = if j = 0 then some (t.next w).head else (t.next w).future w (j-1) := by
  by_cases hleft : 0 < t.left
  · have hnext : t.next w = ⟨t.head, t.rest, t.left-1⟩ := if_pos hleft
    rw [hnext]
    dsimp only [Turn.future]
    split_ifs with hj h0 h1 h0 h1
    · rfl
    · rfl
    · omega
    · omega
    · omega
    · have hback : j-1-(t.left-1) = j-t.left := by omega
      rw [hback]
  · have h0 : t.left = 0 := by omega
    rw [Turn.future, if_neg (by omega), h0, Nat.sub_zero]
    cases hq : t.rest ++ [t.head] with
    | nil => simp at hq
    | cons b l =>
      have hb : b ∈ t.head :: t.rest := by
        have hm : b ∈ t.rest ++ [t.head] := by rw [hq]; exact List.mem_cons_self
        simpa [or_comm] using hm
      have hnext : t.next w = ⟨b, l, w b-1⟩ := by
        rw [Turn.next, if_neg hleft, hq]
      rw [hnext]
      exact future_first (hw b hb) j

theorem Turn.mem_next (w : α → ℕ) (t : Turn α) (a : α) :
    a ∈ (t.next w).head :: (t.next w).rest ↔ a ∈ t.head :: t.rest := by
  rw [Turn.next]
  split_ifs
  · rfl
  · cases hq : t.rest ++ [t.head] with
    | nil => simp at hq
    | cons b l =>
      dsimp only
      rw [← hq]
      simp [or_comm]

/-! ### Blocks of turns -/

/-- Nobody holds the processor for longer than `w` in a row. -/
def BlocksLe (w : α → ℕ) (ds : List α) : Prop := ∀ a n, List.replicate n a <:+: ds → n ≤ w a

/-- After the turns `ds` the head holds the processor, and may hold it for as long as it has
turns left. -/
structure Served (w : α → ℕ) (ds : List α) (t : Turn α) : Prop where
  blocks : BlocksLe w ds
  last : ∃ ds', ds = ds' ++ [t.head]
  block : ∀ n, List.replicate n t.head <:+ ds → n+t.left ≤ w t.head

theorem blocksLe_nil (w : α → ℕ) : BlocksLe w ([] : List α) := by
  intro a n h
  have hn : List.replicate n a = [] := List.infix_nil.mp h
  have hlen := congrArg List.length hn
  rw [List.length_replicate, List.length_nil] at hlen
  omega

theorem replicate_suffix_concat {a b : α} {n : ℕ} {ds : List α}
    (h : List.replicate n a <:+ ds ++ [b]) :
    n = 0 ∨ a = b ∧ List.replicate (n-1) a <:+ ds := by
  cases n with
  | zero => exact .inl rfl
  | succ n =>
    rw [List.replicate_succ', List.suffix_concat_iff] at h
    rcases h with hnil | ⟨t, ht, hs⟩
    · simp at hnil
    · obtain ⟨rfl, hb⟩ := List.append_inj' ht rfl
      exact .inr ⟨List.singleton_inj.mp hb, hs⟩

/-- A turn for `b` keeps the blocks short if the block that it ends is. -/
theorem BlocksLe.concat {w : α → ℕ} {ds : List α} {b : α} (h : BlocksLe w ds)
    (hb : ∀ n, List.replicate n b <:+ ds ++ [b] → n ≤ w b) : BlocksLe w (ds ++ [b]) := by
  intro a n ha
  rcases List.infix_concat_iff.mp ha with hs | hi
  · rcases replicate_suffix_concat hs with rfl | ⟨rfl, _⟩
    · exact Nat.zero_le _
    · exact hb n hs
  · exact h a n hi

theorem served_first {w : α → ℕ} {ds : List α} {b : α} (l : List α) (h : BlocksLe w ds)
    (hlast : ∀ ds', ds ≠ ds' ++ [b]) (hw : 1 ≤ w b) : Served w (ds ++ [b]) ⟨b, l, w b-1⟩ := by
  have hblock (n : ℕ) (hn : List.replicate n b <:+ ds ++ [b]) : n ≤ 1 := by
    rcases replicate_suffix_concat hn with rfl | ⟨_, hs⟩
    · exact Nat.zero_le _
    · by_contra hlong
      obtain ⟨m, hm⟩ := Nat.exists_eq_add_of_le (show 1 ≤ n-1 by omega)
      obtain ⟨u, hu⟩ := hs
      rw [hm, Nat.add_comm, List.replicate_succ', ← List.append_assoc] at hu
      exact hlast _ hu.symm
  refine ⟨h.concat (fun n hn => Nat.le_trans (hblock n hn) hw), ⟨ds, rfl⟩, fun n hn => ?_⟩
  have hn1 := hblock n hn
  dsimp only
  omega

theorem Served.next {w : α → ℕ} {ds : List α} {t : Turn α} (h : Served w ds t)
    (hne : t.rest ≠ []) (hnd : (t.head :: t.rest).Nodup) (hw : ∀ a ∈ t.rest, 1 ≤ w a) :
    Served w (ds ++ [(t.next w).head]) (t.next w) := by
  rw [Turn.next]
  split_ifs with hleft
  · -- the block of the head grows by one
    have hblock (n : ℕ) (hn : List.replicate n t.head <:+ ds ++ [t.head]) :
        n+(t.left-1) ≤ w t.head := by
      rcases replicate_suffix_concat hn with rfl | ⟨_, hs⟩
      · have h0 := h.block 0 List.nil_suffix
        omega
      · have hprev := h.block _ hs
        omega
    refine ⟨h.blocks.concat (fun n hn => ?_), ⟨ds, rfl⟩, hblock⟩
    exact Nat.le_of_add_right_le (hblock n hn)
  · obtain ⟨b, l, hl⟩ := List.exists_cons_of_ne_nil hne
    obtain ⟨ds', hds⟩ := h.last
    have hb : b ∈ t.rest := by
      rw [hl]
      exact List.mem_cons_self
    have hbt : b ≠ t.head := fun hbt => (List.nodup_cons.mp hnd).1 (hbt ▸ hb)
    rw [hl]
    refine served_first (l ++ [t.head]) h.blocks (fun ds'' hds'' => hbt ?_) (hw b hb)
    rw [hds] at hds''
    exact (List.singleton_inj.mp (List.append_inj' hds'' rfl).2).symm

end RoundRobin
