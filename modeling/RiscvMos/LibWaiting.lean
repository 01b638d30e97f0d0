import Mathlib.Algebra.Order.BigOperators.Group.List
import Mathlib.Algebra.Order.Ring.Nat
import RiscvMos.LibPrivateMemory

/-! Weighted round robin while elements join the queue at its head and leave it: how long an
element of the queue waits for its turn. -/
namespace RoundRobin
open PrivateMemory

section
variable {α : Type*}

/-- The turns of a list of elements with one slice each. -/
def total (w : α → ℕ) (l : List α) : ℕ := (l.map w).sum

@[simp] theorem total_cons (w : α → ℕ) (a : α) (l : List α) : total w (a :: l) = w a+total w l :=
  List.sum_cons

@[simp] theorem total_append (w : α → ℕ) (l l' : List α) :
    total w (l ++ l') = total w l+total w l' := by
  rw [total, List.map_append, List.sum_append]
  rfl

theorem total_sublist (w : α → ℕ) {l l' : List α} (h : l.Sublist l') : total w l ≤ total w l' :=
  (h.map w).sum_le_sum (fun _ _ => Nat.zero_le _)

theorem total_filter (w : α → ℕ) (l : List α) (p : α → Bool) : total w (l.filter p) ≤ total w l :=
  total_sublist w List.filter_sublist

theorem total_congr {w w' : α → ℕ} {l : List α} (h : ∀ a ∈ l, w' a = w a) :
    total w' l = total w l := by
  rw [total, total, List.map_congr_left h]

theorem split_without {e a : α} {k₁ k₂ l₁ l₂ : List α} (h : k₁ ++ e :: k₂ = l₁ ++ a :: l₂)
    (hne : a ≠ e) :
    ∃ k₁' k₂', l₁ ++ l₂ = k₁' ++ e :: k₂' ∧ k₁'.Sublist k₁ ∧ k₂'.Sublist k₂ := by
  rcases List.append_eq_append_iff.mp h with ⟨m, rfl, hm⟩ | ⟨m, rfl, hm⟩
  · cases m with
    | nil => exact absurd (List.cons.inj hm).1.symm hne
    | cons b m =>
      obtain ⟨rfl, rfl⟩ := List.cons.inj hm
      exact ⟨k₁, m ++ l₂, List.append_assoc .., List.Sublist.refl k₁,
        (List.sublist_cons_self a l₂).append_left m⟩
  · cases m with
    | nil => exact absurd (List.cons.inj hm).1 hne
    | cons b m =>
      obtain ⟨rfl, rfl⟩ := List.cons.inj hm
      exact ⟨l₁ ++ m, k₂, (List.append_assoc ..).symm, (List.sublist_cons_self a m).append_left l₁,
        List.Sublist.refl k₂⟩

end

/-! ### Steps -/

/-- The queue, the element that was served last, the turns that its slice has left, and the
turns of a new slice. -/
structure Line (α : Type) where
  queue : List α
  last : Option α
  left : ℕ
  slice : α → ℕ

/-- What happens to the queue: a turn is given, or an element joins or leaves. -/
inductive LineLabel (α : Type)
  | quiet
  | serve (a : α)
  | join (a : α) (turns : ℕ)
  | leave (a : α)

def LineLabel.served {α : Type} : LineLabel α → ℕ
  | .serve _ => 1
  | _ => 0

def LineLabel.joined {α : Type} : LineLabel α → ℕ
  | .join _ turns => turns
  | _ => 0

variable {α : Type} [DecidableEq α]

/-- The last one goes to the tail, if it is still in the queue. -/
def Line.rotated (d : Line α) : List α :=
  d.queue.filter (d.last ≠ some ·) ++ d.queue.filter (d.last = some ·)

/-- A slice may be cut short at any turn. -/
inductive Line.Step : LineLabel α → Line α → Line α → Prop
  | again {d : Line α} {a : α} (last : d.last = some a) (left : 0 < d.left) :
      Step (.serve a) d { d with left := d.left-1 }
  | pick {d : Line α} {a : α} {l : List α} {n : ℕ} (first : d.rotated = a :: l)
      (slice : d.slice a = n+1) : Step (.serve a) d ⟨a :: l, some a, n, d.slice⟩
  | join {d : Line α} {a : α} {n : ℕ} {w : α → ℕ} (own : w a = n)
      (others : ∀ b ∈ d.queue, w b = d.slice b) :
      Step (.join a n) d ⟨a :: d.queue, d.last, d.left, w⟩
  | leave {d : Line α} {a : α} {l₁ l₂ : List α} (queue : d.queue = l₁ ++ a :: l₂) :
      Step (.leave a) d { d with queue := l₁ ++ l₂ }
  | forget {d : Line α} (gone : ∀ a, d.last = some a → a ∉ d.queue) :
      Step .quiet d { d with last := none }
  | stay {d : Line α} : Step .quiet d d

/-- At most `n` turns of others come before the next one of `e`, unless others join. -/
inductive Line.Waits (e : α) (d : Line α) (n : ℕ) : Prop
  | served (l₁ l₂ : List α) (queue : d.queue = l₁ ++ e :: l₂) (last : d.last = some e)
      (bound : total d.slice (l₁ ++ l₂) ≤ n)
  | next (l₁ l₂ : List α) (queue : d.queue = l₁ ++ e :: l₂) (last : d.last ≠ some e)
      (bound : d.left+total d.slice (l₁.filter (d.last ≠ some ·)) ≤ n)

namespace Line
variable {e : α} {d d' : Line α} {n : ℕ}

theorem mem_rotated {a : α} : a ∈ d.rotated ↔ a ∈ d.queue := by
  rw [rotated, List.mem_append, List.mem_filter, List.mem_filter]
  by_cases ha : d.last = some a <;> simp [ha]

theorem rotated_gone (gone : ∀ a, d.last = some a → a ∉ d.queue) : d.rotated = d.queue := by
  have hne (a : α) (ha : a ∈ d.queue) : d.last ≠ some a := fun hlast => gone a hlast ha
  rw [rotated, List.filter_eq_self.mpr (fun a ha => decide_eq_true (hne a ha)),
    List.filter_eq_nil_iff.mpr (fun a ha => by simp [hne a ha]), List.append_nil]

theorem rotated_split {a : α} {l₁ l₂ : List α} (last : d.last = some a)
    (queue : d.queue = l₁ ++ a :: l₂) (h₁ : a ∉ l₁) (h₂ : a ∉ l₂) :
    d.rotated = l₁ ++ l₂ ++ [a] := by
  have hself {l : List α} (hl : a ∉ l) : l.filter (d.last ≠ some ·) = l :=
    List.filter_eq_self.mpr (fun b hb => by
      rw [last]
      exact decide_eq_true (fun hab => hl (Option.some.inj hab ▸ hb)))
  have hnil {l : List α} (hl : a ∉ l) : l.filter (d.last = some ·) = [] :=
    List.filter_eq_nil_iff.mpr (fun b hb => by
      rw [last, decide_eq_true_iff]
      exact fun hab => hl (Option.some.inj hab ▸ hb))
  rw [rotated, queue, List.filter_append, List.filter_append, hself h₁, hnil h₁,
    List.filter_cons_of_neg (by simp [last]), List.filter_cons_of_pos (by simp [last]), hself h₂,
    hnil h₂, List.nil_append]

theorem Waits.mem (h : d.Waits e n) : e ∈ d.queue := by
  cases h with
  | served l₁ l₂ queue => simp [queue]
  | next l₁ l₂ queue => simp [queue]

/-- What the last one has left and a slice of everybody else is enough. -/
theorem waits_of_mem (he : e ∈ d.queue) : d.Waits e (d.left+total d.slice (d.queue.erase e)) := by
  obtain ⟨l₁, l₂, hq, hnot⟩ := List.eq_append_cons_of_mem he
  have herase : d.queue.erase e = l₁ ++ l₂ := by
    rw [hq, List.erase_append_right _ hnot, List.erase_cons_head]
  rw [herase]
  by_cases hlast : d.last = some e
  · exact .served l₁ l₂ hq hlast (Nat.le_add_left _ _)
  · refine .next l₁ l₂ hq hlast (Nat.add_le_add_left ?_ _)
    rw [total_append]
    exact (total_filter d.slice l₁ _).trans (Nat.le_add_right _ _)

theorem Waits.rotated (h : d.Waits e n) :
    ∃ l₁ l₂, d.rotated = l₁ ++ e :: l₂ ∧ total d.slice l₁ ≤ n := by
  cases h with
  | served l₁ l₂ queue last bound =>
    -- `e` itself goes behind all others.
    have hothers : d.queue.filter (d.last ≠ some ·) = (l₁ ++ l₂).filter (d.last ≠ some ·) := by
      rw [queue, List.filter_append, List.filter_append,
        List.filter_cons_of_neg (by simpa using last)]
    have hown : e ∈ d.queue.filter (d.last = some ·) := by simp [queue, last]
    cases hl : d.queue.filter (d.last = some ·) with
    | nil =>
      rw [hl] at hown
      cases hown
    | cons a l =>
      have ha : a ∈ d.queue.filter (d.last = some ·) := by simp [hl]
      have hlast : d.last = some a := by simpa using (List.mem_filter.mp ha).2
      obtain rfl : e = a := Option.some.inj (last.symm.trans hlast)
      refine ⟨_, l, ?_, (total_filter d.slice (l₁ ++ l₂) (d.last ≠ some ·)).trans bound⟩
      rw [Line.rotated, hothers, hl]
  | next l₁ l₂ queue last bound =>
    refine ⟨l₁.filter (d.last ≠ some ·), l₂.filter (d.last ≠ some ·) ++
      d.queue.filter (d.last = some ·), ?_, by omega⟩
    have hothers : d.queue.filter (d.last ≠ some ·) =
        l₁.filter (d.last ≠ some ·) ++ e :: l₂.filter (d.last ≠ some ·) := by
      rw [queue, List.filter_append, List.filter_cons_of_pos (by simpa using last)]
    rw [Line.rotated, hothers, List.append_assoc, List.cons_append]

/-- A turn that goes on brings the next slice nearer. -/
theorem Waits.again (h : d.Waits e n) {a : α} (last : d.last = some a) (left : 0 < d.left)
    (hne : a ≠ e) : 1 ≤ n ∧ Waits e { d with left := d.left-1 } (n-1) := by
  cases h with
  | served l₁ l₂ queue hlast => exact absurd (Option.some.inj (last.symm.trans hlast)) hne
  | next l₁ l₂ queue hlast bound =>
    refine ⟨by omega, .next l₁ l₂ queue hlast ?_⟩
    dsimp only
    omega

theorem Waits.pick (h : d.Waits e n) {a : α} {l : List α} {k : ℕ} (first : d.rotated = a :: l)
    (slice : d.slice a = k+1) (hne : a ≠ e) :
    1 ≤ n ∧ Waits e ⟨a :: l, some a, k, d.slice⟩ (n-1) := by
  obtain ⟨l₁, l₂, hq, hn⟩ := h.rotated
  cases l₁ with
  | nil =>
    rw [first] at hq
    exact absurd (List.cons.inj hq).1 hne
  | cons b l₁ =>
    rw [first, List.cons_append] at hq
    obtain ⟨rfl, rfl⟩ := List.cons.inj hq
    rw [total_cons, slice] at hn
    have hsome : some a ≠ some e := fun he => hne (Option.some.inj he)
    refine ⟨by omega, .next (a :: l₁) l₂ rfl hsome ?_⟩
    -- The one that is served waits for nothing.
    have hfilter := total_filter d.slice l₁ (some a ≠ some ·)
    rw [List.filter_cons_of_neg (by simp)]
    dsimp only
    omega

theorem Waits.join (h : d.Waits e n) (a : α) {w : α → ℕ} (others : ∀ b ∈ d.queue, w b = d.slice b) :
    Waits e ⟨a :: d.queue, d.last, d.left, w⟩ (n+w a) := by
  have hsame {l : List α} (hl : l.Sublist d.queue) : total w l = total d.slice l :=
    total_congr (fun b hb => others b (hl.subset hb))
  cases h with
  | served l₁ l₂ queue last bound =>
    have hsub : (l₁ ++ l₂).Sublist d.queue := by
      rw [queue]
      exact (List.sublist_cons_self e l₂).append_left l₁
    refine .served (a :: l₁) l₂ (by rw [queue]; rfl) last ?_
    calc total w (a :: l₁ ++ l₂) = w a+total d.slice (l₁ ++ l₂) := by
          rw [List.cons_append, total_cons, hsame hsub]
      _ ≤ n+w a := by omega
  | next l₁ l₂ queue last bound =>
    have hsub : (l₁.filter (d.last ≠ some ·)).Sublist d.queue := by
      rw [queue]
      exact List.filter_sublist.trans (List.sublist_append_left l₁ _)
    refine .next (a :: l₁) l₂ (by rw [queue]; rfl) last ?_
    have hcons : total w ((a :: l₁).filter (d.last ≠ some ·)) ≤
        w a+total w (l₁.filter (d.last ≠ some ·)) := by
      rw [List.filter_cons]
      split_ifs
      · rw [total_cons]
      · exact Nat.le_add_left _ _
    rw [hsame hsub] at hcons
    dsimp only
    omega

theorem Waits.leave (h : d.Waits e n) {a : α} {l₁ l₂ : List α} (queue : d.queue = l₁ ++ a :: l₂)
    (hne : a ≠ e) : Waits e { d with queue := l₁ ++ l₂ } n := by
  cases h with
  | served k₁ k₂ hq last bound =>
    obtain ⟨k₁', k₂', hl, h₁, h₂⟩ := split_without (hq.symm.trans queue) hne
    exact .served k₁' k₂' hl last ((total_sublist d.slice (h₁.append h₂)).trans bound)
  | next k₁ k₂ hq last bound =>
    obtain ⟨k₁', k₂', hl, h₁, _⟩ := split_without (hq.symm.trans queue) hne
    have hsub := total_sublist d.slice (h₁.filter (d.last ≠ some ·))
    exact .next k₁' k₂' hl last ((Nat.add_le_add_left hsub _).trans bound)

theorem Waits.forget (h : d.Waits e n) (gone : ∀ a, d.last = some a → a ∉ d.queue) :
    Waits e { d with last := none } n := by
  cases h with
  | served l₁ l₂ queue last => exact absurd (by simp [queue]) (gone e last)
  | next l₁ l₂ queue last bound =>
    have hall (a : α) (ha : a ∈ l₁) : decide (d.last ≠ some a) = true := by
      refine decide_eq_true (fun hlast => gone a hlast ?_)
      rw [queue]
      exact List.mem_append_left _ ha
    rw [List.filter_eq_self.mpr hall] at bound
    refine .next l₁ l₂ queue (by simp) ?_
    rw [List.filter_eq_self.mpr (by simp)]
    exact bound

/-! ### Runs -/

theorem Waits.step (h : d.Waits e n) {l : LineLabel α} (step : Step l d d') (hs : l ≠ .serve e)
    (hl : l ≠ .leave e) : ∃ n', d'.Waits e n' ∧ l.served+n' ≤ n+l.joined := by
  cases step with
  | again last left =>
    obtain ⟨h1, h'⟩ := h.again last left (by rintro rfl; exact hs rfl)
    exact ⟨_, h', by simp only [LineLabel.served, LineLabel.joined]; omega⟩
  | pick first slice =>
    obtain ⟨h1, h'⟩ := h.pick first slice (by rintro rfl; exact hs rfl)
    exact ⟨_, h', by simp only [LineLabel.served, LineLabel.joined]; omega⟩
  | join own others =>
    subst own
    exact ⟨_, h.join _ others, (Nat.zero_add _).le⟩
  | leave queue =>
    exact ⟨n, h.leave queue (by rintro rfl; exact hl rfl), (Nat.zero_add _).le⟩
  | forget gone => exact ⟨n, h.forget gone, (Nat.zero_add _).le⟩
  | stay => exact ⟨n, h, (Nat.zero_add _).le⟩

/-- While `e` is in the queue and not served, the others get at most the turns that it waits for
and those that joiners bring. -/
theorem Waits.run {ls : List (LineLabel α)} (h : d.Waits e n) (run : Run Step ls d d')
    (hs : .serve e ∉ ls) (hl : .leave e ∉ ls) :
    ∃ n', d'.Waits e n' ∧ (ls.map LineLabel.served).sum+n' ≤ n+(ls.map LineLabel.joined).sum := by
  induction run generalizing n with
  | nil d => exact ⟨n, h, (Nat.zero_add _).le⟩
  | @cons l ls d d₁ d₂ first _ ih =>
    rw [List.mem_cons, not_or] at hs hl
    obtain ⟨n₁, h₁, hn₁⟩ := h.step first (Ne.symm hs.1) (Ne.symm hl.1)
    obtain ⟨n₂, h₂, hn₂⟩ := ih h₁ hs.2 hl.2
    refine ⟨n₂, h₂, ?_⟩
    rw [List.map_cons, List.map_cons, List.sum_cons, List.sum_cons]
    omega

end Line
end RoundRobin
