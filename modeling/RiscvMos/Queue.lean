import Mathlib.Data.List.Induction
import RiscvMos.LibIntrusiveQueue

/-! The tail queues of queue.h with all their macros: any number of heads over one kind of
elements, and the way backwards, which reads the links of an element as if they were a head. -/
namespace RiscvMos.Queue
open Function

variable {H α : Type*}

/-- The two words of a head or of the links of an element. The address of a forward pointer is
that of the pair it comes first in. -/
inductive Node (H α : Type*)
  | head (h : H)
  | elem (a : α)
  deriving DecidableEq

/-- `fwd` has `tqh_first` of the heads and `tqe_next` of the elements, `back` has `tqh_last`
and `tqe_prev`. -/
@[ext] structure Links (H α : Type*) where
  fwd : Node H α → Option α
  back : Node H α → Node H α

namespace Links
variable [DecidableEq H] [DecidableEq α]

def setFwd (q : Links H α) (n : Node H α) (v : Option α) : Links H α :=
  { q with fwd := update q.fwd n v }

def setBack (q : Links H α) (n v : Node H α) : Links H α := { q with back := update q.back n v }

@[simp] theorem fwd_setFwd (q : Links H α) (n : Node H α) (v : Option α) :
    (q.setFwd n v).fwd = update q.fwd n v := rfl

@[simp] theorem back_setFwd (q : Links H α) (n : Node H α) (v : Option α) :
    (q.setFwd n v).back = q.back := rfl

@[simp] theorem fwd_setBack (q : Links H α) (n v : Node H α) : (q.setBack n v).fwd = q.fwd := rfl

@[simp] theorem back_setBack (q : Links H α) (n v : Node H α) :
    (q.setBack n v).back = update q.back n v := rfl

end Links

/-! ### The macros, in the order of their assignments -/

def TAILQ_FIRST (q : Links H α) (head : H) : Option α := q.fwd (.head head)
def TAILQ_NEXT (q : Links H α) (elm : α) : Option α := q.fwd (.elem elm)
def TAILQ_EMPTY (q : Links H α) (head : H) : Bool := (TAILQ_FIRST q head).isNone

/-- `*(((struct headname *)p)->tqh_last)` for the address `p` of a forward pointer. -/
def derefLast (q : Links H α) (p : Node H α) : Option α := q.fwd (q.back p)

def TAILQ_LAST (q : Links H α) (head : H) : Option α := derefLast q (q.back (.head head))
def TAILQ_PREV (q : Links H α) (elm : α) : Option α := derefLast q (q.back (.elem elm))

/-- The elements that a loop visits: from `var` on by `step`, until the null pointer. -/
def visit (step : α → Option α) : ℕ → Option α → Option (List α)
  | _, none => some []
  | 0, some _ => none
  | fuel+1, some var => (visit step fuel (step var)).map (var :: ·)

def TAILQ_FOREACH (q : Links H α) (fuel : ℕ) (head : H) : Option (List α) :=
  visit (TAILQ_NEXT q) fuel (TAILQ_FIRST q head)

def TAILQ_FOREACH_REVERSE (q : Links H α) (fuel : ℕ) (head : H) : Option (List α) :=
  visit (TAILQ_PREV q) fuel (TAILQ_LAST q head)

section
variable [DecidableEq H] [DecidableEq α]

def TAILQ_INIT (q : Links H α) (head : H) : Links H α :=
  (q.setFwd (.head head) none).setBack (.head head) (.head head)

/-- An insertion behind the forward pointer of `n`. -/
def insertAt (q : Links H α) (head : H) (n : Node H α) (elm : α) : Links H α :=
  let q₁ := q.setFwd (.elem elm) (q.fwd n)
  let q₂ := match q₁.fwd (.elem elm) with
    | some next => q₁.setBack (.elem next) (.elem elm)
    | none => q₁.setBack (.head head) (.elem elm)
  (q₂.setFwd n (some elm)).setBack (.elem elm) n

def TAILQ_INSERT_HEAD (q : Links H α) (head : H) (elm : α) : Links H α :=
  insertAt q head (.head head) elm

def TAILQ_INSERT_AFTER (q : Links H α) (head : H) (listelm elm : α) : Links H α :=
  insertAt q head (.elem listelm) elm

def TAILQ_INSERT_TAIL (q : Links H α) (head : H) (elm : α) : Links H α :=
  let q₁ := (q.setFwd (.elem elm) none).setBack (.elem elm) (q.back (.head head))
  (q₁.setFwd (q₁.back (.head head)) (some elm)).setBack (.head head) (.elem elm)

def TAILQ_INSERT_BEFORE (q : Links H α) (listelm elm : α) : Links H α :=
  let q₁ := (q.setBack (.elem elm) (q.back (.elem listelm))).setFwd (.elem elm) (some listelm)
  (q₁.setFwd (q₁.back (.elem listelm)) (some elm)).setBack (.elem listelm) (.elem elm)

def TAILQ_REMOVE (q : Links H α) (head : H) (elm : α) : Links H α :=
  let q₁ := match q.fwd (.elem elm) with
    | some next => q.setBack (.elem next) (q.back (.elem elm))
    | none => q.setBack (.head head) (q.back (.elem elm))
  q₁.setFwd (q₁.back (.elem elm)) (q₁.fwd (.elem elm))

def TAILQ_CONCAT (q : Links H α) (head1 head2 : H) : Links H α :=
  match q.fwd (.head head2) with
  | none => q
  | some first =>
    let q₁ := q.setFwd (q.back (.head head1)) (some first)
    let q₂ := q₁.setBack (.elem first) (q₁.back (.head head1))
    TAILQ_INIT (q₂.setBack (.head head1) (q₂.back (.head head2))) head2

end

/-! ### Segments -/

/-- From the node `n` the forward pointers run through `l`, each element pointing back, to the
node `t`. -/
def Seg (q : Links H α) : Node H α → List α → Node H α → Prop
  | n, [], t => n = t
  | n, a :: l, t => q.fwd n = some a ∧ q.back (.elem a) = n ∧ Seg q (.elem a) l t

def nodes (n : Node H α) (l : List α) : List (Node H α) := n :: l.map .elem

section
variable {q q' : Links H α} {n t : Node H α} {l : List α}

theorem seg_append (q : Links H α) (n t : Node H α) (l₁ l₂ : List α) :
    Seg q n (l₁ ++ l₂) t ↔ ∃ u, Seg q n l₁ u ∧ Seg q u l₂ t := by
  induction l₁ generalizing n with
  | nil => simp [Seg]
  | cons a l ih => simp only [List.cons_append, Seg, ih, and_assoc, exists_and_left]

theorem seg_end_mem (h : Seg q n l t) : t ∈ nodes n l := by
  induction l generalizing n with
  | nil =>
    have hnt : n = t := h
    exact List.mem_singleton.mpr hnt.symm
  | cons a l ih => exact List.mem_cons_of_mem n (ih h.2.2)

theorem elem_mem_nodes {a : α} : .elem a ∈ nodes n l ↔ .elem a = n ∨ a ∈ l := by
  simp [nodes]

theorem ne_head_of_not_mem {h : H} {m : Node H α} (hm : m ∉ nodes (.head h) l) : m ≠ .head h :=
  fun he => hm (he ▸ List.mem_cons_self)

theorem head_mem_nodes {h h' : H} : .head h ∈ nodes (.head h') l ↔ h = h' := by
  simp [nodes]

/-- A segment depends on the way back from its elements and forward from the nodes before its
end. -/
theorem Seg.keep (h : Seg q n l t) (hn : (nodes n l).Nodup)
    (hb : ∀ a ∈ l, q'.back (.elem a) = q.back (.elem a))
    (hf : ∀ m ∈ nodes n l, m ≠ t → q'.fwd m = q.fwd m) : Seg q' n l t := by
  induction l generalizing n with
  | nil => exact h
  | cons a l ih =>
    obtain ⟨hna, hn'⟩ := List.nodup_cons.mp hn
    have hnt : n ≠ t := fun he => hna (he ▸ seg_end_mem h.2.2)
    refine ⟨?_, ?_, ?_⟩
    · rw [hf n List.mem_cons_self hnt]
      exact h.1
    · rw [hb a List.mem_cons_self]
      exact h.2.1
    · apply ih h.2.2 hn'
      · exact fun b hbl => hb b (List.mem_cons_of_mem a hbl)
      · exact fun m hm => hf m (List.mem_cons_of_mem n hm)

theorem seg_head? (h : Seg q n l t) (ht : q.fwd t = none) : q.fwd n = l.head? := by
  cases l with
  | nil =>
    have hnt : n = t := h
    rw [hnt, ht]
    rfl
  | cons a l => exact h.1

theorem seg_getLast? {h : H} (hs : Seg q (.head h) l t) (ht : q.fwd (q.back (.head h)) = none) :
    q.fwd (q.back t) = l.getLast? := by
  cases l using List.reverseRecOn with
  | nil =>
    have hnt : Node.head h = t := hs
    rw [← hnt, ht]
    rfl
  | append_singleton l b _ =>
    obtain ⟨u, _, hub, hbu, hbt⟩ := (seg_append q _ _ _ _).mp hs
    have hbt' : Node.elem b = t := hbt
    rw [← hbt', hbu, hub, List.getLast?_concat]

end

/-! ### The queues -/

/-- The queue of the head `h` holds `l`. -/
structure Queued (q : Links H α) (h : H) (l : List α) : Prop where
  seg : Seg q (.head h) l (q.back (.head h))
  stop : q.fwd (q.back (.head h)) = none
  nodup : l.Nodup

/-- Each queue holds its list, and no element is in two of them. -/
structure Holds (q : Links H α) (L : H → List α) : Prop where
  queued : ∀ h, Queued q h (L h)
  apart : ∀ {h h' a}, a ∈ L h → a ∈ L h' → h = h'

theorem nodes_nodup {h : H} {l : List α} (hl : l.Nodup) :
    (nodes (.head h : Node H α) l).Nodup := by
  refine List.nodup_cons.mpr ⟨by simp, ?_⟩
  exact hl.map fun a b hab => Node.elem.inj hab

theorem elems_nodup {a : α} {l : List α} (hl : (a :: l).Nodup) :
    (nodes (.elem a : Node H α) l).Nodup := by
  have hmap : nodes (.elem a : Node H α) l = (a :: l).map .elem := rfl
  rw [hmap]
  exact hl.map fun a b hab => Node.elem.inj hab

section
variable {q q' : Links H α} {L : H → List α} {h : H} {l : List α}

theorem Queued.split {a : α} {l₁ l₂ : List α} (hq : Queued q h (l₁ ++ a :: l₂)) :
    ∃ n, Seg q (.head h) l₁ n ∧ q.fwd n = some a ∧ q.back (.elem a) = n ∧
      Seg q (.elem a) l₂ (q.back (.head h)) ∧ q.fwd (.elem a) = l₂.head? ∧
      q.fwd (.elem a) ≠ some a := by
  obtain ⟨n, h₁, hna, han, h₂⟩ := (seg_append q _ _ _ _).mp hq.seg
  have hnext := seg_head? h₂ hq.stop
  refine ⟨n, h₁, hna, han, h₂, hnext, ?_⟩
  rw [hnext]
  intro he
  exact (List.nodup_cons.mp (List.nodup_append.mp hq.nodup).2.1).1 (List.mem_of_mem_head? he)

theorem Queued.keep (hq : Queued q h l) (hf : ∀ m ∈ nodes (.head h) l, q'.fwd m = q.fwd m)
    (hb : ∀ m ∈ nodes (.head h) l, q'.back m = q.back m) : Queued q' h l := by
  have hlast : q'.back (.head h) = q.back (.head h) := hb _ List.mem_cons_self
  constructor
  case seg =>
    rw [hlast]
    apply hq.seg.keep (nodes_nodup hq.nodup)
    · exact fun a ha => hb _ (elem_mem_nodes.mpr (Or.inr ha))
    · exact fun m hm _ => hf m hm
  case stop =>
    rw [hlast, hf _ (seg_end_mem hq.seg), hq.stop]
  case nodup => exact hq.nodup

theorem Holds.nodes_apart (hold : Holds q L) {h h' : H} (hne : h ≠ h') {m : Node H α}
    (hm : m ∈ nodes (.head h) (L h)) : m ∉ nodes (.head h') (L h') := by
  intro hm'
  cases m with
  | head i =>
    rw [head_mem_nodes] at hm hm'
    exact hne (hm.symm.trans hm')
  | elem a =>
    have hhead (i : H) : ¬Node.elem a = .head i := by simp
    rw [elem_mem_nodes, or_iff_right (hhead _)] at hm hm'
    exact hne (hold.apart hm hm')

variable [DecidableEq H]

theorem Holds.update (hold : Holds q L) (hq : Queued q' h l)
    (hl : ∀ a ∈ l, a ∈ L h ∨ ∀ h', a ∉ L h')
    (hf : ∀ m, m ∉ nodes (.head h) (L h) → m ∉ nodes (.head h) l → q'.fwd m = q.fwd m)
    (hb : ∀ m, m ∉ nodes (.head h) (L h) → m ∉ nodes (.head h) l → q'.back m = q.back m) :
    Holds q' (update L h l) := by
  have hnew {h' : H} {a : α} (hne : h' ≠ h) (ha : a ∈ L h') : a ∉ l := by
    intro hal
    rcases hl a hal with hold' | hnone
    · exact hne (hold.apart ha hold')
    · exact hnone h' ha
  constructor
  case queued =>
    intro h'
    by_cases hne : h' = h
    · rw [hne, update_self]
      exact hq
    · rw [update_of_ne hne]
      have hout {m : Node H α} (hm : m ∈ nodes (.head h') (L h')) :
          m ∉ nodes (.head h) (L h) ∧ m ∉ nodes (.head h) l := by
        refine ⟨hold.nodes_apart hne hm, fun hml => ?_⟩
        cases m with
        | head i =>
          rw [head_mem_nodes] at hm hml
          exact hne (hm.symm.trans hml)
        | elem a =>
          rw [elem_mem_nodes, or_iff_right (by simp)] at hm hml
          exact hnew hne hm hml
      exact (hold.queued h').keep (fun m hm => hf m (hout hm).1 (hout hm).2)
        (fun m hm => hb m (hout hm).1 (hout hm).2)
  case apart =>
    intro i j a hi hj
    by_cases hih : i = h <;> by_cases hjh : j = h
    · rw [hih, hjh]
    · rw [hih, update_self] at hi
      rw [update_of_ne hjh] at hj
      exact absurd hi (hnew hjh hj)
    · rw [update_of_ne hih] at hi
      rw [hjh, update_self] at hj
      exact absurd hj (hnew hih hi)
    · rw [update_of_ne hih] at hi
      rw [update_of_ne hjh] at hj
      exact hold.apart hi hj

end

/-! ### Insertions -/

section
variable [DecidableEq H] [DecidableEq α]
variable {q : Links H α} {L : H → List α} {h : H} {n : Node H α} {a b : α} {l₁ l₂ : List α}

theorem insertAt_fwd (q : Links H α) (h : H) (n : Node H α) (a : α) :
    (insertAt q h n a).fwd = update (update q.fwd (.elem a) (q.fwd n)) n (some a) := by
  unfold insertAt
  cases q.fwd n with
  | none => simp
  | some f => simp

theorem insertAt_back (q : Links H α) (h : H) (n : Node H α) (a : α) :
    (insertAt q h n a).back = update (match q.fwd n with
      | some next => update q.back (.elem next) (.elem a)
      | none => update q.back (.head h) (.elem a)) (.elem a) n := by
  unfold insertAt
  cases q.fwd n with
  | none => simp
  | some f => simp

theorem insertAt_back_ne {m : Node H α} (hma : m ≠ .elem a) (hmh : m ≠ .head h)
    (hmf : ∀ f, q.fwd n = some f → m ≠ .elem f) : (insertAt q h n a).back m = q.back m := by
  rw [insertAt_back, update_of_ne hma]
  cases hn : q.fwd n with
  | none => exact update_of_ne hmh _ _
  | some f => exact update_of_ne (hmf f hn) _ _

theorem Queued.insertAt (hq : Queued q h (l₁ ++ l₂)) (h₁ : Seg q (.head h) l₁ n)
    (h₂ : Seg q n l₂ (q.back (.head h))) (ha : a ∉ l₁ ++ l₂) :
    Queued (insertAt q h n a) h (l₁ ++ a :: l₂) := by
  obtain ⟨hnd₁, hnd₂, hd⟩ := List.nodup_append.mp hq.nodup
  obtain ⟨ha₁, ha₂⟩ : a ∉ l₁ ∧ a ∉ l₂ := by simpa using ha
  have hn := seg_end_mem h₁
  have hfwd := seg_head? h₂ hq.stop
  have hhead : (.head h : Node H α) ≠ .elem a := by simp
  have hout {m : Node H α} (hm : m ∈ nodes (.head h) l₁) : m ≠ .elem a := by
    rintro rfl
    rw [elem_mem_nodes, or_iff_right (by simp)] at hm
    exact ha₁ hm
  have hna := hout hn
  set q' := Queue.insertAt q h n a with hq'
  have hkeep {m : Node H α} (hma : m ≠ .elem a) (hmn : m ≠ n) : q'.fwd m = q.fwd m := by
    rw [hq', insertAt_fwd, update_of_ne hmn, update_of_ne hma]
  have hfn : q'.fwd n = some a := by rw [hq', insertAt_fwd, update_self]
  have hfa : q'.fwd (.elem a) = q.fwd n := by
    rw [hq', insertAt_fwd, update_of_ne hna.symm, update_self]
  have hba : q'.back (.elem a) = n := by rw [hq', insertAt_back, update_self]
  -- Up to the node `n` only its own forward pointer changes.
  have hfront : Seg q' (.head h) l₁ n := by
    apply h₁.keep (nodes_nodup hnd₁)
    · intro c hc
      apply insertAt_back_ne (hout (elem_mem_nodes.mpr (Or.inr hc))) (by simp)
      intro f hf he
      rw [hfwd] at hf
      exact hd c hc f (List.mem_of_mem_head? hf) (Node.elem.inj he)
    · exact fun m hm hmn => hkeep (hout hm) hmn
  have hnd : (l₁ ++ a :: l₂).Nodup := by
    refine List.nodup_append.mpr ⟨hnd₁, List.nodup_cons.mpr ⟨ha₂, hnd₂⟩, fun c hc d hd' => ?_⟩
    rcases List.mem_cons.mp hd' with rfl | hd'
    · rintro rfl
      exact ha₁ hc
    · exact hd c hc d hd'
  cases l₂ with
  | nil =>
    have hlast : q'.back (.head h) = .elem a := by
      rw [hq', insertAt_back, hfwd, update_of_ne hhead]
      exact update_self _ _ _
    refine ⟨(seg_append q' _ _ _ _).mpr ⟨n, hfront, hfn, hba, hlast.symm⟩, ?_, hnd⟩
    rw [hlast, hfa, hfwd]
    rfl
  | cons f l =>
    obtain ⟨hnf, hfb, hrest⟩ := h₂
    have hfa' : (.elem f : Node H α) ≠ .elem a := by
      intro he
      exact ha₂ (Node.elem.inj he ▸ List.mem_cons_self)
    have hlast : q'.back (.head h) = q.back (.head h) := by
      rw [hq', insertAt_back, hnf, update_of_ne hhead]
      exact update_of_ne (by simp) _ _
    have hbf : q'.back (.elem f) = .elem a := by
      rw [hq', insertAt_back, hnf, update_of_ne hfa']
      exact update_self _ _ _
    have hrear {m : Node H α} (hm : m ∈ nodes (.elem f) l) : q'.fwd m = q.fwd m := by
      obtain ⟨c, hc, rfl⟩ := List.mem_map.mp (show m ∈ (f :: l).map .elem from hm)
      refine hkeep (fun he => ha₂ (Node.elem.inj he ▸ hc)) ?_
      rintro rfl
      rw [elem_mem_nodes, or_iff_right (by simp)] at hn
      exact hd c hn c hc rfl
    have hseg : Seg q' (.elem f) l (q.back (.head h)) := by
      apply hrest.keep (elems_nodup hnd₂)
      · intro c hc
        apply insertAt_back_ne _ (by simp)
        · intro g hg he
          obtain rfl : f = g := Option.some.inj (hnf.symm.trans hg)
          exact (List.nodup_cons.mp hnd₂).1 (Node.elem.inj he ▸ hc)
        · exact fun he => ha₂ (Node.elem.inj he ▸ List.mem_cons_of_mem f hc)
      · exact fun m hm _ => hrear hm
    refine ⟨(seg_append q' _ _ _ _).mpr ⟨n, hfront, hfn, hba, hfa.trans hnf, hbf, ?_⟩, ?_, hnd⟩
    · rw [hlast]
      exact hseg
    · rw [hlast, hrear (seg_end_mem hrest), hq.stop]

theorem Holds.insertAt (hold : Holds q L) (hl : L h = l₁ ++ l₂) (h₁ : Seg q (.head h) l₁ n)
    (h₂ : Seg q n l₂ (q.back (.head h))) (ha : ∀ h', a ∉ L h') :
    Holds (insertAt q h n a) (Function.update L h (l₁ ++ a :: l₂)) := by
  have hq := hold.queued h
  rw [hl] at hq
  have hn := seg_end_mem h₁
  have hsub {m : Node H α} (hm : m ∈ nodes (.head h) l₁) :
      m ∈ nodes (.head h) (l₁ ++ a :: l₂) := by
    rcases List.mem_cons.mp hm with rfl | hm
    · exact List.mem_cons_self
    · rw [nodes, List.map_append]
      exact List.mem_cons_of_mem _ (List.mem_append_left _ hm)
  have hmem {c : α} (hc : c ∈ a :: l₂) : .elem c ∈ nodes (.head h) (l₁ ++ a :: l₂) :=
    elem_mem_nodes.mpr (Or.inr (List.mem_append_right l₁ hc))
  apply hold.update (hq.insertAt h₁ h₂ (hl ▸ ha h))
  · intro c hc
    rw [hl]
    rcases List.mem_append.mp hc with hc | hc
    · exact Or.inl (List.mem_append_left _ hc)
    · rcases List.mem_cons.mp hc with rfl | hc
      · exact Or.inr ha
      · exact Or.inl (List.mem_append_right _ hc)
  · intro m _ hm
    have hma : m ≠ .elem a := fun he => hm (he ▸ hmem List.mem_cons_self)
    have hmn : m ≠ n := fun he => hm (he ▸ hsub hn)
    rw [insertAt_fwd, update_of_ne hmn, update_of_ne hma]
  · intro m _ hm
    apply insertAt_back_ne
    · exact fun he => hm (he ▸ hmem List.mem_cons_self)
    · exact ne_head_of_not_mem hm
    · intro f hf he
      rw [seg_head? h₂ hq.stop] at hf
      exact hm (he ▸ hmem (List.mem_cons_of_mem a (List.mem_of_mem_head? hf)))

theorem TAILQ_INSERT_TAIL_eq (hstop : q.fwd (q.back (.head h)) = none) :
    TAILQ_INSERT_TAIL q h a = insertAt q h (q.back (.head h)) a := by
  have hne : (.elem a : Node H α) ≠ .head h := by simp
  apply Links.ext
  · rw [insertAt_fwd, hstop]
    simp [TAILQ_INSERT_TAIL]
  · rw [insertAt_back, hstop]
    simp [TAILQ_INSERT_TAIL, update_comm hne]

/-- Before an element of a queue it takes over the way back of that element. -/
theorem TAILQ_INSERT_BEFORE_eq (hn : q.fwd n = some b) (hb : q.back (.elem b) = n)
    (hab : a ≠ b) : TAILQ_INSERT_BEFORE q b a = insertAt q h n a := by
  have hne : (.elem a : Node H α) ≠ .elem b := fun he => hab (Node.elem.inj he)
  apply Links.ext
  · rw [insertAt_fwd, hn]
    simp [TAILQ_INSERT_BEFORE, hb, update_of_ne hne.symm]
  · rw [insertAt_back, hn]
    simp [TAILQ_INSERT_BEFORE, hb, update_comm hne]

theorem Holds.insertHead (hold : Holds q L) (ha : ∀ h', a ∉ L h') :
    Holds (TAILQ_INSERT_HEAD q h a) (Function.update L h (a :: L h)) := by
  have hnil : L h = [] ++ L h := rfl
  exact hold.insertAt hnil rfl (hold.queued h).seg ha

theorem Holds.insertTail (hold : Holds q L) (ha : ∀ h', a ∉ L h') :
    Holds (TAILQ_INSERT_TAIL q h a) (Function.update L h (L h ++ [a])) := by
  rw [TAILQ_INSERT_TAIL_eq (hold.queued h).stop]
  exact hold.insertAt (List.append_nil _).symm (hold.queued h).seg rfl ha

theorem Holds.insertAfter (hold : Holds q L) (hl : L h = l₁ ++ b :: l₂) (ha : ∀ h', a ∉ L h') :
    Holds (TAILQ_INSERT_AFTER q h b a) (Function.update L h (l₁ ++ b :: a :: l₂)) := by
  have hq := hold.queued h
  rw [hl] at hq
  obtain ⟨u, hu, hub, hbu, hrest, _⟩ := hq.split
  have hsplit : L h = (l₁ ++ [b]) ++ l₂ := by rw [hl, List.append_assoc, List.singleton_append]
  have h₁ : Seg q (.head h) (l₁ ++ [b]) (.elem b) :=
    (seg_append q _ _ _ _).mpr ⟨u, hu, hub, hbu, rfl⟩
  have hlast := hold.insertAt hsplit h₁ hrest ha
  rwa [List.append_assoc, List.singleton_append] at hlast

theorem Holds.insertBefore (hold : Holds q L) (hl : L h = l₁ ++ b :: l₂)
    (ha : ∀ h', a ∉ L h') :
    Holds (TAILQ_INSERT_BEFORE q b a) (Function.update L h (l₁ ++ a :: b :: l₂)) := by
  have hq := hold.queued h
  rw [hl] at hq
  obtain ⟨u, hu, hub, hbu, hrest, _⟩ := hq.split
  have hab : a ≠ b := by
    rintro rfl
    exact ha h (hl ▸ List.mem_append_right l₁ List.mem_cons_self)
  rw [TAILQ_INSERT_BEFORE_eq (h := h) hub hbu hab]
  exact hold.insertAt hl hu ⟨hub, hbu, hrest⟩ ha

/-! ### The other operations -/

theorem Holds.init (hold : Holds q L) : Holds (TAILQ_INIT q h) (Function.update L h []) := by
  have hself : (TAILQ_INIT q h).back (.head h) = .head h := update_self _ _ _
  apply hold.update
  · refine ⟨hself.symm, ?_, List.nodup_nil⟩
    rw [hself]
    exact update_self _ _ _
  · exact fun a hal => absurd hal List.not_mem_nil
  · exact fun m _ hm => update_of_ne (ne_head_of_not_mem hm) _ _
  · exact fun m _ hm => update_of_ne (ne_head_of_not_mem hm) _ _

theorem TAILQ_REMOVE_back (q : Links H α) (h : H) (a : α) :
    (TAILQ_REMOVE q h a).back = match q.fwd (.elem a) with
      | some next => update q.back (.elem next) (q.back (.elem a))
      | none => update q.back (.head h) (q.back (.elem a)) := by
  unfold TAILQ_REMOVE
  cases q.fwd (.elem a) with
  | none => simp
  | some f => simp

theorem TAILQ_REMOVE_fwd (hne : q.fwd (.elem a) ≠ some a) : (TAILQ_REMOVE q h a).fwd =
    update q.fwd (q.back (.elem a)) (q.fwd (.elem a)) := by
  unfold TAILQ_REMOVE
  cases hf : q.fwd (.elem a) with
  | none => simp [hf]
  | some f =>
    have hfa : (.elem a : Node H α) ≠ .elem f := by
      intro he
      rw [hf, Node.elem.inj he] at hne
      exact hne rfl
    simp [hf, update_of_ne hfa]

theorem Queued.remove (hq : Queued q h (l₁ ++ a :: l₂)) :
    Queued (TAILQ_REMOVE q h a) h (l₁ ++ l₂) := by
  obtain ⟨hnd₁, hnd, hd⟩ := List.nodup_append.mp hq.nodup
  obtain ⟨ha₂, hnd₂⟩ := List.nodup_cons.mp hnd
  have hlist : (l₁ ++ l₂).Nodup :=
    List.nodup_append.mpr ⟨hnd₁, hnd₂, fun c hc d hd' => hd c hc d (List.mem_cons_of_mem a hd')⟩
  obtain ⟨n, h₁, hna, han, h₂, hnext, hne⟩ := hq.split
  have hn := seg_end_mem h₁
  set q' := TAILQ_REMOVE q h a with hq'
  have hback : q'.back = _ := TAILQ_REMOVE_back q h a
  have hfwd : q'.fwd = _ := TAILQ_REMOVE_fwd (h := h) hne
  rw [han] at hback hfwd
  have hkeep {m : Node H α} (hmn : m ≠ n) : q'.fwd m = q.fwd m := by
    rw [hfwd, update_of_ne hmn]
  have hfn : q'.fwd n = q.fwd (.elem a) := by rw [hfwd, update_self]
  cases l₂ with
  | nil =>
    have hlast : q'.back (.head h) = n := by
      rw [hback, hnext]
      exact update_self _ _ _
    rw [List.append_nil]
    refine ⟨?_, ?_, hnd₁⟩
    · rw [hlast]
      apply h₁.keep (nodes_nodup hnd₁)
      · intro c _
        rw [hback, hnext]
        exact update_of_ne (by simp) _ _
      · exact fun m _ hmn => hkeep hmn
    · rw [hlast, hfn, hnext]
      rfl
  | cons f l =>
    obtain ⟨haf, _, hrest⟩ := h₂
    have hout {c : α} (hc : c ∈ f :: l) : (.elem c : Node H α) ≠ n := by
      rintro rfl
      rw [elem_mem_nodes, or_iff_right (by simp)] at hn
      exact hd c hn c (List.mem_cons_of_mem a hc) rfl
    have hrear {m : Node H α} (hm : m ∈ nodes (.elem f) l) : q'.fwd m = q.fwd m := by
      obtain ⟨c, hc, rfl⟩ := List.mem_map.mp (show m ∈ (f :: l).map .elem from hm)
      exact hkeep (hout hc)
    have hbf : q'.back (.elem f) = n := by
      rw [hback, haf]
      exact update_self _ _ _
    have hb {m : Node H α} (hm : m ≠ .elem f) : q'.back m = q.back m := by
      rw [hback, haf]
      exact update_of_ne hm _ _
    have hlast : q'.back (.head h) = q.back (.head h) := hb (by simp)
    have hfront : Seg q' (.head h) l₁ n := by
      apply h₁.keep (nodes_nodup hnd₁)
      · intro c hc
        apply hb
        intro he
        exact hd c hc f (List.mem_cons_of_mem a List.mem_cons_self) (Node.elem.inj he)
      · exact fun m _ hmn => hkeep hmn
    have hseg : Seg q' (.elem f) l (q.back (.head h)) := by
      apply hrest.keep (elems_nodup hnd₂)
      · intro c hc
        apply hb
        exact fun he => (List.nodup_cons.mp hnd₂).1 (Node.elem.inj he ▸ hc)
      · exact fun m hm _ => hrear hm
    refine ⟨(seg_append q' _ _ _ _).mpr ⟨n, hfront, hfn.trans haf, hbf, ?_⟩, ?_, hlist⟩
    · rw [hlast]
      exact hseg
    · rw [hlast, hrear (seg_end_mem hrest), hq.stop]

theorem Holds.remove (hold : Holds q L) (hl : L h = l₁ ++ a :: l₂) :
    Holds (TAILQ_REMOVE q h a) (Function.update L h (l₁ ++ l₂)) := by
  have hq := hold.queued h
  rw [hl] at hq
  obtain ⟨n, h₁, hna, han, h₂, hnext, hne⟩ := hq.split
  have hsub {m : Node H α} (hm : m ∈ nodes (.head h) l₁) : m ∈ nodes (.head h) (L h) := by
    rw [hl, nodes, List.map_append]
    rcases List.mem_cons.mp hm with rfl | hm
    · exact List.mem_cons_self
    · exact List.mem_cons_of_mem _ (List.mem_append_left _ hm)
  apply hold.update hq.remove
  · intro c hc
    rw [hl]
    rcases List.mem_append.mp hc with hc | hc
    · exact Or.inl (List.mem_append_left _ hc)
    · exact Or.inl (List.mem_append_right _ (List.mem_cons_of_mem a hc))
  · intro m hm _
    have hmn : m ≠ n := fun he => hm (he ▸ hsub (seg_end_mem h₁))
    rw [TAILQ_REMOVE_fwd hne, han, update_of_ne hmn]
  · intro m hm _
    rw [TAILQ_REMOVE_back]
    cases hf : q.fwd (.elem a) with
    | none => exact update_of_ne (ne_head_of_not_mem hm) _ _
    | some f =>
      refine update_of_ne (fun he => hm ?_) _ _
      rw [he, elem_mem_nodes, hl]
      rw [hnext] at hf
      have hfl : f ∈ a :: l₂ := List.mem_cons_of_mem a (List.mem_of_mem_head? hf)
      exact Or.inr (List.mem_append_right l₁ hfl)

end

/-! ### One queue behind another -/

/-- The lists after all of the second queue went behind the first. -/
def concatLists [DecidableEq H] (L : H → List α) (h h' : H) : H → List α :=
  update (update L h (L h ++ L h')) h' []

theorem mem_concatLists [DecidableEq H] {L : H → List α} {h h' i : H} (hne : h ≠ h') {c : α} :
    c ∈ concatLists L h h' i ↔ i ≠ h' ∧ (c ∈ L i ∨ i = h ∧ c ∈ L h') := by
  unfold concatLists
  by_cases hi' : i = h'
  · simp [hi']
  · by_cases hi : i = h
    · simp [hi, hne, update_of_ne]
    · simp [hi, hi', update_of_ne]

section
variable [DecidableEq H] [DecidableEq α]
variable {q : Links H α} {L : H → List α} {h h' : H} {f : α} {l : List α}

theorem TAILQ_CONCAT_fwd (hf : q.fwd (.head h') = some f) : (TAILQ_CONCAT q h h').fwd =
    update (update q.fwd (q.back (.head h)) (some f)) (.head h') none := by
  simp only [TAILQ_CONCAT, hf, TAILQ_INIT, Links.fwd_setBack, Links.fwd_setFwd]

theorem TAILQ_CONCAT_back (hf : q.fwd (.head h') = some f) : (TAILQ_CONCAT q h h').back =
    update (update (update q.back (.elem f) (q.back (.head h))) (.head h) (q.back (.head h')))
      (.head h') (.head h') := by
  simp [TAILQ_CONCAT, hf, TAILQ_INIT]

theorem Queued.concat (hold : Holds q L) (hne : h ≠ h') (hl : L h' = f :: l) :
    Queued (TAILQ_CONCAT q h h') h (L h ++ f :: l) := by
  obtain ⟨hseg, hstop, hnodup⟩ := hold.queued h
  have hq' := hold.queued h'
  rw [hl] at hq'
  obtain ⟨hhf, hfb, hrest⟩ := hq'.seg
  have hhead : (.head h : Node H α) ≠ .head h' := fun he => hne (Node.head.inj he)
  set q' := TAILQ_CONCAT q h h'
  have hfwd : q'.fwd = _ := TAILQ_CONCAT_fwd (h := h) hhf
  have hback : q'.back = _ := TAILQ_CONCAT_back (h := h) hhf
  have hout {m : Node H α} (hm : m ∈ nodes (.head h) (L h)) : m ∉ nodes (.head h') (f :: l) :=
    hl ▸ hold.nodes_apart hne hm
  have hlast : q'.back (.head h) = q.back (.head h') := by
    rw [hback, update_of_ne hhead, update_self]
  have hmid : q'.fwd (q.back (.head h)) = some f := by
    rw [hfwd, update_of_ne (ne_head_of_not_mem (hout (seg_end_mem hseg))), update_self]
  have hfback : q'.back (.elem f) = q.back (.head h) := by
    rw [hback, update_of_ne (by simp), update_of_ne (by simp), update_self]
  have hb {c : α} (hc : c ≠ f) : q'.back (.elem c) = q.back (.elem c) := by
    rw [hback, update_of_ne (by simp), update_of_ne (by simp)]
    exact update_of_ne (fun he => hc (Node.elem.inj he)) _ _
  have hfront : Seg q' (.head h) (L h) (q.back (.head h)) := by
    apply hseg.keep (nodes_nodup hnodup)
    · intro c hc
      refine hb fun hcf => hne (hold.apart hc ?_)
      rw [hl, hcf]
      exact List.mem_cons_self
    · intro m hm hmt
      rw [hfwd, update_of_ne (ne_head_of_not_mem (hout hm)), update_of_ne hmt]
  have hrear {m : Node H α} (hm : m ∈ nodes (.elem f) l) : q'.fwd m = q.fwd m := by
    have hm' : m ∈ nodes (.head h') (f :: l) := List.mem_cons_of_mem _ hm
    have hmh : m ≠ .head h' := by
      obtain ⟨c, _, rfl⟩ := List.mem_map.mp (show m ∈ (f :: l).map .elem from hm)
      simp
    rw [hfwd, update_of_ne hmh, update_of_ne]
    exact fun he => hout (seg_end_mem hseg) (he ▸ hm')
  have hrest' : Seg q' (.elem f) l (q.back (.head h')) := by
    apply hrest.keep (elems_nodup hq'.nodup)
    · exact fun c hc => hb fun hcf => (List.nodup_cons.mp hq'.nodup).1 (hcf ▸ hc)
    · exact fun m hm _ => hrear hm
  refine ⟨?_, ?_, ?_⟩
  · rw [hlast]
    exact (seg_append q' _ _ _ _).mpr ⟨_, hfront, hmid, hfback, hrest'⟩
  · rw [hlast, hrear (seg_end_mem hrest), hq'.stop]
  · refine List.nodup_append.mpr ⟨hnodup, hq'.nodup, fun c hc d hd hcd => ?_⟩
    exact hne (hold.apart hc (hl ▸ hcd ▸ hd))

theorem Holds.concat (hold : Holds q L) (hne : h ≠ h') :
    Holds (TAILQ_CONCAT q h h') (concatLists L h h') := by
  have hfirst := seg_head? (hold.queued h').seg (hold.queued h').stop
  cases hl : L h' with
  | nil =>
    have hsame : concatLists L h h' = L := by
      funext i
      by_cases hi' : i = h'
      · rw [concatLists, hi', update_self, hl]
      · by_cases hi : i = h
        · rw [concatLists, update_of_ne hi', hi, update_self, hl, List.append_nil]
        · rw [concatLists, update_of_ne hi', update_of_ne hi]
    have hq : TAILQ_CONCAT q h h' = q := by
      rw [TAILQ_CONCAT, hfirst, hl]
      rfl
    rwa [hsame, hq]
  | cons f l =>
    have hhf : q.fwd (.head h') = some f := by rw [hfirst, hl]; rfl
    have hfwd := TAILQ_CONCAT_fwd (h := h) hhf
    have hback := TAILQ_CONCAT_back (h := h) hhf
    constructor
    case queued =>
      intro i
      by_cases hi' : i = h'
      · rw [hi', concatLists, update_self]
        have hself : (TAILQ_CONCAT q h h').back (.head h') = .head h' := by
          rw [hback, update_self]
        refine ⟨hself.symm, ?_, List.nodup_nil⟩
        rw [hself, hfwd, update_self]
      · by_cases hi : i = h
        · rw [concatLists, update_of_ne hi', hi, update_self, hl]
          exact Queued.concat hold hne hl
        · rw [concatLists, update_of_ne hi', update_of_ne hi]
          have hf : .elem f ∈ nodes (.head h') (L h') :=
            elem_mem_nodes.mpr (Or.inr (hl ▸ List.mem_cons_self))
          apply (hold.queued i).keep
          · intro m hm
            rw [hfwd, update_of_ne (ne_head_of_not_mem (hold.nodes_apart hi' hm)), update_of_ne]
            rintro rfl
            exact hold.nodes_apart hi hm (seg_end_mem (hold.queued h).seg)
          · intro m hm
            rw [hback, update_of_ne (ne_head_of_not_mem (hold.nodes_apart hi' hm)),
              update_of_ne (ne_head_of_not_mem (hold.nodes_apart hi hm)), update_of_ne]
            rintro rfl
            exact hold.nodes_apart hi' hm hf
    case apart =>
      intro i j c hi hj
      obtain ⟨hi', hci⟩ := (mem_concatLists hne).mp hi
      obtain ⟨hj', hcj⟩ := (mem_concatLists hne).mp hj
      rcases hci with hci | ⟨hih, hci⟩ <;> rcases hcj with hcj | ⟨hjh, hcj⟩
      · exact hold.apart hci hcj
      · exact absurd (hold.apart hci hcj) hi'
      · exact absurd (hold.apart hcj hci) hj'
      · exact hih.trans hjh.symm

end

/-! ### Any number of operations -/

/-- One use of a macro that writes. -/
inductive Op (H α : Type*)
  | init (head : H)
  | insertHead (head : H) (elm : α)
  | insertTail (head : H) (elm : α)
  | insertAfter (head : H) (listelm elm : α)
  | insertBefore (listelm elm : α)
  | remove (head : H) (elm : α)
  | concat (head1 head2 : H)

section
variable [DecidableEq H] [DecidableEq α]

def Op.apply (q : Links H α) : Op H α → Links H α
  | .init head => TAILQ_INIT q head
  | .insertHead head elm => TAILQ_INSERT_HEAD q head elm
  | .insertTail head elm => TAILQ_INSERT_TAIL q head elm
  | .insertAfter head listelm elm => TAILQ_INSERT_AFTER q head listelm elm
  | .insertBefore listelm elm => TAILQ_INSERT_BEFORE q listelm elm
  | .remove head elm => TAILQ_REMOVE q head elm
  | .concat head1 head2 => TAILQ_CONCAT q head1 head2

/-- What an operation does to the lists. A new element is in none of them, the element that is
named is in the list of the head, and no queue goes behind itself. -/
inductive ListStep : (H → List α) → Op H α → (H → List α) → Prop
  | init (L : H → List α) (h : H) : ListStep L (.init h) (update L h [])
  | insertHead {L : H → List α} {h : H} {a : α} (ha : ∀ h', a ∉ L h') :
      ListStep L (.insertHead h a) (update L h (a :: L h))
  | insertTail {L : H → List α} {h : H} {a : α} (ha : ∀ h', a ∉ L h') :
      ListStep L (.insertTail h a) (update L h (L h ++ [a]))
  | insertAfter {L : H → List α} {h : H} {a b : α} {l₁ l₂ : List α}
      (hl : L h = l₁ ++ b :: l₂) (ha : ∀ h', a ∉ L h') :
      ListStep L (.insertAfter h b a) (update L h (l₁ ++ b :: a :: l₂))
  | insertBefore {L : H → List α} {h : H} {a b : α} {l₁ l₂ : List α}
      (hl : L h = l₁ ++ b :: l₂) (ha : ∀ h', a ∉ L h') :
      ListStep L (.insertBefore b a) (update L h (l₁ ++ a :: b :: l₂))
  | remove {L : H → List α} {h : H} {a : α} {l₁ l₂ : List α} (hl : L h = l₁ ++ a :: l₂) :
      ListStep L (.remove h a) (update L h (l₁ ++ l₂))
  | concat (L : H → List α) {h h' : H} (hne : h ≠ h') :
      ListStep L (.concat h h') (concatLists L h h')

/-- The words that operations reach from heads with their initialiser, whatever the links of the
elements are then, beside the lists that they should hold. -/
inductive Reached : Links H α → (H → List α) → Prop
  | start {q : Links H α} (hfirst : ∀ h, q.fwd (.head h) = none)
      (hlast : ∀ h, q.back (.head h) = .head h) : Reached q fun _ => []
  | step {q : Links H α} {L L' : H → List α} {op : Op H α} (hr : Reached q L)
      (hs : ListStep L op L') : Reached (op.apply q) L'

variable {q : Links H α} {L L' : H → List α}

theorem Holds.step {op : Op H α} (hold : Holds q L) (hs : ListStep L op L') :
    Holds (op.apply q) L' := by
  cases hs with
  | init => exact hold.init
  | insertHead ha => exact hold.insertHead ha
  | insertTail ha => exact hold.insertTail ha
  | insertAfter hl ha => exact hold.insertAfter hl ha
  | insertBefore hl ha => exact hold.insertBefore hl ha
  | remove hl => exact hold.remove hl
  | concat hne => exact hold.concat hne

theorem Reached.holds (hr : Reached q L) : Holds q L := by
  induction hr with
  | start hfirst hlast =>
    constructor
    case queued =>
      intro h
      refine ⟨(hlast h).symm, ?_, List.nodup_nil⟩
      rw [hlast, hfirst]
    case apart => exact fun ha => absurd ha List.not_mem_nil
  | step _ hs ih => exact ih.step hs

end

/-! ### What is read -/

theorem visit_eq {step : α → Option α} {l : List α} {fuel : ℕ}
    (hstep : ∀ l₁ a l₂, l = l₁ ++ a :: l₂ → step a = l₂.head?) (hfuel : l.length ≤ fuel) :
    visit step fuel l.head? = some l := by
  induction l generalizing fuel with
  | nil => cases fuel <;> rfl
  | cons a l ih =>
    obtain ⟨k, rfl⟩ : ∃ k, fuel = k+1 := ⟨fuel-1, by rw [List.length_cons] at hfuel; omega⟩
    have hrest : visit step k l.head? = some l := by
      apply ih _ (by simpa using hfuel)
      exact fun l₁ b l₂ hl => hstep (a :: l₁) b l₂ (by rw [hl, List.cons_append])
    rw [List.head?_cons, visit, hstep [] a l rfl, hrest]
    rfl

section
variable {q : Links H α} {h : H} {l : List α}

theorem Queued.first (hq : Queued q h l) : TAILQ_FIRST q h = l.head? :=
  seg_head? hq.seg hq.stop

theorem Queued.last (hq : Queued q h l) : TAILQ_LAST q h = l.getLast? :=
  seg_getLast? hq.seg hq.stop

/-- The links of an element, read as if they were a head, lead to the element before it. -/
theorem Queued.neighbours {a : α} {l₁ l₂ : List α} (hq : Queued q h (l₁ ++ a :: l₂)) :
    TAILQ_NEXT q a = l₂.head? ∧ TAILQ_PREV q a = l₁.getLast? := by
  obtain ⟨n, h₁, _, han, _, hnext, _⟩ := hq.split
  refine ⟨hnext, ?_⟩
  rw [TAILQ_PREV, derefLast, han]
  exact seg_getLast? h₁ hq.stop

theorem Queued.foreach {fuel : ℕ} (hq : Queued q h l) (hfuel : l.length ≤ fuel) :
    TAILQ_FOREACH q fuel h = some l := by
  rw [TAILQ_FOREACH, hq.first]
  apply visit_eq _ hfuel
  rintro l₁ a l₂ rfl
  exact hq.neighbours.1

theorem Queued.foreach_reverse {fuel : ℕ} (hq : Queued q h l) (hfuel : l.length ≤ fuel) :
    TAILQ_FOREACH_REVERSE q fuel h = some l.reverse := by
  rw [TAILQ_FOREACH_REVERSE, hq.last, ← List.head?_reverse]
  apply visit_eq _ (by rwa [List.length_reverse])
  intro l₁ a l₂ hl
  -- Reversed, what comes after `a` in the loop is what stands before it in the queue.
  have hsplit : l = l₂.reverse ++ a :: l₁.reverse := by
    rw [← List.reverse_reverse l, hl]
    simp
  rw [hsplit] at hq
  rw [hq.neighbours.2, List.getLast?_reverse]

end

/-- Whatever the order of the operations on any number of queues, each queue reads forwards and
backwards as its list. -/
theorem queue_refines [DecidableEq H] [DecidableEq α] {q : Links H α} {L : H → List α}
    (hr : Reached q L) (h : H) {fuel : ℕ} (hfuel : (L h).length ≤ fuel) :
    TAILQ_EMPTY q h = (L h).isEmpty ∧ TAILQ_FIRST q h = (L h).head? ∧
      TAILQ_LAST q h = (L h).getLast? ∧ TAILQ_FOREACH q fuel h = some (L h) ∧
      TAILQ_FOREACH_REVERSE q fuel h = some (L h).reverse ∧ (L h).Nodup ∧
      (∀ h' a, a ∈ L h → a ∈ L h' → h = h') ∧
      ∀ l₁ a l₂, L h = l₁ ++ a :: l₂ →
        TAILQ_NEXT q a = l₂.head? ∧ TAILQ_PREV q a = l₁.getLast? := by
  have hq := hr.holds.queued h
  refine ⟨?_, hq.first, hq.last, hq.foreach hfuel, hq.foreach_reverse hfuel, hq.nodup, ?_, ?_⟩
  · rw [TAILQ_EMPTY, hq.first]
    cases L h <;> rfl
  · exact fun h' a ha ha' => hr.holds.apart ha ha'
  · intro l₁ a l₂ hl
    rw [hl] at hq
    exact hq.neighbours

/-- Two queues of one and two elements, and one behind the other. -/
theorem queue_refines_concat :
    let q₀ : Links Bool ℕ := ⟨fun _ => none, fun n => n⟩
    let q := TAILQ_CONCAT (TAILQ_INSERT_HEAD (TAILQ_INSERT_BEFORE
      (TAILQ_INSERT_TAIL q₀ true 2) 2 1) false 3) true false
    TAILQ_FOREACH_REVERSE q 3 true = some [3, 2, 1] ∧ TAILQ_EMPTY q false = true := by
  intro q₀ q
  have r₀ : Reached q₀ fun _ => [] := .start (fun _ => rfl) fun _ => rfl
  have r₁ := r₀.step (.insertTail (h := true) (a := 2) fun _ => List.not_mem_nil)
  have r₂ := r₁.step (.insertBefore (h := true) (a := 1) (b := 2) rfl (by decide))
  have r₃ := r₂.step (.insertHead (h := false) (a := 3) (by decide))
  have r₄ := r₃.step (.concat _ (show true ≠ false by decide))
  exact ⟨(queue_refines r₄ true (show 3 ≤ 3 by omega)).2.2.2.2.1,
    (queue_refines r₄ false (show 0 ≤ 3 by omega)).1⟩

/-! ### The one queue of the scheduler -/

section
open IntrusiveQueue (Slot TailQueue)

def node : Slot α → Node Unit α
  | .head => .head ()
  | .next a => .elem a

/-- A single tail queue as one of the many. -/
def ofTailQueue (q : TailQueue α) : Links Unit α where
  fwd n := match n with
    | .head _ => q.first
    | .elem a => q.next a
  back n := match n with
    | .head _ => node q.last
    | .elem a => node (q.prev a)

theorem fwd_node (q : TailQueue α) (s : Slot α) : (ofTailQueue q).fwd (node s) = q.read s := by
  cases s <;> rfl

theorem node_inj {s t : Slot α} : node s = node t ↔ s = t := by
  cases s <;> cases t <;> simp [node]

theorem seg_ofTailQueue (q : TailQueue α) {s t : Slot α} {l : List α} :
    Seg (ofTailQueue q) (node s) l (node t) ↔ IntrusiveQueue.Seg q.toLinks s l t := by
  induction l generalizing s with
  | nil => exact node_inj
  | cons a l ih =>
    have hprev : (ofTailQueue q).back (.elem a) = node s ↔ q.prev a = s := node_inj
    have hrest : Seg (ofTailQueue q) (.elem a) l (node t) ↔
        IntrusiveQueue.Seg q.toLinks (.next a) l t := ih (s := .next a)
    rw [Seg, IntrusiveQueue.Seg, fwd_node, hprev, hrest]

theorem queued_ofTailQueue {q : TailQueue α} {l : List α} :
    Queued (ofTailQueue q) () l ↔ IntrusiveQueue.TailRepr q l := by
  constructor
  · rintro ⟨hseg, hstop, hnodup⟩
    exact ⟨(seg_ofTailQueue q).mp hseg, (fwd_node q q.last).symm.trans hstop, hnodup⟩
  · rintro ⟨hseg, hstop, hnodup⟩
    exact ⟨(seg_ofTailQueue q).mpr hseg, (fwd_node q q.last).trans hstop, hnodup⟩

/-- The queue of the scheduler reads as the environments that it holds, forwards and backwards. -/
theorem tailRepr_reads {q : TailQueue α} {l : List α} {fuel : ℕ}
    (hq : IntrusiveQueue.TailRepr q l) (hfuel : l.length ≤ fuel) :
    TAILQ_FOREACH (ofTailQueue q) fuel () = some l ∧
      TAILQ_FOREACH_REVERSE (ofTailQueue q) fuel () = some l.reverse := by
  have hqueued := queued_ofTailQueue.mpr hq
  exact ⟨hqueued.foreach hfuel, hqueued.foreach_reverse hfuel⟩

variable [DecidableEq α]

theorem ofTailQueue_write (q : IntrusiveQueue.Links α) (s t : Slot α) (v : Option α) :
    ofTailQueue ⟨q.write s v, t⟩ = (ofTailQueue ⟨q, t⟩).setFwd (node s) v := by
  apply Links.ext
  · funext n
    cases s <;> cases n <;>
      simp [ofTailQueue, IntrusiveQueue.Links.write, node, update_apply]
  · cases s <;> rfl

theorem ofTailQueue_setPrev (q : IntrusiveQueue.Links α) (a : α) (s t : Slot α) :
    ofTailQueue ⟨q.setPrev a s, t⟩ = (ofTailQueue ⟨q, t⟩).setBack (.elem a) (node s) := by
  refine Links.ext rfl (funext fun n => ?_)
  cases n with
  | head => simp [ofTailQueue]
  | elem b =>
    simp only [ofTailQueue, IntrusiveQueue.Links.setPrev, Links.back_setBack, update_apply,
      Node.elem.injEq]
    split <;> rfl

theorem ofTailQueue_last (q : IntrusiveQueue.Links α) (s t : Slot α) :
    ofTailQueue ⟨q, s⟩ = (ofTailQueue ⟨q, t⟩).setBack (.head ()) (node s) := by
  refine Links.ext rfl (funext fun n => ?_)
  cases n <;> simp [ofTailQueue]

/-! The operations that the kernel has of a tail queue are those of one head. -/

theorem ofTailQueue_init (q : TailQueue α) :
    ofTailQueue (IntrusiveQueue.tailqInit q) = TAILQ_INIT (ofTailQueue q) () := by
  have hq : IntrusiveQueue.tailqInit q = ⟨q.toLinks.write .head none, .head⟩ := rfl
  rw [hq, ofTailQueue_write, ofTailQueue_last q.toLinks .head q.last]
  rfl

theorem ofTailQueue_insertTail (q : TailQueue α) (a : α) :
    ofTailQueue (IntrusiveQueue.tailqInsertTail q a) = TAILQ_INSERT_TAIL (ofTailQueue q) () a := by
  simp only [IntrusiveQueue.tailqInsertTail, ofTailQueue_write, ofTailQueue_setPrev]
  rw [ofTailQueue_last q.toLinks _ q.last]
  refine Links.ext ?_ ?_
  · simp [TAILQ_INSERT_TAIL, ofTailQueue, node]
  · simp [TAILQ_INSERT_TAIL, ofTailQueue, node, update_comm]

theorem ofTailQueue_insertHead (q : TailQueue α) (a : α) :
    ofTailQueue (IntrusiveQueue.tailqInsertHead q a) = TAILQ_INSERT_HEAD (ofTailQueue q) () a := by
  have hfirst : (q.toLinks.write (.next a) q.first).next a = q.first := update_self _ _ _
  have hhead : (ofTailQueue q).fwd (.head ()) = q.first := rfl
  have hfwd : ((ofTailQueue q).setFwd (.elem a) q.first).fwd (.elem a) = q.first :=
    update_self _ _ _
  unfold IntrusiveQueue.tailqInsertHead TAILQ_INSERT_HEAD insertAt
  simp only [hfirst, hhead, hfwd, ofTailQueue_write, ofTailQueue_setPrev]
  cases q.first with
  | none =>
    rw [ofTailQueue_write, ofTailQueue_last q.toLinks _ q.last]
    rfl
  | some f =>
    rw [ofTailQueue_setPrev, ofTailQueue_write]
    rfl

theorem ofTailQueue_remove (q : TailQueue α) (a : α) :
    ofTailQueue (IntrusiveQueue.tailqRemove q a) = TAILQ_REMOVE (ofTailQueue q) () a := by
  have hfwd : (ofTailQueue q).fwd (.elem a) = q.next a := rfl
  unfold IntrusiveQueue.tailqRemove TAILQ_REMOVE
  rw [hfwd]
  cases q.next a with
  | none =>
    rw [ofTailQueue_write, ofTailQueue_last q.toLinks _ q.last]
    rfl
  | some f =>
    have hback : (ofTailQueue q).setBack (.elem f) ((ofTailQueue q).back (.elem a)) =
        ofTailQueue ⟨q.setPrev f (q.prev a), q.last⟩ :=
      (ofTailQueue_setPrev q.toLinks f (q.prev a) q.last).symm
    simp only [ofTailQueue_write, hback]
    rfl

end

end RiscvMos.Queue
