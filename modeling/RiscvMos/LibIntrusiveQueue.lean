import Mathlib.Data.List.Nodup
import Mathlib.Logic.Function.Basic

/-! Intrusive lists and tail queues with back pointers: every element stores a
forward pointer and the address of the forward pointer that points to it. -/
namespace IntrusiveQueue

variable {α : Type*}

/-- The address of a forward pointer: the head's own, or an element's. -/
inductive Slot (α : Type*)
  | head
  | next (a : α)
  deriving DecidableEq

/-- The pointers of one list: the head and the two link fields of every element. -/
structure Links (α : Type*) where
  first : Option α
  next : α → Option α
  prev : α → Slot α

/-- A tail queue also stores the address of its last forward pointer. -/
structure TailQueue (α : Type*) extends Links α where
  last : Slot α

namespace Links

/-- `*s` for the address `s` of a forward pointer. -/
def read (q : Links α) : Slot α → Option α
  | .head => q.first
  | .next a => q.next a

end Links

/-! ### Segments -/

/-- From the forward pointer at `s` the pointers run through `l`, each element
pointing back, and the forward pointer after the last one lies at `t`. -/
def Seg (q : Links α) : Slot α → List α → Slot α → Prop
  | s, [], t => s = t
  | s, a :: l, t => q.read s = some a ∧ q.prev a = s ∧ Seg q (.next a) l t

theorem seg_append (q : Links α) (s t : Slot α) (l₁ l₂ : List α) :
    Seg q s (l₁ ++ l₂) t ↔ ∃ u, Seg q s l₁ u ∧ Seg q u l₂ t := by
  induction l₁ generalizing s with
  | nil => simp [Seg]
  | cons a l ih => simp only [List.cons_append, Seg, ih, and_assoc, exists_and_left]

theorem seg_end_mem {q : Links α} {s t : Slot α} {l : List α} (h : Seg q s l t) :
    t ∈ s :: l.map Slot.next := by
  induction l generalizing s with
  | nil =>
    have hst : s = t := h
    simp [hst]
  | cons a l ih => exact List.mem_cons_of_mem s (ih h.2.2)

/-- A segment only depends on the back pointers of its elements and on the
forward pointers before its end. -/
theorem seg_frame {q q' : Links α} {s t : Slot α} {l : List α} (h : Seg q s l t)
    (hn : (s :: l.map Slot.next).Nodup) (hp : ∀ a ∈ l, q'.prev a = q.prev a)
    (hr : ∀ u ∈ s :: l.map Slot.next, u ≠ t → q'.read u = q.read u) : Seg q' s l t := by
  induction l generalizing s with
  | nil => exact h
  | cons a l ih =>
    have hend : t ∈ (a :: l).map Slot.next := seg_end_mem h.2.2
    have hst : s ≠ t := by
      intro he
      rw [he] at hn
      exact (List.nodup_cons.mp hn).1 hend
    refine ⟨?_, ?_, ?_⟩
    · rw [hr s List.mem_cons_self hst]
      exact h.1
    · rw [hp a List.mem_cons_self]
      exact h.2.1
    · apply ih h.2.2 (List.nodup_cons.mp hn).2
      · intro b hb
        exact hp b (List.mem_cons_of_mem a hb)
      · intro u hu
        exact hr u (List.mem_cons_of_mem s hu)

/-- `q` stores the list `l`, with `t` the address of the final null pointer. -/
structure Repr (q : Links α) (l : List α) (t : Slot α) : Prop where
  seg : Seg q .head l t
  stop : q.read t = none
  nodup : l.Nodup

theorem slots_nodup {l : List α} (h : l.Nodup) : (Slot.head :: l.map Slot.next).Nodup := by
  refine List.nodup_cons.mpr ⟨by simp, ?_⟩
  exact h.map (fun a b hab => Slot.next.inj hab)

theorem repr_first {q : Links α} {l : List α} {t : Slot α} (h : Repr q l t) :
    q.first = l.head? := by
  cases l with
  | nil =>
    have hs : Slot.head = t := h.seg
    have hr := h.stop
    rw [← hs] at hr
    exact hr
  | cons a l => exact h.seg.1

/-- The forward pointers from `s` run through `l` to a null pointer. -/
inductive Elems (q : Links α) : Slot α → List α → Prop
  | nil {s : Slot α} (stop : q.read s = none) : Elems q s []
  | cons {s : Slot α} {a : α} {l : List α} (step : q.read s = some a)
      (rest : Elems q (.next a) l) : Elems q s (a :: l)

theorem elems_unique {q : Links α} {s : Slot α} {l l' : List α} (h : Elems q s l)
    (h' : Elems q s l') : l = l' := by
  induction h generalizing l' with
  | nil stop =>
    cases h' with
    | nil _ => rfl
    | cons step _ => exact absurd (stop.symm.trans step) (by simp)
  | cons step rest ih =>
    cases h' with
    | nil stop => exact absurd (stop.symm.trans step) (by simp)
    | cons step' rest' =>
      obtain rfl := Option.some.inj (step.symm.trans step')
      rw [ih rest']

theorem elems_of_seg {q : Links α} {s t : Slot α} {l : List α} (h : Seg q s l t)
    (ht : q.read t = none) : Elems q s l := by
  induction l generalizing s with
  | nil =>
    have hst : s = t := h
    exact .nil (hst ▸ ht)
  | cons a l ih => exact .cons h.1 (ih h.2.2)

theorem repr_elems {q : Links α} {l : List α} {t : Slot α} (h : Repr q l t) : Elems q .head l :=
  elems_of_seg h.seg h.stop

theorem slots_split {l₁ l₂ : List α} {a : α} (h : (l₁ ++ a :: l₂).Nodup) :
    a ∉ l₁ ∧ a ∉ l₂ ∧ l₁.Nodup ∧ l₂.Nodup ∧ ∀ b ∈ l₁, b ∉ l₂ := by
  obtain ⟨h₁, h₂, hd⟩ := List.nodup_append.mp h
  obtain ⟨ha, h₂⟩ := List.nodup_cons.mp h₂
  refine ⟨?_, ha, h₁, h₂, ?_⟩
  · intro hm
    exact hd a hm a List.mem_cons_self rfl
  · intro b hb hb'
    exact hd b hb b (List.mem_cons_of_mem a hb') rfl

variable [DecidableEq α]

namespace Links

/-- `*s = v` for the address `s` of a forward pointer. -/
def write (q : Links α) (s : Slot α) (v : Option α) : Links α :=
  match s with
  | .head => { q with first := v }
  | .next a => { q with next := Function.update q.next a v }

def setPrev (q : Links α) (a : α) (s : Slot α) : Links α :=
  { q with prev := Function.update q.prev a s }

@[simp] theorem read_write_same (q : Links α) (s : Slot α) (v : Option α) :
    (q.write s v).read s = v := by
  cases s <;> simp [write, read]

theorem read_write_ne (q : Links α) {s u : Slot α} (v : Option α) (h : u ≠ s) :
    (q.write s v).read u = q.read u := by
  cases s with
  | head =>
    cases u with
    | head => exact absurd rfl h
    | next b => rfl
  | next a =>
    cases u with
    | head => rfl
    | next b =>
      have hba : b ≠ a := fun hb => h (congrArg Slot.next hb)
      simp only [write, read, Function.update_of_ne hba]

@[simp] theorem prev_write (q : Links α) (s : Slot α) (v : Option α) :
    (q.write s v).prev = q.prev := by
  cases s <;> rfl

@[simp] theorem read_setPrev (q : Links α) (a : α) (s u : Slot α) :
    (q.setPrev a s).read u = q.read u := by
  cases u <;> rfl

@[simp] theorem setPrev_prev_same (q : Links α) (a : α) (s : Slot α) :
    (q.setPrev a s).prev a = s := by
  simp [setPrev]

theorem setPrev_prev_ne (q : Links α) {a b : α} (s : Slot α) (h : b ≠ a) :
    (q.setPrev a s).prev b = q.prev b := by
  simp only [setPrev, Function.update_of_ne h]

end Links

/-! ### The operations, in the order of their assignments -/

/-- `LIST_INIT` -/
def listInit (q : Links α) : Links α := { q with first := none }

/-- `LIST_INSERT_HEAD` -/
def listInsertHead (q : Links α) (elm : α) : Links α :=
  let q₁ := q.write (.next elm) q.first
  let q₂ := match q₁.next elm with
    | some f => q₁.setPrev f (.next elm)
    | none => q₁
  (q₂.write .head (some elm)).setPrev elm .head

/-- `LIST_REMOVE` -/
def listRemove (q : Links α) (elm : α) : Links α :=
  let q₁ := match q.next elm with
    | some n => q.setPrev n (q.prev elm)
    | none => q
  q₁.write (q₁.prev elm) (q₁.next elm)

/-- `TAILQ_INIT` -/
def tailqInit (q : TailQueue α) : TailQueue α :=
  { q with first := none, last := .head }

/-- `TAILQ_INSERT_HEAD` -/
def tailqInsertHead (q : TailQueue α) (elm : α) : TailQueue α :=
  let q₁ := q.toLinks.write (.next elm) q.first
  let q₂ : TailQueue α := match q₁.next elm with
    | some f => { q₁.setPrev f (.next elm) with last := q.last }
    | none => { q₁ with last := .next elm }
  { (q₂.toLinks.write .head (some elm)).setPrev elm .head with last := q₂.last }

/-- `TAILQ_INSERT_TAIL` -/
def tailqInsertTail (q : TailQueue α) (elm : α) : TailQueue α :=
  let q₁ := (q.toLinks.write (.next elm) none).setPrev elm q.last
  { q₁.write q.last (some elm) with last := .next elm }

/-- `TAILQ_REMOVE` -/
def tailqRemove (q : TailQueue α) (elm : α) : TailQueue α :=
  let q₁ : TailQueue α := match q.next elm with
    | some n => { q.toLinks.setPrev n (q.prev elm) with last := q.last }
    | none => { q with last := q.prev elm }
  { q₁.toLinks.write (q₁.prev elm) (q₁.next elm) with last := q₁.last }

/-! ### What the operations do to the stored list -/

omit [DecidableEq α] in
theorem listInit_repr (q : Links α) : Repr (listInit q) [] .head :=
  ⟨rfl, rfl, List.nodup_nil⟩

omit [DecidableEq α] in
theorem tailqInit_repr (q : TailQueue α) :
    Repr (tailqInit q).toLinks [] (tailqInit q).last :=
  ⟨rfl, rfl, List.nodup_nil⟩

/-- The end of a list after `a` was put in front of `l`. -/
def endAfterHead (a : α) (l : List α) (t : Slot α) : Slot α :=
  if l = [] then .next a else t

theorem listInsertHead_repr {q : Links α} {l : List α} {t : Slot α} (h : Repr q l t)
    {a : α} (ha : a ∉ l) : Repr (listInsertHead q a) (a :: l) (endAfterHead a l t) := by
  have hfirst := repr_first h
  cases l with
  | nil =>
    have hf : q.first = none := hfirst
    refine ⟨?_, ?_, by simp⟩
    · simp [Seg, listInsertHead, endAfterHead, Links.read, Links.write, Links.setPrev, hf]
    · simp [listInsertHead, endAfterHead, Links.read, Links.write, Links.setPrev, hf]
  | cons b l =>
    have hf : q.first = some b := hfirst
    have hab : b ≠ a := fun he => ha (by simp [he])
    have hn := slots_nodup h.nodup
    have hne (u : Slot α) (hu : u ∈ (b :: l).map Slot.next) : u ≠ .next a ∧ u ≠ .head := by
      obtain ⟨c, hc, rfl⟩ := List.mem_map.mp hu
      exact ⟨fun he => ha (Slot.next.inj he ▸ hc), by simp⟩
    -- four writes; those to `b` and to the head leave the other slots alone
    have hq : listInsertHead q a =
        ((((q.write (.next a) (some b)).setPrev b (.next a)).write .head (some a)).setPrev
          a .head) := by
      simp [listInsertHead, hf, Links.write]
    have hread (u : Slot α) (hu : u ∈ (b :: l).map Slot.next) :
        (listInsertHead q a).read u = q.read u := by
      rw [hq, Links.read_setPrev, Links.read_write_ne _ _ (hne u hu).2, Links.read_setPrev,
        Links.read_write_ne _ _ (hne u hu).1]
    have ht : t ∈ (b :: l).map Slot.next := seg_end_mem h.seg.2.2
    refine ⟨⟨?_, ?_, ?_, ?_, ?_⟩, ?_, List.nodup_cons.mpr ⟨ha, h.nodup⟩⟩
    · simp [hq]
    · simp [hq]
    · rw [hq, Links.read_setPrev, Links.read_write_ne _ _ (by simp), Links.read_setPrev,
        Links.read_write_same]
    · rw [hq, Links.setPrev_prev_ne _ _ hab, Links.prev_write, Links.setPrev_prev_same]
    · simp only [endAfterHead, reduceCtorEq, if_false]
      apply seg_frame h.seg.2.2 (List.nodup_cons.mp hn).2
      · intro c hc
        have hcb : c ≠ b := fun he => (List.nodup_cons.mp h.nodup).1 (he ▸ hc)
        have hca : c ≠ a := fun he => ha (he ▸ List.mem_cons_of_mem b hc)
        rw [hq, Links.setPrev_prev_ne _ _ hca, Links.prev_write, Links.setPrev_prev_ne _ _ hcb,
          Links.prev_write]
      · intro u hu _
        exact hread u hu
    · simp only [endAfterHead, reduceCtorEq, if_false]
      rw [hread t ht]
      exact h.stop

/-- A tail queue stores `l` when its links do and `last` is the end's address. -/
def TailRepr (q : TailQueue α) (l : List α) : Prop := Repr q.toLinks l q.last

theorem tailqInsertHead_links (q : TailQueue α) (a : α) :
    (tailqInsertHead q a).toLinks = listInsertHead q.toLinks a := by
  unfold tailqInsertHead listInsertHead
  cases h : (q.toLinks.write (.next a) q.first).next a <;> simp only [h]

theorem tailqInsertHead_repr {q : TailQueue α} {l : List α} (h : TailRepr q l) {a : α}
    (ha : a ∉ l) : TailRepr (tailqInsertHead q a) (a :: l) := by
  have hl := listInsertHead_repr h ha
  have hlast : (tailqInsertHead q a).last = endAfterHead a l q.last := by
    have hf := repr_first h
    cases l with
    | nil =>
      have hn : q.first = none := hf
      simp [tailqInsertHead, endAfterHead, Links.write, hn]
    | cons b l =>
      have hs : q.first = some b := hf
      simp [tailqInsertHead, endAfterHead, Links.write, hs]
  rw [TailRepr, tailqInsertHead_links, hlast]
  exact hl

/-- The end of a list after `a` was unlinked: it moves only if `a` was last. -/
def endAfterRemove (q : Links α) (a : α) (t : Slot α) : Slot α :=
  if q.next a = none then q.prev a else t

theorem listRemove_repr {q : Links α} {l₁ l₂ : List α} {a : α} {t : Slot α}
    (h : Repr q (l₁ ++ a :: l₂) t) :
    Repr (listRemove q a) (l₁ ++ l₂) (endAfterRemove q a t) := by
  obtain ⟨ha₁, ha₂, hn₁, hn₂, hd⟩ := slots_split h.nodup
  obtain ⟨s, hs₁, hra, hpa, hs₂⟩ := (seg_append q _ _ _ _).mp h.seg
  have hsm : s ∈ Slot.head :: l₁.map Slot.next := seg_end_mem hs₁
  have hnd : (l₁ ++ l₂).Nodup :=
    List.nodup_append.mpr ⟨hn₁, hn₂, fun b hb c hc hbc => hd b hb (hbc ▸ hc)⟩
  cases l₂ with
  | nil =>
    -- `a` was the last element: its predecessor's slot is the end now
    have ht : Slot.next a = t := hs₂
    have hna : q.next a = none := by
      have hst := h.stop
      rw [← ht] at hst
      exact hst
    have hq : listRemove q a = q.write s none := by
      simp only [listRemove, hna, hpa]
    rw [List.append_nil, hq, endAfterRemove, if_pos hna, hpa]
    refine ⟨?_, Links.read_write_same _ _ _, hn₁⟩
    apply seg_frame hs₁ (slots_nodup hn₁)
    · intro b _
      rw [Links.prev_write]
    · intro u _ hu
      exact Links.read_write_ne q none hu
  | cons b l =>
    -- the slot before `a` points to `b`, and `b` back to that slot
    have hna : q.next a = some b := hs₂.1
    have hpb : q.prev b = .next a := hs₂.2.1
    have hab : a ≠ b := fun he => ha₂ (he ▸ List.mem_cons_self)
    have hq : listRemove q a = (q.setPrev b s).write s (some b) := by
      have hpa' : (q.setPrev b s).prev a = s := by rw [Links.setPrev_prev_ne _ _ hab, hpa]
      have hna' : (q.setPrev b s).next a = some b := hna
      simp only [listRemove, hna, hpa, hpa', hna']
    have hsne (u : Slot α) (hu : u ∈ (b :: l).map Slot.next) : u ≠ s := by
      obtain ⟨c, hc, rfl⟩ := List.mem_map.mp hu
      intro he
      rw [← he] at hsm
      rcases List.mem_cons.mp hsm with hsm | hsm
      · exact absurd hsm (by simp)
      · obtain ⟨d, hd₁, hdc⟩ := List.mem_map.mp hsm
        exact hd d hd₁ (Slot.next.inj hdc ▸ hc)
    have hread (u : Slot α) (hu : u ≠ s) : (listRemove q a).read u = q.read u := by
      rw [hq, Links.read_write_ne _ _ hu, Links.read_setPrev]
    have hprev (c : α) (hc : c ≠ b) : (listRemove q a).prev c = q.prev c := by
      rw [hq, Links.prev_write, Links.setPrev_prev_ne _ _ hc]
    have hend : endAfterRemove q a t = t := by simp [endAfterRemove, hna]
    have ht : t ∈ (b :: l).map Slot.next := seg_end_mem hs₂.2.2
    rw [hend]
    refine ⟨(seg_append _ _ _ _ _).mpr ⟨s, ?_, ?_, ?_, ?_⟩, ?_, hnd⟩
    · apply seg_frame hs₁ (slots_nodup hn₁)
      · intro c hc
        exact hprev c (fun he => hd c hc (he ▸ List.mem_cons_self))
      · intro u _ hu
        exact hread u hu
    · rw [hq, Links.read_write_same]
    · rw [hq, Links.prev_write, Links.setPrev_prev_same]
    · apply seg_frame hs₂.2.2 (List.nodup_cons.mp (slots_nodup hn₂)).2
      · intro c hc
        exact hprev c (fun he => (List.nodup_cons.mp hn₂).1 (he ▸ hc))
      · intro u hu _
        exact hread u (hsne u hu)
    · rw [hread t (hsne t ht)]
      exact h.stop

theorem tailqRemove_links (q : TailQueue α) (a : α) :
    (tailqRemove q a).toLinks = listRemove q.toLinks a := by
  unfold tailqRemove listRemove
  cases h : q.next a <;> rfl

theorem tailqRemove_repr {q : TailQueue α} {l₁ l₂ : List α} {a : α}
    (h : TailRepr q (l₁ ++ a :: l₂)) : TailRepr (tailqRemove q a) (l₁ ++ l₂) := by
  have hl := listRemove_repr h
  have hlast : (tailqRemove q a).last = endAfterRemove q.toLinks a q.last := by
    unfold tailqRemove endAfterRemove
    cases q.next a <;> rfl
  rw [TailRepr, tailqRemove_links, hlast]
  exact hl

theorem tailqInsertTail_repr {q : TailQueue α} {l : List α} (h : TailRepr q l) {a : α}
    (ha : a ∉ l) : TailRepr (tailqInsertTail q a) (l ++ [a]) := by
  have ht : q.last ∈ Slot.head :: l.map Slot.next := seg_end_mem h.seg
  have hlast : q.last ≠ .next a := by
    intro he
    rw [he] at ht
    rcases List.mem_cons.mp ht with ht | ht
    · exact absurd ht (by simp)
    · obtain ⟨b, hb, hba⟩ := List.mem_map.mp ht
      exact ha (Slot.next.inj hba ▸ hb)
  have hq : (tailqInsertTail q a).toLinks =
      ((q.toLinks.write (.next a) none).setPrev a q.last).write q.last (some a) := rfl
  have hnd : (l ++ [a]).Nodup :=
    List.nodup_append.mpr ⟨h.nodup, List.nodup_singleton a, fun b hb c hc hbc =>
      ha (List.mem_singleton.mp hc ▸ hbc ▸ hb)⟩
  refine ⟨(seg_append _ _ _ _ _).mpr ⟨q.last, ?_, ?_, ?_, rfl⟩, ?_, hnd⟩
  · apply seg_frame h.seg (slots_nodup h.nodup)
    · intro b hb
      have hba : b ≠ a := fun he => ha (he ▸ hb)
      rw [hq, Links.prev_write, Links.setPrev_prev_ne _ _ hba, Links.prev_write]
    · intro u hu hne
      have hua : u ≠ .next a := by
        rintro rfl
        rcases List.mem_cons.mp hu with hu | hu
        · exact absurd hu (by simp)
        · obtain ⟨b, hb, hba⟩ := List.mem_map.mp hu
          exact ha (Slot.next.inj hba ▸ hb)
      rw [hq, Links.read_write_ne _ _ hne, Links.read_setPrev, Links.read_write_ne _ _ hua]
  · rw [hq, Links.read_write_same]
  · rw [hq, Links.prev_write, Links.setPrev_prev_same]
  · have hend : (tailqInsertTail q a).last = .next a := rfl
    rw [hend, hq, Links.read_write_ne _ _ (Ne.symm hlast), Links.read_setPrev,
      Links.read_write_same]

theorem tailqRotate_repr {q : TailQueue α} {l₁ l₂ : List α} {a : α}
    (h : TailRepr q (l₁ ++ a :: l₂)) :
    TailRepr (tailqInsertTail (tailqRemove q a) a) (l₁ ++ l₂ ++ [a]) := by
  obtain ⟨ha₁, ha₂, _⟩ := slots_split h.nodup
  apply tailqInsertTail_repr (tailqRemove_repr h)
  intro hm
  exact (List.mem_append.mp hm).elim ha₁ ha₂

end IntrusiveQueue
