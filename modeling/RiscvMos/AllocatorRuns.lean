import Mathlib.Data.Set.Insert
import Mathlib.Logic.Relation
import RiscvMos.Phypage

/-! Runs of `kalloc` and `kfree` in which the holders of pages write what they
like into them. -/
namespace RiscvMos
open ByteMem LinkChain

/-- The allocator together with the pages its clients hold. -/
structure AllocState where
  phys : Phys
  held : Set ℕ

/-- `b` lies in one of the pages of `held`. -/
def InPages (held : Set ℕ) (b : ℕ) : Prop := ∃ p ∈ held, p ≤ b ∧ b < p+PAGE_SIZE

open Classical in
/-- Who holds what after `kalloc` returned `r`. -/
noncomputable def heldAfter (held : Set ℕ) (r : ℕ) : Set ℕ :=
  if r = 0 then held else insert r held

inductive AllocStep : AllocState → AllocState → Prop
  | kalloc (a : AllocState) :
    AllocStep a ⟨(kalloc a.phys).2, heldAfter a.held (kalloc a.phys).1⟩
  | kfree (a : AllocState) (p : ℕ) (s' : Phys) (hp : p ∈ a.held)
    (hk : kfree a.phys p = .ok s') : AllocStep a ⟨s', a.held \ {p}⟩
  | write (a : AllocState) (m' : Mem)
    (hm : ∀ b, ¬InPages a.held b → m' b = a.phys.mem b) :
    AllocStep a ⟨⟨m', a.phys.freelist⟩, a.held⟩

/-- Held pages and the chain from `kmem.freelist` divide the heap. -/
structure AllocInv (a : AllocState) (l : List ℕ) : Prop where
  free : FreeList a.phys l
  mem_iff : ∀ p, p ∈ l ↔ IsPage p ∧ p ∉ a.held
  held_page : ∀ p ∈ a.held, IsPage p

theorem heldAfter_of_ne {held : Set ℕ} {r : ℕ} (hr : r ≠ 0) :
    heldAfter held r = insert r held := if_neg hr

theorem AllocInv.kalloc_step {a : AllocState} {l : List ℕ} (h : AllocInv a l) :
    ∃ l', AllocInv ⟨(kalloc a.phys).2, heldAfter a.held (kalloc a.phys).1⟩ l' := by
  cases l with
  | nil =>
    rw [kalloc_nil h.free]
    have hheld : heldAfter a.held 0 = a.held := if_pos rfl
    exact ⟨[], h.free, by rw [hheld]; exact h.mem_iff, by rw [hheld]; exact h.held_page⟩
  | cons p l =>
    obtain ⟨s', hk, hfree, _, _⟩ := kalloc_cons h.free
    have hp := h.free.pages p List.mem_cons_self
    have hne : p ≠ 0 := by
      have := hp.bounds
      omega
    have hnd := List.nodup_cons.mp h.free.nodup
    rw [hk]
    refine ⟨l, hfree, ?_, ?_⟩
    · intro q
      have hq := h.mem_iff q
      simp only [heldAfter_of_ne hne, Set.mem_insert_iff, List.mem_cons] at hq ⊢
      constructor
      · intro hql
        have hqp : q ≠ p := fun he => hnd.1 (he ▸ hql)
        have hpage := hq.mp (Or.inr hql)
        exact ⟨hpage.1, fun he => he.elim hqp hpage.2⟩
      · rintro ⟨hpage, hno⟩
        have hql := hq.mpr ⟨hpage, fun hh => hno (Or.inr hh)⟩
        exact hql.resolve_left (fun he => hno (Or.inl he))
    · intro q hq
      rw [heldAfter_of_ne hne] at hq
      rcases hq with rfl | hq
      · exact hp
      · exact h.held_page q hq

theorem AllocInv.kfree_step {a : AllocState} {l : List ℕ} (h : AllocInv a l) {p : ℕ}
    (hp : p ∈ a.held) :
    ∃ s', kfree a.phys p = .ok s' ∧ AllocInv ⟨s', a.held \ {p}⟩ (p :: l) := by
  have hpage := h.held_page p hp
  have hl : p ∉ l := fun hm => ((h.mem_iff p).mp hm).2 hp
  obtain ⟨s', hk, hfree, _⟩ := kfree_page h.free hpage hl
  refine ⟨s', hk, hfree, ?_, fun q hq => h.held_page q hq.1⟩
  intro q
  have hq := h.mem_iff q
  simp only [List.mem_cons, Set.mem_sdiff, Set.mem_singleton_iff, hq, not_and, not_not]
  constructor
  · rintro (rfl | ⟨hqp, hqh⟩)
    · exact ⟨hpage, fun _ => rfl⟩
    · exact ⟨hqp, fun hh => absurd hh hqh⟩
  · rintro ⟨hqp, hqh⟩
    by_cases hh : q ∈ a.held
    · exact Or.inl (hqh hh)
    · exact Or.inr ⟨hqp, hh⟩

theorem AllocInv.write_step {a : AllocState} {l : List ℕ} (h : AllocInv a l) {m' : Mem}
    (hm : ∀ b, ¬InPages a.held b → m' b = a.phys.mem b) :
    AllocInv ⟨⟨m', a.phys.freelist⟩, a.held⟩ l := by
  refine ⟨h.free.write ?_, h.mem_iff, h.held_page⟩
  intro p hp b hl hu
  -- a free page is held by nobody, so no client write reaches its link
  apply hm
  rintro ⟨q, hq, hql, hqu⟩
  have hpq : p ≠ q := fun he => ((h.mem_iff p).mp hp).2 (he ▸ hq)
  have hd := (h.free.pages p hp).disjoint (h.held_page q hq) hpq
  simp only [PAGE_SIZE] at hqu
  omega

theorem AllocInv.step {a b : AllocState} {l : List ℕ} (h : AllocInv a l)
    (hs : AllocStep a b) : ∃ l', AllocInv b l' := by
  cases hs with
  | kalloc => exact h.kalloc_step
  | kfree p s' hp hk =>
    obtain ⟨s'', hk', h'⟩ := h.kfree_step hp
    rw [hk] at hk'
    cases hk'
    exact ⟨_, h'⟩
  | write m' hm => exact ⟨l, h.write_step hm⟩

theorem AllocInv.run {a b : AllocState} {l : List ℕ} (h : AllocInv a l)
    (hr : Relation.ReflTransGen AllocStep a b) : ∃ l', AllocInv b l' := by
  induction hr with
  | refl => exact ⟨l, h⟩
  | tail _ hs ih =>
    obtain ⟨l', h'⟩ := ih
    exact h'.step hs

/-- What the allocator promises in a state: where the free pages are, what
`kalloc` returns next, and that a holder can free what it holds. -/
structure AllocatorOk (a : AllocState) : Prop where
  chain : ∃ l, Chain (load64 a.phys.mem) 0 a.phys.freelist l ∧ l.Nodup ∧
    ∀ p, p ∈ l ↔ IsPage p ∧ p ∉ a.held
  kalloc_zero : (kalloc a.phys).1 = 0 ↔ ∀ p, IsPage p → p ∈ a.held
  kalloc_page : (kalloc a.phys).1 ≠ 0 → IsPage (kalloc a.phys).1 ∧
    (kalloc a.phys).1 ∉ a.held ∧ ZeroPage (kalloc a.phys).2.mem (kalloc a.phys).1
  kfree_ok : ∀ p ∈ a.held, ∃ s', kfree a.phys p = .ok s'

theorem AllocInv.ok {a : AllocState} {l : List ℕ} (h : AllocInv a l) : AllocatorOk a := by
  refine ⟨⟨l, h.free.chain, h.free.nodup, h.mem_iff⟩, ?_, ?_, ?_⟩
  · cases l with
    | nil =>
      rw [kalloc_nil h.free]
      refine ⟨fun _ p hp => ?_, fun _ => rfl⟩
      by_contra hh
      exact absurd ((h.mem_iff p).mpr ⟨hp, hh⟩) List.not_mem_nil
    | cons p l =>
      obtain ⟨s', hk, _⟩ := kalloc_cons h.free
      have hp := (h.mem_iff p).mp List.mem_cons_self
      rw [hk]
      refine ⟨fun he => ?_, fun hall => absurd (hall p hp.1) hp.2⟩
      have := hp.1.bounds
      have he : p = 0 := he
      omega
  · intro hne
    cases l with
    | nil => exact absurd (by rw [kalloc_nil h.free]) hne
    | cons p l =>
      obtain ⟨s', hk, _, hz, _⟩ := kalloc_cons h.free
      have hp := (h.mem_iff p).mp List.mem_cons_self
      rw [hk]
      exact ⟨hp.1, hp.2, hz⟩
  · intro p hp
    obtain ⟨s', hk, _⟩ := h.kfree_step hp
    exact ⟨s', hk⟩

/-- From an empty `kmem.freelist`, `kinit` succeeds, and every run of the
allocator after it keeps its promises. -/
theorem page_allocator (m : Mem) :
    ∃ s₀, kinit ⟨m, 0⟩ = .ok s₀ ∧
      ∀ a, Relation.ReflTransGen AllocStep ⟨s₀, ∅⟩ a → AllocatorOk a := by
  obtain ⟨s₀, hk, hfree⟩ := kinit_heap m
  have h₀ : AllocInv ⟨s₀, ∅⟩ (heapPages heapCount) :=
    ⟨hfree, fun p => by simp [mem_heapPages_iff_isPage], fun p hp => absurd hp (by simp)⟩
  refine ⟨s₀, hk, fun a ha => ?_⟩
  obtain ⟨l, h⟩ := h₀.run ha
  exact h.ok

end RiscvMos
