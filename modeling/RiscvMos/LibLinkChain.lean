import Mathlib.Data.List.Nodup
import Mathlib.Data.Nat.Basic

/-! Singly linked chains given by a successor function and an end marker. The
links may live anywhere, in particular inside the elements themselves. -/
namespace LinkChain

variable {α : Type*}

/-- Following `next` from `h` visits exactly `l` and then stops at `null`. -/
def Chain (next : α → α) (null : α) : α → List α → Prop
  | h, [] => h = null
  | h, p :: l => h = p ∧ p ≠ null ∧ Chain next null (next p) l

variable {next next' : α → α} {null : α}

theorem chain_null {l : List α} (h : Chain next null null l) : l = [] := by
  cases l with
  | nil => rfl
  | cons p l => exact absurd h.1.symm h.2.1

theorem chain_cons_of_ne {h : α} {l : List α} (hc : Chain next null h l) (hne : h ≠ null) :
    ∃ l', l = h :: l' ∧ Chain next null (next h) l' := by
  cases l with
  | nil => exact absurd hc hne
  | cons p l =>
    obtain ⟨rfl, _, ht⟩ := hc
    exact ⟨l, rfl, ht⟩

theorem chain_unique {h : α} {l l' : List α} (hc : Chain next null h l)
    (hc' : Chain next null h l') : l = l' := by
  induction l generalizing h l' with
  | nil =>
    have hn : h = null := hc
    rw [hn] at hc'
    exact (chain_null hc').symm
  | cons p l ih =>
    obtain ⟨rfl, hne, ht⟩ := hc
    obtain ⟨l₂, rfl, ht'⟩ := chain_cons_of_ne hc' hne
    rw [ih ht ht']

theorem chain_congr {h : α} {l : List α} (hc : Chain next null h l)
    (he : ∀ p ∈ l, next' p = next p) : Chain next' null h l := by
  induction l generalizing h with
  | nil => exact hc
  | cons p l ih =>
    refine ⟨hc.1, hc.2.1, ?_⟩
    rw [he p List.mem_cons_self]
    exact ih hc.2.2 (fun q hq => he q (List.mem_cons_of_mem p hq))

/-- Every visited element starts its own chain, a suffix of the whole one. -/
theorem chain_suffix_of_mem {h : α} {l : List α} (hc : Chain next null h l) {p : α}
    (hp : p ∈ l) : ∃ l', Chain next null p l' ∧ l'.length ≤ l.length := by
  induction l generalizing h with
  | nil => exact absurd hp List.not_mem_nil
  | cons q l ih =>
    rcases List.mem_cons.mp hp with rfl | hp
    · exact ⟨p :: l, ⟨rfl, hc.2.1, hc.2.2⟩, le_rfl⟩
    · obtain ⟨l', hl', hlen⟩ := ih hc.2.2 hp
      exact ⟨l', hl', le_trans hlen (Nat.le_succ _)⟩

/-- A chain that ends cannot come back to an element: the second visit would
start a chain both equal to and shorter than the first. -/
theorem chain_nodup {h : α} {l : List α} (hc : Chain next null h l) : l.Nodup := by
  induction l generalizing h with
  | nil => exact List.nodup_nil
  | cons p l ih =>
    refine List.nodup_cons.mpr ⟨?_, ih hc.2.2⟩
    intro hp
    obtain ⟨l', hl', hlen⟩ := chain_suffix_of_mem hc.2.2 hp
    have hself : Chain next null p (p :: l) := ⟨rfl, hc.2.1, hc.2.2⟩
    rw [chain_unique hl' hself] at hlen
    exact absurd hlen (by simp)

end LinkChain
