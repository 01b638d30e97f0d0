import RiscvMos.LibLinkChain

/-! Paths along a successor function that end at any element, so that they can come back to one
of their own. -/
namespace LinkChain

variable {α : Type*} {next next' : α → α} {null : α}

/-- Following `next` from `h` visits `l` and then comes to `t`. -/
def Path (next : α → α) : α → List α → α → Prop
  | h, [], t => h = t
  | h, p :: l, t => h = p ∧ Path next (next p) l t

theorem path_append {h t : α} {l l' : List α} :
    Path next h (l++l') t ↔ ∃ p, Path next h l p ∧ Path next p l' t := by
  induction l generalizing h with
  | nil => simp [Path]
  | cons p l ih => simp only [List.cons_append, Path, ih, and_assoc, exists_and_left]

theorem path_congr {h t : α} {l : List α} (hp : Path next h l t) (he : ∀ p ∈ l, next' p = next p) :
    Path next' h l t := by
  induction l generalizing h with
  | nil => exact hp
  | cons p l ih =>
    refine ⟨hp.1, ?_⟩
    rw [he p List.mem_cons_self]
    exact ih hp.2 (fun q hq => he q (List.mem_cons_of_mem p hq))

theorem path_of_chain {h p : α} {l l' : List α} (hc : Chain next null h (l++p :: l')) :
    Path next h l p := by
  induction l generalizing h with
  | nil => exact hc.1
  | cons q l ih => exact ⟨hc.1, ih hc.2.2⟩

theorem chain_iff_path {h : α} {l : List α} :
    Chain next null h l ↔ Path next h l null ∧ null ∉ l := by
  induction l generalizing h with
  | nil => simp [Chain, Path]
  | cons p l ih =>
    rw [Chain, Path, ih, List.mem_cons, not_or, ne_comm (a := p)]
    tauto

end LinkChain
