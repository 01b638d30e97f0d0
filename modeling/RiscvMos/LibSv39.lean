import Mathlib.Data.Nat.Bitwise

/-! The Sv39 address translation of the RISC-V privileged architecture, from the
root table to a leaf. Accessed and dirty bits are set by the hardware, and the
permission check that follows the walk is left out. -/
namespace Sv39

def V : ℕ := 0
def R : ℕ := 1
def W : ℕ := 2
def X : ℕ := 3

/-- The physical page number of an entry. -/
def ppn (pte : ℕ) : ℕ := pte/2^10%2^44

/-- Invalid, writable but not readable, or with a reserved bit set. -/
def Faults (pte : ℕ) : Prop :=
  pte.testBit V = false ∨ (pte.testBit R = false ∧ pte.testBit W = true) ∨ 2^54 ≤ pte

instance (pte : ℕ) : Decidable (Faults pte) := inferInstanceAs (Decidable (_ ∨ _))

def IsLeaf (pte : ℕ) : Prop := pte.testBit R = true ∨ pte.testBit X = true

instance (pte : ℕ) : Decidable (IsLeaf pte) := inferInstanceAs (Decidable (_ ∨ _))

/-- What an entry of a level leads to: a page fault, the leaf, which must be aligned
to its size, or else `next`. -/
def step (level pte : ℕ) (next : Option (ℕ × ℕ)) : Option (ℕ × ℕ) :=
  if Faults pte then none
  else if IsLeaf pte then
    if ppn pte%512^level = 0 then some (level, pte) else none
  else next

/-- The level and the entry of the leaf that translates a virtual page, or `none`
for a page fault. `read` reads an entry of a table in memory, `vpn` is the index of
the page at a level. -/
def walk (read : ℕ → ℕ) (vpn : ℕ → ℕ) : ℕ → ℕ → Option (ℕ × ℕ)
  | 0, table => step 0 (read (table+8*vpn 0)) none
  | level+1, table =>
    let pte := read (table+8*vpn (level+1))
    step (level+1) pte (walk read vpn level (ppn pte*4096))

theorem step_fault {level pte : ℕ} {next : Option (ℕ × ℕ)} (h : Faults pte) :
    step level pte next = none := if_pos h

theorem step_leaf {level pte : ℕ} {next : Option (ℕ × ℕ)} (hf : ¬Faults pte)
    (hl : IsLeaf pte) :
    step level pte next = if ppn pte%512^level = 0 then some (level, pte) else none := by
  rw [step, if_neg hf, if_pos hl]

theorem step_pointer {level pte : ℕ} {next : Option (ℕ × ℕ)} (hf : ¬Faults pte)
    (hl : ¬IsLeaf pte) : step level pte next = next := by
  rw [step, if_neg hf, if_neg hl]

theorem step_leaf_zero {pte : ℕ} {next : Option (ℕ × ℕ)} (hf : ¬Faults pte)
    (hl : IsLeaf pte) : step 0 pte next = some (0, pte) := by
  rw [step_leaf hf hl, Nat.pow_zero, Nat.mod_one, if_pos rfl]

/-- A leaf that is not aligned to the size of its superpage is no translation. -/
theorem step_misaligned {level pte : ℕ} {next : Option (ℕ × ℕ)} (hl : IsLeaf pte)
    (hp : ppn pte%512^level ≠ 0) : step level pte next = none := by
  by_cases hf : Faults pte
  · exact step_fault hf
  · rw [step_leaf hf hl, if_neg hp]

end Sv39
