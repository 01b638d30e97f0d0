import RiscvMos.LibSv39

/-! Accesses to memory under Sv39: the walk, the check of its leaf and the physical address. The
accessed and dirty bits are not looked at, and the bits SUM and MXR of sstatus are clear. -/
namespace Sv39

def U : ℕ := 4

inductive Mode
  | user
  | supervisor
  deriving DecidableEq

inductive Access
  | load
  | store
  | fetch
  deriving DecidableEq

/-- The permission that an access needs. -/
def Access.bit : Access → ℕ
  | .load => R
  | .store => W
  | .fetch => X

/-- A leaf is for one of the two modes. -/
def Permits (mode : Mode) (access : Access) (pte : ℕ) : Prop :=
  pte.testBit access.bit = true ∧ (pte.testBit U = true ↔ mode = .user)

instance (mode : Mode) (access : Access) (pte : ℕ) : Decidable (Permits mode access pte) :=
  inferInstanceAs (Decidable (_ ∧ _))

/-- Bits 63 to 39 are those of bit 38. -/
def Canonical (va : ℕ) : Prop := va < 2^38 ∨ 2^64-2^38 ≤ va ∧ va < 2^64

instance (va : ℕ) : Decidable (Canonical va) := inferInstanceAs (Decidable (_ ∨ _))

/-- The index of an address at a level. -/
def vpn (va level : ℕ) : ℕ := va/4096/512^level%512

/-- The physical address, or `none` for a page fault. -/
def translate (read : ℕ → ℕ) (root : ℕ) (mode : Mode) (access : Access) (va : ℕ) : Option ℕ :=
  if Canonical va then
    match walk read (vpn va) 2 root with
    | some (level, pte) =>
      if Permits mode access pte then some (ppn pte*4096+va%(4096*512^level)) else none
    | none => none
  else none

/-- The mode field of satp is 8 for Sv39 and 0 for no translation. -/
def translateAt (read : ℕ → ℕ) (satp : ℕ) (mode : Mode) (access : Access) (va : ℕ) : Option ℕ :=
  if satp/2^60 = 8 then translate read (satp%2^44*4096) mode access va
  else if satp/2^60 = 0 then some va
  else none

section
variable {read : ℕ → ℕ} {root va : ℕ} {mode : Mode} {access : Access}

theorem Permits.isLeaf {pte : ℕ} (h : Permits mode access pte) (hf : ¬Faults pte) : IsLeaf pte := by
  have hbit := h.1
  cases access with
  | load => exact Or.inl hbit
  | fetch => exact Or.inr hbit
  | store =>
    -- Writable pages are readable.
    left
    by_contra hr
    exact hf (Or.inr (Or.inl ⟨Bool.eq_false_iff.mpr hr, hbit⟩))

theorem translate_of_walk {pte : ℕ} (h : walk read (vpn va) 2 root = step 0 pte none) (pa : ℕ) :
    translate read root mode access va = some pa ↔
      Canonical va ∧ ¬Faults pte ∧ Permits mode access pte ∧ pa = ppn pte*4096+va%4096 := by
  unfold translate
  rw [h]
  by_cases hva : Canonical va
  · rw [if_pos hva]
    by_cases hf : Faults pte
    · rw [step_fault hf]
      exact iff_of_false nofun fun hh => hh.2.1 hf
    · by_cases hp : Permits mode access pte
      · rw [step_leaf_zero hf (hp.isLeaf hf)]
        dsimp only
        rw [if_pos hp, Nat.pow_zero, Nat.mul_one, Option.some.injEq]
        exact ⟨fun he => ⟨hva, hf, hp, he.symm⟩, fun hh => hh.2.2.2.symm⟩
      · refine iff_of_false ?_ fun hh => hp hh.2.2.1
        -- A pointer at the last level is a fault, too.
        by_cases hl : IsLeaf pte
        · rw [step_leaf_zero hf hl]
          dsimp only
          rw [if_neg hp]
          exact nofun
        · rw [step_pointer hf hl]
          exact nofun
  · rw [if_neg hva]
    exact iff_of_false nofun fun hh => hva hh.1

theorem translate_of_walk_none (h : walk read (vpn va) 2 root = none) :
    translate read root mode access va = none := by
  unfold translate
  rw [h]
  split_ifs <;> rfl

end

end Sv39
