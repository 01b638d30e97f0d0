import Mathlib.Data.List.Induction
import Mathlib.Logic.Function.Basic
import Mathlib.Tactic.SplitIfs

/-! Processes with a memory of their own each: the steps of such a system, and what a process
finds in its memory after a run of all of them. -/
namespace PrivateMemory
open Function

/-- What an access of each kind finds at an address, or `none` where it faults. -/
abbrev Space (κ α β : Type) := κ → α → Option β

/-- What is done by which process. -/
inductive Label (ι κ α β : Type)
  | silent
  | read (i : ι) (k : κ) (a : α) (v : β)
  | write (i : ι) (a : α) (v : β)
  | create (i : ι)
  | free (i : ι)

/-! ### Runs -/

/-- A run with its labels, the first one first. -/
inductive Run {σ ℓ : Type} (step : ℓ → σ → σ → Prop) : List ℓ → σ → σ → Prop
  | nil (s : σ) : Run step [] s s
  | cons {l : ℓ} {ls : List ℓ} {s s' s'' : σ} (first : step l s s') (rest : Run step ls s' s'') :
      Run step (l :: ls) s s''

theorem Run.append {σ ℓ : Type} {step : ℓ → σ → σ → Prop} {ls ls' : List ℓ} {s s' s'' : σ}
    (run : Run step ls s s') (rest : Run step ls' s' s'') : Run step (ls++ls') s s'' := by
  induction run with
  | nil => exact rest
  | cons first _ ih => exact .cons first (ih rest)

theorem Run.split {σ ℓ : Type} {step : ℓ → σ → σ → Prop} {ls ls' : List ℓ} {s s'' : σ}
    (run : Run step (ls++ls') s s'') : ∃ s', Run step ls s s' ∧ Run step ls' s' s'' := by
  induction ls generalizing s with
  | nil => exact ⟨s, .nil s, run⟩
  | cons l ls ih =>
    cases run with
    | cons first rest =>
      obtain ⟨s', hls, hls'⟩ := ih rest
      exact ⟨s', .cons first hls, hls'⟩

theorem Run.map {σ τ ℓ : Type} {step : ℓ → σ → σ → Prop} {step' : ℓ → τ → τ → Prop} {f : σ → τ}
    {I : σ → Prop} (hstep : ∀ l s s', I s → step l s s' → step' l (f s) (f s') ∧ I s') {s s' : σ}
    {ls : List ℓ} (hs : I s) (run : Run step ls s s') : Run step' ls (f s) (f s') ∧ I s' := by
  induction run with
  | nil s => exact ⟨.nil (f s), hs⟩
  | cons first _ ih =>
    obtain ⟨hfirst, hnext⟩ := hstep _ _ _ hs first
    obtain ⟨hrest, hlast⟩ := ih hnext
    exact ⟨.cons hfirst hrest, hlast⟩

/-- A simulation of the steps is one of the runs. -/
theorem Run.simulate {σ τ ℓ : Type} {step : ℓ → σ → σ → Prop} {step' : ℓ → τ → τ → Prop}
    {R : σ → τ → Prop} (hstep : ∀ l s s' t, R s t → step l s s' → ∃ t', step' l t t' ∧ R s' t')
    {s s' : σ} {t : τ} {ls : List ℓ} (h : R s t) (run : Run step ls s s') :
    ∃ t', Run step' ls t t' ∧ R s' t' := by
  induction run generalizing t with
  | nil => exact ⟨t, .nil t, h⟩
  | cons first _ ih =>
    obtain ⟨t₁, hfirst, h₁⟩ := hstep _ _ _ t h first
    obtain ⟨t', hrest, h'⟩ := ih h₁
    exact ⟨t', .cons hfirst hrest, h'⟩

/-! ### Steps of the processes -/

section
variable {ι κ α β : Type} [DecidableEq ι]

/-- The writes of one process. -/
def writesOf (i : ι) : List (Label ι κ α β) → List (α × β)
  | [] => []
  | .write j a v :: ls => if j = i then (a,v) :: writesOf i ls else writesOf i ls
  | _ :: ls => writesOf i ls

theorem writesOf_cons (i : ι) (l : Label ι κ α β) (ls : List (Label ι κ α β)) :
    writesOf i (l :: ls) = writesOf i [l]++writesOf i ls := by
  cases l with
  | write j a v =>
    simp only [writesOf]
    split_ifs <;> rfl
  | silent => rfl
  | read => rfl
  | create => rfl
  | free => rfl

variable [DecidableEq α] {w : κ}

/-- The permissions stay, and what is at `a` becomes `v`. -/
def Space.write (S : Space κ α β) (a : α) (v : β) : Space κ α β := fun k b =>
  if b = a then (S k b).map (fun _ => v) else S k b

/-- One step of the processes. Accesses of the kind `w` are writes, and a new process starts with
any memory. -/
inductive Step (w : κ) : Label ι κ α β → (ι → Option (Space κ α β)) →
    (ι → Option (Space κ α β)) → Prop
  | silent (P : ι → Option (Space κ α β)) : Step w .silent P P
  | read {P : ι → Option (Space κ α β)} {i : ι} {S : Space κ α β} {k : κ} {a : α} {v : β}
      (live : P i = some S) (value : S k a = some v) : Step w (.read i k a v) P P
  | write {P : ι → Option (Space κ α β)} {i : ι} {S : Space κ α β} {a : α} {v : β}
      (live : P i = some S) (mapped : S w a ≠ none) :
      Step w (.write i a v) P (update P i (some (S.write a v)))
  | create {P : ι → Option (Space κ α β)} {i : ι} (S : Space κ α β) (fresh : P i = none) :
      Step w (.create i) P (update P i (some S))
  | free {P : ι → Option (Space κ α β)} {i : ι} {S : Space κ α β} (live : P i = some S) :
      Step w (.free i) P (update P i none)

/-- A memory after some writes. -/
def Space.writes (S : Space κ α β) (ws : List (α × β)) : Space κ α β :=
  ws.foldl (fun S w => S.write w.1 w.2) S

theorem Space.writes_append (S : Space κ α β) (ws ws' : List (α × β)) :
    S.writes (ws++ws') = (S.writes ws).writes ws' := List.foldl_append

theorem Space.writes_apply (S : Space κ α β) (ws : List (α × β)) (k : κ) (a : α) :
    S.writes ws k a =
      (S k a).map (fun v => ((ws.reverse.find? (fun x => x.1 = a)).map Prod.snd).getD v) := by
  induction ws using List.reverseRecOn with
  | nil =>
    unfold Space.writes
    simp
  | append_singleton ws x ih =>
    rw [Space.writes_append, List.reverse_append, List.reverse_singleton, List.singleton_append]
    show (S.writes ws).write x.1 x.2 k a = _
    unfold Space.write
    by_cases hx : a = x.1
    · -- The last write is to this address.
      rw [if_pos hx, List.find?_cons_of_pos (by simp [hx]), ih, Option.map_map]
      rfl
    · rw [if_neg hx, List.find?_cons_of_neg (by simp [Ne.symm hx]), ih]

theorem Step.space {l : Label ι κ α β} {P P' : ι → Option (Space κ α β)} {i : ι}
    {S : Space κ α β} (step : Step w l P P') (live : P i = some S) (kept : l ≠ .free i) :
    P' i = some (S.writes (writesOf i [l])) := by
  cases step with
  | silent => exact live
  | read _ _ => exact live
  | @write _ j T a v hj _ =>
    unfold writesOf
    by_cases hji : j = i
    · subst hji
      obtain rfl := Option.some.inj (hj.symm.trans live)
      rw [update_self, if_pos rfl]
      rfl
    · rw [update_of_ne (Ne.symm hji), if_neg hji]
      exact live
  | @create _ j _ fresh =>
    -- The name of a live process is not used again.
    have hij : i ≠ j := by
      intro heq
      rw [heq, fresh] at live
      cases live
    rw [update_of_ne hij]
    exact live
  | @free _ j _ _ =>
    have hij : i ≠ j := fun heq => kept (by rw [heq])
    rw [update_of_ne hij]
    exact live

/-- After a run the memory of `i` is that of the start with the writes of `i` in their order. -/
theorem Run.space {ls : List (Label ι κ α β)} {P P' : ι → Option (Space κ α β)} {i : ι}
    {S : Space κ α β} (run : Run (Step w) ls P P') (live : P i = some S)
    (kept : .free i ∉ ls) : P' i = some (S.writes (writesOf i ls)) := by
  induction run generalizing S with
  | nil => exact live
  | @cons l ls _ _ _ first rest ih =>
    obtain ⟨hl, hls⟩ := not_or.mp (mt List.mem_cons.mpr kept)
    rw [writesOf_cons, Space.writes_append]
    exact ih (first.space live (Ne.symm hl)) hls

/-- A read finds the last write of its own process to the address, or what was there at the
start. -/
theorem Run.read {ls : List (Label ι κ α β)} {P P' : ι → Option (Space κ α β)} {i : ι}
    {S : Space κ α β} {k : κ} {a : α} {v : β}
    (run : Run (Step w) (ls++[.read i k a v]) P P') (live : P i = some S) (kept : .free i ∉ ls) :
    ∃ old, S k a = some old ∧
      v = (((writesOf i ls).reverse.find? (fun x => x.1 = a)).map Prod.snd).getD old := by
  -- The memory at the read is that of the start with the writes before it.
  obtain ⟨P₁, hls, hlast⟩ := run.split
  cases hlast with
  | cons hread hnil =>
    cases hread with
    | read hi hvalue =>
      obtain rfl := Option.some.inj (hi.symm.trans (hls.space live kept))
      rw [Space.writes_apply] at hvalue
      obtain ⟨old, hold, hv⟩ := Option.map_eq_some_iff.mp hvalue
      exact ⟨old, hold, hv.symm⟩

end

end PrivateMemory
