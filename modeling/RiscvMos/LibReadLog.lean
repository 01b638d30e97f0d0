import Mathlib.Data.List.Basic

/-! Fallible computations with a log of their reads. A failure keeps the reads up to it. -/
namespace ReadLog

variable {ρ ε α β : Type}

structure Logged (ρ ε α : Type) where
  reads : List ρ
  result : Except ε α

namespace Logged

def bind (x : Logged ρ ε α) (f : α → Logged ρ ε β) : Logged ρ ε β :=
  match x.result with
  | .ok a => ⟨x.reads ++ (f a).reads, (f a).result⟩
  | .error e => ⟨x.reads, .error e⟩

instance : Monad (Logged ρ ε) where
  pure a := ⟨[], .ok a⟩
  bind := bind

/-- A computation that reads nothing. -/
def lift (r : Except ε α) : Logged ρ ε α := ⟨[], r⟩

/-- The value `a`, read by the reads `rs`. -/
def read (rs : List ρ) (a : α) : Logged ρ ε α := ⟨rs, .ok a⟩

/-- All reads have `P`. -/
def All (P : ρ → Prop) (x : Logged ρ ε α) : Prop := ∀ r ∈ x.reads, P r

/-! ### Results -/

@[simp] theorem result_pure (a : α) : (pure a : Logged ρ ε α).result = .ok a := rfl

@[simp] theorem result_lift (r : Except ε α) : (lift r : Logged ρ ε α).result = r := rfl

@[simp] theorem result_read (rs : List ρ) (a : α) : (read rs a : Logged ρ ε α).result = .ok a := rfl

theorem result_bind (x : Logged ρ ε α) (f : α → Logged ρ ε β) :
    (x >>= f).result = x.result >>= fun a => (f a).result := by
  obtain ⟨rs, r⟩ := x
  cases r with
  | error e => rfl
  | ok a => rfl

/-! ### Reads -/

variable {P : ρ → Prop}

@[simp] theorem all_pure (a : α) : All P (pure a : Logged ρ ε α) := fun _ h => absurd h List.not_mem_nil

@[simp] theorem all_lift (r : Except ε α) : All P (lift r) := fun _ h => absurd h List.not_mem_nil

@[simp] theorem all_read (rs : List ρ) (a : α) :
    All P (read rs a : Logged ρ ε α) ↔ ∀ r ∈ rs, P r := Iff.rfl

/-- The second part reads only where the first one succeeds. -/
theorem all_bind (x : Logged ρ ε α) (f : α → Logged ρ ε β) :
    All P (x >>= f) ↔ All P x ∧ ∀ a, x.result = .ok a → All P (f a) := by
  obtain ⟨rs, r⟩ := x
  cases r with
  | error e => exact ⟨fun h => ⟨h, fun a ha => absurd ha (by simp)⟩, fun h => h.1⟩
  | ok a =>
    have hreads : ((⟨rs, .ok a⟩ : Logged ρ ε α) >>= f).reads = rs ++ (f a).reads := rfl
    constructor
    · intro h
      refine ⟨fun r hr => h r ?_, fun b hb r hr => h r ?_⟩
      · rw [hreads]
        exact List.mem_append_left _ hr
      · obtain rfl := Except.ok.inj hb
        rw [hreads]
        exact List.mem_append_right _ hr
    · rintro ⟨hx, hf⟩ r hr
      rw [hreads] at hr
      exact (List.mem_append.mp hr).elim (hx r) (hf a rfl r)

theorem all_read_bind (rs : List ρ) (a : α) (f : α → Logged ρ ε β) :
    All P (read rs a >>= f) ↔ (∀ r ∈ rs, P r) ∧ All P (f a) := by
  rw [all_bind, all_read]
  refine and_congr_right fun _ => ⟨fun h => h a rfl, fun h b hb => ?_⟩
  obtain rfl := Except.ok.inj hb
  exact h

/-! ### Results with their reads -/

/-- The computation ends with `r`, and all its reads have `P`. -/
structure Ends (P : ρ → Prop) (x : Logged ρ ε α) (r : Except ε α) : Prop where
  result : x.result = r
  reads : All P x

theorem ends_pure (P : ρ → Prop) (a : α) : Ends P (pure a : Logged ρ ε α) (.ok a) :=
  ⟨rfl, all_pure a⟩

theorem ends_lift (P : ρ → Prop) (r : Except ε α) : Ends P (lift r) r :=
  ⟨rfl, all_lift r⟩

theorem Ends.bind {x : Logged ρ ε α} {f : α → Logged ρ ε β} {a : α} {r : Except ε β}
    (hx : Ends P x (.ok a)) (hf : Ends P (f a) r) : Ends P (x >>= f) r where
  result := by rw [result_bind, hx.result]; exact hf.result
  reads := by
    rw [all_bind]
    refine ⟨hx.reads, fun b hb => ?_⟩
    rw [hx.result] at hb
    obtain rfl := Except.ok.inj hb
    exact hf.reads

theorem Ends.bind_error {x : Logged ρ ε α} {e : ε} (hx : Ends P x (.error e))
    (f : α → Logged ρ ε β) : Ends P (x >>= f) (.error e) where
  result := by rw [result_bind, hx.result]; rfl
  reads := by
    rw [all_bind]
    refine ⟨hx.reads, fun b hb => ?_⟩
    rw [hx.result] at hb
    cases hb

end Logged

end ReadLog
