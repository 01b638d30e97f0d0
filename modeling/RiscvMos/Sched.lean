import RiscvMos.Env

/-! The scheduler of sched.c. A call that does not panic ends in `env_pop_tf` of the
env that it leaves in `curenv`. -/
namespace RiscvMos
open ByteMem IntrusiveQueue Function

/-- `do_timer`, apart from setting the next timer event. -/
def doTimer (K : Kernel) : Kernel :=
  let ticks := (K.ticks+1)%2^32
  { K with ticks := if ticks = 100 then 0 else ticks }

/-- An `int` that holds the value of an unsigned or overflowed expression. -/
def toInt (x : ℤ) : ℤ := Int.bmod x (2^32)

/-- `e != NULL && e->env_status == ENV_RUNNABLE` -/
def isRunnable (K : Kernel) (e : Option ℕ) : Prop :=
  ∃ i, e = some i ∧ (K.envs i).env_status = .ENV_RUNNABLE

instance (K : Kernel) (e : Option ℕ) : Decidable (isRunnable K e) :=
  match e with
  | none => isFalse (by rintro ⟨i, h, _⟩; cases h)
  | some i =>
    if h : (K.envs i).env_status = .ENV_RUNNABLE then isTrue ⟨i, rfl, h⟩
    else isFalse (by rintro ⟨j, hj, hs⟩; cases hj; exact h hs)

/-- `TAILQ_REMOVE` and `TAILQ_INSERT_TAIL` of the previous env. -/
def rotate (K : Kernel) (e : Option ℕ) : Kernel :=
  match e with
  | some i =>
    if (K.envs i).env_status = .ENV_RUNNABLE then
      { K with env_sched_list := tailqInsertTail (tailqRemove K.env_sched_list i) i }
    else K
  | none => K

/-- The condition under which `schedule` takes a new env. -/
def picks (K : Kernel) (yield : Bool) : Prop :=
  yield = true ∨ K.count = 0 ∨ ¬isRunnable K K.curenv

instance (K : Kernel) (yield : Bool) : Decidable (picks K yield) :=
  inferInstanceAs (Decidable (_ ∨ _ ∨ _))

/-- The env that `schedule` runs, after the `if`. -/
def chooseEnv (K : Kernel) (yield : Bool) : Result (ℕ × Kernel) :=
  let e := K.curenv
  if picks K yield then
    let K := rotate K e
    match K.env_sched_list.first with
    | none => .error (.panic "schedule: no runnable envs")
    | some e => .ok (e, { K with count := toInt (K.envs e).env_pri })
  else
    match e with
    | some e => .ok (e, K)
    | none => .error (.unsetPointer "e")

/-- Returns the state in which `env_pop_tf` is called. -/
def schedule (L : Layout) (K : Kernel) (yield : Bool) : Result Kernel := do
  let (e, K) ← chooseEnv (doTimer K) yield
  envRun L { K with count := toInt (K.count-1) } e

/-- `env_destroy` after `env_free`; it ends in `schedule` when the env was the current one. -/
def envDestroyed (L : Layout) (K : Kernel) (e : ℕ) : Result Kernel :=
  if K.curenv = some e then schedule L { K with curenv := none } true else .ok K

def envDestroy (L : Layout) (K : Kernel) (e : ℕ) : Result Kernel := do
  let K ← envFree L K e
  envDestroyed L K e

end RiscvMos
