import RiscvMos.SchedList

/-! One call of `schedule` in any state that the kernel reaches: what it dispatches, and what
it does to the queue. -/
namespace RiscvMos
open ByteMem IntrusiveQueue Function

/-- A call of `schedule`, with the state and `yield`: between two operations, or in the
middle of `env_destroy` of the current env. -/
inductive ScheduleCall (L : Layout) (K₀ : Kernel) : Kernel → Bool → Prop
  | between {K : Kernel} (run : Relation.ReflTransGen (SchedStep L) K₀ K) (yield : Bool) :
      ScheduleCall L K₀ K yield
  | destroy {K : Kernel} (run : Relation.ReflTransGen (SchedStep L) K₀ K) (s : Phys) {e : ℕ}
      (runnable : (K.envs e).env_status = .ENV_RUNNABLE) (cur : K.curenv = some e) :
      ScheduleCall L K₀ { envRelease (K.setPhys s) e with curenv := none } true

/-- The call dispatches `e` from `K` with the queue `l`, and leaves `K'`. -/
structure Dispatches (K K' : Kernel) (yield : Bool) (l : List ℕ) (e : ℕ) : Prop where
  curenv : K'.curenv = some e
  runnable : (K.envs e).env_status = .ENV_RUNNABLE
  yields : yield = true → K.curenv = some e →
    ∀ i, (K.envs i).env_status = .ENV_RUNNABLE → i = e
  queue : ∃ l', TailRepr K'.env_sched_list l' ∧
    (l' = l ∨ ∃ c l₁ l₂, K.curenv = some c ∧ l = l₁ ++ c :: l₂ ∧ l' = l₁ ++ l₂ ++ [c])
  again : yield = false → isRunnable K K.curenv → K.count ≠ 0 →
    K.curenv = some e ∧ K'.env_sched_list = K.env_sched_list

theorem ScheduleCall.schedInv {L : Layout} {m : Mem} {K₀ K : Kernel} {yield : Bool}
    (hboot : boot L m = .ok K₀) (call : ScheduleCall L K₀ K yield) : ∃ ql fl, SchedInv K ql fl := by
  cases call with
  | between run yield => exact (boot_schedInv hboot).run run
  | @destroy K run s e runnable cur =>
    obtain ⟨ql, fl, h⟩ := (boot_schedInv hboot).run run
    obtain ⟨ql', h'⟩ := (h.keeps (keepsEnvs_setPhys K s)).release runnable
    exact ⟨ql', e :: fl, h'.keeps ⟨rfl, rfl, rfl, fun _ => rfl, fun _ => rfl, fun _ => rfl⟩⟩

section
variable {L : Layout} {K : Kernel} {yield : Bool} {ql fl : List ℕ}

theorem SchedInv.schedule_panics (h : SchedInv K ql fl) (hp : picks K yield)
    (hnone : ∀ e, (K.envs e).env_status ≠ .ENV_RUNNABLE) :
    RiscvMos.schedule L K yield = .error (.panic "schedule: no runnable envs") := by
  obtain ⟨l, hq, hmem, _⟩ := h.timer.rotated
  obtain rfl : l = [] := List.eq_nil_iff_forall_not_mem.mpr
    (fun e he => hnone e ((h.mem_queue e).mp ((hmem e).mp he)))
  rw [RiscvMos.schedule, chooseEnv_none (K := doTimer K) hp (repr_first hq)]
  rfl

/-- A call that picks, with an env in the queue, runs the head after the rotation. -/
theorem SchedInv.schedule_picks (L : Layout) (h : SchedInv K ql fl) (hp : picks K yield)
    {i : ℕ} (hi : (K.envs i).env_status = .ENV_RUNNABLE) :
    ∃ K' e, RiscvMos.schedule L K yield = .ok K' ∧ Dispatches K K' yield ql e := by
  obtain ⟨l, hq, hmem, hrot⟩ := h.rotated
  cases l with
  | nil =>
    exact absurd ((hmem i).mpr ((h.mem_queue i).mpr hi)) List.not_mem_nil
  | cons b l =>
    have hb : (K.envs b).env_status = .ENV_RUNNABLE :=
      (h.mem_queue b).mp ((hmem b).mp List.mem_cons_self)
    obtain ⟨K', hrun, hcur, _, hk⟩ := schedule_pick L hp (repr_first hq) hb
    refine ⟨K', b, hrun, hcur, hb, fun _ hcb j hj => ?_, ⟨b :: l, ?_, ?_⟩, fun hy hr hn => ?_⟩
    · -- the current env is at the tail, so at the head only if it is alone
      rcases hrot with ⟨hnr, _⟩ | ⟨c, l₁, l₂, hc, hl, hl'⟩
      · exact absurd ⟨b, hcb, hb⟩ hnr
      · obtain rfl : b = c := Option.some.inj (hcb.symm.trans hc)
        obtain ⟨h₁, h₂, _⟩ := slots_split (hl ▸ h.queue.nodup)
        have hm := (h.mem_queue j).mpr hj
        cases hll : l₁ ++ l₂ with
        | nil =>
          obtain ⟨rfl, rfl⟩ := List.append_eq_nil_iff.mp hll
          rw [hl] at hm
          exact List.mem_singleton.mp hm
        | cons x xs =>
          rw [hll] at hl'
          obtain rfl := (List.cons.inj hl').1
          have hx : b ∈ l₁ ++ l₂ := by
            rw [hll]
            exact List.mem_cons_self
          exact ((List.mem_append.mp hx).elim h₁ h₂).elim
    · rw [hk.env_sched_list]
      exact hq
    · rcases hrot with ⟨_, _, hl⟩ | hmoved
      · exact .inl hl
      · exact .inr hmoved
    · rcases hp with h1 | h0 | hnr
      · rw [hy] at h1
        cases h1
      · exact absurd h0 hn
      · exact absurd hr hnr

theorem schedule_goesOn (L : Layout) (hq : TailRepr K.env_sched_list ql) (hp : ¬picks K yield) :
    ∃ K' e, schedule L K yield = .ok K' ∧ Dispatches K K' yield ql e := by
  obtain ⟨K', e, hrun, he, hs, hcur, _, hk⟩ := schedule_again L hp
  refine ⟨K', e, hrun, hcur, hs, fun hy => absurd (.inl hy) hp, ⟨ql, ?_, .inl rfl⟩,
    fun _ _ _ => ⟨he, hk.env_sched_list⟩⟩
  rw [hk.env_sched_list]
  exact hq

end

/-- In every call `schedule` panics because there is no runnable env, or dispatches a
runnable one and at most moves the previous one to the tail of the queue. -/
theorem schedule_dispatches {L : Layout} {m : Mem} {K₀ K : Kernel} {yield : Bool}
    (hboot : boot L m = .ok K₀) (call : ScheduleCall L K₀ K yield) :
    ∃ l, TailRepr K.env_sched_list l ∧
      (picks K yield ∧ (∀ e, (K.envs e).env_status ≠ .ENV_RUNNABLE) →
        schedule L K yield = .error (.panic "schedule: no runnable envs")) ∧
      (¬(picks K yield ∧ ∀ e, (K.envs e).env_status ≠ .ENV_RUNNABLE) →
        ∃ K' e, schedule L K yield = .ok K' ∧ Dispatches K K' yield l e) := by
  obtain ⟨ql, fl, h⟩ := call.schedInv hboot
  refine ⟨ql, h.queue, fun hnone => ?_, fun hnone => ?_⟩
  · exact h.schedule_panics hnone.1 hnone.2
  · by_cases hp : picks K yield
    · obtain ⟨i, hi⟩ : ∃ i, (K.envs i).env_status = .ENV_RUNNABLE := by
        by_contra hn
        exact hnone ⟨hp, fun e he => hn ⟨e, he⟩⟩
      exact h.schedule_picks L hp hi
    · exact schedule_goesOn L h.queue hp

theorem schedule_dispatches_one : ∃ K₀ K, boot default (fun _ => 0) = .ok K₀ ∧
    ScheduleCall default K₀ K true ∧ ∃ l K' e, TailRepr K.env_sched_list l ∧
      schedule default K true = .ok K' ∧ Dispatches K K' true l e := by
  obtain ⟨K₀, _, _, _, hboot, _⟩ := boot_ok default (fun _ => 0)
  obtain ⟨K, _, _, _, _, hcreate, c, _⟩ := envCreate_first hboot spinImage_aligned 1
  have call : ScheduleCall default K₀ K true := .between (.single (.create _ 1 hcreate)) true
  obtain ⟨l, hq, _, h⟩ := schedule_dispatches hboot call
  obtain ⟨K', e, hs, d⟩ := h (fun hn => hn.2 0 c.runnable)
  exact ⟨K₀, K, hboot, call, l, K', e, hq, hs, d⟩

end RiscvMos
