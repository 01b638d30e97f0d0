import RiscvMos.EnvSpec
import RiscvMos.Sched

/-! The choice of `schedule`, and what a call does to the tables of the kernel. -/
namespace RiscvMos
open ByteMem IntrusiveQueue Function

theorem rotate_envs (K : Kernel) (e : Option ℕ) : (rotate K e).envs = K.envs := by
  cases e with
  | none => rfl
  | some i =>
    rw [rotate]
    split_ifs <;> rfl

theorem rotate_fields (K : Kernel) (e : Option ℕ) :
    (rotate K e).phys = K.phys ∧ (rotate K e).curenv = K.curenv ∧
      (rotate K e).env_free_list = K.env_free_list ∧ (rotate K e).asid_bitmap = K.asid_bitmap := by
  cases e with
  | none => exact ⟨rfl, rfl, rfl, rfl⟩
  | some i =>
    rw [rotate]
    split_ifs <;> exact ⟨rfl, rfl, rfl, rfl⟩

theorem chooseEnv_again {K : Kernel} {yield : Bool} (h : ¬picks K yield) :
    ∃ e, K.curenv = some e ∧ (K.envs e).env_status = .ENV_RUNNABLE ∧
      chooseEnv K yield = .ok (e, K) := by
  have hrun : isRunnable K K.curenv := by
    by_contra hn
    exact h (.inr (.inr hn))
  obtain ⟨e, he, hs⟩ := hrun
  refine ⟨e, he, hs, ?_⟩
  rw [chooseEnv, if_neg h, he]

theorem chooseEnv_pick {K : Kernel} {yield : Bool} {e : ℕ} (h : picks K yield)
    (hf : (rotate K K.curenv).env_sched_list.first = some e) :
    chooseEnv K yield =
      .ok (e, { rotate K K.curenv with count := toInt (K.envs e).env_pri }) := by
  rw [chooseEnv, if_pos h]
  dsimp only
  rw [hf, rotate_envs]

theorem chooseEnv_none {K : Kernel} {yield : Bool} (h : picks K yield)
    (hf : (rotate K K.curenv).env_sched_list.first = none) :
    chooseEnv K yield = .error (.panic "schedule: no runnable envs") := by
  rw [chooseEnv, if_pos h]
  dsimp only
  rw [hf]

theorem rotate_doTimer (K : Kernel) (e : Option ℕ) :
    (rotate (doTimer K) e).env_sched_list = (rotate K e).env_sched_list := by
  cases e with
  | none => rfl
  | some i =>
    have henvs : (doTimer K).envs = K.envs := rfl
    rw [rotate, rotate, henvs]
    split_ifs <;> rfl

/-- A call that picks runs the head `b` of the rotated queue, for as long as its priority
says. -/
theorem schedule_pick (L : Layout) {K : Kernel} {yield : Bool} {b : ℕ} (h : picks K yield)
    (hf : (rotate K K.curenv).env_sched_list.first = some b)
    (hb : (K.envs b).env_status = .ENV_RUNNABLE) :
    ∃ K', schedule L K yield = .ok K' ∧ K'.curenv = some b ∧
      K'.count = toInt (toInt (K.envs b).env_pri-1) ∧
      KeepsEnvs { K with env_sched_list := (rotate K K.curenv).env_sched_list } K' := by
  have hlist := rotate_doTimer K K.curenv
  have henvs := rotate_envs (doTimer K) K.curenv
  obtain ⟨_, _, hf', ha⟩ := rotate_fields (doTimer K) K.curenv
  have hb' : ((rotate (doTimer K) K.curenv).envs b).env_status = .ENV_RUNNABLE := by
    rw [henvs]
    exact hb
  have hfirst : (rotate (doTimer K) (doTimer K).curenv).env_sched_list.first = some b :=
    (congrArg (fun q => q.first) hlist).trans hf
  obtain ⟨K', hrun, hk, hcur, hcount, _⟩ := envRun_ok L (e := b)
    (K := { rotate (doTimer K) K.curenv with
      count := toInt (toInt (K.envs b).env_pri-1) }) hb'
  refine ⟨K', ?_, hcur, by rw [hcount], hk.env_sched_list.trans hlist, hk.env_free_list.trans hf',
    hk.asid_bitmap.trans ha, fun i => ?_, fun i => ?_, fun i => ?_⟩
  · have hpri : ((doTimer K).envs b).env_pri = (K.envs b).env_pri := rfl
    have hcur : (doTimer K).curenv = K.curenv := rfl
    rw [schedule, chooseEnv_pick (K := doTimer K) h hfirst, ok_bind, hpri, hcur]
    dsimp only
    exact hrun
  · rw [hk.env_status]
    exact congrArg (fun envs => (envs i).env_status) henvs
  · rw [hk.env_asid]
    exact congrArg (fun envs => (envs i).env_asid) henvs
  · rw [hk.env_pri]
    exact congrArg (fun envs => (envs i).env_pri) henvs

theorem schedule_again (L : Layout) {K : Kernel} {yield : Bool} (h : ¬picks K yield) :
    ∃ K' e, schedule L K yield = .ok K' ∧ K.curenv = some e ∧
      (K.envs e).env_status = .ENV_RUNNABLE ∧ K'.curenv = some e ∧
      K'.count = toInt (K.count-1) ∧ KeepsEnvs K K' := by
  obtain ⟨e, he, hs, hchoose⟩ := chooseEnv_again (K := doTimer K) h
  obtain ⟨K', hrun, hk, hcur, hcount, _⟩ := envRun_ok L (e := e)
    (K := { doTimer K with count := toInt (K.count-1) }) hs
  refine ⟨K', e, ?_, he, hs, hcur, by rw [hcount], ⟨hk.1, hk.2, hk.3, hk.4, hk.5, hk.6⟩⟩
  rw [schedule, hchoose, ok_bind]
  exact hrun

/-- A call keeps the tables, or moves a runnable current env to the tail. -/
theorem schedule_cases {L : Layout} {K K' : Kernel} {yield : Bool}
    (h : schedule L K yield = .ok K') :
    KeepsEnvs K K' ∨ ∃ i, (K.envs i).env_status = .ENV_RUNNABLE ∧
      KeepsEnvs { K with env_sched_list := tailqInsertTail (tailqRemove K.env_sched_list i) i }
        K' := by
  rw [schedule] at h
  obtain ⟨⟨e, K₁⟩, hchoose, hrun⟩ := bind_eq_ok.mp h
  obtain ⟨_, hk⟩ := envRun_cases hrun
  by_cases hp : picks (doTimer K) yield
  · cases hf : (rotate (doTimer K) (doTimer K).curenv).env_sched_list.first with
    | none =>
      rw [chooseEnv_none hp hf] at hchoose
      cases hchoose
    | some e' =>
      rw [chooseEnv_pick hp hf] at hchoose
      obtain ⟨rfl, rfl⟩ := Prod.mk.inj (Except.ok.inj hchoose)
      have hcur : (doTimer K).curenv = K.curenv := rfl
      rw [hcur] at hk
      cases hc : K.curenv with
      | none =>
        rw [hc] at hk
        exact .inl ⟨hk.1, hk.2, hk.3, hk.4, hk.5, hk.6⟩
      | some i =>
        rw [hc, rotate] at hk
        by_cases hi : ((doTimer K).envs i).env_status = .ENV_RUNNABLE
        · rw [if_pos hi] at hk
          exact .inr ⟨i, hi, ⟨hk.1, hk.2, hk.3, hk.4, hk.5, hk.6⟩⟩
        · rw [if_neg hi] at hk
          exact .inl ⟨hk.1, hk.2, hk.3, hk.4, hk.5, hk.6⟩
  · obtain ⟨e', _, _, hchoose'⟩ := chooseEnv_again hp
    rw [hchoose'] at hchoose
    obtain ⟨rfl, rfl⟩ := Prod.mk.inj (Except.ok.inj hchoose)
    exact .inl ⟨hk.1, hk.2, hk.3, hk.4, hk.5, hk.6⟩

/-- A call saves the frame of the current env, and leaves the address spaces alone. -/
structure Scheduled (L : Layout) (K K' : Kernel) (e : ℕ) : Prop where
  curenv : K'.curenv = some e
  runnable : (K'.envs e).env_status = .ENV_RUNNABLE
  phys : K'.phys = ⟨saveContext L K.phys.mem K.curenv, K.phys.freelist⟩
  kernel_pagetable : K'.kernel_pagetable = K.kernel_pagetable
  env_status : ∀ i, (K'.envs i).env_status = (K.envs i).env_status
  env_pgtable : ∀ i, (K'.envs i).env_pgtable = (K.envs i).env_pgtable

theorem chooseEnv_keeps {K K₁ : Kernel} {yield : Bool} {e : ℕ} (h : chooseEnv K yield = .ok (e, K₁)) :
    K₁.phys = K.phys ∧ K₁.curenv = K.curenv ∧ K₁.envs = K.envs ∧
      K₁.kernel_pagetable = K.kernel_pagetable := by
  have hrot (i : Option ℕ) : (rotate K i).phys = K.phys ∧ (rotate K i).curenv = K.curenv ∧
      (rotate K i).kernel_pagetable = K.kernel_pagetable := by
    cases i with
    | none => exact ⟨rfl, rfl, rfl⟩
    | some i =>
      rw [rotate]
      split_ifs <;> exact ⟨rfl, rfl, rfl⟩
  by_cases hp : picks K yield
  · cases hf : (rotate K K.curenv).env_sched_list.first with
    | none =>
      rw [chooseEnv_none hp hf] at h
      cases h
    | some e' =>
      rw [chooseEnv_pick hp hf] at h
      obtain ⟨rfl, rfl⟩ := Prod.mk.inj (Except.ok.inj h)
      obtain ⟨hphys, hcur, hk⟩ := hrot K.curenv
      exact ⟨hphys, hcur, rotate_envs K K.curenv, hk⟩
  · obtain ⟨e', _, _, hchoose⟩ := chooseEnv_again hp
    rw [hchoose] at h
    obtain ⟨rfl, rfl⟩ := Prod.mk.inj (Except.ok.inj h)
    exact ⟨rfl, rfl, rfl, rfl⟩

theorem schedule_scheduled {L : Layout} {K K' : Kernel} {yield : Bool}
    (h : schedule L K yield = .ok K') : ∃ e, Scheduled L K K' e := by
  have hstatus (i : ℕ) : (K'.envs i).env_status = (K.envs i).env_status := by
    rcases schedule_cases h with hk | ⟨_, _, hk⟩
    · exact hk.env_status i
    · exact hk.env_status i
  rw [schedule] at h
  obtain ⟨⟨e, K₁⟩, hchoose, hrun⟩ := bind_eq_ok.mp h
  obtain ⟨hphys, hcur, henvs, hk⟩ := chooseEnv_keeps hchoose
  obtain ⟨hrunnable, _⟩ := envRun_cases hrun
  dsimp only at hrun
  rw [envRun, if_neg (fun hn => hn hrunnable)] at hrun
  cases hrun
  refine ⟨e, rfl, ?_, ?_, hk, hstatus, fun i => ?_⟩
  · simp only [Kernel.setEnv, update_self]
    exact hrunnable
  · show (⟨saveContext L K₁.phys.mem K₁.curenv, K₁.phys.freelist⟩ : Phys) = _
    rw [hphys, hcur]
    rfl
  · refine (envs_update Env.env_pgtable ?_ i).trans ?_
    · rfl
    · exact congrArg (fun envs => (envs i).env_pgtable) henvs

end RiscvMos
