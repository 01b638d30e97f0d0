import RiscvMos.SchedList

/-! The free list of env.c over runs of `env_create` and `env_free`. The loop of `env_init`
starts at `i = NENV` and also inserts the slot behind `envs`. -/
namespace RiscvMos
open ByteMem IntrusiveQueue Function

/-- The elements of `env_free_list` are the free envs of the array, each once. -/
def FreeSlots (K : Kernel) : Prop :=
  ∃ l, Elems K.env_free_list .head l ∧ l.Nodup ∧ (∀ e ∈ l, e < NENV) ∧
    ∀ e < NENV, e ∈ l ↔ (K.envs e).env_status = .ENV_FREE

/-- A call of `env_create` or `env_free`. The latter is given the memory that its
page-table teardown leaves. -/
inductive LifeStep (L : Layout) (K : Kernel) : Kernel → Prop
  | create {K' : Kernel} {e : ℕ} (img : Image) (priority : ℤ)
      (call : envCreate L K img priority = .ok (e, K')) : LifeStep L K K'
  | free (s : Phys) {e : ℕ} (runnable : (K.envs e).env_status = .ENV_RUNNABLE) :
      LifeStep L K (envRelease (K.setPhys s) e)

/-- The invariant of the lists where every env is either free or runnable. -/
structure LifeInv (K : Kernel) (ql fl : List ℕ) : Prop where
  sched : SchedInv K ql fl
  mem_free : ∀ e < NENV, e ∈ fl ↔ (K.envs e).env_status = .ENV_FREE

theorem boot_lifeInv {L : Layout} {m : Mem} {K : Kernel} (h : boot L m = .ok K) :
    LifeInv K [] (List.range NENV) := by
  refine ⟨boot_schedInv h, fun e he => ?_⟩
  obtain ⟨K₀, rfl, henvs, _⟩ := boot_envInit h
  have hs : ((envInit K₀).envs e).env_status = .ENV_FREE := by
    change (K₀.envs e).env_status = .ENV_FREE
    rw [henvs]
    rfl
  exact ⟨fun _ => hs, fun _ => List.mem_range.mpr he⟩

theorem LifeInv.create {L : Layout} {K K₁ K₂ K' : Kernel} {s : Phys} {e : ℕ} {img : Image}
    {ehdr : Ehdr} {ql fl : List ℕ} (h : LifeInv K ql fl)
    (c : Created L K K₁ K₂ K' s e img ehdr) :
    ∃ fl', fl = e :: fl' ∧ e < NENV ∧ LifeInv K' (e :: ql) fl' := by
  obtain ⟨fl', rfl, he, h'⟩ := h.sched.create c
  obtain ⟨t, hfree⟩ := h.sched.free
  have hef : e ∉ fl' := fun hm =>
    (List.nodup_cons.mp hfree.nodup).1 (List.mem_append_left _ hm)
  refine ⟨fl', rfl, he, h', fun i hi => ?_⟩
  by_cases hie : i = e
  · simp [hie, hef, c.runnable]
  · rw [c.env_status i hie, ← h.mem_free i hi, List.mem_cons, or_iff_right hie]

theorem LifeInv.free {K : Kernel} {e : ℕ} {ql fl : List ℕ} (h : LifeInv K ql fl) (s : Phys)
    (he : (K.envs e).env_status = .ENV_RUNNABLE) :
    ∃ ql', LifeInv (envRelease (K.setPhys s) e) ql' (e :: fl) := by
  obtain ⟨ql', h'⟩ := (h.sched.keeps (keepsEnvs_setPhys K s)).release he
  refine ⟨ql', h', fun i hi => ?_⟩
  by_cases hie : i = e
  · simp [hie, envRelease, Kernel.setEnv]
  · have hs : ((envRelease (K.setPhys s) e).envs i).env_status = (K.envs i).env_status := by
      simp [envRelease, Kernel.setEnv, Kernel.setPhys, update_of_ne hie]
    rw [hs, List.mem_cons, or_iff_right hie]
    exact h.mem_free i hi

theorem LifeInv.step {L : Layout} {K K' : Kernel} {ql fl : List ℕ} (h : LifeInv K ql fl)
    (st : LifeStep L K K') : ∃ ql' fl', LifeInv K' ql' fl' := by
  cases st with
  | create img priority call =>
    obtain ⟨K₁, K₂, s, ehdr, c⟩ := envCreate_cases call
    obtain ⟨fl', _, _, h'⟩ := h.create c
    exact ⟨_, fl', h'⟩
  | free s runnable =>
    obtain ⟨ql', h'⟩ := h.free s runnable
    exact ⟨ql', _, h'⟩

theorem LifeInv.run {L : Layout} {K K' : Kernel} {ql fl : List ℕ} (h : LifeInv K ql fl)
    (run : Relation.ReflTransGen (LifeStep L) K K') : ∃ ql' fl', LifeInv K' ql' fl' := by
  induction run with
  | refl => exact ⟨ql, fl, h⟩
  | tail _ st ih =>
    obtain ⟨ql', fl', h'⟩ := ih
    exact h'.step st

/-- The list holds the free envs of the array and, behind them, the slot after it. -/
theorem LifeInv.elems {K : Kernel} {ql fl : List ℕ} (h : LifeInv K ql fl) :
    Elems K.env_free_list .head (fl ++ [NENV]) := by
  obtain ⟨t, hfree⟩ := h.sched.free
  exact repr_elems hfree

theorem LifeInv.not_freeSlots {K : Kernel} {ql fl : List ℕ} (h : LifeInv K ql fl) :
    ¬FreeSlots K := by
  rintro ⟨l, hl, _, hlt, _⟩
  obtain rfl := elems_unique hl h.elems
  exact Nat.lt_irrefl NENV (hlt NENV (by simp))

/-- Neither right after `env_init` nor after any sequence of calls is the list what it
should be: its last element is `&envs[NENV]`. -/
theorem env_free_list_outside {L : Layout} {m : Mem} {K K' : Kernel} (hboot : boot L m = .ok K)
    (run : Relation.ReflTransGen (LifeStep L) K K') :
    ¬Elems K.env_free_list .head (List.range NENV) ∧ ¬FreeSlots K' := by
  have h := boot_lifeInv hboot
  have hel := h.elems
  refine ⟨?_, ?_⟩
  · generalize List.range NENV = l at hel ⊢
    intro he
    have hlen := congrArg List.length (elems_unique he hel)
    rw [List.length_append, List.length_singleton] at hlen
    omega
  · obtain ⟨ql, fl, h'⟩ := h.run run
    exact h'.not_freeSlots

theorem env_free_list_outside_one : ∃ K K', boot default (fun _ => 0) = .ok K ∧
    Relation.ReflTransGen (LifeStep default) K K' ∧
    ¬Elems K.env_free_list .head (List.range NENV) ∧ ¬FreeSlots K' := by
  obtain ⟨K, _, _, _, hboot, _⟩ := boot_ok default (fun _ => 0)
  obtain ⟨K', _, _, _, _, hcreate, _⟩ := envCreate_first hboot spinImage_aligned 1
  have run : Relation.ReflTransGen (LifeStep default) K K' := .single (.create _ 1 hcreate)
  exact ⟨K, K', hboot, run, env_free_list_outside hboot run⟩

/-- After `env_init` the list holds `&envs[NENV]`. -/
theorem env_init_inserts_NENV : ∃ K, boot default (fun _ => 0) = .ok K ∧
    Elems K.env_free_list .head (List.range NENV ++ [NENV]) ∧ ¬FreeSlots K := by
  obtain ⟨K, _, _, _, hboot, _⟩ := boot_ok default (fun _ => 0)
  have h := boot_lifeInv hboot
  have hel := h.elems
  exact ⟨K, hboot, hel, h.not_freeSlots⟩

end RiscvMos
