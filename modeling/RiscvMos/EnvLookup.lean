import RiscvMos.EnvIds

/-! `envid2env` over all runs: the ten bits that `ENVX` takes from an id are the index of the
live env that holds it. -/
namespace RiscvMos
open ByteMem IntrusiveQueue Function

theorem ENVX_lt (envid : ℕ) : ENVX envid < NENV :=
  Nat.and_lt_two_pow envid (by decide : NENV-1 < 2^10)

/-! ### The ids that the operations set -/

theorem envAlloc_env_id {L : Layout} {K K' : Kernel} {parent_id : ℕ} {r : ℤ} {new : Option ℕ}
    (h : envAlloc L K parent_id = .ok (r, new, K')) (i : ℕ) :
    (K'.envs i).env_id = (K.envs i).env_id ∨
      K.env_free_list.first = some i ∧ ∃ c, (K'.envs i).env_id = (mkenvid c i).1 := by
  cases envAlloc_returns h with
  | no_env hf => exact .inl rfl
  | no_space hf hsetup hr => exact .inl ((envSetupVm_ids hsetup).2 i)
  | @no_asid e K₁ hf hsetup ha =>
    by_cases hie : i = e
    · subst hie
      exact .inr ⟨hf, K₁.mkenvid_i, withId_env_id K₁ i⟩
    · rw [withId_envs K₁ hie]
      exact .inl ((envSetupVm_ids hsetup).2 i)
  | @new e asid bitmap K₁ hf hsetup ha =>
    have hn := envAlloc_ids h
    by_cases hie : i = e
    · subst hie
      exact .inr ⟨hf, _, hn.new⟩
    · exact .inl (hn.env_id i hie)

theorem schedule_env_id {L : Layout} {K K' : Kernel} {yield : Bool}
    (h : schedule L K yield = .ok K') (i : ℕ) : (K'.envs i).env_id = (K.envs i).env_id := by
  rw [schedule] at h
  obtain ⟨⟨e, K₁⟩, hchoose, hrun⟩ := bind_eq_ok.mp h
  obtain ⟨_, _, henvs, _⟩ := chooseEnv_keeps hchoose
  obtain ⟨hrunnable, _⟩ := envRun_cases hrun
  dsimp only at hrun
  rw [envRun, if_neg (fun hn => hn hrunnable)] at hrun
  cases hrun
  refine (envs_update Env.env_id ?_ i).trans (congrArg (fun envs => (envs i).env_id) henvs)
  rfl

/-! ### The invariant -/

/-- A live env lies in the array, where its id says. -/
def IdsInPlace (K : Kernel) : Prop := ∀ e, (K.envs e).env_status ≠ .ENV_FREE →
  e < NENV ∧ ENVX (K.envs e).env_id = e

section
variable {L : Layout} {K K' : Kernel}

theorem IdsInPlace.congr (h : IdsInPlace K)
    (hst : ∀ i, (K'.envs i).env_status = (K.envs i).env_status)
    (hid : ∀ i, (K'.envs i).env_id = (K.envs i).env_id) : IdsInPlace K' := by
  intro e he
  rw [hst] at he
  rw [hid]
  exact h e he

theorem IdsInPlace.create (h : IdsInPlace K) {ql fl : List ℕ} (hs : SchedInv K ql fl) {e : ℕ}
    {img : Image} {priority : ℤ} (call : envCreate L K img priority = .ok (e, K')) :
    IdsInPlace K' := by
  obtain ⟨K₁, K₂, s, ehdr, c⟩ := envCreate_cases call
  obtain ⟨_, _, he, _⟩ := hs.create c
  have hid := envCreate_ids call
  intro i hi
  by_cases hie : i = e
  · subst hie
    rw [hid.new]
    exact ⟨he, mkenvid_ENVX he⟩
  · rw [c.env_status i hie] at hi
    rw [hid.env_id i hie]
    exact h i hi

theorem IdsInPlace.alloc (h : IdsInPlace K) {parent_id : ℕ} {r : ℤ} {new : Option ℕ}
    (call : envAlloc L K parent_id = .ok (r, new, K')) : IdsInPlace K' := by
  have hst (i : ℕ) : (K'.envs i).env_status = (K.envs i).env_status := by
    rcases envAlloc_cases call with ⟨_, _, hk⟩ | ⟨e, K₁, _, _, a⟩
    · exact hk.env_status i
    · exact a.env_status i
  intro i hi
  rw [hst] at hi
  obtain ⟨hlt, hx⟩ := h i hi
  rcases envAlloc_env_id call i with hid | ⟨_, c, hid⟩
  · rw [hid]
    exact ⟨hlt, hx⟩
  · rw [hid]
    exact ⟨hlt, mkenvid_ENVX hlt⟩

theorem IdsInPlace.release (h : IdsInPlace K) (s : Phys) (e : ℕ) :
    IdsInPlace (envRelease (K.setPhys s) e) := by
  obtain ⟨hfree, hst, hid⟩ := envRelease_status K s e
  intro i hi
  have hie : i ≠ e := fun hie => hi (hie ▸ hfree)
  rw [hst i hie] at hi
  rw [hid]
  exact h i hi

theorem IdsInPlace.schedule (h : IdsInPlace K) {yield : Bool}
    (call : RiscvMos.schedule L K yield = .ok K') : IdsInPlace K' := by
  obtain ⟨e, d⟩ := schedule_scheduled call
  exact h.congr d.env_status (schedule_env_id call)

theorem IdsInPlace.step (h : IdsInPlace K) {ql fl : List ℕ} (hs : SchedInv K ql fl)
    (st : SchedStep L K K') : IdsInPlace K' := by
  cases st with
  | memory s => exact h.congr (fun _ => rfl) (fun _ => rfl)
  | create img priority call => exact h.create hs call
  | alloc parent_id call => exact h.alloc call
  | free s runnable => exact h.release s _
  | @destroy s K' e runnable call =>
    have hr := h.release s e
    rw [envDestroyed] at call
    split_ifs at call with hc
    · have hn : IdsInPlace { envRelease (K.setPhys s) e with curenv := none } :=
        hr.congr (fun _ => rfl) (fun _ => rfl)
      exact hn.schedule call
    · cases call
      exact hr
  | schedule yield call => exact h.schedule call

theorem boot_idsInPlace {m : Mem} (hboot : boot L m = .ok K) : IdsInPlace K := by
  obtain ⟨K₀, rfl, henvs, _⟩ := boot_envInit hboot
  intro e he
  have hfree : ((envInit K₀).envs e).env_status = .ENV_FREE := by
    rw [envInit, henvs]
    rfl
  exact absurd hfree he

theorem IdsInPlace.run (h : IdsInPlace K) {ql fl : List ℕ} (hs : SchedInv K ql fl)
    (run : Relation.ReflTransGen (SchedStep L) K K') : IdsInPlace K' := by
  induction run with
  | refl => exact h
  | tail run st ih =>
    obtain ⟨_, _, hs'⟩ := hs.run run
    exact ih.step hs' st

end

/-! ### Looking up an id -/

/-- `e` is a live env of the array with the id `envid`. -/
structure HasId (K : Kernel) (envid e : ℕ) : Prop where
  env_lt : e < NENV
  live : (K.envs e).env_status ≠ .ENV_FREE
  env_id : (K.envs e).env_id = envid

/-- What `checkperm` asks for: the current env or a child of it. -/
def Permitted (K : Kernel) (c e : ℕ) : Prop :=
  e = c ∨ (K.envs e).env_parent_id = (K.envs c).env_id

instance (K : Kernel) (c e : ℕ) : Decidable (Permitted K c e) :=
  inferInstanceAs (Decidable (_ ∨ _))

section
variable {K : Kernel} {envid e c : ℕ}

theorem IdsInPlace.hasId_ENVX (h : IdsInPlace K) (he : HasId K envid e) : ENVX envid = e :=
  he.env_id ▸ (h e he.live).2

theorem IdsInPlace.hasId_unique (h : IdsInPlace K) {e' : ℕ} (he : HasId K envid e)
    (he' : HasId K envid e') : e = e' :=
  (h.hasId_ENVX he).symm.trans (h.hasId_ENVX he')

/-- Without an env of this id the call fails before it looks at `curenv`. -/
theorem envid2env_unknown (h0 : envid ≠ 0) (h : ¬∃ e, HasId K envid e) (checkperm : Bool) :
    envid2env K envid checkperm = .ok (-E_BAD_ENV, none) := by
  have hbad : (K.envs (ENVX envid)).env_status = .ENV_FREE ∨
      (K.envs (ENVX envid)).env_id ≠ envid := by
    by_contra hn
    rw [not_or, not_not] at hn
    exact h ⟨_, ENVX_lt envid, hn.1, hn.2⟩
  rw [envid2env, if_neg h0]
  exact if_pos hbad

theorem IdsInPlace.envid2env_known (h : IdsInPlace K) (h0 : envid ≠ 0) (he : HasId K envid e) :
    envid2env K envid false = .ok (0, some (some e)) := by
  obtain rfl := he.env_id
  exact envid2env_live h0 (h e he.live).2 he.live

theorem IdsInPlace.envid2env_checked (h : IdsInPlace K) (h0 : envid ≠ 0) (he : HasId K envid e)
    (hc : K.curenv = some c) :
    envid2env K envid true =
      if Permitted K c e then .ok (0, some (some e)) else .ok (-E_BAD_ENV, none) := by
  have hgood : ¬((K.envs e).env_status = .ENV_FREE ∨ (K.envs e).env_id ≠ envid) := by
    rw [not_or, not_not]
    exact ⟨he.live, he.env_id⟩
  rw [envid2env, if_neg h0, h.hasId_ENVX he]
  dsimp only
  rw [if_neg hgood, hc]
  by_cases hce : c = e
  · rw [if_neg (by simp [hce]), if_pos (.inl hce.symm)]
  · have hother : Permitted K c e ↔ (K.envs e).env_parent_id = (K.envs c).env_id :=
      or_iff_right (fun hec => hce hec.symm)
    rw [if_pos ⟨rfl, by simpa using hce⟩]
    simp only [hother]

end

/-- After boot and any sequence of operations the ids of the live envs differ, and
`envid2env` finds the env of an id, with `checkperm` if it is the current env or a child of
it. All other calls return -E_BAD_ENV and store nothing. -/
theorem envid2env_resolves {L : Layout} {m : Mem} {K K' : Kernel} (hboot : boot L m = .ok K)
    (run : Relation.ReflTransGen (SchedStep L) K K') {envid : ℕ} (h0 : envid ≠ 0) :
    (∀ d e e', HasId K' d e → HasId K' d e' → e = e') ∧
    (∀ e, envid2env K' envid false = .ok (0, some (some e)) ↔ HasId K' envid e) ∧
    (¬(∃ e, HasId K' envid e) →
      ∀ checkperm, envid2env K' envid checkperm = .ok (-E_BAD_ENV, none)) ∧
    ∀ c, K'.curenv = some c →
      (∀ e, envid2env K' envid true = .ok (0, some (some e)) ↔
        HasId K' envid e ∧ Permitted K' c e) ∧
      (¬(∃ e, HasId K' envid e ∧ Permitted K' c e) →
        envid2env K' envid true = .ok (-E_BAD_ENV, none)) := by
  have h : IdsInPlace K' := (boot_idsInPlace hboot).run (boot_schedInv hboot) run
  have hunknown := envid2env_unknown (K := K') h0
  refine ⟨fun _ _ _ => h.hasId_unique, fun e => ⟨fun hok => ?_, h.envid2env_known h0⟩, hunknown,
    fun c hc => ⟨fun e => ⟨fun hok => ?_, fun ⟨he, hp⟩ => ?_⟩, fun hn => ?_⟩⟩
  · by_cases hex : ∃ e, HasId K' envid e
    · obtain ⟨e', he'⟩ := hex
      rw [h.envid2env_known h0 he'] at hok
      cases hok
      exact he'
    · rw [hunknown hex] at hok
      cases hok
  · by_cases hex : ∃ e, HasId K' envid e
    · obtain ⟨e', he'⟩ := hex
      rw [h.envid2env_checked h0 he' hc] at hok
      split_ifs at hok with hp
      · cases hok
        exact ⟨he', hp⟩
      · cases hok
    · rw [hunknown hex] at hok
      cases hok
  · rw [h.envid2env_checked h0 he hc, if_pos hp]
  · by_cases hex : ∃ e, HasId K' envid e
    · obtain ⟨e', he'⟩ := hex
      rw [h.envid2env_checked h0 he' hc, if_neg (fun hp => hn ⟨e', he', hp⟩)]
    · exact hunknown hex true

theorem envid2env_resolves_one : ∃ K K', boot default (fun _ => 0) = .ok K ∧
    Relation.ReflTransGen (SchedStep default) K K' ∧
    envid2env K' 2048 false = .ok (0, some (some 0)) := by
  obtain ⟨K, _, _, _, hboot, _⟩ := boot_ok default (fun _ => 0)
  obtain ⟨K', _, _, _, _, hcreate, c, _⟩ := envCreate_first hboot spinImage_aligned 1
  have run : Relation.ReflTransGen (SchedStep default) K K' := .single (.create _ 1 hcreate)
  have hid : (K'.envs 0).env_id = 2048 := by
    obtain ⟨K₁, rfl, _, hi⟩ := boot_envInit hboot
    have hstart : (envInit K₁).mkenvid_i = 0 := by rw [envInit]; exact hi
    rw [(envCreate_ids hcreate).new, hstart]
    decide
  exact ⟨K, K', hboot, run, ((envid2env_resolves hboot run (by decide : 2048 ≠ 0)).2.1 0).mpr
    ⟨by decide, by simp [c.runnable], hid⟩⟩

end RiscvMos
