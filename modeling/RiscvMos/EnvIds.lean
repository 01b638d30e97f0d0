import RiscvMos.FreeSlots

/-! Env ids over runs of `env_create` and `env_free`: `mkenvid` packs 21 bits of its counter
with the index of the env. -/
namespace RiscvMos
open ByteMem IntrusiveQueue Function

def ENVX (envid : ℕ) : ℕ := envid &&& (NENV-1)

/-- Returns the code and, where it is stored, `*penv`. -/
def envid2env (K : Kernel) (envid : ℕ) (checkperm : Bool) : Result (ℤ × Option (Option ℕ)) :=
  if envid = 0 then .ok (0, some K.curenv)
  else
    let e := ENVX envid
    if (K.envs e).env_status = .ENV_FREE ∨ (K.envs e).env_id ≠ envid then .ok (-E_BAD_ENV, none)
    else if checkperm ∧ K.curenv ≠ some e then
      match K.curenv with
      | none => .error (.panic "reserve_exception")
      | some c =>
        if (K.envs e).env_parent_id = (K.envs c).env_id then .ok (0, some (some e))
        else .ok (-E_BAD_ENV, none)
    else .ok (0, some (some e))

/-! ### Ids -/

theorem mkenvid_eq {i e : ℕ} (he : e < NENV) :
    (mkenvid i e).1 = 2048*((i+1)%2^21)+e := by
  have hn : NENV = 2^10 := by decide
  have hlt : e < 2^11 := by omega
  have hshift : ((i+1)%2^32) <<< (1+LOG2NENV) % 2^32 = 2^11*((i+1)%2^21) := by
    have hl : 1+LOG2NENV = 11 := rfl
    rw [hl, Nat.shiftLeft_eq]
    omega
  change ((i+1)%2^32) <<< (1+LOG2NENV) % 2^32 ||| e = _
  rw [hshift, ← Nat.two_pow_add_eq_or_of_lt hlt]

theorem mkenvid_ENVX {i e : ℕ} (he : e < NENV) : ENVX (mkenvid i e).1 = e := by
  have hn : NENV = 2^10 := by decide
  rw [ENVX, mkenvid_eq he, hn, Nat.and_two_pow_sub_one_eq_mod]
  omega

theorem envid2env_live {K : Kernel} {e : ℕ} (h0 : (K.envs e).env_id ≠ 0)
    (hx : ENVX (K.envs e).env_id = e) (hs : (K.envs e).env_status ≠ .ENV_FREE) :
    envid2env K (K.envs e).env_id false = .ok (0, some (some e)) := by
  rw [envid2env, if_neg h0]
  simp [hx, hs]

theorem envid2env_bad {K : Kernel} {d : ℕ} (h0 : d ≠ 0)
    (h : (K.envs (ENVX d)).env_status = .ENV_FREE ∨ (K.envs (ENVX d)).env_id ≠ d) :
    envid2env K d false = .ok (-E_BAD_ENV, none) := by
  rw [envid2env, if_neg h0]
  exact if_pos h

/-! ### What a call of `env_create` does to the ids -/

theorem envSetupVm_ids {K K' : Kernel} {e : ℕ} {r : ℤ} (h : envSetupVm K e = .ok (r, K')) :
    K'.mkenvid_i = K.mkenvid_i ∧ ∀ i, (K'.envs i).env_id = (K.envs i).env_id := by
  rcases envSetupVm_cases h with ⟨_, s, _, rfl⟩ | ⟨_, pagetable, s₁, s₂, _, _, _, rfl⟩
  · exact ⟨rfl, fun _ => rfl⟩
  · exact ⟨rfl, envs_update _ rfl⟩

/-- `e` got the id that `mkenvid` gave, the other ids are as they were. -/
structure NewId (K K' : Kernel) (e : ℕ) : Prop where
  mkenvid_i : K'.mkenvid_i = (mkenvid K.mkenvid_i e).2
  new : (K'.envs e).env_id = (mkenvid K.mkenvid_i e).1
  env_id : ∀ i, i ≠ e → (K'.envs i).env_id = (K.envs i).env_id

theorem envAlloc_ids {L : Layout} {K K' : Kernel} {parent_id e : ℕ} {r : ℤ}
    (h : envAlloc L K parent_id = .ok (r, some e, K')) : NewId K K' e := by
  cases envAlloc_returns h with
  | @new e asid bitmap K₁ hf hsetup ha =>
    obtain ⟨hi, hid⟩ := envSetupVm_ids hsetup
    refine ⟨?_, ?_, fun i hie => ?_⟩
    · rw [← hi]
      rfl
    · rw [← hi, ← withId_env_id K₁ e]
      simp only [withEnv, Kernel.setEnv, update_self]
    · rw [← hid i, ← withId_envs K₁ hie]
      simp only [withEnv, Kernel.setEnv, update_of_ne hie]

theorem envCreate_ids {L : Layout} {K K' : Kernel} {img : Image} {priority : ℤ} {e : ℕ}
    (h : envCreate L K img priority = .ok (e, K')) : NewId K K' e := by
  obtain ⟨K₂, ehdr, s, halloc, _, _, rfl⟩ := envCreate_returns h
  have hn := envAlloc_ids halloc
  have hid (i : ℕ) : (update K₂.envs e { K₂.envs e with
      env_pri := (priority%2^32).toNat, env_status := .ENV_RUNNABLE } i).env_id =
      (K₂.envs i).env_id := by
    refine envs_update Env.env_id ?_ i
    rfl
  exact ⟨hn.mkenvid_i, (hid e).trans hn.new, fun i hi => (hid i).trans (hn.env_id i hi)⟩

/-! ### Runs -/

/-- The id that `mkenvid` gives the env `g.1` when its counter is `g.2`. -/
def givenId (g : ℕ × ℕ) : ℕ := (mkenvid g.2 g.1).1

/-- A run of `env_create` and `env_free` to `K`: the envs created, each with the value of
the counter before the call, the ids of the freed envs, and the states passed, each with
the ids freed before. -/
inductive LifeRun (L : Layout) (K₀ : Kernel) :
    List (ℕ × ℕ) → List ℕ → Kernel → List (List ℕ × Kernel) → Prop
  | start : LifeRun L K₀ [] [] K₀ []
  | create {gs : List (ℕ × ℕ)} {ds : List ℕ} {K K' : Kernel} {vs : List (List ℕ × Kernel)} {e : ℕ}
      (run : LifeRun L K₀ gs ds K vs) (img : Image) (priority : ℤ)
      (call : envCreate L K img priority = .ok (e, K')) :
      LifeRun L K₀ ((e, K.mkenvid_i) :: gs) ds K' ((ds, K) :: vs)
  | free {gs : List (ℕ × ℕ)} {ds : List ℕ} {K : Kernel} {vs : List (List ℕ × Kernel)} {e : ℕ}
      (run : LifeRun L K₀ gs ds K vs) (s : Phys)
      (runnable : (K.envs e).env_status = .ENV_RUNNABLE) :
      LifeRun L K₀ gs ((K.envs e).env_id :: ds) (envRelease (K.setPhys s) e) ((ds, K) :: vs)

/-- The ids `ds` of freed envs are bad ids, and no env has the id 0. -/
structure NoStaleId (ds : List ℕ) (K : Kernel) : Prop where
  freed : ∀ d ∈ ds, envid2env K d false = .ok (-E_BAD_ENV, none)
  nonzero : ∀ e < NENV, (K.envs e).env_status ≠ .ENV_FREE → (K.envs e).env_id ≠ 0

/-- No env is created twice with counters that agree in 21 bits, and `envs[0]` not with
a counter that has wrapped to 0. -/
def FreshIds (gs : List (ℕ × ℕ)) : Prop :=
  gs.Pairwise (fun g g' => g.1 = g'.1 → (g.2+1)%2^21 ≠ (g'.2+1)%2^21) ∧
    ∀ g ∈ gs, g.1 = 0 → (g.2+1)%2^21 ≠ 0

theorem givenId_eq_iff {g g' : ℕ × ℕ} (h : g.1 < NENV) (h' : g'.1 < NENV) :
    givenId g = givenId g' ↔ g.1 = g'.1 ∧ (g.2+1)%2^21 = (g'.2+1)%2^21 := by
  have hn : NENV = 2^10 := by decide
  rw [givenId, givenId, mkenvid_eq h, mkenvid_eq h']
  omega

theorem givenId_eq_zero {g : ℕ × ℕ} (h : g.1 < NENV) :
    givenId g = 0 ↔ g.1 = 0 ∧ (g.2+1)%2^21 = 0 := by
  rw [givenId, mkenvid_eq h]
  omega

/-- Where the ids of the run are: freed, or with the env that got them. -/
structure IdInv (K : Kernel) (gs : List (ℕ × ℕ)) (ds : List ℕ) : Prop where
  life : ∃ ql fl, LifeInv K ql fl
  slot : ∀ g ∈ gs, g.1 < NENV
  freed : ∀ d ∈ ds, ∃ g ∈ gs, givenId g = d
  given : ∀ g ∈ gs, givenId g ∈ ds ∨
    (K.envs g.1).env_status ≠ .ENV_FREE ∧ (K.envs g.1).env_id = givenId g
  live : ∀ e < NENV, (K.envs e).env_status ≠ .ENV_FREE →
    ∃ g ∈ gs, g.1 = e ∧ (K.envs e).env_id = givenId g

theorem IdInv.boot {L : Layout} {m : Mem} {K : Kernel} (h : boot L m = .ok K) : IdInv K [] [] := by
  have hl := boot_lifeInv h
  refine ⟨⟨_, _, hl⟩, by simp, by simp, by simp, fun e he hs => ?_⟩
  exact absurd ((hl.mem_free e he).mp (List.mem_range.mpr he)) hs

section
variable {L : Layout} {K K' : Kernel} {gs : List (ℕ × ℕ)} {ds : List ℕ} {e : ℕ}

theorem IdInv.create_free (h : IdInv K gs ds) {img : Image} {priority : ℤ}
    (call : envCreate L K img priority = .ok (e, K')) :
    (∃ ql fl, LifeInv K' ql fl) ∧ e < NENV ∧ (K.envs e).env_status = .ENV_FREE ∧
      (K'.envs e).env_status = .ENV_RUNNABLE ∧
      ∀ i, i ≠ e → (K'.envs i).env_status = (K.envs i).env_status := by
  obtain ⟨K₁, K₂, s, ehdr, c⟩ := envCreate_cases call
  obtain ⟨ql, fl, hl⟩ := h.life
  obtain ⟨fl', rfl, he, hl'⟩ := hl.create c
  exact ⟨⟨_, _, hl'⟩, he, (hl.mem_free e he).mp List.mem_cons_self, c.runnable, c.env_status⟩

theorem IdInv.create (h : IdInv K gs ds) {img : Image} {priority : ℤ}
    (call : envCreate L K img priority = .ok (e, K')) :
    IdInv K' ((e, K.mkenvid_i) :: gs) ds := by
  obtain ⟨hl, he, hfree, hrun, hst⟩ := h.create_free call
  have hid := envCreate_ids call
  have hnew : (K'.envs e).env_id = givenId (e, K.mkenvid_i) := hid.new
  refine ⟨hl, ?_, fun d hd => ?_, ?_, fun i hi hs => ?_⟩
  · intro g hg
    rcases List.mem_cons.mp hg with rfl | hg
    · exact he
    · exact h.slot g hg
  · obtain ⟨g, hg, hgd⟩ := h.freed d hd
    exact ⟨g, List.mem_cons_of_mem _ hg, hgd⟩
  · intro g hg
    rcases List.mem_cons.mp hg with rfl | hg
    · exact .inr ⟨by simp [hrun], hnew⟩
    · rcases h.given g hg with hd | ⟨hs, hi⟩
      · exact .inl hd
      · have hge : g.1 ≠ e := fun hge => hs (hge ▸ hfree)
        rw [hst g.1 hge, hid.env_id g.1 hge]
        exact .inr ⟨hs, hi⟩
  · by_cases hie : i = e
    · subst hie
      exact ⟨_, List.mem_cons_self, rfl, hnew⟩
    · rw [hst i hie] at hs
      obtain ⟨g, hg, hgi, hgid⟩ := h.live i hi hs
      exact ⟨g, List.mem_cons_of_mem _ hg, hgi, (hid.env_id i hie).trans hgid⟩

theorem envRelease_status (K : Kernel) (s : Phys) (e : ℕ) :
    ((envRelease (K.setPhys s) e).envs e).env_status = .ENV_FREE ∧
      (∀ i, i ≠ e → ((envRelease (K.setPhys s) e).envs i).env_status = (K.envs i).env_status) ∧
      ∀ i, ((envRelease (K.setPhys s) e).envs i).env_id = (K.envs i).env_id := by
  refine ⟨?_, fun i hi => ?_, envs_update Env.env_id ?_⟩
  · simp [envRelease, Kernel.setEnv]
  · simp [envRelease, Kernel.setEnv, Kernel.setPhys, update_of_ne hi]
  · rfl

theorem IdInv.free (h : IdInv K gs ds) (s : Phys) (runnable : (K.envs e).env_status = .ENV_RUNNABLE) :
    IdInv (envRelease (K.setPhys s) e) gs ((K.envs e).env_id :: ds) := by
  obtain ⟨ql, fl, hl⟩ := h.life
  obtain ⟨ql', hl'⟩ := hl.free s runnable
  obtain ⟨hfree, hst, hid⟩ := envRelease_status K s e
  have he : e < NENV := (hl.sched.queue_lt e ((hl.sched.mem_queue e).mpr runnable)).1
  refine ⟨⟨_, _, hl'⟩, h.slot, ?_, fun g hg => ?_, fun i hi hs => ?_⟩
  · intro d hd
    rcases List.mem_cons.mp hd with rfl | hd
    · obtain ⟨g, hg, _, hgid⟩ := h.live e he (by simp [runnable])
      exact ⟨g, hg, hgid.symm⟩
    · exact h.freed d hd
  · rcases h.given g hg with hd | ⟨hs, hi⟩
    · exact .inl (List.mem_cons_of_mem _ hd)
    · by_cases hge : g.1 = e
      · rw [← hi, hge]
        exact .inl List.mem_cons_self
      · rw [hst g.1 hge, hid]
        exact .inr ⟨hs, hi⟩
  · have hie : i ≠ e := fun hie => hs (hie ▸ hfree)
    rw [hst i hie] at hs
    rw [hid]
    exact h.live i hi hs

theorem IdInv.noStaleId (h : IdInv K gs ds) (fresh : FreshIds gs)
    (apart : ∀ e < NENV, (K.envs e).env_status ≠ .ENV_FREE → (K.envs e).env_id ∉ ds) :
    NoStaleId ds K := by
  have h0 (g : ℕ × ℕ) (hg : g ∈ gs) : givenId g ≠ 0 := fun hz =>
    fresh.2 g hg ((givenId_eq_zero (h.slot g hg)).mp hz).1 ((givenId_eq_zero (h.slot g hg)).mp hz).2
  refine ⟨fun d hd => ?_, fun e he hs => ?_⟩
  · obtain ⟨g, hg, rfl⟩ := h.freed d hd
    have hx : ENVX (givenId g) = g.1 := mkenvid_ENVX (h.slot g hg)
    apply envid2env_bad (h0 g hg)
    rw [hx]
    by_cases hs : (K.envs g.1).env_status = .ENV_FREE
    · exact .inl hs
    · exact .inr (fun hid => apart g.1 (h.slot g hg) hs (hid ▸ hd))
  · obtain ⟨g, hg, _, hid⟩ := h.live e he hs
    rw [hid]
    exact h0 g hg

theorem IdInv.apart_create (h : IdInv K gs ds) {img : Image} {priority : ℤ}
    (call : envCreate L K img priority = .ok (e, K'))
    (fresh : FreshIds ((e, K.mkenvid_i) :: gs))
    (apart : ∀ e < NENV, (K.envs e).env_status ≠ .ENV_FREE → (K.envs e).env_id ∉ ds) :
    ∀ e < NENV, (K'.envs e).env_status ≠ .ENV_FREE → (K'.envs e).env_id ∉ ds := by
  obtain ⟨_, he, _, _, hst⟩ := h.create_free call
  have hid := envCreate_ids call
  have hnew : (K'.envs e).env_id = givenId (e, K.mkenvid_i) := hid.new
  intro i hi hs hd
  by_cases hie : i = e
  · rw [hie, hnew] at hd
    obtain ⟨g, hg, hgd⟩ := h.freed _ hd
    obtain ⟨hslot, hcount⟩ := (givenId_eq_iff (h.slot g hg) he).mp hgd
    exact (List.pairwise_cons.mp fresh.1).1 g hg hslot.symm hcount.symm
  · rw [hid.env_id i hie] at hd
    rw [hst i hie] at hs
    exact apart i hi hs hd

theorem IdInv.apart_free (h : IdInv K gs ds) (s : Phys) (he : e < NENV)
    (hs : (K.envs e).env_status ≠ .ENV_FREE)
    (apart : ∀ e < NENV, (K.envs e).env_status ≠ .ENV_FREE → (K.envs e).env_id ∉ ds) :
    ∀ i < NENV, ((envRelease (K.setPhys s) e).envs i).env_status ≠ .ENV_FREE →
      ((envRelease (K.setPhys s) e).envs i).env_id ∉ (K.envs e).env_id :: ds := by
  obtain ⟨hfree, hst, hid⟩ := envRelease_status K s e
  have hx {i : ℕ} (hi : i < NENV) (hs : (K.envs i).env_status ≠ .ENV_FREE) :
      ENVX (K.envs i).env_id = i := by
    obtain ⟨g, hg, rfl, hgid⟩ := h.live i hi hs
    rw [hgid]
    exact mkenvid_ENVX (h.slot g hg)
  intro i hi hsi hm
  have hie : i ≠ e := fun hie => hsi (hie ▸ hfree)
  rw [hst i hie] at hsi
  rw [hid] at hm
  rcases List.mem_cons.mp hm with heq | hm
  · exact hie (by rw [← hx hi hsi, heq, hx he hs])
  · exact apart i hi hsi hm

/-- An `env_create` after which no stale id is good took a fresh one. -/
theorem IdInv.fresh_create (h : IdInv K gs ds) {img : Image} {priority : ℤ}
    (call : envCreate L K img priority = .ok (e, K')) (fresh : FreshIds gs)
    (ok : NoStaleId ds K') : FreshIds ((e, K.mkenvid_i) :: gs) := by
  obtain ⟨_, he, hfree, hrun, _⟩ := h.create_free call
  have hid : (K'.envs e).env_id = givenId (e, K.mkenvid_i) := (envCreate_ids call).new
  have h0 : givenId (e, K.mkenvid_i) ≠ 0 := hid ▸ ok.nonzero e he (by simp [hrun])
  refine ⟨List.pairwise_cons.mpr ⟨fun g hg hge hcount => ?_, fresh.1⟩, fun g hg => ?_⟩
  · have heq : givenId g = givenId (e, K.mkenvid_i) :=
      (givenId_eq_iff (h.slot g hg) he).mpr ⟨hge.symm, hcount.symm⟩
    have hge' : g.1 = e := hge.symm
    rcases h.given g hg with hd | ⟨hs, _⟩
    · -- the freed id is now that of a live env
      have hbad := ok.freed _ hd
      have hlive := envid2env_live (K := K') (e := e) (by rw [hid]; exact h0)
        (by rw [hid]; exact mkenvid_ENVX he) (by simp [hrun])
      rw [hid, ← heq, hbad] at hlive
      cases hlive
    · exact hs (hge' ▸ hfree)
  · rcases List.mem_cons.mp hg with rfl | hg
    · intro hz hcount
      exact h0 ((givenId_eq_zero he).mpr ⟨hz, hcount⟩)
    · exact fresh.2 g hg

end

section
variable {L : Layout} {m : Mem} {K₀ K : Kernel} {gs : List (ℕ × ℕ)} {ds : List ℕ}
  {vs : List (List ℕ × Kernel)}

theorem LifeRun.idInv (hboot : boot L m = .ok K₀) (run : LifeRun L K₀ gs ds K vs) :
    IdInv K gs ds := by
  induction run with
  | start => exact IdInv.boot hboot
  | create run img priority call ih => exact ih.create call
  | free run s runnable ih => exact ih.free s runnable

theorem LifeRun.apart (hboot : boot L m = .ok K₀) (run : LifeRun L K₀ gs ds K vs)
    (fresh : FreshIds gs) :
    ∀ e < NENV, (K.envs e).env_status ≠ .ENV_FREE → (K.envs e).env_id ∉ ds := by
  induction run with
  | start => exact fun e _ _ => List.not_mem_nil
  | create run img priority call ih =>
    have hold : FreshIds _ :=
      ⟨(List.pairwise_cons.mp fresh.1).2, fun g hg => fresh.2 g (List.mem_cons_of_mem _ hg)⟩
    exact (run.idInv hboot).apart_create call fresh (ih hold)
  | free run s runnable ih =>
    have h := run.idInv hboot
    obtain ⟨ql, fl, hl⟩ := h.life
    have he := (hl.sched.queue_lt _ ((hl.sched.mem_queue _).mpr runnable)).1
    exact h.apart_free s he (by simp [runnable]) (ih fresh)

/-- Over a whole run freed ids stay bad and no env gets the id 0, iff the 21 bits of the
counter never come back for an env of the run. -/
theorem freed_ids_stay_bad (hboot : boot L m = .ok K₀) (run : LifeRun L K₀ gs ds K vs) :
    (∀ v ∈ (ds, K) :: vs, NoStaleId v.1 v.2) ↔ FreshIds gs := by
  constructor
  · intro ok
    induction run with
    | start => exact ⟨List.Pairwise.nil, by simp⟩
    | create run img priority call ih =>
      have fresh := ih (fun v hv => ok v (List.mem_cons_of_mem _ hv))
      exact (run.idInv hboot).fresh_create call fresh (ok _ List.mem_cons_self)
    | free run s runnable ih => exact ih (fun v hv => ok v (List.mem_cons_of_mem _ hv))
  · intro fresh
    have hhead := (run.idInv hboot).noStaleId fresh (run.apart hboot fresh)
    induction run with
    | start => simpa using hhead
    | create run img priority call ih =>
      have hold : FreshIds _ :=
        ⟨(List.pairwise_cons.mp fresh.1).2, fun g hg => fresh.2 g (List.mem_cons_of_mem _ hg)⟩
      have hprev := (run.idInv hboot).noStaleId hold (run.apart hboot hold)
      exact List.forall_mem_cons.mpr ⟨hhead, ih hold hprev⟩
    | free run s runnable ih =>
      have hprev := (run.idInv hboot).noStaleId fresh (run.apart hboot fresh)
      exact List.forall_mem_cons.mpr ⟨hhead, ih fresh hprev⟩

theorem freed_ids_stay_bad_one : ∃ K₀ gs ds K vs, boot default (fun _ => 0) = .ok K₀ ∧
    LifeRun default K₀ gs ds K vs ∧ ds ≠ [] ∧
    ((∀ v ∈ (ds, K) :: vs, NoStaleId v.1 v.2) ↔ FreshIds gs) := by
  obtain ⟨K₀, _, _, _, hboot, _⟩ := boot_ok default (fun _ => 0)
  obtain ⟨K', _, _, _, _, hcreate, c, _⟩ := envCreate_first hboot spinImage_aligned 1
  have run := (LifeRun.start.create _ 1 hcreate).free K₀.phys c.runnable
  exact ⟨K₀, _, _, _, _, hboot, run, by simp, freed_ids_stay_bad hboot run⟩

theorem LifeRun.counter (hboot : boot L m = .ok K₀) (run : LifeRun L K₀ gs ds K vs)
    (hlen : gs.length < 2^32) :
    K.mkenvid_i = gs.length ∧ gs.Pairwise (fun g g' => g'.2 < g.2) ∧ ∀ g ∈ gs, g.2 < gs.length := by
  induction run with
  | start =>
    obtain ⟨K₁, rfl, _, hi⟩ := boot_envInit hboot
    rw [envInit]
    exact ⟨hi, List.Pairwise.nil, by simp⟩
  | create run img priority call ih =>
    rw [List.length_cons] at hlen
    obtain ⟨hi, hp, hlt⟩ := ih (by omega)
    refine ⟨?_, List.pairwise_cons.mpr ⟨?_, hp⟩, List.forall_mem_cons.mpr ⟨?_, ?_⟩⟩
    · rw [(envCreate_ids call).mkenvid_i, hi, List.length_cons]
      exact Nat.mod_eq_of_lt hlen
    · intro g hg
      rw [hi]
      exact hlt g hg
    · rw [hi, List.length_cons]
      exact Nat.lt_succ_self _
    · intro g hg
      rw [List.length_cons]
      exact Nat.lt_succ_of_lt (hlt g hg)
  | free run s runnable ih => exact ih hlen

/-- All ids are fresh while fewer than 2^21 envs are created. -/
theorem LifeRun.fresh_of_length (hboot : boot L m = .ok K₀) (run : LifeRun L K₀ gs ds K vs)
    (hlen : gs.length < 2^21) : FreshIds gs := by
  obtain ⟨_, hp, hlt⟩ := run.counter hboot (by omega)
  refine ⟨hp.imp_of_mem fun {g g'} hg hg' hgt _ => ?_, fun g hg _ => ?_⟩
  · have h := hlt g hg
    have h' := hlt g' hg'
    omega
  · have h := hlt g hg
    omega

end

/-! ### The counter wraps -/

theorem asidAlloc_zero {b : ℕ → BitVec 32} (h : asidBit b 0 = false) :
    ∃ b', asidAlloc b = some (0, b') := by
  have hbit : b (0 >>> 5) &&& (1#32 <<< (0 &&& 31)) = 0 :=
    (and_one_shift_eq_zero (by decide)).mpr h
  rw [asidAlloc, asidAllocLoop, if_pos (by decide)]
  exact ⟨_, if_pos hbit⟩

/-- `env_create` and `env_free` of `envs[0]` alone, `n` times, give it one id after the
other. -/
theorem slot_runs {K₀ : Kernel} (hboot : boot default (fun _ => 0) = .ok K₀) (n : ℕ) :
    ∃ gs ds K vs, LifeRun default K₀ gs ds K vs ∧ K.phys = K₀.phys ∧
      K.kernel_pagetable = K₀.kernel_pagetable ∧ K.env_free_list.first = some 0 ∧
      asidBit K.asid_bitmap 0 = false ∧ K.mkenvid_i = n%2^32 ∧
      ∀ j < n, 2048*((j+1)%2^21) ∈ ds ∧ ∃ v ∈ vs,
        (v.2.envs 0).env_status = .ENV_RUNNABLE ∧ (v.2.envs 0).env_id = 2048*((j+1)%2^21) := by
  obtain ⟨K₀', _, _, s, _, _, c₀, _⟩ := envCreate_first hboot spinImage_aligned 1
  induction n with
  | zero =>
    obtain ⟨_, _, _, b⟩ := boot_booted hboot
    refine ⟨[], [], K₀, [], .start, rfl, rfl, c₀.alloc.head, ?_, ?_, by simp⟩
    · rw [b.asid_bitmap]
      rfl
    · obtain ⟨K₁, rfl, _, hi⟩ := boot_envInit hboot
      rw [envInit]
      exact hi
  | succ n ih =>
    obtain ⟨gs, ds, K, vs, run, hphys, hk, hf, hbit, hi, hids⟩ := ih
    -- one more create and free leave the slot and its ASID free again
    obtain ⟨b', ha⟩ := asidAlloc_zero hbit
    obtain ⟨K', _, K₂, hcreate, c⟩ := c₀.again hphys hk hf ha 1
    have hid := envCreate_ids hcreate
    have hnew : (K'.envs 0).env_id = 2048*((n+1)%2^21) := by
      rw [hid.new, mkenvid_eq (by decide), hi]
      omega
    have hasid : (K'.envs 0).env_asid = 0 := by
      have ha' := c.alloc.asid
      rw [ha] at ha'
      rw [c.env_asid]
      exact (Prod.mk.inj (Option.some.inj ha')).1.symm
    refine ⟨_, _, _, _, (run.create _ 1 hcreate).free K₀.phys c.runnable, rfl, ?_, ?_, ?_, ?_, ?_⟩
    · exact c.kernel_pagetable.trans hk
    · simp [envRelease, listInsertHead, Links.write, Links.setPrev]
    · have hfree := asidBit_free K'.asid_bitmap 0 0
      simp only [envRelease, Kernel.setPhys, Kernel.setEnv, hasid, hfree]
      simp
    · have hm : K'.mkenvid_i = (n+1)%2^32 := by
        rw [hid.mkenvid_i, hi]
        change (n%2^32+1)%2^32 = _
        omega
      exact hm
    · intro j hj
      by_cases hjn : j = n
      · subst hjn
        refine ⟨?_, _, List.mem_cons_self, c.runnable, hnew⟩
        rw [hnew]
        exact List.mem_cons_self
      · obtain ⟨hd, v, hv, hs⟩ := hids j (by omega)
        exact ⟨List.mem_cons_of_mem _ hd, v,
          List.mem_cons_of_mem _ (List.mem_cons_of_mem _ hv), hs⟩

/-- After 2^21 ids for `envs[0]` the first of them, freed long ago, is live again, and
the last one was 0. -/
theorem mkenvid_wraps : ∃ K₀ gs ds K vs, boot default (fun _ => 0) = .ok K₀ ∧
    LifeRun default K₀ gs ds K vs ∧
    (2048 ∈ ds ∧ envid2env K 2048 false = .ok (0, some (some 0))) ∧
    ∃ v ∈ vs, (v.2.envs 0).env_status = .ENV_RUNNABLE ∧ (v.2.envs 0).env_id = 0 := by
  obtain ⟨K₀, _, _, _, hboot, _⟩ := boot_ok default (fun _ => 0)
  obtain ⟨gs, ds, K, vs, run, hphys, hk, hf, hbit, hi, hids⟩ := slot_runs hboot (2^21)
  obtain ⟨_, _, _, _, _, _, c₀, _⟩ := envCreate_first hboot spinImage_aligned 1
  obtain ⟨b', ha⟩ := asidAlloc_zero hbit
  obtain ⟨K', _, _, hcreate, c⟩ := c₀.again hphys hk hf ha 1
  have hnew : (K'.envs 0).env_id = 2048 := by
    rw [(envCreate_ids hcreate).new, mkenvid_eq (by decide), hi]
    omega
  have hlive := envid2env_live (K := K') (e := 0) (by rw [hnew]; decide) (by rw [hnew]; decide)
    (by simp [c.runnable])
  rw [hnew] at hlive
  obtain ⟨_, v, hv, hs, hz⟩ := hids (2^21-1) (by decide)
  exact ⟨K₀, _, ds, K', _, hboot, run.create _ 1 hcreate, ⟨(hids 0 (by decide)).1, hlive⟩,
    v, List.mem_cons_of_mem _ hv, hs, hz⟩

end RiscvMos
