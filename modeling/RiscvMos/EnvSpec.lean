import RiscvMos.Env
import RiscvMos.SelfMap

/-! What the operations of env.c do to the tables of the kernel, whatever memory holds. -/
namespace RiscvMos
open ByteMem IntrusiveQueue Function

/-- The lists, the ASIDs and the env fields that the scheduler reads. -/
structure KeepsEnvs (K K' : Kernel) : Prop where
  env_sched_list : K'.env_sched_list = K.env_sched_list
  env_free_list : K'.env_free_list = K.env_free_list
  asid_bitmap : K'.asid_bitmap = K.asid_bitmap
  env_status : ∀ i, (K'.envs i).env_status = (K.envs i).env_status
  env_asid : ∀ i, (K'.envs i).env_asid = (K.envs i).env_asid
  env_pri : ∀ i, (K'.envs i).env_pri = (K.envs i).env_pri

theorem KeepsEnvs.refl (K : Kernel) : KeepsEnvs K K :=
  ⟨rfl, rfl, rfl, fun _ => rfl, fun _ => rfl, fun _ => rfl⟩

theorem KeepsEnvs.trans {K K' K'' : Kernel} (h : KeepsEnvs K K') (h' : KeepsEnvs K' K'') :
    KeepsEnvs K K'' :=
  ⟨h'.1.trans h.1, h'.2.trans h.2, h'.3.trans h.3, fun i => (h'.4 i).trans (h.4 i),
    fun i => (h'.5 i).trans (h.5 i), fun i => (h'.6 i).trans (h.6 i)⟩

theorem envs_update {β : Type} (f : Env → β) {envs : ℕ → Env} {e : ℕ} {v : Env}
    (h : f v = f (envs e)) (i : ℕ) : f (update envs e v i) = f (envs i) := by
  by_cases hi : i = e
  · rw [hi, update_self, h]
  · rw [update_of_ne hi]

theorem keepsEnvs_setEnv (K : Kernel) (s : Phys) {e : ℕ} {v : Env}
    (hs : v.env_status = (K.envs e).env_status) (ha : v.env_asid = (K.envs e).env_asid)
    (hp : v.env_pri = (K.envs e).env_pri) : KeepsEnvs K ((K.setPhys s).setEnv e v) :=
  ⟨rfl, rfl, rfl, envs_update _ hs, envs_update _ ha, envs_update _ hp⟩

theorem envRun_ok (L : Layout) {K : Kernel} {e : ℕ}
    (he : (K.envs e).env_status = .ENV_RUNNABLE) :
    ∃ K', envRun L K e = .ok K' ∧ KeepsEnvs K K' ∧ K'.curenv = some e ∧ K'.count = K.count ∧
      K'.phys = ⟨saveContext L K.phys.mem K.curenv, K.phys.freelist⟩ := by
  rw [envRun, if_neg (fun h => h he)]
  exact ⟨_, rfl, ⟨rfl, rfl, rfl, envs_update _ rfl, envs_update _ rfl, envs_update _ rfl⟩,
    rfl, rfl, rfl⟩

theorem envRun_cases {L : Layout} {K K' : Kernel} {e : ℕ} (h : envRun L K e = .ok K') :
    (K.envs e).env_status = .ENV_RUNNABLE ∧ KeepsEnvs K K' := by
  by_cases he : (K.envs e).env_status = .ENV_RUNNABLE
  · obtain ⟨K₁, hrun, hk, _⟩ := envRun_ok L he
    obtain rfl : K₁ = K' := Except.ok.inj (hrun.symm.trans h)
    exact ⟨he, hk⟩
  · rw [envRun, if_pos he] at h
    cases h

/-! ### Setting up an address space -/

/-- No page for the root, or a copy of the kernel's table with the self map. -/
theorem envSetupVm_cases {K K' : Kernel} {e : ℕ} {r : ℤ} (h : envSetupVm K e = .ok (r, K')) :
    (r = -E_NO_MEM ∧ ∃ s, uvmcreate K.phys = (0, s) ∧ K' = K.setPhys s) ∨
    (r = 0 ∧ ∃ pagetable s₁ s₂, uvmcreate K.phys = (pagetable, s₁) ∧ pagetable ≠ 0 ∧
      kvmCopyToUserPagetable s₁ K.kernel_pagetable pagetable = .ok (0, s₂) ∧
      K' = (K.setPhys ⟨selfMap s₂.mem pagetable, s₂.freelist⟩).setEnv e
        { K.envs e with env_pgtable := pagetable }) := by
  rw [envSetupVm] at h
  rcases hu : uvmcreate K.phys with ⟨pagetable, s₁⟩
  rw [hu] at h
  dsimp only at h
  by_cases h0 : pagetable = 0
  · rw [if_pos h0] at h
    obtain ⟨hr, hK⟩ := Prod.mk.inj (Except.ok.inj h)
    subst h0
    exact .inl ⟨hr.symm, s₁, rfl, hK.symm⟩
  · rw [if_neg h0] at h
    obtain ⟨⟨r', s₂⟩, hcopy, h⟩ := bind_eq_ok.mp h
    dsimp only at h
    by_cases hr : r' = 0
    · rw [if_neg (fun hne => hne hr)] at h
      obtain ⟨hr', hK⟩ := Prod.mk.inj (Except.ok.inj h)
      rw [hr] at hcopy
      exact .inr ⟨hr'.symm, pagetable, s₁, s₂, rfl, h0, hcopy, hK.symm⟩
    · rw [if_pos hr] at h
      cases h

theorem envSetupVm_keeps {K K' : Kernel} {e : ℕ} {r : ℤ} (h : envSetupVm K e = .ok (r, K')) :
    KeepsEnvs K K' := by
  rcases envSetupVm_cases h with ⟨_, s, _, rfl⟩ | ⟨_, pagetable, s₁, s₂, _, _, _, rfl⟩
  · exact ⟨rfl, rfl, rfl, fun _ => rfl, fun _ => rfl, fun _ => rfl⟩
  · exact keepsEnvs_setEnv K _ rfl rfl rfl

/-! ### Allocating an env -/

/-- The stores of `env_alloc` to the trap frame. -/
def initFrame (L : Layout) (m : Mem) (e : ℕ) : Mem :=
  store64 (store64 m (L.tf e+8*32) SSTATUS_SPIE) (L.tf e+8*29) (USTACKTOP-4-8)

/-- What `env_alloc` has done when it returns `e`: `K₁` is the kernel after
`env_setup_vm`. -/
structure Allocated (L : Layout) (K K₁ K' : Kernel) (e : ℕ) : Prop where
  setup : envSetupVm K e = .ok (0, K₁)
  head : K.env_free_list.first = some e
  asid : asidAlloc K.asid_bitmap = some ((K'.envs e).env_asid, K'.asid_bitmap)
  env_free_list : K'.env_free_list = listRemove K.env_free_list e
  env_sched_list : K'.env_sched_list = K.env_sched_list
  phys : K'.phys = ⟨initFrame L K₁.phys.mem e, K₁.phys.freelist⟩
  env_status : ∀ i, (K'.envs i).env_status = (K.envs i).env_status
  env_pgtable : ∀ i, (K'.envs i).env_pgtable = (K₁.envs i).env_pgtable
  env_asid : ∀ i, i ≠ e → (K'.envs i).env_asid = (K.envs i).env_asid
  kernel_pagetable : K'.kernel_pagetable = K.kernel_pagetable
  curenv : K'.curenv = K.curenv

/-- The kernel with an id for the new env `e`. -/
def withId (K : Kernel) (e : ℕ) : Kernel :=
  { K with mkenvid_i := (mkenvid K.mkenvid_i e).2 }.setEnv e
    { K.envs e with env_runs := 0, env_id := (mkenvid K.mkenvid_i e).1 }

theorem withId_keeps (K : Kernel) (e : ℕ) : KeepsEnvs K (withId K e) :=
  ⟨rfl, rfl, rfl, envs_update _ rfl, envs_update _ rfl, envs_update _ rfl⟩

@[simp] theorem withId_env_id (K : Kernel) (e : ℕ) :
    ((withId K e).envs e).env_id = (mkenvid K.mkenvid_i e).1 := by
  simp only [withId, Kernel.setEnv, update_self]

@[simp] theorem withId_envs (K : Kernel) {e i : ℕ} (hi : i ≠ e) : (withId K e).envs i = K.envs i := by
  simp only [withId, Kernel.setEnv, update_of_ne hi]

/-- The kernel with the rest of the new env. -/
def withEnv (L : Layout) (K : Kernel) (parent_id e asid : ℕ) (bitmap : ℕ → BitVec 32) : Kernel :=
  { K with
    phys := ⟨initFrame L K.phys.mem e, K.phys.freelist⟩
    asid_bitmap := bitmap
    env_free_list := listRemove K.env_free_list e }.setEnv e
      { K.envs e with env_asid := asid, env_parent_id := parent_id }

/-- The ways in which `env_alloc` returns. -/
inductive AllocReturns (L : Layout) (K : Kernel) (parent_id : ℕ) : ℤ → Option ℕ → Kernel → Prop
  | no_env : K.env_free_list.first = none →
      AllocReturns L K parent_id (-E_NO_FREE_ENV) none K
  | no_space {e : ℕ} {r : ℤ} {K₁ : Kernel} : K.env_free_list.first = some e →
      envSetupVm K e = .ok (r, K₁) → r ≠ 0 → AllocReturns L K parent_id r none K₁
  | no_asid {e : ℕ} {K₁ : Kernel} : K.env_free_list.first = some e →
      envSetupVm K e = .ok (0, K₁) → asidAlloc K₁.asid_bitmap = none →
      AllocReturns L K parent_id (-E_NO_FREE_ENV) none (withId K₁ e)
  | new {e asid : ℕ} {bitmap : ℕ → BitVec 32} {K₁ : Kernel} : K.env_free_list.first = some e →
      envSetupVm K e = .ok (0, K₁) → asidAlloc K₁.asid_bitmap = some (asid, bitmap) →
      AllocReturns L K parent_id 0 (some e) (withEnv L (withId K₁ e) parent_id e asid bitmap)

theorem envAlloc_returns {L : Layout} {K K' : Kernel} {parent_id : ℕ} {r : ℤ} {new : Option ℕ}
    (h : envAlloc L K parent_id = .ok (r, new, K')) : AllocReturns L K parent_id r new K' := by
  rw [envAlloc] at h
  cases hf : K.env_free_list.first with
  | none =>
    rw [hf] at h
    cases h
    exact .no_env hf
  | some e =>
    rw [hf] at h
    obtain ⟨⟨r', K₁⟩, hsetup, h⟩ := bind_eq_ok.mp h
    dsimp only at h
    by_cases hr : r' = 0
    · subst hr
      rw [if_neg (fun hne => hne rfl)] at h
      cases ha : asidAlloc K₁.asid_bitmap with
      | none =>
        simp only [Kernel.setEnv, ha] at h
        cases h
        exact .no_asid hf hsetup ha
      | some x =>
        obtain ⟨asid, bitmap⟩ := x
        simp only [Kernel.setEnv, Kernel.setMem, ha] at h
        cases h
        exact .new hf hsetup ha
    · rw [if_pos hr] at h
      cases h
      exact .no_space hf hsetup hr

theorem envAlloc_cases {L : Layout} {K K' : Kernel} {parent_id : ℕ} {r : ℤ} {new : Option ℕ}
    (h : envAlloc L K parent_id = .ok (r, new, K')) :
    (new = none ∧ r ≠ 0 ∧ KeepsEnvs K K') ∨
      ∃ e K₁, new = some e ∧ r = 0 ∧ Allocated L K K₁ K' e := by
  cases envAlloc_returns h with
  | no_env hf => exact .inl ⟨rfl, by decide, KeepsEnvs.refl K⟩
  | no_space hf hsetup hr => exact .inl ⟨rfl, hr, envSetupVm_keeps hsetup⟩
  | @no_asid e K₁ hf hsetup ha =>
    exact .inl ⟨rfl, by decide, (envSetupVm_keeps hsetup).trans (withId_keeps K₁ e)⟩
  | @new e asid bitmap K₁ hf hsetup ha =>
    have hk := (envSetupVm_keeps hsetup).trans (withId_keeps K₁ e)
    have hkept : K₁.kernel_pagetable = K.kernel_pagetable ∧ K₁.curenv = K.curenv := by
      rcases envSetupVm_cases hsetup with ⟨_, s, _, rfl⟩ | ⟨_, pagetable, s₁, s₂, _, _, _, rfl⟩
      · exact ⟨rfl, rfl⟩
      · exact ⟨rfl, rfl⟩
    refine .inr ⟨e, K₁, rfl, rfl, hsetup, hf, ?_, ?_, hk.env_sched_list, rfl, fun i => ?_, fun i => ?_,
      fun i hi => ?_, hkept.1, hkept.2⟩
    · rw [← (envSetupVm_keeps hsetup).asid_bitmap, ha]
      simp only [withEnv, Kernel.setEnv, update_self]
    · rw [← hk.env_free_list]
      rfl
    · refine (envs_update Env.env_status ?_ i).trans (hk.env_status i)
      rfl
    · refine (envs_update Env.env_pgtable ?_ i).trans (envs_update Env.env_pgtable ?_ i)
      · rfl
      · rfl
    · rw [← hk.env_asid i]
      simp only [withEnv, Kernel.setEnv, update_of_ne hi]

theorem envAlloc_setup (L : Layout) {K K₁ : Kernel} {e : ℕ} (parent_id : ℕ)
    (hf : K.env_free_list.first = some e) (hs : envSetupVm K e = .ok (0, K₁)) :
    envAlloc L K parent_id = match asidAlloc K.asid_bitmap with
      | none => .ok (-E_NO_FREE_ENV, none, withId K₁ e)
      | some x => .ok (0, some e, withEnv L (withId K₁ e) parent_id e x.1 x.2) := by
  rw [← (envSetupVm_keeps hs).asid_bitmap, envAlloc, hf]
  dsimp only
  rw [hs, ok_bind]
  dsimp only
  rw [if_neg (fun hne => hne rfl)]
  cases ha : asidAlloc K₁.asid_bitmap with
  | none =>
    simp only [Kernel.setEnv, ha]
    rfl
  | some x =>
    obtain ⟨asid, bitmap⟩ := x
    simp only [Kernel.setEnv, Kernel.setMem, ha]
    rfl

theorem envAlloc_ok (L : Layout) {K K₁ : Kernel} {e asid : ℕ} {bitmap : ℕ → BitVec 32}
    (parent_id : ℕ) (hf : K.env_free_list.first = some e) (hs : envSetupVm K e = .ok (0, K₁))
    (ha : asidAlloc K.asid_bitmap = some (asid, bitmap)) :
    ∃ K', envAlloc L K parent_id = .ok (0, some e, K') ∧ Allocated L K K₁ K' e := by
  obtain ⟨K', h⟩ : ∃ K', envAlloc L K parent_id = .ok (0, some e, K') := by
    rw [envAlloc_setup L parent_id hf hs, ha]
    exact ⟨_, rfl⟩
  refine ⟨K', h, ?_⟩
  rcases envAlloc_cases h with ⟨hn, _⟩ | ⟨e', K₁', he, _, a⟩
  · cases hn
  · obtain rfl := Option.some.inj he
    have hs' := a.setup
    rw [hs] at hs'
    obtain rfl := (Prod.mk.inj (Except.ok.inj hs')).2
    exact a

theorem envAlloc_no_asid (L : Layout) {K K₁ : Kernel} {e : ℕ} (parent_id : ℕ)
    (hf : K.env_free_list.first = some e) (hs : envSetupVm K e = .ok (0, K₁))
    (ha : asidAlloc K.asid_bitmap = none) :
    ∃ K', envAlloc L K parent_id = .ok (-E_NO_FREE_ENV, none, K') := by
  rw [envAlloc_setup L parent_id hf hs, ha]
  exact ⟨_, rfl⟩

/-! ### Creating an env -/

/-- Where `env_alloc` fails, the pointer to the new env is not set. -/
theorem envCreate_unset {L : Layout} {K K' : Kernel} {r : ℤ}
    (h : envAlloc L K 0 = .ok (r, none, K')) (img : Image) (priority : ℤ) :
    envCreate L K img priority = .error (.unsetPointer "e") := by
  rw [envCreate, h]
  rfl

/-- What `env_create` has done when it returns `e`: `K₁` is the kernel after
`env_setup_vm`, `K₂` after `env_alloc`, `s` the memory after the loader. -/
structure Created (L : Layout) (K K₁ K₂ K' : Kernel) (s : Phys) (e : ℕ) (img : Image)
    (ehdr : Ehdr) : Prop where
  call : envAlloc L K 0 = .ok (0, some e, K₂)
  alloc : Allocated L K K₁ K₂ e
  elf : elfFrom img = some ehdr
  load : loadSegments (loadIcodeMapper img (K₂.envs e).env_pgtable) img ehdr K₂.phys 0
    ehdr.e_phoff = .ok s
  phys : K'.phys = ⟨store64 s.mem (L.tf e+8*33) ehdr.e_entry, s.freelist⟩
  env_sched_list : K'.env_sched_list = tailqInsertHead K.env_sched_list e
  env_free_list : K'.env_free_list = K₂.env_free_list
  asid_bitmap : K'.asid_bitmap = K₂.asid_bitmap
  runnable : (K'.envs e).env_status = .ENV_RUNNABLE
  env_status : ∀ i, i ≠ e → (K'.envs i).env_status = (K.envs i).env_status
  env_pgtable : ∀ i, (K'.envs i).env_pgtable = (K₁.envs i).env_pgtable
  env_asid : ∀ i, (K'.envs i).env_asid = (K₂.envs i).env_asid
  kernel_pagetable : K'.kernel_pagetable = K.kernel_pagetable
  curenv : K'.curenv = K.curenv

/-- The kernel after the loader left `s`, with `e` in the queue. -/
def withQueued (K : Kernel) (s : Phys) (e : ℕ) (priority : ℤ) : Kernel :=
  { (K.setPhys s).setEnv e
      { K.envs e with env_pri := (priority%2^32).toNat, env_status := .ENV_RUNNABLE } with
    env_sched_list := tailqInsertHead K.env_sched_list e }

theorem envCreate_returns {L : Layout} {K K' : Kernel} {img : Image} {priority : ℤ} {e : ℕ}
    (h : envCreate L K img priority = .ok (e, K')) :
    ∃ K₂ ehdr s, envAlloc L K 0 = .ok (0, some e, K₂) ∧ elfFrom img = some ehdr ∧
      loadSegments (loadIcodeMapper img (K₂.envs e).env_pgtable) img ehdr K₂.phys 0 ehdr.e_phoff =
        .ok s ∧
      K' = withQueued K₂ ⟨store64 s.mem (L.tf e+8*33) ehdr.e_entry, s.freelist⟩ e priority := by
  rw [envCreate] at h
  obtain ⟨⟨r, new, K₂⟩, halloc, h⟩ := bind_eq_ok.mp h
  rcases envAlloc_cases halloc with ⟨rfl, _⟩ | ⟨e', K₁, rfl, rfl, _⟩
  · cases h
  dsimp only at h
  obtain ⟨K₃, hload, h⟩ := bind_eq_ok.mp h
  obtain ⟨rfl, rfl⟩ := Prod.mk.inj (Except.ok.inj h)
  rw [loadIcode] at hload
  cases hel : elfFrom img with
  | none =>
    rw [hel] at hload
    cases hload
  | some ehdr =>
    rw [hel] at hload
    obtain ⟨s, hseg, hload⟩ := bind_eq_ok.mp hload
    cases hload
    simp only [Kernel.setEnv, update_self] at hseg
    exact ⟨K₂, ehdr, s, halloc, rfl, hseg, rfl⟩

theorem envCreate_cases {L : Layout} {K K' : Kernel} {img : Image} {priority : ℤ} {e : ℕ}
    (h : envCreate L K img priority = .ok (e, K')) :
    ∃ K₁ K₂ s ehdr, Created L K K₁ K₂ K' s e img ehdr := by
  obtain ⟨K₂, ehdr, s, halloc, hel, hload, rfl⟩ := envCreate_returns h
  rcases envAlloc_cases halloc with ⟨hn, _⟩ | ⟨e', K₁, he, _, a⟩
  · cases hn
  obtain rfl := Option.some.inj he
  refine ⟨K₁, K₂, s, ehdr, halloc, a, hel, hload, rfl, ?_, rfl, rfl, ?_, fun i hi => ?_, fun i => ?_,
    fun i => ?_, a.kernel_pagetable, a.curenv⟩
  · rw [← a.env_sched_list]
    rfl
  · simp only [withQueued, Kernel.setEnv, update_self]
  · rw [← a.env_status i]
    simp only [withQueued, Kernel.setEnv, Kernel.setPhys, update_of_ne hi]
  · refine (envs_update Env.env_pgtable ?_ i).trans (a.env_pgtable i)
    rfl
  · refine envs_update Env.env_asid ?_ i
    rfl

theorem envCreate_ok {L : Layout} {K K₂ : Kernel} {img : Image} {e : ℕ} {ehdr : Ehdr} {s : Phys}
    (priority : ℤ) (ha : envAlloc L K 0 = .ok (0, some e, K₂)) (hel : elfFrom img = some ehdr)
    (hload : loadSegments (loadIcodeMapper img (K₂.envs e).env_pgtable) img ehdr K₂.phys 0
      ehdr.e_phoff = .ok s) :
    ∃ K' K₁, envCreate L K img priority = .ok (e, K') ∧ Created L K K₁ K₂ K' s e img ehdr := by
  obtain ⟨K', h⟩ : ∃ K', envCreate L K img priority = .ok (e, K') := by
    rw [envCreate, ha, ok_bind]
    simp only [loadIcode, hel, Kernel.setEnv, update_self]
    rw [hload]
    exact ⟨_, rfl⟩
  obtain ⟨K₁, K₂', s', ehdr', c⟩ := envCreate_cases h
  have ha' := c.call
  rw [ha] at ha'
  obtain rfl := (Prod.mk.inj (Prod.mk.inj (Except.ok.inj ha')).2).2
  obtain rfl := Option.some.inj (hel.symm.trans c.elf)
  obtain rfl := Except.ok.inj (hload.symm.trans c.load)
  exact ⟨K', K₁, h, c⟩

theorem envSetupVm_congr {K₀ K₁ K : Kernel} {e : ℕ} (h : envSetupVm K₀ e = .ok (0, K₁))
    (hphys : K.phys = K₀.phys) (hk : K.kernel_pagetable = K₀.kernel_pagetable) :
    ∃ K', envSetupVm K e = .ok (0, K') ∧ K'.phys = K₁.phys ∧
      (K'.envs e).env_pgtable = (K₁.envs e).env_pgtable := by
  rcases envSetupVm_cases h with ⟨hr, _⟩ | ⟨_, pagetable, s₁, s₂, hu, h0, hcopy, rfl⟩
  · exact absurd hr (by decide)
  · refine ⟨(K.setPhys ⟨selfMap s₂.mem pagetable, s₂.freelist⟩).setEnv e
      { K.envs e with env_pgtable := pagetable }, ?_, rfl, ?_⟩
    · rw [envSetupVm, hphys, hu]
      dsimp only
      rw [if_neg h0, hk, hcopy, ok_bind]
      rfl
    · simp only [Kernel.setEnv, update_self]

/-- A call that succeeded once succeeds from every state with the same memory, the same
first free env and a free ASID. -/
theorem Created.again {L : Layout} {K₀ K₁ K₂ K₀' K : Kernel} {s : Phys} {e asid : ℕ} {img : Image}
    {ehdr : Ehdr} {bitmap : ℕ → BitVec 32} (c : Created L K₀ K₁ K₂ K₀' s e img ehdr)
    (hphys : K.phys = K₀.phys) (hk : K.kernel_pagetable = K₀.kernel_pagetable)
    (hf : K.env_free_list.first = some e) (ha : asidAlloc K.asid_bitmap = some (asid, bitmap))
    (priority : ℤ) :
    ∃ K' K₁' K₂', envCreate L K img priority = .ok (e, K') ∧
      Created L K K₁' K₂' K' s e img ehdr := by
  obtain ⟨K₁', hsetup, hp, hroot⟩ := envSetupVm_congr c.alloc.setup hphys hk
  obtain ⟨K₂', halloc, a⟩ := envAlloc_ok L 0 hf hsetup ha
  have hphys₂ : K₂'.phys = K₂.phys := by rw [a.phys, c.alloc.phys, hp]
  have hroot₂ : (K₂'.envs e).env_pgtable = (K₂.envs e).env_pgtable := by
    rw [a.env_pgtable, c.alloc.env_pgtable, hroot]
  have hload := c.load
  rw [← hroot₂, ← hphys₂] at hload
  obtain ⟨K', K₁'', hcreate, c'⟩ := envCreate_ok priority halloc c.elf hload
  exact ⟨K', K₁'', K₂', hcreate, c'⟩

end RiscvMos
