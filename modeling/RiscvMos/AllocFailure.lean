import RiscvMos.Histories
import RiscvMos.ManyEnvs

/-! `env_alloc` when it fails: without a free page it has taken nothing, and without a free
ASID it has already built an address space. -/
namespace RiscvMos
open ByteMem IntrusiveQueue LinkChain Function

/-- A call of `env_alloc` that returns a negative code. -/
def FailedAlloc (L : Layout) (K K' : Kernel) : Prop :=
  ∃ parent_id r new, envAlloc L K parent_id = .ok (r, new, K') ∧ r < 0

/-- The page is on `kmem.freelist`. -/
def OnFreeList (s : Phys) (p : ℕ) : Prop := ∃ l, Chain (load64 s.mem) 0 s.freelist l ∧ p ∈ l

/-- Pages, ASIDs and envs are as they were. -/
structure SameResources (K K' : Kernel) : Prop where
  freelist : ∀ p, OnFreeList K'.phys p ↔ OnFreeList K.phys p
  asid_bitmap : K'.asid_bitmap = K.asid_bitmap
  env_free_list : K'.env_free_list = K.env_free_list
  env_sched_list : K'.env_sched_list = K.env_sched_list
  env_status : ∀ i, (K'.envs i).env_status = (K.envs i).env_status

theorem SameResources.refl (K : Kernel) : SameResources K K :=
  ⟨fun _ => Iff.rfl, rfl, rfl, rfl, fun _ => rfl⟩

theorem onFreeList_iff {s : Phys} {l : List ℕ} (h : FreeList s l) (p : ℕ) :
    OnFreeList s p ↔ p ∈ l := by
  constructor
  · rintro ⟨l', hc, hp⟩
    rwa [chain_unique h.chain hc]
  · exact fun hp => ⟨l, h.chain, hp⟩

theorem History.wellFormed {L : Layout} {K : Kernel} (history : History L K) :
    ∃ l, WellFormed K.phys K.kernel_pagetable l := by
  obtain ⟨_, _, _, _, l, _, _, h⟩ := history.inv
  have hs := h.isolation.owned.spaces
  exact ⟨l, hs.typed.wellFormed_clear hs.kernel hs.kernel_clear⟩

section
variable {L : Layout} {K K' : Kernel}

theorem FailedAlloc.keeps (h : FailedAlloc L K K') : KeepsEnvs K K' := by
  obtain ⟨parent_id, r, new, hrun, hr⟩ := h
  rcases envAlloc_cases hrun with ⟨_, _, hk⟩ | ⟨_, _, _, rfl, _⟩
  · exact hk
  · exact absurd hr (by decide)

/-- It failed before `env_setup_vm`, in it, or after it for lack of an ASID. -/
theorem FailedAlloc.cases (h : FailedAlloc L K K') :
    (K.env_free_list.first = none ∧ K' = K) ∨
      ∃ e r K₁, K.env_free_list.first = some e ∧ envSetupVm K e = .ok (r, K₁) ∧
        (r ≠ 0 ∧ K' = K₁ ∨
          r = 0 ∧ K'.phys = K₁.phys ∧ K'.kernel_pagetable = K₁.kernel_pagetable) := by
  obtain ⟨parent_id, r, new, hrun, hr⟩ := h
  cases envAlloc_returns hrun with
  | no_env hf => exact .inl ⟨hf, rfl⟩
  | no_space hf hsetup hr' => exact .inr ⟨_, _, _, hf, hsetup, .inl ⟨hr', rfl⟩⟩
  | no_asid hf hsetup ha => exact .inr ⟨_, _, _, hf, hsetup, .inr ⟨rfl, rfl, rfl⟩⟩
  | new hf hsetup ha => exact absurd hr (by decide)

theorem FailedAlloc.of_no_page (h : FailedAlloc L K K') (hf : K.phys.freelist = 0) : K' = K := by
  rcases h.cases with ⟨_, rfl⟩ | ⟨e, r, K₁, _, hsetup, hcase⟩
  · rfl
  · rw [envSetupVm_nil hf] at hsetup
    obtain ⟨rfl, rfl⟩ := Prod.mk.inj (Except.ok.inj hsetup)
    rcases hcase with ⟨_, rfl⟩ | ⟨hr, _⟩
    · rfl
    · exact absurd hr (by decide)

/-- With one the call has kept the first free page, and the table pages of a space. -/
theorem FailedAlloc.takes (h : FailedAlloc L K K') (hfirst : K.env_free_list.first ≠ none) {u : ℕ}
    {l₁ : List ℕ} (hk : WellFormed K.phys K.kernel_pagetable (u :: l₁)) :
    K'.kernel_pagetable = K.kernel_pagetable ∧ ∃ l', WellFormed K'.phys K.kernel_pagetable l' ∧
      l' <:+ l₁ := by
  rcases h.cases with ⟨hnone, _⟩ | ⟨e, r, K₁, _, hsetup, hcase⟩
  · exact absurd hnone hfirst
  rcases hk.envSetupVm_cons e with ⟨K₂, l', hrun, hroot, t⟩ | ⟨_, hpanic⟩
  · obtain ⟨rfl, rfl⟩ := Prod.mk.inj (Except.ok.inj (hrun.symm.trans hsetup))
    rcases hcase with ⟨hr, _⟩ | ⟨_, hphys, hroot'⟩
    · exact absurd rfl hr
    · refine ⟨hroot'.trans hroot, l', ?_, t.suffix⟩
      rw [hphys]
      exact t.table
  · rw [hpanic] at hsetup
    cases hsetup

/-! ### Repeated calls -/

theorem failedAllocs_keep (h : Relation.TransGen (FailedAlloc L) K K') : KeepsEnvs K K' := by
  induction h with
  | single h => exact h.keeps
  | tail _ h ih => exact ih.trans h.keeps

theorem failedAllocs_no_page (h : Relation.TransGen (FailedAlloc L) K K')
    (hf : K.phys.freelist = 0) : K' = K := by
  induction h with
  | single h => exact h.of_no_page hf
  | tail _ h ih =>
    subst ih
    exact h.of_no_page hf

theorem failedAllocs_take (h : Relation.TransGen (FailedAlloc L) K K')
    (hfirst : K.env_free_list.first ≠ none) {u : ℕ} {l₁ : List ℕ}
    (hk : WellFormed K.phys K.kernel_pagetable (u :: l₁)) :
    ∃ l', WellFormed K'.phys K'.kernel_pagetable l' ∧ l' <:+ l₁ := by
  induction h with
  | single h =>
    obtain ⟨hroot, l', hk', hl⟩ := h.takes hfirst hk
    rw [← hroot] at hk'
    exact ⟨l', hk', hl⟩
  | @tail K₁ K₂ hrun h ih =>
    obtain ⟨l, hk₁, hl⟩ := ih
    have hfirst₁ : K₁.env_free_list.first ≠ none := by
      rw [(failedAllocs_keep hrun).env_free_list]
      exact hfirst
    cases l with
    | nil =>
      rw [h.of_no_page hk₁.free.chain]
      exact ⟨[], hk₁, hl⟩
    | cons c l =>
      obtain ⟨hroot, l', hk', hl'⟩ := h.takes hfirst₁ hk₁
      rw [← hroot] at hk'
      exact ⟨l', hk', (hl'.trans (List.suffix_cons c l)).trans hl⟩

theorem failedAllocs_lose (h : Relation.TransGen (FailedAlloc L) K K')
    (hfirst : K.env_free_list.first ≠ none) {u : ℕ} {l₁ : List ℕ}
    (hk : WellFormed K.phys K.kernel_pagetable (u :: l₁)) : ¬SameResources K K' := by
  intro same
  obtain ⟨l', hk', hl⟩ := failedAllocs_take h hfirst hk
  have hu : u ∈ l' := by
    rw [← onFreeList_iff hk'.free, same.freelist, onFreeList_iff hk.free]
    exact List.mem_cons_self
  exact (List.nodup_cons.mp hk.free.nodup).1 (hl.subset hu)

end

/-- After failing calls of `env_alloc` the resources are as they were if there is no free
page, and, where the kernel's table and the free list are intact, only then. -/
theorem env_alloc_atomic {L : Layout} {m : Mem} {K₀ K K' : Kernel} (hboot : boot L m = .ok K₀)
    (run : Relation.ReflTransGen (SchedStep L) K₀ K)
    (fails : Relation.TransGen (FailedAlloc L) K K') :
    (K.phys.freelist = 0 → SameResources K K') ∧
      ∀ l, WellFormed K.phys K.kernel_pagetable l →
        (SameResources K K' ↔ K.phys.freelist = 0) := by
  have hnull : K.phys.freelist = 0 → SameResources K K' := by
    intro hf
    rw [failedAllocs_no_page fails hf]
    exact .refl K
  refine ⟨hnull, fun l hk => ⟨fun same => ?_, hnull⟩⟩
  cases l with
  | nil => exact hk.free.chain
  | cons u l =>
    -- there are fewer ASIDs than envs, so the call did not fail for lack of an env
    obtain ⟨ql, fl, hs⟩ := (boot_schedInv hboot).run run
    obtain ⟨e, _, he⟩ := hs.first
    have hfirst : K.env_free_list.first ≠ none := by simp [he]
    exact absurd same (failedAllocs_lose fails hfirst hk)

theorem env_alloc_atomic_crowd : ∃ K₀ K K' l, boot default (fun _ => 0) = .ok K₀ ∧
    Relation.ReflTransGen (SchedStep default) K₀ K ∧
    Relation.TransGen (FailedAlloc default) K K' ∧ WellFormed K.phys K.kernel_pagetable l ∧
    (SameResources K K' ↔ K.phys.freelist = 0) := by
  obtain ⟨K₀, _, _, _, hboot, _⟩ := boot_ok default (fun _ => 0)
  obtain ⟨cs, K, fr, u, l, created, _, h⟩ := exists_crowd hboot
  obtain ⟨K', hrun⟩ := h.alloc_fails 0
  have fails : Relation.TransGen (FailedAlloc default) K K' :=
    .single ⟨0, _, none, hrun, by decide⟩
  exact ⟨K₀, K, K', u :: l, hboot, created.steps, fails, h.table,
    (env_alloc_atomic hboot created.steps fails).2 _ h.table⟩

/-- With 256 envs the call fails for lack of an ASID, and the address space that it has
built for the env is lost. -/
theorem env_alloc_leaks : ∃ K₀ K K', boot default (fun _ => 0) = .ok K₀ ∧
    Relation.ReflTransGen (SchedStep default) K₀ K ∧
    envAlloc default K 0 = .ok (-E_NO_FREE_ENV, none, K') ∧ ¬SameResources K K' := by
  obtain ⟨K₀, _, _, _, hboot, _⟩ := boot_ok default (fun _ => 0)
  obtain ⟨cs, K, fr, u, l, created, _, h⟩ := exists_crowd hboot
  obtain ⟨K', hrun⟩ := h.alloc_fails 0
  obtain ⟨ql, fl, hs⟩ := h.sched
  obtain ⟨e, _, he⟩ := hs.first
  have hfirst : K.env_free_list.first ≠ none := by simp [he]
  refine ⟨K₀, K, K', hboot, created.steps, hrun, ?_⟩
  exact failedAllocs_lose (.single ⟨0, _, none, hrun, by decide⟩) hfirst h.table

end RiscvMos
