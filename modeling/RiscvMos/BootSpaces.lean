import RiscvMos.BootTable
import RiscvMos.EnvSpec
import RiscvMos.Spaces

/-! The state after boot, and `env_setup_vm` on the kernel's state. -/
namespace RiscvMos
open ByteMem LinkChain Function

/-- What boot leaves: the kernel's leaves are `kernelLeaf`, the envs' pages are `fr`. -/
structure Booted (L : Layout) (K : Kernel) (fr : ℕ → ℕ) (τ : Typing) (l : List ℕ) : Prop where
  building : Building K.phys K.kernel_pagetable 30719 (kernelLeaf L.etext fr) τ l
  frames : ∀ j < NENV, IsPage (fr j)
  curenv : K.curenv = none
  asid_bitmap : K.asid_bitmap = fun _ => 0

theorem boot_ok (L : Layout) (m : Mem) :
    ∃ K fr τ l, boot L m = .ok K ∧ Booted L K fr τ l := by
  obtain ⟨s₀, hk, hfree⟩ := kinit_heap m
  obtain ⟨k, s, fr, τ, l, hcreate, b, hfr⟩ := kvmcreate_ok L.etext hfree L.etext_gt L.etext_lt
  have hstart : (Kernel.start m).phys = ⟨m, 0⟩ := rfl
  have hphys : ((Kernel.start m).setPhys s₀).phys = s₀ := rfl
  refine ⟨envInit (kvmInit { (Kernel.start m).setPhys s₀ with phys := s, kernel_pagetable := k }),
    fr, τ, l, ?_, ?_⟩
  · rw [boot]
    dsimp only
    rw [hstart, hk, ok_bind, kpgtableInit, hphys, hcreate]
    rfl
  · exact ⟨b, hfr, rfl, rfl⟩

theorem boot_booted {L : Layout} {m : Mem} {K : Kernel} (h : boot L m = .ok K) :
    ∃ fr τ l, Booted L K fr τ l := by
  obtain ⟨K', fr, τ, l, h', b⟩ := boot_ok L m
  obtain rfl : K' = K := Except.ok.inj (h'.symm.trans h)
  exact ⟨fr, τ, l, b⟩

theorem Booted.spaces {L : Layout} {K : Kernel} {fr : ℕ → ℕ} {τ : Typing} {l : List ℕ}
    (b : Booted L K fr τ l) :
    Spaces K.kernel_pagetable (kernelLeaf L.etext fr) K.phys τ noSelfMap l where
  typed := b.building.typed
  kernel := (b.building.roots _).mpr rfl
  kernel_clear := fun h => h
  roots r hr := Or.inl ((b.building.roots r).mp hr)
  high r i hr hlo hhi := by
    rw [(b.building.roots r).mp hr]
    exact b.building.high i hlo hhi
  kernel_leaves := b.building.leaves
  shared r v hr := hr.elim

theorem Booted.length {L : Layout} {K : Kernel} {fr : ℕ → ℕ} {τ : Typing} {l : List ℕ}
    (b : Booted L K fr τ l) : 30575 ≤ l.length := by
  obtain ⟨P, hP, _, hle⟩ := b.building.budget
  have hcard := Finset.card_le_card hP
  have hboot := bootRegions_card
  omega

theorem kernelLeaf_region {etext : ℕ} {fr : ℕ → ℕ} (hlo : 0x80000000 < etext)
    (hhi : etext < KERNEND) {v : ℕ} (hv : v < 2^26) (hval : Valid (kernelLeaf etext fr v)) :
    v/512 ∈ bootRegions := by
  obtain ⟨hend, _, hn, htop, _, hd, hp⟩ := kernel_layout etext
  rw [mem_bootRegions]
  rcases kernelLeaf_cases hlo hhi hv hval with ⟨h1, h2, _⟩ | ⟨h1, h2, _⟩ | ⟨h1, h2, _⟩ | ⟨h, _⟩
  · omega
  · omega
  · omega
  · rw [DevicePage] at h
    omega

section
variable {k : ℕ} {f : ℕ → ℕ} {s : Phys} {τ : Typing} {sm : ℕ → Prop} {l : List ℕ}

theorem Spaces.setup_map {u : ℕ} {l₁ : List ℕ} {G : Finset ℕ} (h : Spaces k f s τ sm (u :: l₁))
    (hf : ∀ v, 2^19 ≤ v → v < 2^26 → Valid (f v) → v/512 ∈ G) (hG : 2*G.card < l₁.length) :
    ∃ s₁ s₂ τ' l', uvmcreate s = (u, s₁) ∧ u ≠ 0 ∧
      kvmCopyToUserPagetable s₁ k u = .ok (0, s₂) ∧
      SetupOut k f s τ sm (u :: l₁) u ⟨selfMap s₂.mem u, s₂.freelist⟩ τ' l' ∧
      l₁.length ≤ l'.length+2*G.card := by
  have hfree := h.typed.free_kind List.mem_cons_self
  have hpage := h.typed.free.pages u List.mem_cons_self
  have hb := hpage.bounds
  have hu0 : u ≠ 0 := by omega
  obtain ⟨x, hk, ht, hz, hm⟩ := h.typed.kalloc_root
  have hu : uvmcreate s = (u, ⟨(memset x.mem u 0 PAGE_SIZE).2, x.freelist⟩) := by
    rw [uvmcreate, hk]
    dsimp only
    rw [if_neg hu0]
  have husm (i : ℕ) : Clear sm u 2 i :=
    fun hh => Typed.ne_of_free hfree (h.root_of_sm hh.1) rfl
  have hku : k ≠ u := Typed.ne_of_free hfree h.kernel
  have hkr : update τ u (.table 2 none) k = .table 2 none := by
    rw [update_other_kind τ _ hku, h.kernel]
  have hleaf (w : ℕ) (hw : w < 2^26) : leaf (memset x.mem u 0 PAGE_SIZE).2 k w = f w := by
    rw [← h.kernel_leaves w hw]
    exact h.typed.leafFrom_agree (h.typed.table_agree hpage (Typed.not_table_of_free hfree) hm) w
      h.kernel (h.clear_kernel _)
  have hempty (w : ℕ) : leaf (memset x.mem u 0 PAGE_SIZE).2 u w = 0 := leafFrom_zeroPage hz 2 w
  obtain ⟨s₂, τ₂, l₂, hrun, c, hb₂⟩ := Typed.kvmCopyLoop_map (N := l₁.length) h.clear_kernel husm
    hku hG (2^26-2^19) ht (by decide) hkr (update_same_kind τ u _)
    (fun w h1 h2 hval => hf w h1 h2 (by rwa [← hleaf w h2]))
    (fun w _ _ => by rw [hempty]; exact not_Valid_zero) (Budget.start _ _ _ _)
  refine ⟨_, s₂, _, l₂, hu, hu0, ?_, h.setup_copy ht hz hm c, ?_⟩
  · rw [kvmCopyToUserPagetable, page_base]
    exact hrun
  · obtain ⟨P, hP, _, hle⟩ := hb₂
    have hcard := Finset.card_le_card hP
    omega

end

/-! ### On the kernel's state -/

theorem envSetupVm_spaces {K K' : Kernel} {e : ℕ} {r : ℤ} {f : ℕ → ℕ} {τ : Typing}
    {sm : ℕ → Prop} {l : List ℕ} (h : Spaces K.kernel_pagetable f K.phys τ sm l)
    (hrun : envSetupVm K e = .ok (r, K')) :
    K'.kernel_pagetable = K.kernel_pagetable ∧
      ((r ≠ 0 ∧ K' = K) ∨
        (r = 0 ∧ ∃ τ' l', K'.envs = update K.envs e (K'.envs e) ∧
          SetupOut K.kernel_pagetable f K.phys τ sm l (K'.envs e).env_pgtable K'.phys τ' l')) := by
  rcases envSetupVm_cases hrun with ⟨hr, s, hu, rfl⟩ | ⟨hr, u, s₁, s₂, hu, hu0, hcopy, rfl⟩
  · refine ⟨rfl, Or.inl ⟨by rw [hr]; decide, ?_⟩⟩
    -- `kalloc` found no page, so it changed nothing
    cases l with
    | nil =>
      rw [uvmcreate, kalloc_nil h.typed.free] at hu
      obtain ⟨_, rfl⟩ := Prod.mk.inj hu
      rfl
    | cons c l =>
      obtain ⟨x, hk, _⟩ := kalloc_cons h.typed.free
      have hb := (h.typed.free.pages c List.mem_cons_self).bounds
      rw [uvmcreate, hk] at hu
      dsimp only at hu
      rw [if_neg (by omega)] at hu
      have := (Prod.mk.inj hu).1
      omega
  · obtain ⟨τ', l', o⟩ := h.setup hu hu0 hcopy
    refine ⟨rfl, Or.inr ⟨hr, τ', l', ?_, ?_⟩⟩
    · simp only [Kernel.setEnv, Kernel.setPhys, update_self]
    · simp only [Kernel.setEnv, Kernel.setPhys, update_self]
      exact o

/-- With pages for the root and for two tables in each region of boot `env_setup_vm`
succeeds. -/
theorem Spaces.envSetupVm_map {L : Layout} {K : Kernel} {fr : ℕ → ℕ} {τ : Typing} {sm : ℕ → Prop}
    {l : List ℕ} (h : Spaces K.kernel_pagetable (kernelLeaf L.etext fr) K.phys τ sm l)
    (hroom : 146 ≤ l.length) (e : ℕ) :
    ∃ K' τ' l', envSetupVm K e = .ok (0, K') ∧
      SetupOut K.kernel_pagetable (kernelLeaf L.etext fr) K.phys τ sm l
        (K'.envs e).env_pgtable K'.phys τ' l' ∧ l.length ≤ l'.length+145 := by
  have hcard := bootRegions_card
  cases l with
  | nil =>
    simp only [List.length_nil] at hroom
    omega
  | cons u l₁ =>
    rw [List.length_cons] at hroom
    obtain ⟨s₁, s₂, τ', l', hu, hu0, hcopy, o, hl⟩ := h.setup_map
      (fun v _ h2 hval => kernelLeaf_region L.etext_gt L.etext_lt h2 hval) (by omega)
    refine ⟨(K.setPhys ⟨selfMap s₂.mem u, s₂.freelist⟩).setEnv e
      { K.envs e with env_pgtable := u }, τ', l', ?_, ?_, ?_⟩
    · rw [envSetupVm, hu]
      dsimp only
      rw [if_neg hu0, hcopy, ok_bind]
      rfl
    · simp only [Kernel.setEnv, Kernel.setPhys, update_self]
      exact o
    · rw [List.length_cons]
      omega

theorem Booted.envSetupVm_map {L : Layout} {K : Kernel} {fr : ℕ → ℕ} {τ : Typing} {l : List ℕ}
    (b : Booted L K fr τ l) (e : ℕ) :
    ∃ K' τ' l', envSetupVm K e = .ok (0, K') ∧
      SetupOut K.kernel_pagetable (kernelLeaf L.etext fr) K.phys τ noSelfMap l
        (K'.envs e).env_pgtable K'.phys τ' l' ∧ 30000 ≤ l'.length := by
  have hlen := b.length
  obtain ⟨K', τ', l', hrun, o, hl⟩ := b.spaces.envSetupVm_map (by omega) e
  exact ⟨K', τ', l', hrun, o, by omega⟩

theorem Spaces.envSetupVm_low {f : ℕ → ℕ} {τ : Typing} {sm : ℕ → Prop} {l : List ℕ} {K K' : Kernel}
    {e : ℕ} (h : Spaces K.kernel_pagetable f K.phys τ sm l) (hrun : envSetupVm K e = .ok (0, K'))
    {b : ℕ} (hb : b < KERNEND) : K'.phys.mem b = K.phys.mem b := by
  have hend : KERNEND = 0x80400000 := rfl
  rcases envSetupVm_cases hrun with ⟨hr, _⟩ | ⟨_, u, s₁, s₂, hu, hu0, hcopy, rfl⟩
  · exact absurd hr (by decide)
  obtain ⟨l₁, τ₂, l₂, rfl, _, _, hm, c⟩ := h.rooted.setup_calls hu hu0 hcopy
  have hub := (h.typed.free.pages u List.mem_cons_self).bounds
  show selfMap s₂.mem u b = K.phys.mem b
  rw [← hm b (by omega), ← c.grows.low hb]
  exact store_sameOutside s₂.mem _ 8 _ b (by omega)

end RiscvMos
