import RiscvMos.KernelTable
import RiscvMos.UvmunmapSpec

/-! What the boot page table maps, and for which link layouts it is as intended. -/
namespace RiscvMos
open ByteMem LinkChain Function

/-- `va` is mapped to `pa` with at least the permissions `perm`. -/
def Maps (s : Phys) (k va pa perm : ℕ) : Prop :=
  ∃ e, leafAt s k va = some e ∧ PTE2PA e+va%PAGE_SIZE = pa ∧ e &&& perm = perm

/-- `va` lies in the window of CLINT, UART, VIRTIO or PLIC. -/
def InDevices (va : ℕ) : Prop :=
  (CLINT+0x88000000 ≤ va ∧ va < CLINT+0x88000000+0x10000) ∨
  (UART0+0x88000000 ≤ va ∧ va < UART0+0x88000000+PAGE_SIZE) ∨
  (VIRTIO0+0x88000000 ≤ va ∧ va < VIRTIO0+0x88000000+PAGE_SIZE) ∨
  (PLIC+0x88000000 ≤ va ∧ va < PLIC+0x88000000+0x400000)

/-- `va` lies in the page at `ENVS(i)` of some env. -/
def InEnvs (va : ℕ) : Prop := ∃ i < NENV, ENVS i ≤ va ∧ va < ENVS i+PAGE_SIZE

/-- The intended boot table for text that ends at `etext`. -/
structure BootTableOk (s : Phys) (k etext : ℕ) : Prop where
  text : ∀ va, 0x80000000 ≤ va → va < etext → Maps s k va va (PTE_R ||| PTE_X)
  data : ∀ va, etext ≤ va → va < PHYEND → Maps s k va va (PTE_R ||| PTE_W)
  devices : ∀ va, InDevices va → Maps s k va (va-0x88000000) (PTE_R ||| PTE_W)
  envs : ∀ va, InEnvs va → ∃ pa, IsPage pa ∧ Maps s k va (pa+va%PAGE_SIZE) (PTE_R ||| PTE_W)
  write_xor_execute : ∀ va e, leafAt s k va = some e → ¬(e &&& PTE_W ≠ 0 ∧ e &&& PTE_X ≠ 0)
  only : ∀ va e, leafAt s k va = some e →
    (0x80000000 ≤ va ∧ va < PHYEND) ∨ InDevices va ∨ InEnvs va

theorem Building.leafAt_eq {s : Phys} {k N : ℕ} {f : ℕ → ℕ} {τ : Typing} {l : List ℕ}
    (b : Building s k N f τ l) {va : ℕ} (hva : va < MAXVA) :
    leafAt s k va = if Valid (f (va/4096)) then some (f (va/4096)) else none := by
  have hmax : MAXVA = 2^38 := by decide
  rw [b.typed.leafAt_eq ((b.roots k).mpr rfl) (clear_noSelfMap k 2 _) hva,
    b.leaves (va/4096) (by omega)]

theorem Building.maps {s : Phys} {k N : ℕ} {f : ℕ → ℕ} {τ : Typing} {l : List ℕ}
    (b : Building s k N f τ l) (va pa perm : ℕ) (hva : va < MAXVA) (hpa : pa < 2^64)
    (hal : pa%4096 = 0) (hf : perm < 1024) (hx : perm &&& PTE_V = 0)
    (he : f (va/4096) = mkLeaf pa perm) : Maps s k va (pa+va%4096) perm := by
  refine ⟨mkLeaf pa perm, ?_, ?_, ?_⟩
  · rw [b.leafAt_eq hva, he, if_pos (Valid_mkLeaf pa hf)]
  · rw [PTE2PA_mkLeaf hpa hf]
    simp only [PAGE_SIZE]
    omega
  · rw [mkLeaf_and pa hf (Nat.and_two_pow_sub_one_of_lt_two_pow (n := 10) hf) hx,
      Nat.and_self]

/-! ### The leaves of the kernel table, page by page -/

section
variable {etext : ℕ} {fr : ℕ → ℕ}

theorem kernelLeaf_envs {v : ℕ} (h : envsTop-NENV < v ∧ v ≤ envsTop) :
    kernelLeaf etext fr v = mkLeaf (fr (envsTop-v)) (PTE_R ||| PTE_W) := if_pos h

theorem kernelLeaf_of_lt {v : ℕ} (h : v ≤ envsTop-NENV) :
    kernelLeaf etext fr v = ramLeaves etext v := if_neg (by omega)

theorem ramLeaves_data {v : ℕ}
    (h : dataFirst etext ≤ v ∧ v < dataFirst etext+dataPages etext) (hv : v < 2^26) :
    ramLeaves etext v = mkLeaf (v*4096) (PTE_R ||| PTE_W) := by
  have he : (dataFirst etext*4096+4096*(v-dataFirst etext))%2^64 = v*4096 := by omega
  rw [ramLeaves, mapLeaves, if_pos h, he]

theorem ramLeaves_text {v : ℕ} (h : 0x80000 ≤ v ∧ v < 0x80000+textPages etext)
    (hv : v < dataFirst etext) (hv' : v < 2^26) :
    ramLeaves etext v = mkLeaf (v*4096) (PTE_R ||| PTE_X) := by
  have he : (0x80000000+4096*(v-0x80000))%2^64 = v*4096 := by omega
  have hout : ¬(dataFirst etext ≤ v ∧ v < dataFirst etext+dataPages etext) := by omega
  rw [ramLeaves, mapLeaves, if_neg hout, mapLeaves, if_pos h, he]

theorem ramLeaves_devices {v : ℕ} (hd : dataFirst etext+dataPages etext ≤ v)
    (ht : 0x80000+textPages etext ≤ v) : ramLeaves etext v = deviceLeaves v := by
  have h₁ : ¬(dataFirst etext ≤ v ∧ v < dataFirst etext+dataPages etext) := by omega
  have h₂ : ¬(0x80000 ≤ v ∧ v < 0x80000+textPages etext) := by omega
  rw [ramLeaves, mapLeaves, if_neg h₁, mapLeaves, if_neg h₂]

theorem ramLeaves_low {v : ℕ} (hd : v < dataFirst etext) (ht : v < 0x80000) :
    ¬Valid (ramLeaves etext v) := by
  apply not_Valid_mapLeaves (by omega)
  apply not_Valid_mapLeaves (by omega)
  exact not_Valid_deviceLeaves (by omega)

/-- A page of a device window. -/
def DevicePage (v : ℕ) : Prop :=
  (565248 ≤ v ∧ v < 565264) ∨ v = 622592 ∨ v = 622593 ∨ (606208 ≤ v ∧ v < 607232)

theorem deviceLeaves_page {v : ℕ} (h : DevicePage v) :
    deviceLeaves v = mkLeaf (4096*v-0x88000000) (PTE_R ||| PTE_W) := by
  rw [DevicePage] at h
  simp only [deviceLeaves, mapLeaves, CLINT, UART0, VIRTIO0, PLIC]
  have hleaf (pa : ℕ) (hpa : pa = 4096*v-0x88000000) : mkLeaf pa (PTE_R ||| PTE_W) =
      mkLeaf (4096*v-0x88000000) (PTE_R ||| PTE_W) := by rw [hpa]
  split_ifs with h₁ h₂ h₃ h₄
  · exact hleaf _ (by omega)
  · exact hleaf _ (by omega)
  · exact hleaf _ (by omega)
  · exact hleaf _ (by omega)
  · omega

theorem not_Valid_deviceLeaves_page {v : ℕ} (h : ¬DevicePage v) : ¬Valid (deviceLeaves v) := by
  rw [DevicePage] at h
  apply not_Valid_mapLeaves (by omega)
  apply not_Valid_mapLeaves (by omega)
  apply not_Valid_mapLeaves (by omega)
  apply not_Valid_mapLeaves (by omega)
  exact not_Valid_zero

end

theorem DevicePage_iff (va : ℕ) : DevicePage (va/4096) ↔ InDevices va := by
  simp only [DevicePage, InDevices, CLINT, UART0, VIRTIO0, PLIC, PAGE_SIZE]
  omega

theorem InEnvs_iff (va : ℕ) :
    InEnvs va ↔ envsTop-NENV < va/4096 ∧ va/4096 ≤ envsTop := by
  have hn : NENV = 1024 := by decide
  have htop : envsTop = 66846718 := rfl
  constructor
  · rintro ⟨i, hi, h1, h2⟩
    obtain ⟨hp, hal⟩ := ENVS_page hi
    simp only [PAGE_SIZE] at h2
    omega
  · rintro ⟨h1, h2⟩
    refine ⟨envsTop-va/4096, by omega, ?_⟩
    obtain ⟨hp, hal⟩ := ENVS_page (e := envsTop-va/4096) (by omega)
    simp only [PAGE_SIZE]
    omega

/-! ### When the table is as intended -/

section
variable {s : Phys} {k N etext : ℕ} {fr : ℕ → ℕ} {τ : Typing} {l : List ℕ}

/-- Without rounding the length, the page at `PHYEND` gets mapped as well. -/
theorem Building.phyend_mapped (b : Building s k N (kernelLeaf etext fr) τ l)
    (hlo : 0x80000000 < etext) (hhi : etext < KERNEND) (hal : etext%PAGE_SIZE ≠ 0) :
    leafAt s k PHYEND = some (mkLeaf PHYEND (PTE_R ||| PTE_W)) := by
  obtain ⟨hend, _, hn, htop, _, hd, hp⟩ := kernel_layout etext
  simp only [PAGE_SIZE] at hal
  have hpage : PHYEND/4096 = 557056 := by decide
  have hleaf : kernelLeaf etext fr 557056 = mkLeaf PHYEND (PTE_R ||| PTE_W) := by
    rw [kernelLeaf_of_lt (by omega), ramLeaves_data (by omega) (by decide)]
    rfl
  rw [b.leafAt_eq (by decide), hpage, hleaf, if_pos (Valid_mkLeaf _ (by decide))]

theorem kernelLeaf_cases (hlo : 0x80000000 < etext) (hhi : etext < KERNEND) {v : ℕ}
    (hv : v < 2^26) (hval : Valid (kernelLeaf etext fr v)) :
    (envsTop-NENV < v ∧ v ≤ envsTop ∧
      kernelLeaf etext fr v = mkLeaf (fr (envsTop-v)) (PTE_R ||| PTE_W)) ∨
    (dataFirst etext ≤ v ∧ v < dataFirst etext+dataPages etext ∧
      kernelLeaf etext fr v = mkLeaf (v*4096) (PTE_R ||| PTE_W)) ∨
    (0x80000 ≤ v ∧ v < dataFirst etext ∧
      kernelLeaf etext fr v = mkLeaf (v*4096) (PTE_R ||| PTE_X)) ∨
    (DevicePage v ∧
      kernelLeaf etext fr v = mkLeaf (4096*v-0x88000000) (PTE_R ||| PTE_W)) := by
  obtain ⟨hend, _, hn, htop, ht, hd, hp⟩ := kernel_layout etext
  by_cases he : envsTop-NENV < v
  · by_cases he' : v ≤ envsTop
    · exact Or.inl ⟨he, he', kernelLeaf_envs ⟨he, he'⟩⟩
    · -- above the pages of envs nothing is mapped
      rw [kernelLeaf, envLeaves, if_neg (by omega)] at hval
      exact absurd hval (not_Valid_ramLeaves hlo hhi (by omega))
  have hram : kernelLeaf etext fr v = ramLeaves etext v := kernelLeaf_of_lt (by omega)
  rw [hram] at hval ⊢
  by_cases h₁ : dataFirst etext ≤ v ∧ v < dataFirst etext+dataPages etext
  · exact Or.inr (Or.inl ⟨h₁.1, h₁.2, ramLeaves_data h₁ hv⟩)
  by_cases h₂ : v < dataFirst etext
  · by_cases h₃ : v < 0x80000
    · exact absurd hval (ramLeaves_low h₂ h₃)
    · exact Or.inr (Or.inr (Or.inl ⟨by omega, h₂, ramLeaves_text (by omega) h₂ hv⟩))
  have hdev : ramLeaves etext v = deviceLeaves v := ramLeaves_devices (by omega) (by omega)
  rw [hdev] at hval ⊢
  by_cases h₄ : DevicePage v
  · exact Or.inr (Or.inr (Or.inr ⟨h₄, deviceLeaves_page h₄⟩))
  · exact absurd hval (not_Valid_deviceLeaves_page h₄)

theorem kernelLeaf_write_xor_execute (hlo : 0x80000000 < etext) (hhi : etext < KERNEND)
    {v : ℕ} (hv : v < 2^26) (hval : Valid (kernelLeaf etext fr v)) :
    ¬(kernelLeaf etext fr v &&& PTE_W ≠ 0 ∧ kernelLeaf etext fr v &&& PTE_X ≠ 0) := by
  have hmask (pa : ℕ) {perm m : ℕ} (hf : perm < 1024) (hm : m &&& 0x3FF = m)
      (hmv : m &&& PTE_V = 0) : mkLeaf pa perm &&& m = perm &&& m := mkLeaf_and pa hf hm hmv
  rcases kernelLeaf_cases hlo hhi hv hval with ⟨_, _, h⟩ | ⟨_, _, h⟩ | ⟨_, _, h⟩ | ⟨_, h⟩
  · rw [h, hmask _ (m := PTE_X) (by decide) (by decide) (by decide)]
    exact fun hh => hh.2 (by decide)
  · rw [h, hmask _ (m := PTE_X) (by decide) (by decide) (by decide)]
    exact fun hh => hh.2 (by decide)
  · rw [h, hmask _ (m := PTE_W) (by decide) (by decide) (by decide)]
    exact fun hh => hh.1 (by decide)
  · rw [h, hmask _ (m := PTE_X) (by decide) (by decide) (by decide)]
    exact fun hh => hh.2 (by decide)

theorem Building.table_ok (b : Building s k N (kernelLeaf etext fr) τ l)
    (hfr : ∀ j < NENV, IsPage (fr j)) (hlo : 0x80000000 < etext) (hhi : etext < KERNEND)
    (hal : etext%PAGE_SIZE = 0) : BootTableOk s k etext := by
  obtain ⟨hend, hphy, hn, htop, ht, hd, hp⟩ := kernel_layout etext
  have hmax : MAXVA = 2^38 := by decide
  simp only [PAGE_SIZE] at hal
  -- what walk finds is one of the leaves of `kernelLeaf`
  have hvalid {va e : ℕ} (he : leafAt s k va = some e) :
      va/4096 < 2^26 ∧ Valid (kernelLeaf etext fr (va/4096)) ∧
        kernelLeaf etext fr (va/4096) = e := by
    by_cases hva : va < MAXVA
    · rw [b.leafAt_eq hva] at he
      split_ifs at he with hval
      exact ⟨by omega, hval, Option.some.inj he⟩
    · rw [leafAt_of_ge (by omega)] at he
      cases he
  constructor
  case text =>
    intro va h1 h2
    have hsum : va/4096*4096+va%4096 = va := by omega
    have hm := b.maps va (va/4096*4096) (PTE_R ||| PTE_X) (by omega)
      (by omega) (by omega) (by decide) (by decide)
      (by rw [kernelLeaf_of_lt (by omega), ramLeaves_text (by omega) (by omega) (by omega)])
    rwa [hsum] at hm
  case data =>
    intro va h1 h2
    have hsum : va/4096*4096+va%4096 = va := by omega
    have hm := b.maps va (va/4096*4096) (PTE_R ||| PTE_W) (by omega)
      (by omega) (by omega) (by decide) (by decide)
      (by rw [kernelLeaf_of_lt (by omega), ramLeaves_data (by omega) (by omega)])
    rwa [hsum] at hm
  case devices =>
    intro va hdev
    have hpage := (DevicePage_iff va).mpr hdev
    have hrange : 565248 ≤ va/4096 ∧ va/4096 < 622594 := by
      rw [DevicePage] at hpage
      omega
    have hsum : 4096*(va/4096)-0x88000000+va%4096 = va-0x88000000 := by omega
    have hm := b.maps va (4096*(va/4096)-0x88000000) (PTE_R ||| PTE_W)
      (by omega) (by omega) (by omega) (by decide) (by decide)
      (by rw [kernelLeaf_of_lt (by omega), ramLeaves_devices (by omega) (by omega),
        deviceLeaves_page hpage])
    rwa [hsum] at hm
  case envs =>
    intro va henv
    have hin := (InEnvs_iff va).mp henv
    have hpage := hfr (envsTop-va/4096) (by omega)
    have hb := hpage.bounds
    refine ⟨_, hpage, ?_⟩
    exact b.maps _ _ _ (by omega) (by omega) (by omega) (by decide) (by decide)
      (kernelLeaf_envs hin)
  case write_xor_execute =>
    intro va e he
    obtain ⟨hv, hval, rfl⟩ := hvalid he
    exact kernelLeaf_write_xor_execute hlo hhi hv hval
  case only =>
    intro va e he
    obtain ⟨hv, hval, _⟩ := hvalid he
    rcases kernelLeaf_cases hlo hhi hv hval with ⟨h1, h2, _⟩ | ⟨h1, h2, _⟩ | ⟨h1, h2, _⟩ | ⟨h, _⟩
    · exact Or.inr (Or.inr ((InEnvs_iff va).mpr ⟨h1, h2⟩))
    · exact Or.inl (by omega)
    · exact Or.inl (by omega)
    · exact Or.inr (Or.inl ((DevicePage_iff va).mp h))

theorem Building.table_ok_iff (b : Building s k N (kernelLeaf etext fr) τ l)
    (hfr : ∀ j < NENV, IsPage (fr j)) (hlo : 0x80000000 < etext) (hhi : etext < KERNEND) :
    BootTableOk s k etext ↔ etext%PAGE_SIZE = 0 := by
  constructor
  · intro hok
    by_contra hal
    have hn : NENV = 1024 := by decide
    have htop : envsTop = 66846718 := rfl
    have hpage : PHYEND/4096 = 557056 := by decide
    rcases hok.only _ _ (b.phyend_mapped hlo hhi hal) with ⟨_, h⟩ | h | h
    · exact absurd h (lt_irrefl _)
    · have := (DevicePage_iff PHYEND).mpr h
      rw [DevicePage, hpage] at this
      omega
    · have := (InEnvs_iff PHYEND).mp h
      omega
  · exact b.table_ok hfr hlo hhi

end

/-- After `kinit`, the boot page table is as intended exactly when the linker puts
`etext` on a page boundary. -/
theorem kvmcreate_table_iff (m : Mem) (etext : ℕ) (hlo : 0x80000000 < etext)
    (hhi : etext < KERNEND) :
    ∃ s₀, kinit ⟨m, 0⟩ = .ok s₀ ∧
      ((∃ k s, kvmcreate s₀ etext = .ok (k, s) ∧ BootTableOk s k etext) ↔
        etext%PAGE_SIZE = 0) := by
  obtain ⟨s₀, hk, hfree⟩ := kinit_heap m
  obtain ⟨k, s, fr, τ, l, hcreate, b, hfr⟩ := kvmcreate_ok etext hfree hlo hhi
  refine ⟨s₀, hk, ?_⟩
  rw [← b.table_ok_iff hfr hlo hhi]
  constructor
  · rintro ⟨k', s', hcreate', hok⟩
    rw [hcreate] at hcreate'
    cases hcreate'
    exact hok
  · exact fun hok => ⟨k, s, hcreate, hok⟩

theorem kvmcreate_table_aligned : 0x80000000 < 0x80203000 ∧ 0x80203000 < KERNEND ∧
    ∃ s₀, kinit ⟨fun _ => 0, 0⟩ = .ok s₀ ∧
      ((∃ k s, kvmcreate s₀ 0x80203000 = .ok (k, s) ∧ BootTableOk s k 0x80203000) ↔
        0x80203000%PAGE_SIZE = 0) :=
  ⟨by decide, by decide, kvmcreate_table_iff (fun _ => 0) 0x80203000 (by decide) (by decide)⟩

/-- With `etext` inside a page the table is built, and the page at `PHYEND` is in it. -/
theorem kvmcreate_table_unaligned : ∃ s₀ k s, kinit ⟨fun _ => 0, 0⟩ = .ok s₀ ∧
    kvmcreate s₀ 0x80203008 = .ok (k, s) ∧
    leafAt s k PHYEND = some (mkLeaf PHYEND (PTE_R ||| PTE_W)) ∧
    ¬BootTableOk s k 0x80203008 := by
  obtain ⟨s₀, hk, hfree⟩ := kinit_heap (fun _ => 0)
  obtain ⟨k, s, fr, τ, l, hcreate, b, hfr⟩ :=
    kvmcreate_ok 0x80203008 hfree (by decide) (by decide)
  refine ⟨s₀, k, s, hk, hcreate, b.phyend_mapped (by decide) (by decide) (by decide), ?_⟩
  rw [b.table_ok_iff hfr (by decide) (by decide)]
  decide

end RiscvMos
