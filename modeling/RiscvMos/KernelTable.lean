import Mathlib.Order.Interval.Finset.Nat
import RiscvMos.MappagesSpec

/-! The kernel page table: `kvmcreate` of vm.c with `env_create_envs` of env.c. -/
namespace RiscvMos
open ByteMem LinkChain Function

def NENV : ℕ := 1 <<< 10

/-- The loop of `env_create_envs` over `e`, counted from `envs`. -/
def envCreateEnvsLoop (s : Phys) (kpagetable e : ℕ) : Result Phys :=
  if e < NENV then
    let (pa, s) := kalloc s
    if pa = 0 then .error (.panic "env_create_envs: out of memory")
    else do
      let s ← kvmmap s kpagetable (ENVS e) pa PAGE_SIZE (PTE_R ||| PTE_W)
      envCreateEnvsLoop s kpagetable (e+1)
  else .ok s
  termination_by NENV-e

def envCreateEnvs (s : Phys) (kpagetable : ℕ) : Result Phys :=
  envCreateEnvsLoop s kpagetable 0

/-- The difference of two `u_long`s. -/
def subULong (a b : ℕ) : ℕ := (a+(2^64-b))%2^64

/-- `etext` is the value that the linker gives it. -/
def kvmcreate (s : Phys) (etext : ℕ) : Result (ℕ × Phys) := do
  let (kpgtable, s) := kalloc s
  let s : Phys := ⟨(memset s.mem kpgtable 0 PAGE_SIZE).2, s.freelist⟩
  let s ← kvmmap s kpgtable (CLINT+0x88000000) CLINT 0x10000 (PTE_R ||| PTE_W)
  let s ← kvmmap s kpgtable (UART0+0x88000000) UART0 PAGE_SIZE (PTE_R ||| PTE_W)
  let s ← kvmmap s kpgtable (VIRTIO0+0x88000000) VIRTIO0 PAGE_SIZE (PTE_R ||| PTE_W)
  let s ← kvmmap s kpgtable (PLIC+0x88000000) PLIC 0x400000 (PTE_R ||| PTE_W)
  let s ← kvmmap s kpgtable 0x80000000 0x80000000 (subULong etext 0x80000000) (PTE_R ||| PTE_X)
  let s ← kvmmap s kpgtable (ROUND etext PAGE_SIZE) (ROUND etext PAGE_SIZE)
    (subULong PHYEND etext) (PTE_R ||| PTE_W)
  let s ← envCreateEnvs s kpgtable
  .ok (kpgtable, s)

/-! ### Building a table of known leaves -/

/-- The 2 MiB regions that the kernel table maps pages of. -/
def bootRegions : Finset ℕ :=
  Finset.Icc 1024 1088 ∪ {1104, 1184, 1185, 1216} ∪ Finset.Icc 130557 130559

theorem bootRegions_card : bootRegions.card ≤ 72 := by
  have h₁ := Finset.card_union_le (Finset.Icc 1024 1088 ∪ {1104, 1184, 1185, 1216})
    (Finset.Icc 130557 130559)
  have h₂ := Finset.card_union_le (Finset.Icc 1024 1088) {1104, 1184, 1185, 1216}
  have h₃ : ({1104, 1184, 1185, 1216} : Finset ℕ).card = 4 := by decide
  rw [Nat.card_Icc] at h₁ h₂
  rw [bootRegions]
  omega

theorem mem_bootRegions {g : ℕ} : g ∈ bootRegions ↔ (1024 ≤ g ∧ g ≤ 1088) ∨ g = 1104 ∨
    g = 1184 ∨ g = 1185 ∨ g = 1216 ∨ (130557 ≤ g ∧ g ≤ 130559) := by
  simp only [bootRegions, Finset.mem_union, Finset.mem_Icc, Finset.mem_insert,
    Finset.mem_singleton, or_assoc]

/-- The only root is `k`, its leaves are `f`, and `N` pages were there to build it. -/
structure Building (s : Phys) (k N : ℕ) (f : ℕ → ℕ) (τ : Typing) (l : List ℕ) : Prop where
  typed : Typed s τ noSelfMap l
  roots : ∀ p, τ p = .table 2 none ↔ p = k
  leaves : ∀ v < 2^26, leaf s.mem k v = f v
  high : ∀ i, 256 ≤ i → i < 512 → ¬Valid (entry s.mem k i)
  budget : Budget s.mem k l N bootRegions

/-- The leaves after `n` pages from `v` on were mapped to frames from `pa` on. -/
def mapLeaves (f : ℕ → ℕ) (v n pa perm : ℕ) : ℕ → ℕ := fun w =>
  if v ≤ w ∧ w < v+n then mkLeaf ((pa+4096*(w-v))%2^64) perm else f w

theorem Building.kvmmap {s : Phys} {k N : ℕ} {f : ℕ → ℕ} {τ : Typing} {l : List ℕ}
    (b : Building s k N f τ l) (va pa size perm v n : ℕ) (hN : 144 < N) (h0 : 0 < size)
    (hv : va/4096 = v) (hlast : (va+size-1)/4096 = v+n) (hlt : v+n < 2^26) (hpa : pa < 2^64)
    (hf : perm < 1024) (hx : HasRWX perm)
    (hreg : ∀ w, v ≤ w → w ≤ v+n → w/512 ∈ bootRegions ∧ ¬Valid (f w)) :
    ∃ s' τ' l', kvmmap s k va pa size perm = .ok s' ∧
      Building s' k N (mapLeaves f v (n+1) pa perm) τ' l' ∧ Grows s τ s' τ' := by
  have hcard := bootRegions_card
  have hr := (b.roots k).mpr rfl
  obtain ⟨s', τ', l', hrun, m, hb⟩ := Typed.mappagesLoop_map hf hx hlt (by omega)
    (fun x _ => clear_noSelfMap k 2 _) n rfl b.typed hr hpa (fun w h1 h2 => (hreg w h1 h2).1)
    (fun w h1 h2 => by rw [b.leaves w (by omega)]; exact (hreg w h1 h2).2) b.budget
  refine ⟨s', τ', l', ?_, ⟨m.typed, ?_, ?_, ?_, hb⟩, m.grows⟩
  · rw [RiscvMos.kvmmap, mappages_eq h0 (by omega), hv, hlast, hrun]
    rfl
  · intro p
    rw [m.grows.root_iff, b.roots]
  · intro w hw
    rw [m.leaves hr (clear_noSelfMap k 2 _) (by omega), b.leaves w hw, mapLeaves]
    simp only [true_and]
  · intro i hlo hhi
    rw [m.grows.high hr hlo hhi]
    exact b.high i hlo hhi

theorem Building.kalloc {s : Phys} {k N : ℕ} {f : ℕ → ℕ} {τ : Typing} {l : List ℕ}
    (b : Building s k N f τ l) (hN : 144 < N) :
    ∃ c s' l', kalloc s = (c, s') ∧ IsPage c ∧ τ c = .free ∧
      Building s' k (N-1) f (update τ c (.frame none)) l' := by
  have hr := (b.roots k).mpr rfl
  have hcard := bootRegions_card
  cases l with
  | nil =>
    obtain ⟨P, hP, _, hle⟩ := b.budget
    have := Finset.card_le_card hP
    simp only [List.length_nil] at hle
    omega
  | cons c l =>
    obtain ⟨s', hk, h', hz, hm⟩ := b.typed.kalloc_frame none
    have hpage := b.typed.free.pages c List.mem_cons_self
    have hfree := b.typed.free_kind List.mem_cons_self
    have hsame {p ℓ : ℕ} {par : Option (ℕ × ℕ)} (hp : τ p = .table ℓ par) :=
      b.typed.table_agree hpage (Typed.not_table_of_free hfree) hm hp
    refine ⟨c, s', l, hk, hpage, hfree, h', ?_, ?_, ?_, ?_⟩
    · intro p
      rw [← b.roots p]
      exact Typed.update_table_iff (Typed.not_table_of_free hfree) (by simp) p 2 none
    · intro v hv
      rw [← b.leaves v hv]
      exact b.typed.leafFrom_agree hsame v hr (clear_noSelfMap k 2 _)
    · intro i hlo hhi
      rw [entry_agree (hsame hr) hhi]
      exact b.high i hlo hhi
    · apply b.budget.spend 1 (by simp)
      rintro g _ ⟨q, hq⟩
      exact ⟨q, by rw [b.typed.descend_agree hsame _ hr (clear_noSelfMap k 2 _), hq]⟩

theorem Building.congr {s : Phys} {k N : ℕ} {f g : ℕ → ℕ} {τ : Typing} {l : List ℕ}
    (b : Building s k N f τ l) (h : ∀ v < 2^26, f v = g v) : Building s k N g τ l :=
  ⟨b.typed, b.roots, fun v hv => (b.leaves v hv).trans (h v hv), b.high, b.budget⟩

/-! ### The pages of envs -/

/-- The page number of `ENVS(0)`; the others follow downwards. -/
def envsTop : ℕ := 66846718

theorem ENVS_page {e : ℕ} (he : e < NENV) : ENVS e/4096 = envsTop-e ∧ ENVS e%4096 = 0 := by
  have hn : NENV = 1024 := by decide
  have hu : UVPT = 66846719*4096 := by decide
  simp only [ENVS, PAGE_SIZE, envsTop, hu]
  omega

/-- The leaves after the pages of `envs` from `e` on were mapped to the frames `fr`. -/
def envLeaves (f fr : ℕ → ℕ) (e : ℕ) : ℕ → ℕ := fun w =>
  if envsTop-NENV < w ∧ w ≤ envsTop-e then mkLeaf (fr (envsTop-w)) (PTE_R ||| PTE_W) else f w

theorem Building.envCreateEnvsLoop {k : ℕ} (n : ℕ) :
    ∀ {s : Phys} {N e : ℕ} {f : ℕ → ℕ} {τ : Typing} {l : List ℕ}, e+n = NENV →
    Building s k N f τ l → 144+n < N →
    (∀ w, envsTop-NENV < w → w ≤ envsTop-e → ¬Valid (f w)) →
    ∃ s' τ' l' fr, envCreateEnvsLoop s k e = .ok s' ∧
      Building s' k (N-n) (envLeaves f fr e) τ' l' ∧
      ∀ j, e ≤ j → j < NENV → IsPage (fr j) := by
  have hn : NENV = 1024 := by decide
  have htop : envsTop = 66846718 := rfl
  induction n with
  | zero =>
    intro s N e f τ l he b _ _
    rw [RiscvMos.envCreateEnvsLoop, if_neg (by omega)]
    refine ⟨s, τ, l, fun _ => 0, rfl, b.congr ?_, fun j h1 h2 => by omega⟩
    intro v _
    rw [envLeaves, if_neg (by omega)]
  | succ n ih =>
    intro s N e f τ l he b hN hun
    obtain ⟨hva, hal⟩ := ENVS_page (e := e) (by omega)
    -- env `e` gets the page `c`, and the loop goes on below it
    obtain ⟨c, s₁, l₁, hk, hpage, _, b₁⟩ := b.kalloc (by omega)
    have hb := hpage.bounds
    have hlast : (ENVS e+PAGE_SIZE-1)/4096 = envsTop-e+0 := by
      simp only [PAGE_SIZE]
      omega
    have hreg (w : ℕ) (h1 : envsTop-e ≤ w) (h2 : w ≤ envsTop-e+0) :
        w/512 ∈ bootRegions ∧ ¬Valid (f w) :=
      ⟨mem_bootRegions.mpr (by omega), hun w (by omega) (by omega)⟩
    obtain ⟨s₂, τ₂, l₂, hmap, b₂, _⟩ := b₁.kvmmap (ENVS e) c PAGE_SIZE (PTE_R ||| PTE_W)
      (envsTop-e) 0 (by omega) (by decide) hva hlast (by omega) (by omega) (by decide) (by decide) hreg
    obtain ⟨s', τ', l', fr, hrun, b', hfr⟩ := ih (e := e+1) (by omega) b₂ (by omega) (by
      intro w h1 h2
      rw [mapLeaves, if_neg (by omega)]
      exact hun w h1 (by omega))
    have hgo : RiscvMos.envCreateEnvsLoop s k e = .ok s' := by
      rw [RiscvMos.envCreateEnvsLoop, if_pos (by omega), hk]
      dsimp only
      rw [if_neg (by omega), hmap, ok_bind, hrun]
    have hN' : N-1-n = N-(n+1) := by omega
    rw [hN'] at b'
    refine ⟨s', τ', l', update fr e c, hgo, b'.congr ?_, ?_⟩
    · -- the leaf of env `e` is in front of those of the rest
      intro w hw
      simp only [envLeaves, mapLeaves]
      by_cases hwe : w = envsTop-e
      · have hidx : envsTop-w = e := by omega
        have hc : (c+4096*(w-(envsTop-e)))%2^64 = c := by omega
        rw [if_neg (by omega), if_pos (by omega), if_pos (by omega), hidx, update_self, hc]
      · have hne : envsTop-w ≠ e ∨ w > envsTop-e := by omega
        by_cases hin : envsTop-NENV < w ∧ w ≤ envsTop-(e+1)
        · rw [if_pos hin, if_pos (by omega), update_of_ne (by omega)]
        · rw [if_neg hin, if_neg (by omega), if_neg (by omega)]
    · intro j h1 h2
      by_cases hje : j = e
      · rw [hje, update_self]
        exact hpage
      · rw [update_of_ne hje]
        exact hfr j (by omega) h2

/-! ### kvmcreate -/

/-- The leaves of the four device windows. -/
def deviceLeaves : ℕ → ℕ :=
  let rw := PTE_R ||| PTE_W
  mapLeaves (mapLeaves (mapLeaves (mapLeaves (fun _ => 0) 565248 16 CLINT rw)
    622592 1 UART0 rw) 622593 1 VIRTIO0 rw) 606208 1024 PLIC rw

/-- The first page and the number of pages of the data mapping, whose length is
`PHYEND` minus an `etext` that was not rounded. -/
def dataFirst (etext : ℕ) : ℕ := (etext+4095)/4096
def dataPages (etext : ℕ) : ℕ := (dataFirst etext*4096+(PHYEND-etext)-1)/4096-dataFirst etext+1

/-- The number of pages of the text mapping. -/
def textPages (etext : ℕ) : ℕ := (etext-1)/4096-0x80000+1

theorem kernel_layout (etext : ℕ) :
    KERNEND = 0x80400000 ∧ PHYEND = 0x88000000 ∧ NENV = 1024 ∧ envsTop = 66846718 ∧
      textPages etext = (etext-1)/4096-0x80000+1 ∧ dataFirst etext = (etext+4095)/4096 ∧
      dataPages etext = (dataFirst etext*4096+(0x88000000-etext)-1)/4096-dataFirst etext+1 :=
  ⟨rfl, rfl, by decide, rfl, rfl, rfl, rfl⟩

/-- The leaves of physical memory. -/
def ramLeaves (etext : ℕ) : ℕ → ℕ :=
  mapLeaves (mapLeaves deviceLeaves 0x80000 (textPages etext) 0x80000000 (PTE_R ||| PTE_X))
    (dataFirst etext) (dataPages etext) (dataFirst etext*4096) (PTE_R ||| PTE_W)

/-- The leaves of the kernel page table. -/
def kernelLeaf (etext : ℕ) (fr : ℕ → ℕ) : ℕ → ℕ := envLeaves (ramLeaves etext) fr 0

theorem not_Valid_mapLeaves {f : ℕ → ℕ} {v n pa perm w : ℕ} (h : ¬(v ≤ w ∧ w < v+n))
    (hf : ¬Valid (f w)) : ¬Valid (mapLeaves f v n pa perm w) := by
  rwa [mapLeaves, if_neg h]

theorem not_Valid_deviceLeaves {w : ℕ} (h : w < 565248 ∨ 622594 ≤ w) :
    ¬Valid (deviceLeaves w) := by
  apply not_Valid_mapLeaves (by omega)
  apply not_Valid_mapLeaves (by omega)
  apply not_Valid_mapLeaves (by omega)
  apply not_Valid_mapLeaves (by omega)
  exact not_Valid_zero

theorem kvmcreate_devices {s : Phys} {k N : ℕ} {τ : Typing} {l : List ℕ}
    (b : Building s k N (fun _ => 0) τ l) (hN : 144 < N) :
    ∃ s' τ' l', (kvmmap s k (CLINT+0x88000000) CLINT 0x10000 (PTE_R ||| PTE_W) >>= fun s =>
      kvmmap s k (UART0+0x88000000) UART0 PAGE_SIZE (PTE_R ||| PTE_W) >>= fun s =>
      kvmmap s k (VIRTIO0+0x88000000) VIRTIO0 PAGE_SIZE (PTE_R ||| PTE_W) >>= fun s =>
      kvmmap s k (PLIC+0x88000000) PLIC 0x400000 (PTE_R ||| PTE_W)) = .ok s' ∧
      Building s' k N deviceLeaves τ' l' := by
  have hf : PTE_R ||| PTE_W < 1024 := by decide
  have hx : HasRWX (PTE_R ||| PTE_W) := by decide
  obtain ⟨s₁, τ₁, l₁, h₁, b₁, _⟩ := b.kvmmap (CLINT+0x88000000) CLINT 0x10000
    (PTE_R ||| PTE_W) 565248 15 hN (by decide) (by decide) (by decide) (by decide)
    (by decide) hf hx (fun w _ _ => ⟨mem_bootRegions.mpr (by omega), not_Valid_zero⟩)
  obtain ⟨s₂, τ₂, l₂, h₂, b₂, _⟩ := b₁.kvmmap (UART0+0x88000000) UART0 PAGE_SIZE
    (PTE_R ||| PTE_W) 622592 0 hN (by decide) (by decide) (by decide) (by decide)
    (by decide) hf hx (fun w _ _ => ⟨mem_bootRegions.mpr (by omega),
      not_Valid_mapLeaves (by omega) not_Valid_zero⟩)
  obtain ⟨s₃, τ₃, l₃, h₃, b₃, _⟩ := b₂.kvmmap (VIRTIO0+0x88000000) VIRTIO0 PAGE_SIZE
    (PTE_R ||| PTE_W) 622593 0 hN (by decide) (by decide) (by decide) (by decide)
    (by decide) hf hx (fun w _ _ => ⟨mem_bootRegions.mpr (by omega),
      not_Valid_mapLeaves (by omega) (not_Valid_mapLeaves (by omega) not_Valid_zero)⟩)
  obtain ⟨s₄, τ₄, l₄, h₄, b₄, _⟩ := b₃.kvmmap (PLIC+0x88000000) PLIC 0x400000
    (PTE_R ||| PTE_W) 606208 1023 hN (by decide) (by decide) (by decide) (by decide)
    (by decide) hf hx (fun w _ _ => ⟨mem_bootRegions.mpr (by omega),
      not_Valid_mapLeaves (by omega) (not_Valid_mapLeaves (by omega)
        (not_Valid_mapLeaves (by omega) not_Valid_zero))⟩)
  exact ⟨s₄, τ₄, l₄, by rw [h₁, ok_bind, h₂, ok_bind, h₃, ok_bind, h₄], b₄⟩

theorem subULong_of_le {a b : ℕ} (ha : a < 2^64) (hb : b ≤ a) : subULong a b = a-b := by
  rw [subULong]
  omega

theorem kvmcreate_ram {s : Phys} {k N etext : ℕ} {τ : Typing} {l : List ℕ}
    (b : Building s k N deviceLeaves τ l) (hN : 144 < N) (hlo : 0x80000000 < etext)
    (hhi : etext < KERNEND) :
    ∃ s' τ' l', (kvmmap s k 0x80000000 0x80000000 (subULong etext 0x80000000)
        (PTE_R ||| PTE_X) >>= fun s =>
      kvmmap s k (ROUND etext PAGE_SIZE) (ROUND etext PAGE_SIZE) (subULong PHYEND etext)
        (PTE_R ||| PTE_W)) = .ok s' ∧ Building s' k N (ramLeaves etext) τ' l' := by
  obtain ⟨hend, hphy, _, _, htext, hdata, hpages⟩ := kernel_layout etext
  have hround : ROUND etext PAGE_SIZE = dataFirst etext*4096 := ROUND_page etext (by omega)
  rw [hround, subULong_of_le (by omega) (by omega), subULong_of_le (by omega) (by omega)]
  obtain ⟨s₁, τ₁, l₁, h₁, b₁, _⟩ := b.kvmmap 0x80000000 0x80000000 (etext-0x80000000)
    (PTE_R ||| PTE_X) 0x80000 ((etext-1)/4096-0x80000) hN (by omega) (by decide) (by omega) (by omega) (by decide)
    (by decide) (by decide)
    (fun w _ _ => ⟨mem_bootRegions.mpr (by omega), not_Valid_deviceLeaves (by omega)⟩)
  obtain ⟨s₂, τ₂, l₂, h₂, b₂, _⟩ := b₁.kvmmap (dataFirst etext*4096) (dataFirst etext*4096)
    (PHYEND-etext) (PTE_R ||| PTE_W) (dataFirst etext)
    ((dataFirst etext*4096+(PHYEND-etext)-1)/4096-dataFirst etext) hN (by omega)
    (Nat.mul_div_cancel _ (by decide)) (by omega) (by omega) (by omega) (by decide)
    (by decide)
    (fun w _ _ => ⟨mem_bootRegions.mpr (by omega),
      not_Valid_mapLeaves (by omega) (not_Valid_deviceLeaves (by omega))⟩)
  exact ⟨s₂, τ₂, l₂, by rw [h₁, ok_bind, h₂], b₂⟩

theorem not_Valid_ramLeaves {etext w : ℕ} (hlo : 0x80000000 < etext) (hhi : etext < KERNEND)
    (hw : 622594 ≤ w) : ¬Valid (ramLeaves etext w) := by
  obtain ⟨hend, _, _, _, htext, hdata, hpages⟩ := kernel_layout etext
  apply not_Valid_mapLeaves (by omega)
  apply not_Valid_mapLeaves (by omega)
  exact not_Valid_deviceLeaves (Or.inr hw)

/-- With the whole heap free, `kvmcreate` returns a table with exactly the leaves
`kernelLeaf`, the only root. -/
theorem kvmcreate_ok {s : Phys} (etext : ℕ) (hfree : FreeList s (heapPages heapCount))
    (hlo : 0x80000000 < etext) (hhi : etext < KERNEND) :
    ∃ k s' fr τ l, kvmcreate s etext = .ok (k, s') ∧
      Building s' k 30719 (kernelLeaf etext fr) τ l ∧ ∀ j < NENV, IsPage (fr j) := by
  have ht := typed_of_heap hfree
  have hlen := heapPages_length heapCount
  have hcount : heapCount = 31744 := rfl
  generalize heapPages heapCount = pages at ht hlen
  cases pages with
  | nil =>
    simp only [List.length_nil] at hlen
    omega
  | cons c l =>
    obtain ⟨s₁, hk, h₁, hz, _⟩ := ht.kalloc_root
    have b₁ : Building ⟨(memset s₁.mem c 0 PAGE_SIZE).2, s₁.freelist⟩ c l.length
        (fun _ => 0) (update (fun _ => .free) c (.table 2 none)) l := by
      refine ⟨h₁, ?_, fun v _ => leafFrom_zeroPage hz 2 v, ?_, Budget.start _ _ _ _⟩
      · intro p
        by_cases hpc : p = c
        · simp [hpc]
        · simp [hpc]
      · intro i _ hi
        rw [entry_zeroPage hz hi]
        exact not_Valid_zero
    have hl : l.length = 31743 := by
      simp only [List.length_cons] at hlen
      omega
    rw [hl] at b₁
    -- the devices, the kernel's memory, then a page for each env
    obtain ⟨s₂, τ₂, l₂, hdev, b₂⟩ := kvmcreate_devices b₁ (by decide)
    obtain ⟨s₃, τ₃, l₃, hram, b₃⟩ := kvmcreate_ram b₂ (by decide) hlo hhi
    have hn : NENV = 1024 := by decide
    obtain ⟨s₄, τ₄, l₄, fr, henvs, b₄, hfr⟩ := Building.envCreateEnvsLoop NENV
      (Nat.zero_add _) b₃ (by omega) (fun w h1 _ => not_Valid_ramLeaves hlo hhi (by
        have htop : envsTop = 66846718 := rfl
        omega))
    refine ⟨c, s₄, fr, τ₄, l₄, ?_, ?_, fun j hj => hfr j (Nat.zero_le j) hj⟩
    · obtain ⟨x₁, e₁, hdev⟩ := bind_eq_ok.mp hdev
      obtain ⟨x₂, e₂, hdev⟩ := bind_eq_ok.mp hdev
      obtain ⟨x₃, e₃, e₄⟩ := bind_eq_ok.mp hdev
      obtain ⟨x₅, e₅, e₆⟩ := bind_eq_ok.mp hram
      rw [kvmcreate, hk]
      dsimp only
      rw [e₁, ok_bind, e₂, ok_bind, e₃, ok_bind, e₄, ok_bind, e₅, ok_bind, e₆, ok_bind,
        envCreateEnvs, henvs, ok_bind]
    · have hN : 31743-NENV = 30719 := by omega
      rwa [hN] at b₄

end RiscvMos
