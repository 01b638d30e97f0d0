import RiscvMos.KvmCopySpec
import RiscvMos.SelfMap

/-! The kernel table and the tables of the envs side by side: every env table has
the kernel's leaves from 0x80000000 on, outside the slot of its self map. -/
namespace RiscvMos
open ByteMem LinkChain Function

/-- `k` is the root of the kernel table; the other roots map themselves. -/
structure Roots (k : ℕ) (s : Phys) (τ : Typing) (sm : ℕ → Prop) (l : List ℕ) : Prop where
  typed : Typed s τ sm l
  kernel : τ k = .table 2 none
  kernel_clear : ¬sm k
  roots : ∀ r, τ r = .table 2 none → r = k ∨ sm r

/-- `k` is the kernel table with the leaves `f`; the other roots map themselves and
share those leaves. -/
structure Spaces (k : ℕ) (f : ℕ → ℕ) (s : Phys) (τ : Typing) (sm : ℕ → Prop) (l : List ℕ) :
    Prop where
  typed : Typed s τ sm l
  kernel : τ k = .table 2 none
  kernel_clear : ¬sm k
  roots : ∀ r, τ r = .table 2 none → r = k ∨ sm r
  high : ∀ r i, τ r = .table 2 none → 256 ≤ i → i < 512 → ¬Valid (entry s.mem r i)
  kernel_leaves : ∀ v < 2^26, leaf s.mem k v = f v
  shared : ∀ r v, sm r → 2^19 ≤ v → v < 2^26 → vpnIndex 2 v ≠ selfSlot →
    leaf s.mem r v = if Valid (f v) then f v else 0

section
variable {k : ℕ} {f : ℕ → ℕ} {s : Phys} {τ : Typing} {sm : ℕ → Prop} {l : List ℕ}

theorem Roots.retype (h : Roots k s τ sm l) {s' : Phys} {τ' : Typing} {l' : List ℕ}
    (ht : Typed s' τ' sm l') (hτ : ∀ p, τ' p = .table 2 none ↔ τ p = .table 2 none) :
    Roots k s' τ' sm l' :=
  ⟨ht, (hτ k).mpr h.kernel, h.kernel_clear, fun r hr => h.roots r ((hτ r).mp hr)⟩

theorem Roots.write (h : Roots k s τ sm l) {m : Mem}
    (hm : ∀ p, IsPage p → (∀ o, τ p ≠ .frame o) → AgreeOn m s.mem p 4096) :
    Roots k ⟨m, s.freelist⟩ τ sm l ∧
      ∀ {p ℓ par}, τ p = .table ℓ par → AgreeOn m s.mem p 4096 :=
  ⟨h.retype (h.typed.write_frames hm) (fun _ => Iff.rfl),
    fun {p _ _} hp => hm p (h.typed.page hp) (by simp [hp])⟩

theorem Spaces.rooted (h : Spaces k f s τ sm l) : Roots k s τ sm l :=
  ⟨h.typed, h.kernel, h.kernel_clear, h.roots⟩

theorem Spaces.root_of_sm (h : Spaces k f s τ sm l) {r : ℕ} (hr : sm r) :
    τ r = .table 2 none := (h.typed.selfMap hr).1

theorem Spaces.clear_kernel (h : Spaces k f s τ sm l) (i : ℕ) : Clear sm k 2 i :=
  fun hh => h.kernel_clear hh.1

theorem user_index {v : ℕ} (hv : v < 2^19) : vpnIndex 2 v ≠ selfSlot := by
  have hs := selfSlot_eq
  simp only [vpnIndex]
  omega

theorem clear_of_index (sm : ℕ → Prop) (r : ℕ) {v : ℕ} (hv : vpnIndex 2 v ≠ selfSlot) :
    Clear sm r 2 (vpnIndex 2 v) := fun hh => hv hh.2.2

theorem Spaces.retype (h : Spaces k f s τ sm l) {s' : Phys} {τ' : Typing} {l' : List ℕ}
    (ht : Typed s' τ' sm l') (hτ : ∀ p ℓ par, τ' p = .table ℓ par ↔ τ p = .table ℓ par)
    (hm : ∀ {p ℓ par}, τ p = .table ℓ par → AgreeOn s'.mem s.mem p 4096) :
    Spaces k f s' τ' sm l' ∧ ∀ r v, τ r = .table 2 none → Clear sm r 2 (vpnIndex 2 v) →
      leaf s'.mem r v = leaf s.mem r v := by
  have hleaf (r v : ℕ) (hr : τ r = .table 2 none) (hc : Clear sm r 2 (vpnIndex 2 v)) :
      leaf s'.mem r v = leaf s.mem r v := h.typed.leafFrom_agree hm v hr hc
  refine ⟨⟨ht, (hτ _ _ _).mpr h.kernel, h.kernel_clear, ?_, ?_, ?_, ?_⟩, hleaf⟩
  · intro r hr
    exact h.roots r ((hτ _ _ _).mp hr)
  · intro r i hr hlo hhi
    have hr' := (hτ _ _ _).mp hr
    rw [entry_agree (hm hr') hhi]
    exact h.high r i hr' hlo hhi
  · intro v hv
    rw [hleaf k v h.kernel (h.clear_kernel _), h.kernel_leaves v hv]
  · intro r v hr hlo hhi hs
    rw [hleaf r v (h.root_of_sm hr) (clear_of_index sm r hs), h.shared r v hr hlo hhi hs]

/-- Mapping pages of an env below 0x80000000 changes no kernel leaf. -/
theorem Spaces.map (h : Spaces k f s τ sm l) {r v n pa perm : ℕ} {s' : Phys} {τ' : Typing}
    {l' : List ℕ} (hr : sm r) (hv : v+n ≤ 2^19) (m : MapOut sm s τ l r v n pa perm s' τ' l') :
    Spaces k f s' τ' sm l' := by
  have hrk : k ≠ r := by
    rintro rfl
    exact h.kernel_clear hr
  refine ⟨m.typed, m.grows.table h.kernel, h.kernel_clear, ?_, ?_, ?_, ?_⟩
  · intro r' hr'
    exact h.roots r' (m.grows.root_of_root hr')
  · intro r' i hr' hlo hhi
    have hr₀ := m.grows.root_of_root hr'
    rw [m.grows.high hr₀ hlo hhi]
    exact h.high r' i hr₀ hlo hhi
  · intro w hw
    rw [m.leaves h.kernel (h.clear_kernel _) (by omega), if_neg (fun hh => hrk hh.1),
      h.kernel_leaves w hw]
  · intro r' w hr' hlo hhi hs
    rw [m.leaves (h.root_of_sm hr') (clear_of_index sm r' hs) (by omega), if_neg (by omega),
      h.shared r' w hr' hlo hhi hs]

/-! ### A new address space -/

/-- What `env_setup_vm` has done for the new root `u`. -/
structure SetupOut (k : ℕ) (f : ℕ → ℕ) (s : Phys) (τ : Typing) (sm : ℕ → Prop) (l : List ℕ)
    (u : ℕ) (s' : Phys) (τ' : Typing) (l' : List ℕ) : Prop where
  spaces : Spaces k f s' τ' (fun r => sm r ∨ r = u) l'
  fresh : τ u = .free
  frames : ∀ p o, τ p = .frame o → τ' p = .frame o
  old : ∀ r v, sm r → v < 2^27 → vpnIndex 2 v ≠ selfSlot → leaf s'.mem r v = leaf s.mem r v
  empty : ∀ v < 2^19, leaf s'.mem u v = 0

theorem Typed.uvmcreate_root (h : Typed s τ sm l) {u : ℕ} {s₁ : Phys}
    (hu : uvmcreate s = (u, s₁)) (hu0 : u ≠ 0) :
    ∃ l₁, l = u :: l₁ ∧ Typed s₁ (update τ u (.table 2 none)) sm l₁ ∧ ZeroPage s₁.mem u ∧
      SameOutside s.mem s₁.mem u 4096 := by
  cases l with
  | nil =>
    have hk := kalloc_nil h.free
    rw [uvmcreate, hk] at hu
    exact absurd (congrArg Prod.fst hu).symm hu0
  | cons c l₁ =>
    obtain ⟨x, hk, ht, hz, hm⟩ := h.kalloc_root
    have hb := (h.free.pages c List.mem_cons_self).bounds
    rw [uvmcreate, hk] at hu
    dsimp only at hu
    rw [if_neg (by omega)] at hu
    obtain ⟨rfl, rfl⟩ := Prod.mk.inj hu
    exact ⟨l₁, rfl, ht, hz, hm⟩

/-- After the self map of the new root `u`: no old leaf has changed. -/
structure RootAdded (k : ℕ) (s : Phys) (τ : Typing) (sm : ℕ → Prop) (u : ℕ) (s' : Phys)
    (τ' : Typing) (l' : List ℕ) : Prop where
  rooted : Roots k s' τ' (fun r => sm r ∨ r = u) l'
  fresh : τ u = .free
  frames : ∀ p o, τ p = .frame o → τ' p = .frame o
  old : ∀ {r v}, τ r = .table 2 none → Clear (fun r => sm r ∨ r = u) r 2 (vpnIndex 2 v) →
    v < 2^27 → leaf s'.mem r v = leaf s.mem r v

theorem Typed.old_agree {l₁ : List ℕ} {u : ℕ} {s₁ : Phys} (h : Typed s τ sm (u :: l₁))
    (hm : SameOutside s.mem s₁.mem u 4096) {p ℓ : ℕ} {par : Option (ℕ × ℕ)}
    (hp : τ p = .table ℓ par) :
    update τ u (.table 2 none) p = .table ℓ par ∧ AgreeOn s₁.mem s.mem p 4096 := by
  have hfree := h.free_kind List.mem_cons_self
  refine ⟨?_, ?_⟩
  · rw [update_other_kind τ _ (Typed.ne_of_free hfree hp), hp]
  · exact h.table_agree (h.free.pages u List.mem_cons_self) (Typed.not_table_of_free hfree) hm hp

theorem Roots.setup_copy {l₁ l₂ : List ℕ} {u : ℕ} {s₁ s₂ : Phys} {τ₂ : Typing}
    (h : Roots k s τ sm (u :: l₁)) (hm : SameOutside s.mem s₁.mem u 4096)
    (c : CopyOut sm s₁ (update τ u (.table 2 none)) l₁ k u (2^19) (2^26) s₂ τ₂ l₂) :
    RootAdded k s τ sm u ⟨selfMap s₂.mem u, s₂.freelist⟩ (cutTyping τ₂ u) l₂ := by
  have hfree := h.typed.free_kind List.mem_cons_self
  have huroot : update τ u (.table 2 none) u = .table 2 none := update_same_kind τ u _
  have hroot₂ := c.grows.table huroot
  constructor
  case rooted =>
    constructor
    case typed => exact c.typed.selfMap_typed hroot₂
    case kernel =>
      have hk₂ := c.grows.table (h.typed.old_agree hm h.kernel).1
      exact cutTyping_table_iff.mpr ⟨hk₂, not_Cut_root hk₂⟩
    case kernel_clear =>
      rintro (hsm | hku)
      · exact h.kernel_clear hsm
      · exact Typed.ne_of_free hfree h.kernel hku
    case roots =>
      intro r hr
      have hr₁ := c.grows.root_of_root (cutTyping_table_iff.mp hr).1
      by_cases hru : r = u
      · exact Or.inr (Or.inr hru)
      · rw [update_other_kind τ _ hru] at hr₁
        exact (h.roots r hr₁).imp_right Or.inl
  case fresh => exact hfree
  case frames =>
    intro p o hp
    apply cutTyping_frame
    have hpu : p ≠ u := by
      rintro rfl
      rw [hfree] at hp
      exact PageKind.noConfusion hp
    have hp₁ : update τ u (.table 2 none) p = .frame o := by
      rw [update_other_kind τ _ hpu, hp]
    rw [c.grows.kinds p (by simp [hp₁]), hp₁]
  case old =>
    intro r v hr hs hv
    have hs' : Clear sm r 2 (vpnIndex 2 v) := fun hh => hs ⟨Or.inl hh.1, hh.2⟩
    have hr₁ := (h.typed.old_agree hm hr).1
    have h₁ : leaf (selfMap s₂.mem u) r v = leaf s₂.mem r v :=
      c.typed.selfMap_leafFrom hroot₂ v (c.grows.table hr₁) hs
    have hru : r ≠ u := Typed.ne_of_free hfree hr
    rw [h₁, c.leaves hr₁ hs' hv, if_neg (fun hh => hru hh.1)]
    exact h.typed.leafFrom_agree (fun hp => (h.typed.old_agree hm hp).2) v hr hs'

/-- The copy of the kernel's leaves and the self map make a space for the new root. -/
theorem Spaces.setup_copy {l₁ l₂ : List ℕ} {u : ℕ} {s₁ s₂ : Phys} {τ₂ : Typing}
    (h : Spaces k f s τ sm (u :: l₁)) (ht : Typed s₁ (update τ u (.table 2 none)) sm l₁)
    (hz : ZeroPage s₁.mem u) (hm : SameOutside s.mem s₁.mem u 4096)
    (c : CopyOut sm s₁ (update τ u (.table 2 none)) l₁ k u (2^19) (2^26) s₂ τ₂ l₂) :
    SetupOut k f s τ sm (u :: l₁) u ⟨selfMap s₂.mem u, s₂.freelist⟩ (cutTyping τ₂ u) l₂ := by
  have a := h.rooted.setup_copy hm c
  have huroot : update τ u (.table 2 none) u = .table 2 none := update_same_kind τ u _
  have hroot₂ := c.grows.table huroot
  have hsame {p ℓ : ℕ} {par : Option (ℕ × ℕ)} (hp : τ p = .table ℓ par) :
      AgreeOn s₁.mem s.mem p 4096 := (h.typed.old_agree hm hp).2
  have hnew {v : ℕ} (hs : vpnIndex 2 v ≠ selfSlot) (hv : v < 2^26) :
      leaf (selfMap s₂.mem u) u v = if 2^19 ≤ v ∧ Valid (f v) then f v else 0 := by
    have h₁ : leaf (selfMap s₂.mem u) u v = leaf s₂.mem u v :=
      c.typed.selfMap_leafFrom hroot₂ v hroot₂ (clear_of_index _ u hs)
    have hk₁ : leaf s₁.mem k v = f v := by
      rw [← h.kernel_leaves v hv]
      exact h.typed.leafFrom_agree hsame v h.kernel (h.clear_kernel _)
    have hz₁ : leaf s₁.mem u v = 0 := leafFrom_zeroPage hz 2 v
    rw [h₁, c.leaves huroot (clear_of_index sm u hs) (by omega), hk₁, hz₁]
    apply if_congr _ rfl rfl
    exact ⟨fun hh => ⟨hh.2.1, hh.2.2.2⟩, fun hh => ⟨rfl, hh.1, hv, hh.2⟩⟩
  have hkclear (v : ℕ) : Clear (fun r => sm r ∨ r = u) k 2 (vpnIndex 2 v) :=
    fun hh => a.rooted.kernel_clear hh.1
  refine ⟨⟨a.rooted.typed, a.rooted.kernel, a.rooted.kernel_clear, a.rooted.roots, ?_, ?_, ?_⟩,
    a.fresh, a.frames, ?_, ?_⟩
  · intro r i hr hlo hhi
    have hr₁ := c.grows.root_of_root (cutTyping_table_iff.mp hr).1
    have hs : ¬(r = u ∧ i = selfSlot) := by
      have := selfSlot_eq
      omega
    rw [c.typed.selfMap_entry hroot₂ (ht.page hr₁) hhi hs, c.grows.high hr₁ hlo hhi]
    by_cases hru : r = u
    · rw [hru, entry_zeroPage hz hhi]
      exact not_Valid_zero
    · rw [update_other_kind τ _ hru] at hr₁
      rw [entry_agree (hsame hr₁) hhi]
      exact h.high r i hr₁ hlo hhi
  · intro v hv
    rw [a.old h.kernel (hkclear v) (by omega), h.kernel_leaves v hv]
  · intro r v hr hlo hhi hs
    rcases hr with hr | rfl
    · rw [a.old (h.root_of_sm hr) (clear_of_index _ r hs) (by omega), h.shared r v hr hlo hhi hs]
    · have hl := hnew hs hhi
      rw [hl]
      exact if_congr (and_iff_right hlo) rfl rfl
  · intro r v hr hv hs
    exact a.old (h.root_of_sm hr) (clear_of_index _ r hs) hv
  · intro v hv
    have hl := hnew (user_index hv) (by omega)
    rw [hl, if_neg (by omega)]

theorem page_base : (0x80000000 : ℕ) = 2^19*4096 := by decide

theorem Roots.setup_calls (h : Roots k s τ sm l) {u : ℕ} {s₁ s₂ : Phys}
    (hu : uvmcreate s = (u, s₁)) (hu0 : u ≠ 0)
    (hcopy : kvmCopyToUserPagetable s₁ k u = .ok (0, s₂)) :
    ∃ l₁ τ₂ l₂, l = u :: l₁ ∧ Typed s₁ (update τ u (.table 2 none)) sm l₁ ∧ ZeroPage s₁.mem u ∧
      SameOutside s.mem s₁.mem u 4096 ∧
      CopyOut sm s₁ (update τ u (.table 2 none)) l₁ k u (2^19) (2^26) s₂ τ₂ l₂ := by
  obtain ⟨l₁, rfl, ht, hz, hm⟩ := h.typed.uvmcreate_root hu hu0
  have hfree := h.typed.free_kind List.mem_cons_self
  have husm (i : ℕ) : Clear sm u 2 i :=
    fun hh => Typed.ne_of_free hfree (h.typed.selfMap hh.1).1 rfl
  have hkclear (i : ℕ) : Clear sm k 2 i := fun hh => h.kernel_clear hh.1
  rw [kvmCopyToUserPagetable, page_base] at hcopy
  obtain ⟨τ₂, l₂, _, c⟩ := Typed.kvmCopyLoop_ok hkclear husm (2^26-2^19) ht
    (by decide) le_rfl (h.typed.old_agree hm h.kernel).1 (update_same_kind τ u _) hcopy
  exact ⟨l₁, τ₂, l₂, rfl, ht, hz, hm, c⟩

theorem Spaces.setup (h : Spaces k f s τ sm l) {u : ℕ} {s₁ s₂ : Phys}
    (hu : uvmcreate s = (u, s₁)) (hu0 : u ≠ 0)
    (hcopy : kvmCopyToUserPagetable s₁ k u = .ok (0, s₂)) :
    ∃ τ' l', SetupOut k f s τ sm l u ⟨selfMap s₂.mem u, s₂.freelist⟩ τ' l' := by
  obtain ⟨l₁, τ₂, l₂, rfl, ht, hz, hm, c⟩ := h.rooted.setup_calls hu hu0 hcopy
  exact ⟨_, l₂, h.setup_copy ht hz hm c⟩

end

end RiscvMos
