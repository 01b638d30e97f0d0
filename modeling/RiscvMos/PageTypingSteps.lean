import RiscvMos.PageTyping

/-! What each elementary write does to the page typing: handing out a frame,
taking one back, starting a root, linking a new table, storing a leaf. -/
namespace RiscvMos
open ByteMem LinkChain Function

theorem update_same_kind (τ : Typing) (c : ℕ) (k : PageKind) : update τ c k c = k :=
  update_self c k τ

theorem update_other_kind (τ : Typing) {c q : ℕ} (k : PageKind) (h : q ≠ c) :
    update τ c k q = τ q := update_of_ne h k τ

theorem leafFrom_zeroPage {m : Mem} {p : ℕ} (h : ZeroPage m p) (ℓ v : ℕ) :
    leafFrom m ℓ p v = 0 := by
  cases ℓ with
  | zero => exact entry_zeroPage h (vpnIndex_lt _ _)
  | succ ℓ =>
    apply leafFrom_succ_of_not_valid
    rw [entry_zeroPage h (vpnIndex_lt _ _)]
    exact not_Valid_zero

/-- `s'` comes from `s` by filling invalid entries with new tables and by leaf
writes: old pages keep their kind, roots their entries behind MAXVA, and frames
and all memory outside the heap their bytes. -/
structure Grows (s : Phys) (τ : Typing) (s' : Phys) (τ' : Typing) : Prop where
  kinds : ∀ p, τ p ≠ .free → τ' p = τ p
  fresh : ∀ p, τ p = .free → τ' p = .free ∨ ∃ ℓ pi, τ' p = .table ℓ (some pi)
  entries : ∀ {p ℓ par i}, τ p = .table (ℓ+1) par → i < 512 → Valid (entry s.mem p i) →
    entry s'.mem p i = entry s.mem p i
  high : ∀ {p par i}, τ p = .table 2 par → 256 ≤ i → i < 512 →
    entry s'.mem p i = entry s.mem p i
  other : ∀ b, (∀ p, IsPage p → p ≤ b → b < p+4096 → ∃ o, τ p = .frame o) →
    s'.mem b = s.mem b

namespace Grows

theorem refl (s : Phys) (τ : Typing) : Grows s τ s τ :=
  ⟨fun _ _ => rfl, fun _ h => Or.inl h, fun _ _ _ => rfl, fun _ _ _ => rfl, fun _ _ => rfl⟩

variable {s s' s'' : Phys} {τ τ' τ'' : Typing}

theorem table (h : Grows s τ s' τ') {p ℓ : ℕ} {par : Option (ℕ × ℕ)}
    (hp : τ p = .table ℓ par) : τ' p = .table ℓ par := by
  rw [h.kinds p (by simp [hp]), hp]

theorem trans (h : Grows s τ s' τ') (h' : Grows s' τ' s'' τ'') : Grows s τ s'' τ'' := by
  refine ⟨?_, ?_, ?_, ?_, ?_⟩
  · intro p hp
    have hk := h.kinds p hp
    rw [h'.kinds p (by rwa [hk]), hk]
  · intro p hp
    rcases h.fresh p hp with hf | ⟨ℓ, pi, ht⟩
    · exact h'.fresh p hf
    · exact Or.inr ⟨ℓ, pi, h'.table ht⟩
  · intro p ℓ par i hp hi hv
    have he := h.entries hp hi hv
    rw [h'.entries (h.table hp) hi (by rwa [he]), he]
  · intro p par i hp hlo hhi
    rw [h'.high (h.table hp) hlo hhi, h.high hp hlo hhi]
  · intro b hb
    rw [h'.other b, h.other b hb]
    intro p hp hl hu
    obtain ⟨o, ho⟩ := hb p hp hl hu
    exact ⟨o, by rw [h.kinds p (by simp [ho]), ho]⟩

theorem root_of_root (h : Grows s τ s' τ') {p : ℕ} (hp : τ' p = .table 2 none) :
    τ p = .table 2 none := by
  by_cases hf : τ p = .free
  · rcases h.fresh p hf with h' | ⟨ℓ, pi, h'⟩
    · rw [hp] at h'
      cases h'
    · rw [hp] at h'
      cases h'
  · rw [← h.kinds p hf, hp]

theorem root_iff (h : Grows s τ s' τ') (p : ℕ) : τ' p = .table 2 none ↔ τ p = .table 2 none :=
  ⟨h.root_of_root, h.table⟩

theorem frame_iff (h : Grows s τ s' τ') (p : ℕ) :
    (∃ o, τ' p = .frame o) ↔ ∃ o, τ p = .frame o := by
  by_cases hf : τ p = .free
  · rw [hf]
    rcases h.fresh p hf with h' | ⟨ℓ, pi, h'⟩ <;> simp [h']
  · rw [h.kinds p hf]

theorem frame_agree (h : Grows s τ s' τ') {p : ℕ} {o : Option (ℕ × ℕ)} (hp : IsPage p)
    (hτ : τ p = .frame o) : AgreeOn s'.mem s.mem p 4096 := by
  intro b hlo hhi
  apply h.other b
  intro q hq hql hqu
  by_cases hqp : q = p
  · exact ⟨o, by rw [hqp, hτ]⟩
  · have hd := hq.disjoint hp hqp
    omega

theorem low (h : Grows s τ s' τ') {b : ℕ} (hb : b < KERNEND) : s'.mem b = s.mem b := by
  apply h.other
  intro p hp hlo hhi
  have hstart := hp.1
  omega

end Grows

namespace Typed

variable {s : Phys} {τ : Typing} {sm : ℕ → Prop} {l : List ℕ}

theorem free_kind (h : Typed s τ sm l) {p : ℕ} (hp : p ∈ l) : τ p = .free :=
  ((h.mem_free p).mp hp).2

theorem ne_of_free {c p ℓ : ℕ} {par : Option (ℕ × ℕ)} (hc : τ c = .free)
    (hp : τ p = .table ℓ par) : p ≠ c := by
  rintro rfl
  rw [hp] at hc
  cases hc

theorem retype (h : Typed s τ sm l) {s' : Phys} {τ' : Typing} {l' : List ℕ}
    (hf : FreeList s' l') (hl : ∀ p, p ∈ l' ↔ IsPage p ∧ τ' p = .free)
    (ht : ∀ p ℓ par, τ' p = .table ℓ par ↔ τ p = .table ℓ par)
    (hm : ∀ {p ℓ par}, τ p = .table ℓ par → AgreeOn s'.mem s.mem p 4096) :
    Typed s' τ' sm l' := by
  have he {p ℓ i : ℕ} {par : Option (ℕ × ℕ)} (hp : τ p = .table ℓ par) (hi : i < 512) :
      entry s'.mem p i = entry s.mem p i := entry_agree (hm hp) hi
  have hslot : selfSlot < 512 := by decide
  constructor
  case free => exact hf
  case mem_free => exact hl
  case page => exact fun hp => h.page ((ht _ _ _).mp hp)
  case level => exact fun hp => h.level ((ht _ _ _).mp hp)
  case parent =>
    intro c ℓ p i hc
    obtain ⟨hi, hcl, ⟨par, hp⟩, hen⟩ := h.parent ((ht _ _ _).mp hc)
    exact ⟨hi, hcl, ⟨par, (ht _ _ _).mpr hp⟩, by rw [he hp hi, hen]⟩
  case child =>
    intro p ℓ par i hp hi hcl hv
    have hp := (ht _ _ _).mp hp
    rw [he hp hi] at hv
    obtain ⟨c, hc⟩ := h.child hp hi hcl hv
    exact ⟨c, (ht _ _ _).mpr hc⟩
  case leafOk =>
    intro p par i hp hi hv
    have hp := (ht _ _ _).mp hp
    rw [he hp hi] at hv ⊢
    exact h.leafOk hp hi hv
  case selfMap =>
    intro p hp
    obtain ⟨hr, hen⟩ := h.selfMap hp
    exact ⟨(ht _ _ _).mpr hr, by rw [he hr hslot, hen]⟩

theorem table_agree (h : Typed s τ sm l) {m' : Mem} {c : ℕ} (hc : IsPage c)
    (hct : ∀ ℓ par, τ c ≠ .table ℓ par) (hm : SameOutside s.mem m' c 4096) {p ℓ : ℕ}
    {par : Option (ℕ × ℕ)} (hp : τ p = .table ℓ par) : AgreeOn m' s.mem p 4096 := by
  have hne : p ≠ c := by
    rintro rfl
    exact hct _ _ hp
  exact hm.agreeOn ((h.page hp).disjoint hc hne)

theorem not_table_of_free {c : ℕ} (hc : τ c = .free) (ℓ : ℕ) (par : Option (ℕ × ℕ)) :
    τ c ≠ .table ℓ par := by
  rw [hc]
  simp

theorem update_table_iff {c : ℕ} {k : PageKind} (hτ : ∀ ℓ par, τ c ≠ .table ℓ par)
    (hk : ∀ ℓ par, k ≠ .table ℓ par) (p ℓ : ℕ) (par : Option (ℕ × ℕ)) :
    update τ c k p = .table ℓ par ↔ τ p = .table ℓ par := by
  by_cases hpc : p = c
  · rw [hpc, update_same_kind]
    exact ⟨fun he => absurd he (hk ℓ par), fun he => absurd he (hτ ℓ par)⟩
  · rw [update_other_kind τ k hpc]

theorem mem_free_pop (h : Typed s τ sm (c :: l)) {k : PageKind} (hk : k ≠ .free) (p : ℕ) :
    p ∈ l ↔ IsPage p ∧ update τ c k p = .free := by
  have hnd := List.nodup_cons.mp h.free.nodup
  by_cases hpc : p = c
  · rw [hpc, update_same_kind]
    exact ⟨fun hp => absurd hp hnd.1, fun hp => absurd hp.2 hk⟩
  · rw [update_other_kind τ k hpc, ← h.mem_free p, List.mem_cons]
    exact ⟨Or.inr, fun hp => hp.resolve_left hpc⟩

theorem kalloc_frame {c : ℕ} (h : Typed s τ sm (c :: l)) (o : Option (ℕ × ℕ)) :
    ∃ s', kalloc s = (c, s') ∧ Typed s' (update τ c (.frame o)) sm l ∧
      ZeroPage s'.mem c ∧ SameOutside s.mem s'.mem c 4096 := by
  obtain ⟨s', hk, hf, hz, hm⟩ := kalloc_cons h.free
  have hfree := h.free_kind List.mem_cons_self
  have hpage := h.free.pages c List.mem_cons_self
  refine ⟨s', hk, ?_, hz, hm⟩
  apply h.retype hf (h.mem_free_pop (by simp))
  · exact update_table_iff (not_table_of_free hfree) (by simp)
  · exact h.table_agree hpage (not_table_of_free hfree) hm

theorem kfree_frame {c : ℕ} {o : Option (ℕ × ℕ)} (h : Typed s τ sm l) (hc : IsPage c)
    (ho : τ c = .frame o) :
    ∃ s', kfree s c = .ok s' ∧ Typed s' (update τ c .free) sm (c :: l) ∧
      SameOutside s.mem s'.mem c 4096 := by
  have hct (ℓ : ℕ) (par : Option (ℕ × ℕ)) : τ c ≠ .table ℓ par := by simp [ho]
  have hcl : c ∉ l := by
    intro hm
    rw [h.free_kind hm] at ho
    cases ho
  obtain ⟨s', hk, hf, hm⟩ := kfree_page h.free hc hcl
  refine ⟨s', hk, ?_, hm⟩
  apply h.retype hf
  · intro p
    by_cases hpc : p = c
    · rw [hpc, update_same_kind]
      exact ⟨fun _ => ⟨hc, rfl⟩, fun _ => List.mem_cons_self⟩
    · rw [update_other_kind τ _ hpc, ← h.mem_free p, List.mem_cons]
      exact ⟨fun hp => hp.resolve_left hpc, Or.inr⟩
  · exact update_table_iff hct (by simp)
  · exact h.table_agree hc hct hm

theorem write_frames (h : Typed s τ sm l) {m' : Mem}
    (hm : ∀ p, IsPage p → (∀ o, τ p ≠ .frame o) → AgreeOn m' s.mem p 4096) :
    Typed ⟨m', s.freelist⟩ τ sm l := by
  apply h.retype
  · apply h.free.write
    intro p hp
    exact (hm p (h.free.pages p hp) (by simp [h.free_kind hp])).mono le_rfl (by omega)
  · exact h.mem_free
  · exact fun _ _ _ => Iff.rfl
  · intro p ℓ par hp
    exact hm p (h.page hp) (by simp [hp])

/-! ### New tables -/

theorem add_root (h : Typed s τ sm l) {c : ℕ} (hpage : IsPage c) (hcl : c ∉ l)
    (hct : ∀ ℓ par, τ c ≠ .table ℓ par) (hz : ZeroPage s.mem c) :
    Typed s (update τ c (.table 2 none)) sm l := by
  have hne {p ℓ : ℕ} {par : Option (ℕ × ℕ)} (hp : τ p = .table ℓ par) : p ≠ c := by
    rintro rfl
    exact hct _ _ hp
  -- a free page is no table, so the tables keep their kind
  have hkeep {p ℓ : ℕ} {par : Option (ℕ × ℕ)} (hp : τ p = .table ℓ par) :
      update τ c (.table 2 none) p = .table ℓ par := by
    rw [update_other_kind τ _ (hne hp), hp]
  constructor
  case free => exact h.free
  case mem_free =>
    intro p
    by_cases hpc : p = c
    · rw [hpc, update_same_kind]
      simp [hcl]
    · rw [update_other_kind τ _ hpc]
      exact h.mem_free p
  case page =>
    intro p ℓ par hp
    by_cases hpc : p = c
    · rwa [hpc]
    · rw [update_other_kind τ _ hpc] at hp
      exact h.page hp
  case level =>
    intro p ℓ par hp
    by_cases hpc : p = c
    · rw [hpc, update_same_kind] at hp
      cases hp
      simp
    · rw [update_other_kind τ _ hpc] at hp
      exact h.level hp
  case parent =>
    intro x ℓ p i hx
    have hxc : x ≠ c := by
      rintro rfl
      rw [update_same_kind] at hx
      cases hx
    rw [update_other_kind τ _ hxc] at hx
    obtain ⟨hi, hcl, ⟨par, hp⟩, hen⟩ := h.parent hx
    exact ⟨hi, hcl, ⟨par, hkeep hp⟩, hen⟩
  case child =>
    intro p ℓ par i hp hi hcl hv
    by_cases hpc : p = c
    · rw [hpc, entry_zeroPage hz hi] at hv
      exact absurd hv not_Valid_zero
    · rw [update_other_kind τ _ hpc] at hp
      obtain ⟨x, hx⟩ := h.child hp hi hcl hv
      exact ⟨x, hkeep hx⟩
  case leafOk =>
    intro p par i hp hi hv
    have hpc : p ≠ c := by
      rintro rfl
      rw [update_same_kind] at hp
      cases hp
    rw [update_other_kind τ _ hpc] at hp
    exact h.leafOk hp hi hv
  case selfMap =>
    intro p hp
    obtain ⟨hr, hen⟩ := h.selfMap hp
    exact ⟨hkeep hr, hen⟩

theorem new_root {c : ℕ} (h : Typed s τ sm (c :: l)) {s' : Phys} (hf : FreeList s' l)
    (hz : ZeroPage s'.mem c) (hm : SameOutside s.mem s'.mem c 4096) :
    Typed s' (update τ c (.table 2 none)) sm l := by
  have hfree := h.free_kind List.mem_cons_self
  have hpage := h.free.pages c List.mem_cons_self
  have hframe : Typed s' (update τ c (.frame none)) sm l :=
    h.retype hf (h.mem_free_pop (by simp))
      (fun p ℓ par => update_table_iff (not_table_of_free hfree) (by simp) p ℓ par)
      (fun hp => h.table_agree hpage (not_table_of_free hfree) hm hp)
  have hroot := hframe.add_root hpage (List.nodup_cons.mp h.free.nodup).1
    (by simp) hz
  rwa [update_idem] at hroot

theorem kalloc_root {c : ℕ} (h : Typed s τ sm (c :: l)) :
    ∃ s₁, kalloc s = (c, s₁) ∧
      Typed ⟨(memset s₁.mem c 0 PAGE_SIZE).2, s₁.freelist⟩ (update τ c (.table 2 none)) sm l ∧
      ZeroPage (memset s₁.mem c 0 PAGE_SIZE).2 c ∧
      SameOutside s.mem (memset s₁.mem c 0 PAGE_SIZE).2 c 4096 := by
  obtain ⟨s₁, hk, hf, _, hm⟩ := kalloc_cons h.free
  have hpage := h.free.pages c List.mem_cons_self
  have hset : SameOutside s₁.mem (memset s₁.mem c 0 PAGE_SIZE).2 c 4096 :=
    memset_sameOutside _ _ _ _
  have hzero := zeroPage_memset s₁.mem c
  have hf' : FreeList ⟨(memset s₁.mem c 0 PAGE_SIZE).2, s₁.freelist⟩ l := by
    apply hf.write
    intro p hp
    have hpc : p ≠ c := fun he => (List.nodup_cons.mp h.free.nodup).1 (he ▸ hp)
    have hd := (h.free.pages p (List.mem_cons_of_mem c hp)).disjoint hpage hpc
    exact hset.agreeOn (by omega)
  exact ⟨s₁, hk, h.new_root hf' hzero (hm.trans hset), hzero, hm.trans hset⟩

/-- The memory after a zeroed page `c` was linked at entry `i` of the table `p`. -/
structure Linked (m m' : Mem) (c p i : ℕ) : Prop where
  same : ∀ q j, IsPage q → q ≠ c → j < 512 → ¬(q = p ∧ j = i) → entry m' q j = entry m q j
  zero : ZeroPage m' c
  link : entry m' p i = PA2PTE c ||| PTE_V
  other : ∀ b, (b < c ∨ c+4096 ≤ b) → (b < p ∨ p+4096 ≤ b) → m' b = m b

/-- A zeroed page becomes the table below an invalid entry. -/
theorem link_table {c p ℓ i : ℕ} {par : Option (ℕ × ℕ)} (h : Typed s τ sm (c :: l))
    {s' : Phys} (hf : FreeList s' l) (hp : τ p = .table (ℓ+1) par) (hi : i < 512)
    (hcl : Clear sm p (ℓ+1) i) (hv : ¬Valid (entry s.mem p i))
    (hm : Linked s.mem s'.mem c p i) :
    Typed s' (update τ c (.table ℓ (some (p,i)))) sm l := by
  have hfree := h.free_kind List.mem_cons_self
  have hpage := h.free.pages c List.mem_cons_self
  have hslot : selfSlot < 512 := by decide
  have hne {q k : ℕ} {par : Option (ℕ × ℕ)} (hq : τ q = .table k par) : q ≠ c :=
    ne_of_free hfree hq
  -- tables keep their kind, and their entries but the one of the link
  have hkeep {q k : ℕ} {par : Option (ℕ × ℕ)} (hq : τ q = .table k par) :
      update τ c (.table ℓ (some (p,i))) q = .table k par := by
    rw [update_other_kind τ _ (hne hq), hq]
  have he {q k j : ℕ} {par : Option (ℕ × ℕ)} (hq : τ q = .table k par) (hj : j < 512)
      (hqj : ¬(q = p ∧ j = i)) : entry s'.mem q j = entry s.mem q j :=
    hm.same q j (h.page hq) (hne hq) hj hqj
  have hℓ := (h.level hp).1
  constructor
  case free => exact hf
  case mem_free => exact h.mem_free_pop (by simp)
  case page =>
    intro q k par hq
    by_cases hqc : q = c
    · rwa [hqc]
    · rw [update_other_kind τ _ hqc] at hq
      exact h.page hq
  case level =>
    intro q k par hq
    by_cases hqc : q = c
    · rw [hqc, update_same_kind] at hq
      cases hq
      simp only [reduceCtorEq, iff_false]
      omega
    · rw [update_other_kind τ _ hqc] at hq
      exact h.level hq
  case parent =>
    intro x k q j hx
    by_cases hxc : x = c
    · rw [hxc, update_same_kind] at hx
      cases hx
      exact ⟨hi, hcl, ⟨par, hkeep hp⟩, by rw [hxc, hm.link]⟩
    · rw [update_other_kind τ _ hxc] at hx
      obtain ⟨hj, hclq, ⟨par', hq⟩, hen⟩ := h.parent hx
      have hqj : ¬(q = p ∧ j = i) := by
        rintro ⟨rfl, rfl⟩
        exact hv (hen ▸ Valid_table x)
      exact ⟨hj, hclq, ⟨par', hkeep hq⟩, by rw [he hq hj hqj, hen]⟩
  case child =>
    intro q k par' j hq hj hclq hvq
    by_cases hqc : q = c
    · rw [hqc, entry_zeroPage hm.zero hj] at hvq
      exact absurd hvq not_Valid_zero
    · rw [update_other_kind τ _ hqc] at hq
      by_cases hqj : q = p ∧ j = i
      · obtain ⟨rfl, rfl⟩ := hqj
        rw [hp] at hq
        cases hq
        exact ⟨c, update_same_kind τ c _⟩
      · rw [he hq hj hqj] at hvq
        obtain ⟨x, hx⟩ := h.child hq hj hclq hvq
        exact ⟨x, hkeep hx⟩
  case leafOk =>
    intro q par' j hq hj hvq
    by_cases hqc : q = c
    · rw [hqc, entry_zeroPage hm.zero hj] at hvq
      exact absurd hvq not_Valid_zero
    · rw [update_other_kind τ _ hqc] at hq
      have hqj : ¬(q = p ∧ j = i) := by
        rintro ⟨rfl, _⟩
        rw [hp] at hq
        cases hq
      rw [he hq hj hqj] at hvq ⊢
      exact h.leafOk hq hj hvq
  case selfMap =>
    intro q hq
    obtain ⟨hr, hen⟩ := h.selfMap hq
    have hqj : ¬(q = p ∧ selfSlot = i) := by
      rintro ⟨rfl, rfl⟩
      rw [hp] at hr
      cases hr
      exact hcl ⟨hq, rfl, rfl⟩
    exact ⟨hkeep hr, by rw [he hr hslot hqj, hen]⟩

theorem link_leafFrom {c p ℓ i : ℕ} {par : Option (ℕ × ℕ)} (h : Typed s τ sm (c :: l))
    {m' : Mem} (hp : τ p = .table (ℓ+1) par) (hv : ¬Valid (entry s.mem p i))
    (hm : Linked s.mem m' c p i) {k q : ℕ} (v : ℕ) {par' : Option (ℕ × ℕ)}
    (hq : τ q = .table k par') (hcl : Clear sm q k (vpnIndex k v)) :
    leafFrom m' k q v = leafFrom s.mem k q v := by
  have hfree := h.free_kind List.mem_cons_self
  have hpage := h.free.pages c List.mem_cons_self
  induction k generalizing q par' with
  | zero =>
    have hqj : ¬(q = p ∧ vpnIndex 0 v = i) := by
      rintro ⟨rfl, _⟩
      rw [hp] at hq
      cases hq
    rw [leafFrom_zero, leafFrom_zero,
      hm.same q _ (h.page hq) (ne_of_free hfree hq) (vpnIndex_lt _ _) hqj]
  | succ k ih =>
    by_cases hqj : q = p ∧ vpnIndex (k+1) v = i
    · obtain ⟨rfl, rfl⟩ := hqj
      have hval : Valid (entry m' q (vpnIndex (k+1) v)) := by
        rw [hm.link]
        exact Valid_table c
      rw [leafFrom_succ_of_not_valid hv, leafFrom_succ_of_valid hval, hm.link,
        PTE2PA_table hpage]
      exact leafFrom_zeroPage hm.zero k v
    · have he := hm.same q _ (h.page hq) (ne_of_free hfree hq) (vpnIndex_lt (k+1) v) hqj
      by_cases hval : Valid (entry s.mem q (vpnIndex (k+1) v))
      · rw [leafFrom_succ_of_valid hval, leafFrom_succ_of_valid (by rwa [he]), he]
        have hk := (h.level hq).1
        exact ih (h.next hq (vpnIndex_lt _ _) hcl hval) (clear_of_lt sm _ _ (by omega))
      · rw [leafFrom_succ_of_not_valid hval, leafFrom_succ_of_not_valid (by rwa [he])]

theorem link_grows {c p ℓ i : ℕ} {par : Option (ℕ × ℕ)} (h : Typed s τ sm (c :: l))
    {s' : Phys} (hp : τ p = .table (ℓ+1) par) (hv : ¬Valid (entry s.mem p i))
    (hlow : ℓ = 1 → i < 256) (hm : Linked s.mem s'.mem c p i) :
    Grows s τ s' (update τ c (.table ℓ (some (p,i)))) := by
  have hfree := h.free_kind List.mem_cons_self
  have hpage := h.free.pages c List.mem_cons_self
  refine ⟨?_, ?_, ?_, ?_, ?_⟩
  · intro q hq
    have hqc : q ≠ c := fun he => hq (he ▸ hfree)
    exact update_other_kind τ _ hqc
  · intro q hq
    by_cases hqc : q = c
    · rw [hqc, update_same_kind]
      exact Or.inr ⟨ℓ, (p,i), rfl⟩
    · rw [update_other_kind τ _ hqc]
      exact Or.inl hq
  · intro q k par' j hq hj hvq
    apply hm.same q j (h.page hq) (ne_of_free hfree hq) hj
    rintro ⟨rfl, rfl⟩
    exact hv hvq
  · intro q par' j hq hlo hhi
    apply hm.same q j (h.page hq) (ne_of_free hfree hq) hhi
    rintro ⟨rfl, rfl⟩
    rw [hp] at hq
    injection hq with hℓ
    have := hlow (by omega)
    omega
  · intro b hb
    have hout {q : ℕ} (hq : IsPage q) (ho : ∀ o, τ q ≠ .frame o) : b < q ∨ q+4096 ≤ b := by
      by_contra hin
      obtain ⟨o, hqo⟩ := hb q hq (by omega) (by omega)
      exact ho o hqo
    exact hm.other b (hout hpage (by simp [hfree])) (hout (h.page hp) (by simp [hp]))

theorem linked_of_kalloc {s₁ : Phys} {c p i : ℕ} (hc : IsPage c) (hp : IsPage p)
    (hne : p ≠ c) (hi : i < 512) (hm : SameOutside s.mem s₁.mem c 4096) :
    Linked s.mem (store64 (memset s₁.mem c 0 PAGE_SIZE).2 (p+8*i) (PA2PTE c ||| PTE_V))
      c p i := by
  have hcp := hc.disjoint hp (Ne.symm hne)
  have hset : SameOutside s.mem (memset s₁.mem c 0 PAGE_SIZE).2 c 4096 :=
    hm.trans (memset_sameOutside _ _ _ _)
  have hstore (m : Mem) : SameOutside m (store64 m (p+8*i) (PA2PTE c ||| PTE_V)) (p+8*i) 8 :=
    store_sameOutside m _ 8 _
  refine ⟨?_, ?_, ?_, ?_⟩
  · intro q j hq hqc hj hqj
    rw [entry_store_ne _ _ hp hq hi hj hqj]
    exact entry_agree (hset.agreeOn (hq.disjoint hc hqc)) hj
  · intro b hl hu
    rw [hstore _ b (by omega)]
    exact zeroPage_memset _ _ b hl hu
  · exact entry_store_same _ _ _ _ (tablePte_lt hc)
  · intro b hbc hbp
    rw [hstore _ b (by omega), hset b hbc]

theorem link_freeList {c p ℓ i : ℕ} {par : Option (ℕ × ℕ)} (h : Typed s τ sm (c :: l))
    {s₁ s₂ : Phys} (hf : FreeList s₁ l) (hp : τ p = .table ℓ par)
    (hm : SameOutside s.mem s₁.mem c 4096) (hlink : Linked s.mem s₂.mem c p i)
    (hs : s₂.freelist = s₁.freelist) : FreeList s₂ l := by
  have hpage := h.free.pages c List.mem_cons_self
  have hw : FreeList ⟨s₂.mem, s₁.freelist⟩ l := by
    apply hf.write
    intro q hq b hl hu
    have hql := List.mem_cons_of_mem c hq
    have hqc : q ≠ c := fun he => (List.nodup_cons.mp h.free.nodup).1 (he ▸ hq)
    have hqp : q ≠ p := (ne_of_free (h.free_kind hql) hp).symm
    have hqpage := h.free.pages q hql
    have hdc := hqpage.disjoint hpage hqc
    have hdp := hqpage.disjoint (h.page hp) hqp
    rw [hlink.other b (by omega) (by omega), hm b (by omega)]
  rw [← hs] at hw
  exact hw

/-! ### Leaf writes -/

theorem store_leaf (h : Typed s τ sm l) {q i e : ℕ} {par : Option (ℕ × ℕ)}
    (hq : τ q = .table 0 par) (hi : i < 512) (he : e < 2^62) (hok : Valid e → HasRWX e) :
    Typed ⟨store64 s.mem (q+8*i) e, s.freelist⟩ τ sm l := by
  have hpage := h.page hq
  have hslot : selfSlot < 512 := by decide
  have hsame {p j : ℕ} (hp : IsPage p) (hj : j < 512) (hne : ¬(p = q ∧ j = i)) :
      entry (store64 s.mem (q+8*i) e) p j = entry s.mem p j :=
    entry_store_ne _ _ hpage hp hi hj hne
  -- entries of inner tables are not the one that changes
  have hup {p ℓ j : ℕ} {par' : Option (ℕ × ℕ)} (hp : τ p = .table (ℓ+1) par')
      (hj : j < 512) : entry (store64 s.mem (q+8*i) e) p j = entry s.mem p j := by
    apply hsame (h.page hp) hj
    rintro ⟨rfl, _⟩
    rw [hq] at hp
    cases hp
  constructor
  case free =>
    apply h.free.write
    intro p hp
    have hne : p ≠ q := by
      rintro rfl
      rw [h.free_kind hp] at hq
      cases hq
    have hd := (h.free.pages p hp).disjoint hpage hne
    exact (store_sameOutside s.mem (q+8*i) 8 e).agreeOn (by omega)
  case mem_free => exact h.mem_free
  case page => exact fun hp => h.page hp
  case level => exact fun hp => h.level hp
  case parent =>
    intro c ℓ p j hc
    obtain ⟨hj, hcl, ⟨par', hp⟩, hen⟩ := h.parent hc
    exact ⟨hj, hcl, ⟨par', hp⟩, by rw [hup hp hj, hen]⟩
  case child =>
    intro p ℓ par' j hp hj hcl hv
    rw [hup hp hj] at hv
    exact h.child hp hj hcl hv
  case leafOk =>
    intro p par' j hp hj hv
    by_cases hpj : p = q ∧ j = i
    · obtain ⟨rfl, rfl⟩ := hpj
      rw [entry_store_same _ _ _ _ (by omega)] at hv ⊢
      exact ⟨he, hok hv⟩
    · rw [hsame (h.page hp) hj hpj] at hv ⊢
      exact h.leafOk hp hj hv
  case selfMap =>
    intro p hp
    obtain ⟨hr, hen⟩ := h.selfMap hp
    exact ⟨hr, by rw [hup hr hslot, hen]⟩

theorem store_leaf_descend (h : Typed s τ sm l) {q i : ℕ} (e : ℕ) {par : Option (ℕ × ℕ)}
    (hq : τ q = .table 0 par) (hi : i < 512) {k p : ℕ} (v : ℕ) {par' : Option (ℕ × ℕ)}
    (hp : τ p = .table k par') (hcl : Clear sm p k (vpnIndex k v)) :
    descend (store64 s.mem (q+8*i) e) k p v = descend s.mem k p v := by
  induction k generalizing p par' with
  | zero => rfl
  | succ k ih =>
    have he : entry (store64 s.mem (q+8*i) e) p (vpnIndex (k+1) v) =
        entry s.mem p (vpnIndex (k+1) v) := by
      apply entry_store_ne _ _ (h.page hq) (h.page hp) hi (vpnIndex_lt _ _)
      rintro ⟨rfl, _⟩
      rw [hq] at hp
      cases hp
    simp only [descend, he]
    split_ifs with hv
    · have hk := (h.level hp).1
      exact ih (h.next hp (vpnIndex_lt _ _) hcl hv) (clear_of_lt sm _ _ (by omega))
    · rfl

/-- A leaf write is seen exactly by the descents that end at its entry. -/
theorem store_leaf_leafFrom (h : Typed s τ sm l) {q i e : ℕ} {par : Option (ℕ × ℕ)}
    (hq : τ q = .table 0 par) (hi : i < 512) (he : e < 2^64) {k p : ℕ} (v : ℕ)
    {par' : Option (ℕ × ℕ)} (hp : τ p = .table k par')
    (hcl : Clear sm p k (vpnIndex k v)) :
    leafFrom (store64 s.mem (q+8*i) e) k p v =
      if descend s.mem k p v = some q ∧ vpnIndex 0 v = i then e else leafFrom s.mem k p v := by
  unfold leafFrom
  rw [h.store_leaf_descend e hq hi v hp hcl]
  cases hd : descend s.mem k p v with
  | none => simp
  | some x =>
    obtain ⟨par'', hx⟩ := h.descend_typed hp hcl hd
    by_cases hxi : x = q ∧ vpnIndex 0 v = i
    · obtain ⟨rfl, rfl⟩ := hxi
      simp only [and_self, if_true]
      exact entry_store_same _ _ _ _ he
    · have hne : ¬(some x = some q ∧ vpnIndex 0 v = i) := by simpa using hxi
      rw [if_neg hne]
      exact entry_store_ne _ _ (h.page hq) (h.page hx) hi (vpnIndex_lt _ _) hxi

end Typed

end RiscvMos
