import RiscvMos.GrowPages
import RiscvMos.Spaces

/-! `kvm_copy_to_user_pagetable` on any well-formed kernel table and any empty root: with
enough free pages the copy has the kernel's leaves and shares no table page with it; where
the free list runs out, the clean-up panics. -/
namespace RiscvMos
open ByteMem LinkChain Function

/-- `u` is a zeroed page outside of the table `k` and of the free list `l`. -/
structure EmptyRoot (s : Phys) (k u : ℕ) (l : List ℕ) : Prop where
  page : IsPage u
  not_free : u ∉ l
  apart : ∀ level, ¬TableAt s.mem k level u
  zero : ZeroPage s.mem u

section
variable {s : Phys} {τ : Typing} {l : List ℕ} {k u : ℕ}

theorem EmptyRoot.typed (h : EmptyRoot s k u l) (hk : WellFormed s k l) : k ≠ u ∧
    ∃ τ, Typed s τ noSelfMap l ∧ τ k = .table 2 none ∧ τ u = .table 2 none := by
  obtain ⟨ht, hr⟩ := hk.typed
  have hframe := hk.treeTyping_frame h.not_free h.apart
  have hku : k ≠ u := by
    rintro rfl
    exact h.apart 2 .root
  refine ⟨hku, _, ht.add_root h.page h.not_free (by simp [hframe]) h.zero, ?_, ?_⟩
  · rw [update_other_kind _ _ hku, hr]
  · exact update_same_kind _ _ _

theorem uvmcreate_cons {c : ℕ} (hf : FreeList s (c :: l)) : ∃ s', uvmcreate s = (c, s') ∧ c ≠ 0 := by
  obtain ⟨s₁, hk, _⟩ := kalloc_cons hf
  have hc0 : c ≠ 0 := by
    have hb := (hf.pages c List.mem_cons_self).bounds
    omega
  rw [uvmcreate, hk]
  exact ⟨_, if_neg hc0, hc0⟩

theorem uvmcreate_nil (hf : FreeList s []) : uvmcreate s = (0, s) := by
  rw [uvmcreate, kalloc_nil hf]
  rfl

theorem WellFormed.uvmcreate_empty {s₀ : Phys} {l₀ : List ℕ} (h : WellFormed s₀ k l₀)
    (hu : uvmcreate s₀ = (u, s)) (hu0 : u ≠ 0) : ∃ l, l₀ = u :: l ∧ WellFormed s k l ∧
      EmptyRoot s k u l ∧ ∀ level p, TableAt s₀.mem k level p → AgreeOn s.mem s₀.mem p 4096 := by
  obtain ⟨ht, hr⟩ := h.typed
  cases l₀ with
  | nil =>
    rw [uvmcreate_nil h.free] at hu
    exact absurd (Prod.mk.inj hu).1.symm hu0
  | cons c l =>
    obtain ⟨s₁, hk, h₁, hz, hm⟩ := ht.kalloc_root
    have hpage := h.free.pages c List.mem_cons_self
    have hfree := ht.free_kind List.mem_cons_self
    have hc0 : c ≠ 0 := by
      have hb := hpage.bounds
      omega
    rw [uvmcreate, hk] at hu
    dsimp only at hu
    rw [if_neg hc0] at hu
    obtain ⟨rfl, rfl⟩ := Prod.mk.inj hu
    have hkc : k ≠ c := Typed.ne_of_free hfree hr
    have hk₁ : update (treeTyping s₀ k (c :: l)) c (.table 2 none) k = .table 2 none := by
      rw [update_other_kind _ _ hkc, hr]
    refine ⟨l, rfl, h₁.wellFormed hk₁, ⟨hpage, (List.nodup_cons.mp h.free.nodup).1, fun level hp => ?_,
      hz⟩, fun level p hp => ?_⟩
    · exact hkc (h₁.tableAt_apart hk₁ (update_same_kind _ _ _) hp .root).1
    · obtain ⟨par, hpar⟩ := ht.tableAt hr hp
      exact ht.table_agree hpage (Typed.not_table_of_free hfree) hm hpar

theorem Typed.mappages_kept (h : Typed s τ noSelfMap l) (hk : τ k = .table 2 none)
    (hu : τ u = .table 2 none) (hku : k ≠ u) {v pa perm : ℕ} {res : ℤ} {s' : Phys}
    (hv : v < 2^26) (hpa : pa < 2^64) (hf : perm < 1024) (hx : HasRWX perm)
    (hrun : mappages s u (v*4096) PAGE_SIZE pa perm = .ok (res, s')) {level p : ℕ}
    (hp : TableAt s.mem k level p) : AgreeOn s'.mem s.mem p 4096 := by
  -- seen from `u` alone the pages of `k` are frames
  have hwu := h.wellFormed hu
  obtain ⟨ht, hr⟩ := hwu.typed
  obtain ⟨hpage, hpl⟩ := (h.wellFormed hk).page hp
  have hframe := hwu.treeTyping_frame hpl (fun level' hp' => hku (h.tableAt_apart hk hu hp hp').1)
  have hgrows : ∃ τ', Grows s (treeTyping s u l) s' τ' := by
    obtain ⟨τ', l', _, ⟨_, _, m⟩ | ⟨_, m⟩⟩ := ht.mappages_page_ok hr (clear_noSelfMap _ _ _)
      (page_top hv) hpa hf hx hrun
    · exact ⟨τ', m.grows⟩
    · exact ⟨τ', m.grows⟩
  obtain ⟨τ', hg⟩ := hgrows
  exact hg.frame_agree hpage hframe

/-- The clean-up of the copy never returns: it has more than one page to go through, and
its loop walks to the first one again. -/
theorem Typed.uvmunmap_panics (h : Typed s τ noSelfMap l) (hu : τ u = .table 2 none) {v n : ℕ}
    (hv : v < 2^26) (h2 : 2 ≤ n) (hn : n ≤ 2^26) :
    uvmunmap s u (v*4096) n false = .error (.panic "uvmunmap: not mapped") := by
  have hal : ¬v*4096%PAGE_SIZE ≠ 0 := by
    simp only [PAGE_SIZE]
    omega
  have hsize : PAGE_SIZE = 4096 := rfl
  have hstop : (v*4096+n*PAGE_SIZE)%2^64 = v*4096+n*4096 := by
    rw [hsize]
    exact Nat.mod_eq_of_lt (by omega)
  have hloop : uvmunmapLoop s u (v*4096) false (v*4096) (v*4096+n*4096) =
      .error (.panic "uvmunmap: not mapped") := by
    by_cases hval : Valid (leaf s.mem u v)
    · obtain ⟨s', l', hfirst, _⟩ := h.uvmunmap_first false hu (clear_noSelfMap _ _ _) hv hval
        (by omega : v*4096 < v*4096+n*4096) (fun hf => absurd hf (by decide))
      rw [hfirst, if_pos (by omega)]
    · exact h.uvmunmapLoop_unmapped false hu (clear_noSelfMap _ _ _) hv hval (by omega)
  rw [uvmunmap, if_neg hal, hstop, hloop]
  rfl

end

/-! ### The pages so far -/

/-- The pages from 0x80000000 up to page `v` that the kernel's table maps. -/
def kernelPages (m : Mem) (k v : ℕ) : Finset ℕ :=
  (Finset.Ico (2^19) v).filter (fun w => Valid (leaf m k w))

/-- The pages below `v` were copied from `k` to the empty root `u`. -/
structure Copied (s₀ : Phys) (l₀ : List ℕ) (k u v : ℕ) (s : Phys) (τ : Typing) (l : List ℕ) :
    Prop where
  typed : Typed s τ noSelfMap l
  suffix : l <:+ l₀
  kernel : τ k = .table 2 none
  user : τ u = .table 2 none
  kept : ∀ level p, TableAt s₀.mem k level p → AgreeOn s.mem s₀.mem p 4096
  kernel_leaves : ∀ w < 2^26, leaf s.mem k w = leaf s₀.mem k w
  user_leaves : ∀ w < 2^26, leaf s.mem u w = if w ∈ kernelPages s₀.mem k v then leaf s₀.mem k w else 0
  covers : Covers s₀.mem s.mem u (kernelPages s₀.mem k v)
  length : l₀.length = l.length+tablesNeeded s₀.mem u (kernelPages s₀.mem k v)

section
variable {s₀ s s' : Phys} {τ τ' : Typing} {l₀ l l' : List ℕ} {k u v : ℕ}

theorem kernelPages_first (m : Mem) (k : ℕ) : kernelPages m k (2^19) = ∅ := by
  rw [kernelPages, Finset.Ico_self, Finset.filter_empty]

theorem kernelPages_succ (m : Mem) (k : ℕ) (hv : 2^19 ≤ v) : kernelPages m k (v+1) =
    if Valid (leaf m k v) then insert v (kernelPages m k v) else kernelPages m k v := by
  have hset : Finset.Ico (2^19) (v+1) = insert v (Finset.Ico (2^19) v) := by
    ext w
    simp only [Finset.mem_Ico, Finset.mem_insert]
    omega
  rw [kernelPages, hset, Finset.filter_insert]
  rfl

theorem kernelPages_mono (m : Mem) (k : ℕ) {w : ℕ} (h : v ≤ w) :
    kernelPages m k v ⊆ kernelPages m k w :=
  Finset.filter_subset_filter _ (Finset.Ico_subset_Ico_right h)

theorem EmptyRoot.copied (h : EmptyRoot s k u l) (hk : WellFormed s k l) :
    ∃ τ, k ≠ u ∧ Copied s l k u (2^19) s τ l := by
  obtain ⟨hku, τ, ht, hk', hu⟩ := h.typed hk
  refine ⟨τ, hku, ?_⟩
  constructor
  case typed => exact ht
  case suffix => exact List.suffix_rfl
  case kernel => exact hk'
  case user => exact hu
  case kept => exact fun level p _ b _ _ => rfl
  case kernel_leaves => exact fun w _ => rfl
  case user_leaves =>
    intro w _
    rw [kernelPages_first, if_neg (by simp)]
    exact leafFrom_zeroPage h.zero 2 w
  case covers =>
    rw [kernelPages_first]
    exact Covers.refl _ _
  case length =>
    rw [kernelPages_first]
    simp [tablesNeeded]

theorem Copied.skip (c : Copied s₀ l₀ k u v s τ l) (hv : 2^19 ≤ v)
    (hna : ¬Valid (leaf s₀.mem k v)) : Copied s₀ l₀ k u (v+1) s τ l := by
  have hset : kernelPages s₀.mem k (v+1) = kernelPages s₀.mem k v := by
    rw [kernelPages_succ _ _ hv, if_neg hna]
  constructor
  case typed => exact c.typed
  case suffix => exact c.suffix
  case kernel => exact c.kernel
  case user => exact c.user
  case kept => exact c.kept
  case kernel_leaves => exact c.kernel_leaves
  case user_leaves =>
    rw [hset]
    exact c.user_leaves
  case covers =>
    rw [hset]
    exact c.covers
  case length =>
    rw [hset]
    exact c.length

theorem Copied.map (c : Copied s₀ l₀ k u v s τ l) (hku : k ≠ u) (hlow : 2^19 ≤ v) (hv : v < 2^26)
    (hval : Valid (leaf s₀.mem k v))
    (m : MapOut noSelfMap s τ l u v 1 (PTE2PA (leaf s.mem k v)) (PTE_FLAGS (leaf s.mem k v)) s' τ' l')
    (kept : ∀ level p, TableAt s.mem k level p → AgreeOn s'.mem s.mem p 4096)
    (length : l.length = l'.length+tablesNeeded s.mem u {v}) (covers : Covers s.mem s'.mem u {v}) :
    Copied s₀ l₀ k u (v+1) s' τ' l' := by
  have hset : kernelPages s₀.mem k (v+1) = insert v (kernelPages s₀.mem k v) := by
    rw [kernelPages_succ _ _ hlow, if_pos hval]
  constructor
  case typed => exact m.typed
  case suffix => exact m.suffix.trans c.suffix
  case kernel => exact m.grows.table c.kernel
  case user => exact m.grows.table c.user
  case kept =>
    intro level p hp
    have hp' := (tableAt_agree c.kept level p).mpr hp
    exact (kept level p hp').trans (c.kept level p hp)
  case kernel_leaves =>
    intro w hw
    rw [m.leaves c.kernel (clear_noSelfMap _ _ _) (by omega), if_neg (fun hh => hku hh.1)]
    exact c.kernel_leaves w hw
  case user_leaves =>
    intro w hw
    rw [m.leaves c.user (clear_noSelfMap _ _ _) (by omega), hset]
    by_cases hwv : w = v
    · subst hwv
      have hlt := (c.typed.leaf_valid c.kernel (clear_noSelfMap _ _ _)
        (by rwa [c.kernel_leaves w hw])).1
      rw [if_pos (by omega), if_pos (Finset.mem_insert_self _ _), Nat.sub_self, Nat.mul_zero,
        Nat.add_zero, c.kernel_leaves w hw, mkLeaf_self hval (by rwa [← c.kernel_leaves w hw])]
    · have hmem : w ∈ insert v (kernelPages s₀.mem k v) ↔ w ∈ kernelPages s₀.mem k v := by
        simp [hwv]
      rw [if_neg (by omega), c.user_leaves w hw, if_congr hmem rfl rfl]
  case covers =>
    rw [hset]
    exact c.covers.insert covers
  case length =>
    have hadd := c.covers.tablesNeeded_insert hv
    have hprev := c.length
    rw [hset]
    omega

/-- The loop copies every page, or the free list is too short for them and the clean-up
panics. -/
theorem Copied.loop (hku : k ≠ u) (n : ℕ) : ∀ {s : Phys} {τ : Typing} {l : List ℕ} {v : ℕ},
    Copied s₀ l₀ k u v s τ l → v+n = 2^26 → 2^19 ≤ v →
    (∃ s' τ' l', kvmCopyLoop s k u (v*4096) = .ok (0, s') ∧ Copied s₀ l₀ k u (2^26) s' τ' l') ∨
      l₀.length < tablesNeeded s₀.mem u (kernelPages s₀.mem k (2^26)) ∧
        kvmCopyLoop s k u (v*4096) = .error (.panic "uvmunmap: not mapped") := by
  induction n with
  | zero =>
    intro s τ l v c hn _
    obtain rfl : v = 2^26 := by omega
    have hmax : ¬2^26*4096 < MAXVA := by decide
    rw [kvmCopyLoop_eq, if_neg hmax]
    exact .inl ⟨s, τ, l, rfl, c⟩
  | succ n ih =>
    intro s τ l v c hn hlow
    have hv : v < 2^26 := by omega
    rw [c.typed.kvmCopy_turn c.kernel (clear_noSelfMap _ _ _) hv, c.kernel_leaves v hv]
    by_cases hval : Valid (leaf s₀.mem k v)
    case neg =>
      rw [if_neg hval]
      exact ih (c.skip hlow hval) (by omega) (by omega)
    have hval' : Valid (leaf s.mem k v) := by rwa [c.kernel_leaves v hv]
    have hrwx := HasRWX_flags (c.typed.leaf_valid c.kernel (clear_noSelfMap _ _ _) hval').2
    have hun : ¬Valid (leaf s.mem u v) := by
      have hnot : v ∉ kernelPages s₀.mem k v := by simp [kernelPages]
      rw [c.user_leaves v hv, if_neg hnot]
      exact not_Valid_zero
    rw [if_pos hval, ← c.kernel_leaves v hv]
    rcases c.typed.mappages_page_exact c.user hv (PTE2PA_lt _) (PTE_FLAGS_lt _) hrwx hun with
      ⟨hle, s₁, τ₁, l₁, hmap, m, hlen, hcov⟩ | ⟨hlt, s₁, τ₁, hmap, m⟩
    · -- the page is mapped, and the loop goes on
      rw [hmap, ok_bind, if_neg (fun hne => hne rfl)]
      have hkept (level p : ℕ) (hp : TableAt s.mem k level p) := c.typed.mappages_kept c.kernel c.user
        hku hv (PTE2PA_lt _) (PTE_FLAGS_lt _) hrwx hmap hp
      exact ih (c.map hku hlow hv hval m hkept hlen hcov) (by omega) (by omega)
    · -- a table page is missing, and the clean-up starts at 0x80000000
      refine .inr ⟨?_, ?_⟩
      · have hadd := c.covers.tablesNeeded_insert hv
        have hprev := c.length
        have hall : insert v (kernelPages s₀.mem k v) ⊆ kernelPages s₀.mem k (2^26) := by
          have hstep := kernelPages_succ s₀.mem k hlow
          rw [if_pos hval] at hstep
          rw [← hstep]
          exact kernelPages_mono _ _ hv
        have hmono := tablesNeeded_mono s₀.mem u hall
        omega
      · rw [hmap, ok_bind, if_pos (by simp), page_base, m.typed.uvmunmap_panics
          (m.grows.table c.user) (by decide) (by omega) (by omega)]
        rfl

end

/-! ### The whole call -/

/-- The table pages that the copy takes from the free list. -/
def copyNeeds (s : Phys) (k u : ℕ) : ℕ := tablesNeeded s.mem u (kernelPages s.mem k (2^26))

section
variable {s s' : Phys} {l : List ℕ} {k u : ℕ}

theorem EmptyRoot.copy_cases (h : EmptyRoot s k u l) (hk : WellFormed s k l) :
    (∃ s' τ' l', kvmCopyToUserPagetable s k u = .ok (0, s') ∧ k ≠ u ∧
      Copied s l k u (2^26) s' τ' l') ∨
      l.length < copyNeeds s k u ∧
        kvmCopyToUserPagetable s k u = .error (.panic "uvmunmap: not mapped") := by
  obtain ⟨τ, hku, c⟩ := h.copied hk
  rw [kvmCopyToUserPagetable, page_base]
  rcases c.loop hku (2^26-2^19) (by omega) le_rfl with ⟨s', τ', l', hrun, c'⟩ | hshort
  · exact .inl ⟨s', τ', l', hrun, hku, c'⟩
  · exact .inr hshort

theorem EmptyRoot.copy_ok_iff (h : EmptyRoot s k u l) (hk : WellFormed s k l) :
    (∃ s', kvmCopyToUserPagetable s k u = .ok (0, s')) ↔ copyNeeds s k u ≤ l.length := by
  rcases h.copy_cases hk with ⟨s', τ', l', hrun, _, c⟩ | ⟨hshort, hpanic⟩
  · exact ⟨fun _ => by rw [copyNeeds, c.length]; omega, fun _ => ⟨s', hrun⟩⟩
  · refine ⟨fun ⟨s', hrun⟩ => ?_, fun hle => absurd hle (by omega)⟩
    rw [hpanic] at hrun
    cases hrun

theorem Copied.leafAt_user {τ' : Typing} {l' : List ℕ} (c : Copied s l k u (2^26) s' τ' l') (va : ℕ) :
    leafAt s' u va = if 0x80000000 ≤ va then leafAt s' k va else none := by
  by_cases hva : va < MAXVA
  · have hmax : MAXVA = 2^38 := by decide
    have hw : va/4096 < 2^26 := by omega
    have hlow : 2^19 ≤ va/4096 ↔ 0x80000000 ≤ va := by omega
    have hmem : va/4096 ∈ kernelPages s.mem k (2^26) ↔
        0x80000000 ≤ va ∧ Valid (leaf s.mem k (va/4096)) := by
      rw [kernelPages, Finset.mem_filter, Finset.mem_Ico, hlow]
      exact and_congr_left (fun _ => and_iff_left hw)
    rw [c.typed.leafAt_eq c.user (clear_noSelfMap _ _ _) hva,
      c.typed.leafAt_eq c.kernel (clear_noSelfMap _ _ _) hva, c.user_leaves _ hw,
      c.kernel_leaves _ hw]
    by_cases hin : va/4096 ∈ kernelPages s.mem k (2^26)
    · rw [if_pos hin, if_pos (hmem.mp hin).1]
    · rw [if_neg hin, if_neg not_Valid_zero]
      split_ifs with hge hval
      · exact absurd (hmem.mpr ⟨hge, hval⟩) hin
      · rfl
      · rfl
  · rw [leafAt_of_ge (by omega), leafAt_of_ge (by omega)]
    split_ifs <;> rfl

end

/-- A copy that returns 0: from 0x80000000 on the user table has the kernel's leaves, and
none below; the two tables share no page, and no byte of the kernel's table has changed. -/
theorem kvm_copy_copies {s₀ s s' : Phys} {k u : ℕ} {l : List ℕ} (hk : WellFormed s₀ k l)
    (hu : uvmcreate s₀ = (u, s)) (hu0 : u ≠ 0)
    (hrun : kvmCopyToUserPagetable s k u = .ok (0, s')) :
    (∀ va, 0x80000000 ≤ va → va < MAXVA → leafAt s' u va = leafAt s₀ k va) ∧
    (∀ va < 0x80000000, leafAt s' u va = none) ∧
    (∀ level level' p, TableAt s'.mem k level p → ¬TableAt s'.mem u level' p) ∧
    (∀ level p, TableAt s'.mem k level p ↔ TableAt s₀.mem k level p) ∧
    ∀ level p, TableAt s₀.mem k level p → AgreeOn s'.mem s₀.mem p 4096 := by
  obtain ⟨l', rfl, hk', he, hsame⟩ := hk.uvmcreate_empty hu hu0
  rcases he.copy_cases hk' with ⟨s₁, τ₁, l₁, hrun', hku, c⟩ | ⟨_, hpanic⟩
  case inr =>
    rw [hpanic] at hrun
    cases hrun
  obtain rfl : s₁ = s' := (Prod.mk.inj (Except.ok.inj (hrun'.symm.trans hrun))).2
  have hkept (level p : ℕ) (hp : TableAt s₀.mem k level p) : AgreeOn s₁.mem s₀.mem p 4096 :=
    (c.kept level p ((tableAt_agree hsame level p).mpr hp)).trans (hsame level p hp)
  have hkernel (va : ℕ) (hva : va < MAXVA) : leafAt s₁ k va = leafAt s₀ k va := by
    obtain ⟨ht, hr⟩ := hk.typed
    rw [c.typed.leafAt_eq c.kernel (clear_noSelfMap _ _ _) hva,
      ht.leafAt_eq hr (clear_noSelfMap _ _ _) hva, hk.leaf_agree hkept]
  refine ⟨fun va hlo hhi => ?_, fun va hva => ?_, fun level level' p hp hp' => ?_,
    tableAt_agree hkept, hkept⟩
  · rw [c.leafAt_user, if_pos hlo, hkernel va hhi]
  · rw [c.leafAt_user, if_neg (by omega)]
  · exact hku (c.typed.tableAt_apart c.kernel c.user hp hp').1

/-- The call returns -1, and the user table has no leaf. -/
def CopyRollsBack (s : Phys) (k u : ℕ) : Prop :=
  ∃ s', kvmCopyToUserPagetable s k u = .ok (-1, s') ∧ ∀ va, leafAt s' u va = none

/-- The copy returns 0 iff there are enough free pages, and where they run out it never
cleans up. -/
theorem kvm_copy_never_rollsBack {s : Phys} {k u : ℕ} {l : List ℕ} (hk : WellFormed s k l)
    (hu : EmptyRoot s k u l) :
    ((∃ s', kvmCopyToUserPagetable s k u = .ok (0, s')) ↔ copyNeeds s k u ≤ l.length) ∧
      (l.length < copyNeeds s k u → ¬CopyRollsBack s k u) := by
  refine ⟨hu.copy_ok_iff hk, fun hshort ⟨s', hrun, _⟩ => ?_⟩
  rcases hu.copy_cases hk with ⟨s₁, _, _, hok, _⟩ | ⟨_, hpanic⟩
  · rw [hok] at hrun
    cases hrun
  · rw [hpanic] at hrun
    cases hrun

/-! ### A kernel table with one page -/

/-- A kernel table that maps the page at 0x80000000 and nothing else, and a new root. -/
theorem exists_onePageTable {n : ℕ} (h3 : 3 ≤ n) (hn : n < heapCount) : ∃ s₀ s k u l,
    WellFormed s₀ k (u :: l) ∧ uvmcreate s₀ = (u, s) ∧ u ≠ 0 ∧ n = l.length+3 ∧
      WellFormed s k l ∧ EmptyRoot s k u l ∧ copyNeeds s k u = 2 := by
  obtain ⟨s, h, he, honly⟩ := exists_emptyTable hn
  obtain ⟨ht, hr⟩ := h.typed
  have hun : ¬Valid (leaf s.mem (heapPage n) (2^19)) := by
    rw [he]
    exact not_Valid_zero
  -- below an empty root one page needs a table of each level
  have htwo {m : Mem} {r : ℕ} (hr : ∀ i < 512, ¬Valid (entry m r i)) :
      tablesNeeded m r {2^19} = 2 := by
    rw [tablesNeeded_no_entry hr (by simp)]
    rfl
  have hneeds : tablesNeeded s.mem (heapPage n) {2^19} = 2 :=
    htwo (fun i hi hv => h.root .root hi hv (honly 1 _ (.next .root hi hv)))
  have hlen := heapPages_length n
  rcases ht.mappages_page_exact hr (by decide : 2^19 < 2^26) (by decide : 0x80000000 < 2^64)
    (by decide : PTE_R < 1024) (by decide : HasRWX PTE_R) hun with
    ⟨_, s₀, τ₀, l₀, _, m, hlen₀, _⟩ | ⟨hlt, _⟩
  case inr => omega
  have hk := m.typed.wellFormed (m.grows.table hr)
  obtain ⟨u, l, rfl⟩ := List.exists_cons_of_length_pos (by omega : 0 < l₀.length)
  obtain ⟨s₁, hu, hu0⟩ := uvmcreate_cons hk.free
  obtain ⟨l', hl, hk', hempty, hsame⟩ := hk.uvmcreate_empty hu hu0
  obtain rfl : l = l' := (List.cons.inj hl).2
  refine ⟨s₀, _, heapPage n, u, l, hk, hu, hu0, ?_, hk', hempty, ?_⟩
  · rw [List.length_cons] at hlen₀
    omega
  · -- the only page of the kernel's table is the one just mapped
    have hpages : kernelPages s₁.mem (heapPage n) (2^26) = {2^19} := by
      ext w
      rw [kernelPages, Finset.mem_filter, Finset.mem_Ico, Finset.mem_singleton]
      constructor
      · rintro ⟨⟨hlo, hhi⟩, hval⟩
        by_contra hw
        rw [hk.leaf_agree hsame,
          m.leaves hr (clear_noSelfMap _ _ _) (by omega), if_neg (by omega), he] at hval
        exact not_Valid_zero hval
      · rintro rfl
        refine ⟨⟨le_rfl, by decide⟩, ?_⟩
        rw [hk.leaf_agree hsame,
          m.leaves hr (clear_noSelfMap _ _ _) (by decide), if_pos ⟨rfl, le_rfl, by decide⟩]
        exact Valid_mkLeaf _ (by decide)
    rw [copyNeeds, hpages]
    refine htwo (fun i hi => ?_)
    rw [entry_zeroPage hempty.zero hi]
    exact not_Valid_zero

theorem kvm_copy_copies_one : ∃ s₀ s s' k u l, WellFormed s₀ k l ∧ uvmcreate s₀ = (u, s) ∧
    kvmCopyToUserPagetable s k u = .ok (0, s') ∧
    leafAt s' u 0x80000000 = leafAt s₀ k 0x80000000 := by
  obtain ⟨s₀, s, k, u, l, hk, hu, hu0, hl, hk', he, hneeds⟩ :=
    exists_onePageTable (by decide : 3 ≤ 5) (by decide)
  obtain ⟨s', hrun⟩ := (he.copy_ok_iff hk').mpr (by omega)
  exact ⟨s₀, s, s', k, u, _, hk, hu, hrun,
    (kvm_copy_copies hk hu hu0 hrun).1 _ le_rfl (by decide)⟩

theorem kvm_copy_never_rollsBack_one : ∃ s k u l, WellFormed s k l ∧ EmptyRoot s k u l ∧
    l.length < copyNeeds s k u ∧ ¬CopyRollsBack s k u := by
  obtain ⟨_, s, k, u, l, _, _, _, hl, hk, he, hneeds⟩ :=
    exists_onePageTable (by decide : 3 ≤ 4) (by decide)
  have hshort : l.length < copyNeeds s k u := by omega
  exact ⟨s, k, u, l, hk, he, hshort, (kvm_copy_never_rollsBack hk he).2 hshort⟩

/-- With one free page the copy of one kernel page gets its level-1 table and no level-0
table, and the clean-up finds nothing at 0x80000000. -/
theorem kvm_copy_short_panics : ∃ s₀ s k u l, WellFormed s₀ k (u :: l) ∧ uvmcreate s₀ = (u, s) ∧
    l.length < copyNeeds s k u ∧
    kvmCopyToUserPagetable s k u = .error (.panic "uvmunmap: not mapped") ∧
    ¬CopyRollsBack s k u := by
  obtain ⟨s₀, s, k, u, l, hk, hu, _, hl, hk', he, hneeds⟩ :=
    exists_onePageTable (by decide : 3 ≤ 4) (by decide)
  have hshort : l.length < copyNeeds s k u := by omega
  rcases he.copy_cases hk' with ⟨s', _, l', _, _, c⟩ | ⟨_, hpanic⟩
  · have hlen := c.length
    rw [copyNeeds] at hshort
    omega
  · refine ⟨s₀, s, k, u, l, hk, hu, hshort, hpanic, fun ⟨s', hrun, _⟩ => ?_⟩
    rw [hpanic] at hrun
    cases hrun

end RiscvMos
