import RiscvMos.GrowPages

/-! `uvmalloc` as a whole: it grows the range iff the free list has a frame for each page
and the tables, and it undoes what it did iff it fails before the third page. -/
namespace RiscvMos
open ByteMem LinkChain Function

/-- The number of pages of `[ROUND(old_size), new_size)`. -/
def newPages (old_size new_size : ℕ) : ℕ :=
  (ROUND new_size PAGE_SIZE-ROUND old_size PAGE_SIZE)/PAGE_SIZE

/-- The pages of `[ROUND(old_size), new_size)` are mapped with `perm` to distinct zeroed
frames that came from the free list `l` and are no tables, and `walk` finds for every other
address what it found in `s`. -/
structure GrowsTo (s : Phys) (pagetable : ℕ) (l : List ℕ) (old_size new_size perm : ℕ)
    (s' : Phys) : Prop where
  mapped : ∀ k < newPages old_size new_size, ∃ pte,
    leafAt s' pagetable (ROUND old_size PAGE_SIZE+k*PAGE_SIZE) = some pte ∧
    PTE_FLAGS pte = PTE_R ||| PTE_U ||| perm ||| PTE_V ∧ PTE2PA pte ∈ l ∧
    ZeroPage s'.mem (PTE2PA pte) ∧ ∀ level, ¬TableAt s'.mem pagetable level (PTE2PA pte)
  distinct : ∀ k < newPages old_size new_size, ∀ k' < newPages old_size new_size, ∀ p,
    MapsFrame s' pagetable (ROUND old_size PAGE_SIZE) k p →
    MapsFrame s' pagetable (ROUND old_size PAGE_SIZE) k' p → k = k'
  other : ∀ a, (∀ k < newPages old_size new_size,
    a/PAGE_SIZE ≠ ROUND old_size PAGE_SIZE/PAGE_SIZE+k) → leafAt s' pagetable a = leafAt s pagetable a

/-- `uvmalloc` returns 0, every leaf is as it was, and of the free pages only new tables of
the tree are gone. -/
def RollsBack (s : Phys) (pagetable : ℕ) (l : List ℕ) (old_size new_size perm : ℕ) : Prop :=
  ∃ s' l', uvmalloc s pagetable old_size new_size perm = .ok (0, s') ∧
    (∀ a, leafAt s' pagetable a = leafAt s pagetable a) ∧ FreeList s' l' ∧ l' ⊆ l ∧
    ∀ p ∈ l, p ∈ l' ∨ ∃ level, TableAt s'.mem pagetable level p

/-- The pages that `uvmalloc` takes for the first `k` pages of its range. -/
def uvmallocNeeds (s : Phys) (pagetable old_size k : ℕ) : ℕ :=
  pagesNeeded s.mem pagetable (ROUND old_size PAGE_SIZE/PAGE_SIZE) k

theorem newPages_bounds {old_size new_size : ℕ} (hle : old_size ≤ new_size) (hnew : new_size ≤ MAXVA) :
    ∃ v, ROUND old_size PAGE_SIZE = v*4096 ∧ v+newPages old_size new_size ≤ 2^26 ∧
      ∀ k, (v+k)*4096 < new_size ↔ k < newPages old_size new_size := by
  have hmax : MAXVA = 2^38 := by decide
  have hpage : PAGE_SIZE = 4096 := rfl
  have hold := ROUND_page old_size (by omega)
  have hpages : newPages old_size new_size =
      ((new_size+4095)/4096*4096-(old_size+4095)/4096*4096)/4096 := by
    rw [newPages, hold, ROUND_page new_size (by omega), hpage]
  refine ⟨(old_size+4095)/4096, hold, by omega, fun k => ?_⟩
  rw [hpages]
  omega

theorem uvmalloc_perm {perm : ℕ} (hf : perm < 1024) :
    PTE_R ||| PTE_U ||| perm < 1024 ∧ HasRWX (PTE_R ||| PTE_U ||| perm) := by
  refine ⟨Nat.or_lt_two_pow (n := 10) (by decide) hf, ?_⟩
  rw [HasRWX, Nat.or_assoc, Nat.and_comm, Nat.and_or_distrib_left]
  intro h0
  exact absurd (Nat.or_eq_zero_iff.mp h0).1 (by decide)

section
variable {s : Phys} {r old_size new_size perm : ℕ} {l : List ℕ}

theorem WellFormed.uvmalloc_run (h : WellFormed s r l) (hle : old_size ≤ new_size)
    (hnew : new_size ≤ MAXVA) (hf : perm < 1024)
    (hun : ∀ k < newPages old_size new_size, leafAt s r (ROUND old_size PAGE_SIZE+k*PAGE_SIZE) = none) :
    ∃ v, ROUND old_size PAGE_SIZE = v*4096 ∧ v+newPages old_size new_size ≤ 2^26 ∧
      (∀ k, uvmallocNeeds s r old_size k = pagesNeeded s.mem r v k) ∧
      (∀ w, v ≤ w → w < v+newPages old_size new_size → ¬Valid (leaf s.mem r w)) ∧
      (newPages old_size new_size = 0 ∨ 0 < new_size) ∧
      (GrowsAll s (treeTyping s r l) l r v (newPages old_size new_size) new_size perm
          (uvmalloc s r old_size new_size perm) ∨
        GrowsShort s (treeTyping s r l) l r v (newPages old_size new_size) perm
          (uvmalloc s r old_size new_size perm)) := by
  obtain ⟨ht, hr⟩ := h.typed
  obtain ⟨hf', hx⟩ := uvmalloc_perm hf
  obtain ⟨v, hv, hbound, hN⟩ := newPages_bounds hle hnew
  have hpage : PAGE_SIZE = 4096 := rfl
  have hun' (w : ℕ) (h1 : v ≤ w) (h2 : w < v+newPages old_size new_size) :
      ¬Valid (leaf s.mem r w) := by
    have hw := hun (w-v) (by omega)
    have hva : ROUND old_size PAGE_SIZE+(w-v)*PAGE_SIZE = w*4096 := by
      rw [hv, hpage]
      omega
    rw [hva, ht.leafAt_none hr (page_lt_MAXVA (by omega))] at hw
    rwa [Nat.mul_div_cancel w (by decide)] at hw
  refine ⟨v, hv, hbound, fun k => ?_, hun', ?_, ?_⟩
  · rw [uvmallocNeeds, hv, hpage, Nat.mul_div_cancel v (by decide)]
  · by_cases h0 : newPages old_size new_size = 0
    · exact .inl h0
    · have hfirst := (hN 0).mpr (by omega)
      exact .inr (by omega)
  · have hrun : uvmalloc s r old_size new_size perm =
        uvmallocLoop s r (v*4096) new_size perm (v*4096) := by
      rw [uvmalloc, if_neg (by omega)]
      simp only [hv]
    have hcov : Covers s.mem s.mem r (Finset.Ico v (v+([] : List ℕ).length)) := by
      rw [List.length_nil, Nat.add_zero, Finset.Ico_self]
      exact .refl _ _
    have hloop := Grown.loop ht hr hf' hx hN (fun _ => hbound) hun' _ (Nat.zero_add _)
      (Grown.start ht r v _) hcov (by rw [List.length_nil, pagesNeeded_zero, Nat.add_zero])
    rw [List.length_nil, Nat.add_zero] at hloop
    rw [hrun]
    exact hloop

theorem Grown.leafAt_frame {τ τ' : Typing} {v k : ℕ} {cs l' : List ℕ} {s' : Phys}
    (o : Grown s τ l r v perm cs s' τ' l') (h : Typed s τ noSelfMap l) (hr : τ r = .table 2 none)
    (hf : perm < 1024) (hk : k < cs.length) (hv : v+k < 2^26) :
    leafAt s' r (v*4096+k*PAGE_SIZE) = some (mkLeaf cs[k] perm) ∧ PTE2PA (mkLeaf cs[k] perm) = cs[k] := by
  have hpage : PAGE_SIZE = 4096 := rfl
  have hb := (h.free.pages _ (o.taken _ (List.getElem_mem hk)).1).bounds
  have hva : v*4096+k*PAGE_SIZE = (v+k)*4096 := by
    rw [hpage]
    omega
  have hpa : PTE2PA (mkLeaf cs[k] perm) = cs[k] := by
    rw [PTE2PA_mkLeaf (by omega) hf, Nat.div_mul_cancel (Nat.dvd_of_mod_eq_zero hb.2.2)]
  have hsub : v+k-v = k := by omega
  have hleaf : leaf s'.mem r (v+k) = mkLeaf cs[k] perm := by
    rw [o.leaves (v+k) hv, if_pos (by omega), hsub, List.getD_eq_getElem _ _ hk]
  refine ⟨?_, hpa⟩
  rw [hva, o.typed.leafAt_eq ((o.roots r).mpr hr)
    (clear_noSelfMap r 2 (vpnIndex 2 ((v+k)*4096/4096))) (page_lt_MAXVA hv),
    Nat.mul_div_cancel _ (by decide : 0 < 4096), hleaf, if_pos (Valid_mkLeaf _ hf)]

theorem Grown.leafAt_other {τ τ' : Typing} {v a : ℕ} {cs l' : List ℕ} {s' : Phys}
    (o : Grown s τ l r v perm cs s' τ' l') (h : Typed s τ noSelfMap l) (hr : τ r = .table 2 none)
    (ha : ¬(v ≤ a/4096 ∧ a/4096 < v+cs.length)) : leafAt s' r a = leafAt s r a := by
  by_cases hlt : a < MAXVA
  · have hmax : MAXVA = 2^38 := by decide
    rw [o.typed.leafAt_eq ((o.roots r).mpr hr) (clear_noSelfMap _ _ _) hlt,
      h.leafAt_eq hr (clear_noSelfMap _ _ _) hlt, o.leaves _ (by omega), if_neg ha]
  · rw [leafAt_of_ge (by omega), leafAt_of_ge (by omega)]

theorem WellFormed.growsTo {τ' : Typing} {v : ℕ} {cs l' : List ℕ} {s' : Phys}
    (h : WellFormed s r l) (hf : perm < 1024) (hv : ROUND old_size PAGE_SIZE = v*4096)
    (hb : v+newPages old_size new_size ≤ 2^26) (hlen : cs.length = newPages old_size new_size)
    (o : Grown s (treeTyping s r l) l r v (PTE_R ||| PTE_U ||| perm) cs s' τ' l') :
    GrowsTo s r l old_size new_size perm s' := by
  obtain ⟨ht, hr⟩ := h.typed
  obtain ⟨hf', _⟩ := uvmalloc_perm hf
  have hpage : PAGE_SIZE = 4096 := rfl
  have hframe {k : ℕ} (hk : k < newPages old_size new_size) :=
    o.leafAt_frame ht hr hf' (by omega : k < cs.length) (by omega)
  constructor
  case mapped =>
    intro k hk
    obtain ⟨hleaf, hpa⟩ := hframe hk
    obtain ⟨hl, hkind, hz⟩ := o.taken _ (List.getElem_mem (by omega : k < cs.length))
    rw [hv]
    refine ⟨_, hleaf, PTE_FLAGS_mkLeaf _ hf', by rwa [hpa], by rwa [hpa], fun level htable => ?_⟩
    rw [hpa] at htable
    obtain ⟨par, hpar⟩ := o.typed.tableAt ((o.roots r).mpr hr) htable
    rw [hkind] at hpar
    cases hpar
  case distinct =>
    have heq {k p : ℕ} (hk : k < newPages old_size new_size)
        (hp : MapsFrame s' r (ROUND old_size PAGE_SIZE) k p) : ∃ hk : k < cs.length, p = cs[k] := by
      obtain ⟨pte, hpte, rfl⟩ := hp
      obtain ⟨hleaf, hpa⟩ := hframe hk
      rw [hv, hleaf] at hpte
      rw [← Option.some.inj hpte]
      exact ⟨by omega, hpa⟩
    intro k hk k' hk' p hp hp'
    obtain ⟨_, h1⟩ := heq hk hp
    obtain ⟨_, h2⟩ := heq hk' hp'
    exact (List.Nodup.getElem_inj_iff o.distinct).mp (h1.symm.trans h2)
  case other =>
    intro a ha
    apply o.leafAt_other ht hr
    rintro ⟨h1, h2⟩
    have hk := ha (a/4096-v) (by omega)
    rw [hv, hpage] at hk
    omega

end

/-- `uvmalloc` returns `new_size` iff the free list has the frames and the tables, and then
it has grown the range. -/
theorem uvmalloc_grows {s : Phys} {r old_size new_size perm : ℕ} {l : List ℕ} (h : WellFormed s r l)
    (hle : old_size ≤ new_size) (hnew : new_size ≤ MAXVA) (hf : perm < 1024)
    (hun : ∀ k < newPages old_size new_size, leafAt s r (ROUND old_size PAGE_SIZE+k*PAGE_SIZE) = none) :
    (uvmallocNeeds s r old_size (newPages old_size new_size) ≤ l.length ↔
      ∃ s', uvmalloc s r old_size new_size perm = .ok (new_size, s')) ∧
    ∀ s', uvmalloc s r old_size new_size perm = .ok (new_size, s') →
      GrowsTo s r l old_size new_size perm s' := by
  obtain ⟨v, hv, hb, hneeds, _, hpos, hrun⟩ := h.uvmalloc_run hle hnew hf hun
  rw [hneeds]
  rcases hrun with ⟨hlen, cs, s', τ', l', hok, hcs, o⟩ | ⟨cs, s', τ', l', hcs, _, hlt, _, hshort⟩
  · refine ⟨⟨fun _ => ⟨s', hok⟩, fun _ => hlen⟩, fun s₁ hs₁ => ?_⟩
    rw [hok] at hs₁
    cases hs₁
    exact h.growsTo hf hv hb hcs o
  · -- the clean-up returns 0, which is not the new size
    have hno (s₁ : Phys) : uvmalloc s r old_size new_size perm ≠ .ok (new_size, s₁) := by
      intro hs₁
      rw [hshort] at hs₁
      obtain ⟨_, _, hzero⟩ := bind_eq_ok.mp hs₁
      have h0 := congrArg Prod.fst (Except.ok.inj hzero)
      dsimp only at h0
      omega
    have hmono := pagesNeeded_mono s.mem r v (by omega : cs.length+1 ≤ newPages old_size new_size)
    refine ⟨⟨fun hle => by omega, fun ⟨s₁, hs₁⟩ => absurd hs₁ (hno s₁)⟩, fun s₁ hs₁ => ?_⟩
    exact absurd hs₁ (hno s₁)

/-- Two pages of an empty table take the four pages that there are. -/
theorem uvmalloc_grows_two : ∃ s r s', WellFormed s r (heapPages 4) ∧
    uvmallocNeeds s r 1 (newPages 1 0x2001) = 4 ∧
    uvmalloc s r 1 0x2001 PTE_W = .ok (0x2001, s') ∧
    GrowsTo s r (heapPages 4) 1 0x2001 PTE_W s' := by
  obtain ⟨s, h, he, honly⟩ := exists_emptyTable (by decide : 4 < heapCount)
  have hneeds : uvmallocNeeds s (heapPage 4) 1 (newPages 1 0x2001) = 4 := by
    have hfirst : ROUND 1 PAGE_SIZE/PAGE_SIZE = 1 := by decide
    have hcount : newPages 1 0x2001 = 2 := by decide
    rw [uvmallocNeeds, hfirst, hcount, pagesNeeded, h.tablesNeeded_empty honly (by decide)]
    decide
  obtain ⟨hcall, hgrows⟩ := uvmalloc_grows h (by decide : 1 ≤ 0x2001) (by decide)
    (by decide : PTE_W < 1024) (fun k _ => h.leafAt_empty he _)
  obtain ⟨s', hok⟩ := hcall.mp (by rw [hneeds, heapPages_length])
  exact ⟨s, _, s', h, hneeds, hok, hgrows s' hok⟩

/-! ### The clean-up -/

section
variable {s : Phys} {r old_size new_size perm : ℕ} {l : List ℕ}

/-- `uvmdealloc` of the pages of the loop: it frees the first one, and does not get past it. -/
theorem Grown.dealloc {τ τ₁ : Typing} {v : ℕ} {cs l₁ : List ℕ} {s₁ : Phys}
    (o : Grown s τ l r v perm cs s₁ τ₁ l₁) (h : Typed s τ noSelfMap l) (hr : τ r = .table 2 none)
    (hf : perm < 1024) (hv : v+cs.length ≤ 2^26) {c : ℕ} {cs' : List ℕ} (hcs : cs = c :: cs') :
    ∃ s₂ l₂, uvmdealloc s₁ r ((v+cs.length)*4096) (v*4096) =
        (if 2 ≤ cs.length then .error (.panic "uvmunmap: not mapped") else .ok (v*4096, s₂)) ∧
      Typed s₂ (update τ₁ c .free) noSelfMap l₂ ∧
      ∀ w < 2^26, leaf s₂.mem r w = if w = v then 0 else leaf s₁.mem r w := by
  have hlen : cs.length = cs'.length+1 := by rw [hcs, List.length_cons]
  have hr₁ := (o.roots r).mpr hr
  obtain ⟨hcl, hkind, _⟩ := o.taken c (by simp [hcs])
  have hpage := h.free.pages c hcl
  have hb := hpage.bounds
  have hleaf : leaf s₁.mem r v = mkLeaf c perm := by
    rw [o.leaves v (by omega), if_pos (by omega), Nat.sub_self, hcs, List.getD_cons_zero]
  have hpa : PTE2PA (mkLeaf c perm) = c := by
    rw [PTE2PA_mkLeaf (by omega) hf]
    omega
  have hbytes : cs.length*PAGE_SIZE = cs.length*4096 := rfl
  obtain ⟨s₂, l₂, hfirst, h₂, hleaves⟩ := o.typed.uvmunmap_first true hr₁ (clear_noSelfMap r 2 (vpnIndex 2 v))
    (by omega) (by rw [hleaf]; exact Valid_mkLeaf c hf)
    (by omega : v*4096 < v*4096+cs.length*PAGE_SIZE)
    (fun _ => by rw [hleaf, hpa]; exact ⟨hpage, none, hkind⟩)
  rw [hleaf, hpa, freedTyping, if_pos rfl] at h₂
  refine ⟨s₂, l₂, ?_, h₂, fun w hw => ?_⟩
  · have hpages : ((v+cs.length)*4096-v*4096)/PAGE_SIZE = cs.length := by
      simp only [PAGE_SIZE]
      omega
    have hnarrow : narrowInt cs.length = cs.length := by
      rw [narrowInt, if_pos (by omega)]
      omega
    have hal : ¬v*4096%PAGE_SIZE ≠ 0 := by
      simp only [PAGE_SIZE]
      omega
    have hstop : (v*4096+cs.length*PAGE_SIZE)%2^64 = v*4096+cs.length*PAGE_SIZE :=
      Nat.mod_eq_of_lt (by omega)
    rw [uvmdealloc, if_neg (by omega)]
    simp only [ROUND_mul_page (show v < 2^40 by omega),
      ROUND_mul_page (show v+cs.length < 2^40 by omega), hpages, hnarrow]
    have hone : PAGE_SIZE = 4096 := rfl
    rw [if_pos (by omega), uvmunmap, if_neg hal, hstop, hfirst]
    by_cases hmore : 2 ≤ cs.length
    · rw [if_pos hmore, if_pos (by omega)]
      rfl
    · rw [if_neg hmore, if_neg (by omega)]
      rfl
  · rw [hleaves hr₁ (clear_noSelfMap _ _ _) (by omega)]
    simp only [true_and]

theorem WellFormed.rollsBack {τ' : Typing} {s' : Phys} {l' : List ℕ} (h : WellFormed s r l)
    (hrun : uvmalloc s r old_size new_size perm = .ok (0, s')) (h' : Typed s' τ' noSelfMap l')
    (hroots : ∀ p, τ' p = .table 2 none ↔ treeTyping s r l p = .table 2 none)
    (hleaves : ∀ a, leafAt s' r a = leafAt s r a) (hsub : l' ⊆ l)
    (haccount : ∀ p ∈ l, p ∈ l' ∨ ∃ level pi, τ' p = .table level (some pi)) :
    RollsBack s r l old_size new_size perm := by
  refine ⟨s', l', hrun, hleaves, h'.free, hsub, fun p hp => ?_⟩
  rcases haccount p hp with hp' | ⟨level, pi, htable⟩
  · exact .inl hp'
  · have honly (q : ℕ) (hq : τ' q = .table 2 none) : q = r := h.treeTyping_root ((hroots q).mp hq)
    exact .inr ⟨level, h'.tableAt_of_root honly htable⟩

theorem WellFormed.rollsBack_of_short {τ₁ : Typing} {v : ℕ} {cs l₁ : List ℕ} {s₁ : Phys}
    (h : WellFormed s r l) (hf : perm < 1024) (hv : v+cs.length < 2^26)
    (hun : ∀ w, v ≤ w → w < v+cs.length → ¬Valid (leaf s.mem r w)) (hone : cs.length ≤ 1)
    (o : Grown s (treeTyping s r l) l r v (PTE_R ||| PTE_U ||| perm) cs s₁ τ₁ l₁)
    (hrun : uvmalloc s r old_size new_size perm =
      uvmdealloc s₁ r ((v+cs.length)*4096) (v*4096) >>= fun y => .ok (0, y.2)) :
    RollsBack s r l old_size new_size perm := by
  obtain ⟨ht, hr⟩ := h.typed
  obtain ⟨hf', _⟩ := uvmalloc_perm hf
  cases cs with
  | nil =>
    -- nothing was mapped
    have hstay : uvmdealloc s₁ r ((v+([] : List ℕ).length)*4096) (v*4096) = .ok (v*4096, s₁) := by
      rw [uvmdealloc, if_pos (by simp), List.length_nil, Nat.add_zero]
    rw [hstay, ok_bind] at hrun
    refine h.rollsBack hrun o.typed o.roots (fun a => o.leafAt_other ht hr ?_) o.sub (fun p hp => ?_)
    · rw [List.length_nil]
      omega
    · rcases o.account p hp with hp' | hp' | hp'
      · exact .inl hp'
      · cases hp'
      · exact .inr hp'
  | cons c cs =>
    obtain rfl : cs = [] := by
      rw [List.length_cons] at hone
      exact List.length_eq_zero_iff.mp (by omega)
    obtain ⟨s₂, l₂, hde, h₂, hleaves⟩ := o.dealloc ht hr hf' (by omega) rfl
    rw [hde, if_neg (by simp), ok_bind] at hrun
    obtain ⟨hcl, hkind, _⟩ := o.taken c List.mem_cons_self
    have hroot (p : ℕ) : update τ₁ c .free p = .table 2 none ↔ treeTyping s r l p = .table 2 none := by
      rw [← o.roots p]
      exact Typed.update_table_iff (fun _ _ => by simp [hkind]) (by simp) p 2 none
    refine h.rollsBack hrun h₂ hroot (fun a => ?_) (fun p hp => ?_) (fun p hp => ?_)
    · by_cases ha : a < MAXVA
      case neg => rw [leafAt_of_ge (by omega), leafAt_of_ge (by omega)]
      have hmax : MAXVA = 2^38 := by decide
      rw [h₂.leafAt_eq ((hroot r).mpr hr) (clear_noSelfMap _ _ _) ha,
        ht.leafAt_eq hr (clear_noSelfMap _ _ _) ha, hleaves _ (by omega)]
      by_cases hav : a/4096 = v
      · have hold := hun (a/4096) (by omega) (by rw [List.length_singleton]; omega)
        rw [if_pos hav, if_neg not_Valid_zero, if_neg hold]
      · have hout : ¬(v ≤ a/4096 ∧ a/4096 < v+[c].length) := by
          rw [List.length_singleton]
          omega
        rw [if_neg hav, o.leaves _ (by omega), if_neg hout]
    · obtain ⟨hpage, hfree⟩ := (h₂.mem_free p).mp hp
      by_cases hpc : p = c
      · rw [hpc]
        exact hcl
      · rw [update_other_kind _ _ hpc] at hfree
        exact o.sub ((o.typed.mem_free p).mpr ⟨hpage, hfree⟩)
    · by_cases hpc : p = c
      · rw [hpc]
        exact .inl ((h₂.mem_free c).mpr ⟨ht.free.pages c hcl, update_same_kind _ _ _⟩)
      · have hsame : update τ₁ c .free p = τ₁ p := update_other_kind _ _ hpc
        rcases o.account p hp with hp' | hp' | hp'
        · obtain ⟨hpage, hfree⟩ := (o.typed.mem_free p).mp hp'
          exact .inl ((h₂.mem_free p).mpr ⟨hpage, by rw [hsame, hfree]⟩)
        · exact absurd (List.mem_singleton.mp hp') hpc
        · rw [hsame]
          exact .inr hp'

end

/-- With too short a free list `uvmalloc` rolls back iff the list does not last for two
pages: `uvmunmap` panics on the second page of a range. -/
theorem uvmalloc_rollsBack {s : Phys} {r old_size new_size perm : ℕ} {l : List ℕ} (h : WellFormed s r l)
    (hlt : old_size < new_size) (hnew : new_size ≤ MAXVA) (hf : perm < 1024)
    (hun : ∀ k < newPages old_size new_size, leafAt s r (ROUND old_size PAGE_SIZE+k*PAGE_SIZE) = none)
    (hshort : l.length < uvmallocNeeds s r old_size (newPages old_size new_size)) :
    RollsBack s r l old_size new_size perm ↔
      l.length < uvmallocNeeds s r old_size (min 2 (newPages old_size new_size)) := by
  obtain ⟨v, hv, hb, hneeds, hun', _, hrun⟩ := h.uvmalloc_run (Nat.le_of_lt hlt) hnew hf hun
  obtain ⟨ht, hr⟩ := h.typed
  rw [hneeds] at hshort ⊢
  rcases hrun with ⟨hlen, _⟩ | ⟨cs, s', τ', l', hcs, hge, hlt', o, hrun⟩
  · omega
  by_cases hone : cs.length ≤ 1
  · have hmono := pagesNeeded_mono s.mem r v
      (by omega : cs.length+1 ≤ min 2 (newPages old_size new_size))
    have hback := h.rollsBack_of_short hf (by omega) (fun w h1 h2 => hun' w h1 (by omega)) hone o hrun
    exact ⟨fun _ => by omega, fun _ => hback⟩
  · have hmono := pagesNeeded_mono s.mem r v
      (by omega : min 2 (newPages old_size new_size) ≤ cs.length)
    refine ⟨fun ⟨s₁, _, hs₁, _⟩ => ?_, fun hback => by omega⟩
    obtain ⟨c, cs', hcons⟩ := List.exists_cons_of_length_pos (by omega : 0 < cs.length)
    obtain ⟨_, _, hde, _⟩ := o.dealloc ht hr (uvmalloc_perm hf).1 (by omega) hcons
    rw [hrun, hde, if_pos (by omega), error_bind] at hs₁
    cases hs₁

/-! ### A short list -/

/-- Three pages from 0 on, where the free list lasts for two of them. -/
theorem exists_shortList : ∃ s r, WellFormed s r (heapPages 4) ∧ (∀ a, leafAt s r a = none) ∧
    uvmallocNeeds s r 0 2 = 4 ∧ uvmallocNeeds s r 0 (newPages 0 0x3000) = 5 := by
  obtain ⟨s, h, he, honly⟩ := exists_emptyTable (by decide : 4 < heapCount)
  have hfirst : ROUND 0 PAGE_SIZE/PAGE_SIZE = 0 := by decide
  have hthree : newPages 0 0x3000 = 3 := by decide
  have hlow (k : ℕ) (hk : k ≤ 3) (v : ℕ) (hv : v ∈ Finset.Ico 0 (0+k)) : v < 2^26 := by
    rw [Finset.mem_Ico] at hv
    omega
  have htables (k : ℕ) (hk : k ≤ 3) := h.tablesNeeded_empty honly (hlow k hk)
  refine ⟨s, _, h, h.leafAt_empty he, ?_, ?_⟩
  · rw [uvmallocNeeds, hfirst, pagesNeeded, htables 2 (by decide)]
    decide
  · rw [uvmallocNeeds, hfirst, hthree, pagesNeeded, htables 3 (by decide)]
    decide

theorem uvmalloc_rollsBack_three : ∃ s r, WellFormed s r (heapPages 4) ∧
    (RollsBack s r (heapPages 4) 0 0x3000 PTE_W ↔
      (heapPages 4).length < uvmallocNeeds s r 0 (min 2 (newPages 0 0x3000))) := by
  obtain ⟨s, r, h, hun, _, hneeds⟩ := exists_shortList
  exact ⟨s, r, h, uvmalloc_rollsBack h (by decide) (by decide) (by decide) (fun k _ => hun _)
    (by rw [hneeds]; decide)⟩

/-- Two pages are mapped when the list runs out, and the clean-up panics. -/
theorem uvmalloc_short_panics : ∃ s r, WellFormed s r (heapPages 4) ∧
    (∀ k < newPages 0 0x3000, leafAt s r (ROUND 0 PAGE_SIZE+k*PAGE_SIZE) = none) ∧
    (heapPages 4).length < uvmallocNeeds s r 0 (newPages 0 0x3000) ∧
    uvmalloc s r 0 0x3000 PTE_W = .error (.panic "uvmunmap: not mapped") ∧
    ¬RollsBack s r (heapPages 4) 0 0x3000 PTE_W := by
  obtain ⟨s, r, h, hun, htwo, hthree⟩ := exists_shortList
  have hlen : (heapPages 4).length = 4 := heapPages_length 4
  have hpanic : uvmalloc s r 0 0x3000 PTE_W = .error (.panic "uvmunmap: not mapped") := by
    obtain ⟨v, _, hb, hneeds, _, _, hrun⟩ := h.uvmalloc_run (by decide : 0 ≤ 0x3000) (by decide)
      (by decide : PTE_W < 1024) (fun k _ => hun _)
    obtain ⟨ht, hr⟩ := h.typed
    have hcount : newPages 0 0x3000 = 3 := by decide
    rw [hneeds] at htwo hthree
    rcases hrun with ⟨hle, _⟩ | ⟨cs, s', τ', l', hcs, _, hlt, o, hrun⟩
    · omega
    have htwo' : 2 ≤ cs.length := by
      by_contra hno
      have hmono := pagesNeeded_mono s.mem r v (by omega : cs.length+1 ≤ 2)
      omega
    obtain ⟨c, cs', hcons⟩ := List.exists_cons_of_length_pos (by omega : 0 < cs.length)
    obtain ⟨_, _, hde, _⟩ := o.dealloc ht hr (uvmalloc_perm (by decide)).1 (by omega) hcons
    rw [hrun, hde, if_pos htwo', error_bind]
  refine ⟨s, r, h, fun k _ => hun _, by omega, hpanic, ?_⟩
  rintro ⟨s₁, _, hs₁, _⟩
  rw [hpanic] at hs₁
  cases hs₁

end RiscvMos
