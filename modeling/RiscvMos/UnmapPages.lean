import RiscvMos.MapPages

/-! `uvmunmap` on any well-formed table. Its loop walks to `va` instead of `a`, so it does
what it should for at most one page. -/
namespace RiscvMos
open ByteMem LinkChain Function

/-- The leaf of page `k` of the range at `va` maps the frame `p`. -/
def MapsFrame (s : Phys) (pagetable va k p : ℕ) : Prop :=
  ∃ pte, leafAt s pagetable (va+k*PAGE_SIZE) = some pte ∧ p = PTE2PA pte

/-- The frames of the range are distinct, and they are allocated pages outside of the
page table. -/
structure OwnFrames (s : Phys) (pagetable : ℕ) (l : List ℕ) (va npages : ℕ) : Prop where
  distinct : ∀ k < npages, ∀ k' < npages, ∀ p, MapsFrame s pagetable va k p →
    MapsFrame s pagetable va k' p → k = k'
  page : ∀ k < npages, ∀ p, MapsFrame s pagetable va k p → IsPage p
  allocated : ∀ k < npages, ∀ p, MapsFrame s pagetable va k p → p ∉ l
  not_table : ∀ k < npages, ∀ p, MapsFrame s pagetable va k p →
    ∀ level, ¬TableAt s.mem pagetable level p

/-- `uvmunmap` returns 0, has unmapped the range and nothing else, and with `do_free` it has
put the frames of the range on the free list. -/
def UnmapsRange (s : Phys) (pagetable : ℕ) (l : List ℕ) (va npages : ℕ) (do_free : Bool) : Prop :=
  ∃ s' l', uvmunmap s pagetable va npages do_free = .ok (0, s') ∧
    (∀ k < npages, leafAt s' pagetable (va+k*PAGE_SIZE) = none) ∧
    (∀ a, (∀ k < npages, a/PAGE_SIZE ≠ va/PAGE_SIZE+k) → leafAt s' pagetable a = leafAt s pagetable a) ∧
    FreeList s' l' ∧ l'.length = l.length+(if do_free then npages else 0) ∧
    ∀ p, p ∈ l' ↔ p ∈ l ∨ do_free = true ∧ ∃ k < npages, MapsFrame s pagetable va k p

section
variable {s : Phys} {r va npages : ℕ} {l : List ℕ} {do_free : Bool}

theorem Typed.freed_list {τ : Typing} {s' : Phys} {l' : List ℕ} {p : ℕ} (h : Typed s τ noSelfMap l)
    (h' : Typed s' (freedTyping τ do_free p) noSelfMap l') (hp : do_free = true → IsPage p ∧ p ∉ l) :
    l'.length = l.length+(if do_free then 1 else 0) ∧
      ∀ q, q ∈ l' ↔ q ∈ l ∨ do_free = true ∧ q = p := by
  have hmem (q : ℕ) : q ∈ l' ↔ q ∈ l ∨ do_free = true ∧ q = p := by
    rw [h'.mem_free, h.mem_free]
    cases do_free with
    | false => simp [freedTyping]
    | true =>
      by_cases hq : q = p
      · rw [hq, freedTyping, if_pos rfl, update_same_kind]
        simp [(hp rfl).1]
      · rw [freedTyping, if_pos rfl, update_other_kind _ _ hq]
        simp [hq]
  refine ⟨?_, hmem⟩
  cases do_free with
  | false =>
    have hperm : l'.Perm l := (List.perm_ext_iff_of_nodup h'.free.nodup h.free.nodup).mpr
      (fun q => by simpa using hmem q)
    simpa using hperm.length_eq
  | true =>
    have hnd : (p :: l).Nodup := List.nodup_cons.mpr ⟨(hp rfl).2, h.free.nodup⟩
    have hperm : l'.Perm (p :: l) := (List.perm_ext_iff_of_nodup h'.free.nodup hnd).mpr
      (fun q => by rw [hmem, List.mem_cons]; simp [or_comm])
    simpa using hperm.length_eq

/-- The first turn of the loop, and what a second one would find. -/
theorem WellFormed.uvmunmap_first (h : WellFormed s r l) {v : ℕ} (hv : v < 2^26)
    (hval : Valid (leaf s.mem r v))
    (hown : do_free = true → IsPage (PTE2PA (leaf s.mem r v)) ∧ PTE2PA (leaf s.mem r v) ∉ l ∧
      ∀ level, ¬TableAt s.mem r level (PTE2PA (leaf s.mem r v))) (stop : ℕ) (hstop : v*4096 < stop) :
    ∃ s' l', uvmunmapLoop s r (v*4096) do_free (v*4096) stop =
        (if v*4096+PAGE_SIZE < stop then .error (.panic "uvmunmap: not mapped") else .ok s') ∧
      FreeList s' l' ∧ l'.length = l.length+(if do_free then 1 else 0) ∧
      (∀ q, q ∈ l' ↔ q ∈ l ∨ do_free = true ∧ q = PTE2PA (leaf s.mem r v)) ∧
      ∀ a, leafAt s' r a = if a/4096 = v then none else leafAt s r a := by
  obtain ⟨ht, hr⟩ := h.typed
  have hclear (w : ℕ) : Clear noSelfMap r 2 (vpnIndex 2 w) := clear_noSelfMap _ _ _
  obtain ⟨s', l', hloop, h', hleaves⟩ := ht.uvmunmap_first do_free hr (hclear v) hv hval hstop
    (fun hf => ⟨(hown hf).1, none, h.treeTyping_frame (hown hf).2.1 (hown hf).2.2⟩)
  have hkind (hf : do_free = true) : ∃ o, treeTyping s r l (PTE2PA (leaf s.mem r v)) = .frame o :=
    ⟨none, h.treeTyping_frame (hown hf).2.1 (hown hf).2.2⟩
  have hr' := (freedTyping_table hkind r 2 none).mpr hr
  obtain ⟨hlen, hmem⟩ := ht.freed_list h' (fun hf => ⟨(hown hf).1, (hown hf).2.1⟩)
  refine ⟨s', l', hloop, h'.free, hlen, hmem, fun a => ?_⟩
  have hmax : MAXVA = 2^38 := by decide
  by_cases ha : a < MAXVA
  · have hleaf := hleaves hr (hclear (a/4096)) (by omega)
    rw [h'.leafAt_eq hr' (hclear _) ha, ht.leafAt_eq hr (hclear _) ha, hleaf]
    by_cases hav : a/4096 = v
    · simp only [hav, and_self, if_true, if_neg not_Valid_zero]
    · simp only [hav, and_false, if_false]
  · rw [leafAt_of_ge (by omega), leafAt_of_ge (by omega), if_neg (by omega)]

theorem WellFormed.uvmunmap_eq (h : WellFormed s r l) (hal : va%PAGE_SIZE = 0)
    (hva : va+npages*PAGE_SIZE ≤ MAXVA) (hpos : 0 < npages)
    (hmapped : ∀ k < npages, leafAt s r (va+k*PAGE_SIZE) ≠ none)
    (hown : do_free = true → OwnFrames s r l va npages) :
    ∃ s' l', uvmunmap s r va npages do_free =
        (if npages ≤ 1 then .ok (0, s') else .error (.panic "uvmunmap: not mapped")) ∧
      FreeList s' l' ∧ l'.length = l.length+(if do_free then 1 else 0) ∧
      (∀ q, q ∈ l' ↔ q ∈ l ∨ do_free = true ∧ MapsFrame s r va 0 q) ∧
      ∀ a, leafAt s' r a = if a/4096 = va/4096 then none else leafAt s r a := by
  have hpage : PAGE_SIZE = 4096 := rfl
  have hmax : MAXVA = 2^38 := by decide
  have hbytes : npages*PAGE_SIZE = npages*4096 := rfl
  obtain ⟨ht, hr⟩ := h.typed
  obtain ⟨v, rfl⟩ : ∃ v, va = v*4096 := ⟨va/4096, by rw [hpage] at hal; omega⟩
  have hv : v*4096/4096 = v := Nat.mul_div_cancel v (by decide)
  have hstop : (v*4096+npages*PAGE_SIZE)%2^64 = v*4096+npages*PAGE_SIZE :=
    Nat.mod_eq_of_lt (by omega)
  have hfirst : leafAt s r (v*4096) = some (leaf s.mem r v) ∧ Valid (leaf s.mem r v) := by
    have hm := hmapped 0 hpos
    rw [Nat.zero_mul, Nat.add_zero] at hm
    have heq := ht.leafAt_eq hr (clear_noSelfMap r 2 (vpnIndex 2 (v*4096/4096))) (by omega)
    rw [hv] at heq
    rw [heq] at hm ⊢
    by_cases hval : Valid (leaf s.mem r v)
    · exact ⟨if_pos hval, hval⟩
    · rw [if_neg hval] at hm
      exact absurd rfl hm
  -- the frame of the first page is the one of its leaf
  have hmf (p : ℕ) : MapsFrame s r (v*4096) 0 p ↔ p = PTE2PA (leaf s.mem r v) := by
    rw [MapsFrame, Nat.zero_mul, Nat.add_zero, hfirst.1]
    constructor
    · rintro ⟨pte, hpte, rfl⟩
      rw [Option.some.inj hpte]
    · rintro rfl
      exact ⟨_, rfl, rfl⟩
  obtain ⟨s', l', hloop, hfree, hlen, hmem, hleaves⟩ := h.uvmunmap_first (by omega) hfirst.2
    (fun hf => ⟨(hown hf).page 0 hpos _ ((hmf _).mpr rfl),
      (hown hf).allocated 0 hpos _ ((hmf _).mpr rfl),
      (hown hf).not_table 0 hpos _ ((hmf _).mpr rfl)⟩)
    (v*4096+npages*PAGE_SIZE) (by omega)
  refine ⟨s', l', ?_, hfree, hlen, ?_, ?_⟩
  · rw [uvmunmap, if_neg (fun hne => hne hal), hstop, hloop]
    by_cases hone : npages ≤ 1
    · rw [if_neg (by omega), ok_bind, if_pos hone]
    · rw [if_pos (by omega), error_bind, if_neg hone]
  · intro q
    rw [hmem, hmf]
  · rw [hv]
    exact hleaves

end

/-- `uvmunmap` unmaps the range iff the range has at most one page. -/
theorem uvmunmap_range {s : Phys} {r va npages : ℕ} {l : List ℕ} {do_free : Bool}
    (h : WellFormed s r l) (hal : va%PAGE_SIZE = 0) (hva : va+npages*PAGE_SIZE ≤ MAXVA)
    (hmapped : ∀ k < npages, leafAt s r (va+k*PAGE_SIZE) ≠ none)
    (hown : do_free = true → OwnFrames s r l va npages) :
    UnmapsRange s r l va npages do_free ↔ npages ≤ 1 := by
  have hpage : PAGE_SIZE = 4096 := rfl
  rcases Nat.eq_zero_or_pos npages with rfl | hpos
  · -- nothing to do
    refine ⟨fun _ => by omega, fun _ => ⟨s, l, ?_, ?_, fun _ _ => rfl, h.free, ?_, ?_⟩⟩
    · have hmax : MAXVA = 2^38 := by decide
      have hstop : (va+0*PAGE_SIZE)%2^64 = va := by omega
      rw [uvmunmap, if_neg (fun hne => hne hal), hstop, uvmunmapLoop_eq, if_neg (by omega), ok_bind]
    · intro k hk
      omega
    · split_ifs <;> rfl
    · intro p
      simp
  obtain ⟨s', l', hrun, hfree, hlen, hmem, hleaves⟩ := h.uvmunmap_eq hal hva hpos hmapped hown
  constructor
  · rintro ⟨s₁, _, hrun', _⟩
    by_contra hmany
    rw [hrun, if_neg hmany] at hrun'
    cases hrun'
  · intro hone
    obtain rfl : npages = 1 := by omega
    refine ⟨s', l', hrun, ?_, ?_, hfree, hlen, fun p => ?_⟩
    · intro k hk
      obtain rfl : k = 0 := by omega
      rw [hleaves, if_pos (by omega)]
    · intro a ha
      have hne := ha 0 (by decide)
      rw [hleaves, if_neg (by rw [hpage] at hne; omega)]
    · rw [hmem]
      apply or_congr_right
      apply and_congr_right
      intro _
      constructor
      · exact fun hp => ⟨0, by decide, hp⟩
      · rintro ⟨k, hk, hp⟩
        obtain rfl : k = 0 := by omega
        exact hp

/-! ### A table with two pages -/

theorem exists_twoPages : ∃ s r l, WellFormed s r l ∧ (∀ k < 2, leafAt s r (0+k*PAGE_SIZE) ≠ none) ∧
    OwnFrames s r l 0 2 := by
  obtain ⟨s, h, he, honly⟩ := exists_emptyTable (by decide : 6 < heapCount)
  obtain ⟨ht, hr⟩ := h.typed
  have hun (w : ℕ) (_ : 0 ≤ w) (_ : w ≤ 1) : ¬Valid (leaf s.mem (heapPage 6) w) := by
    rw [he]
    exact not_Valid_zero
  -- two pages of the heap that are neither free nor tables serve as the frames
  obtain ⟨s', τ', l', _, m, _⟩ := Typed.mappagesLoop_map (by decide : PTE_R < 1024) (by decide)
    (by decide : 1 < 2^26) (by decide : 2*({0} : Finset ℕ).card < (heapPages 6).length)
    (fun _ _ => clear_noSelfMap _ _ _) 1 (rfl : 0+1 = 1) ht hr
    (by decide : heapPage 100 < 2^64) (fun w _ _ => by simp; omega) hun (Budget.start _ _ _ _)
  have hr' := m.grows.table hr
  have hpage : PAGE_SIZE = 4096 := rfl
  have hkern : KERNEND = 0x80400000 := rfl
  have hmax : MAXVA = 2^38 := by decide
  have hleaf (k : ℕ) (hk : k < 2) :
      leafAt s' (heapPage 6) (0+k*PAGE_SIZE) = some (mkLeaf (heapPage (100+k)) PTE_R) := by
    have hdiv : (0+k*PAGE_SIZE)/4096 = k := by
      rw [hpage]
      omega
    have hval := m.leaves hr (clear_noSelfMap (heapPage 6) 2 (vpnIndex 2 k)) (by omega)
    have hpa : (heapPage 100+4096*(k-0))%2^64 = heapPage (100+k) := by
      simp only [heapPage, hkern]
      omega
    rw [if_pos ⟨rfl, by omega, by omega⟩, hpa] at hval
    rw [m.typed.leafAt_eq hr' (clear_noSelfMap _ _ _) (by omega), hdiv, hval,
      if_pos (Valid_mkLeaf _ (by decide))]
  have hframe {k p : ℕ} (hk : k < 2) (hp : MapsFrame s' (heapPage 6) 0 k p) : p = heapPage (100+k) := by
    obtain ⟨pte, hpte, rfl⟩ := hp
    rw [hleaf k hk] at hpte
    rw [← Option.some.inj hpte, PTE2PA_mkLeaf (by simp only [heapPage, hkern]; omega) (by decide)]
    simp only [heapPage, hkern]
    omega
  have hout {k : ℕ} : heapPage (100+k) ∉ heapPages 6 := by
    rw [mem_heapPages]
    rintro ⟨i, hi, he⟩
    simp only [heapPage] at he
    omega
  refine ⟨s', _, l', m.typed.wellFormed hr', fun k hk => ?_, ?_, ?_, ?_, ?_⟩
  · rw [hleaf k hk]
    simp
  · intro k hk k' hk' p hp hp'
    have heq := (hframe hk hp).symm.trans (hframe hk' hp')
    simp only [heapPage] at heq
    omega
  · intro k hk p hp
    rw [hframe hk hp]
    have hcount : heapCount = 31744 := rfl
    exact heapPage_isPage (by omega)
  · intro k hk p hp hl
    rw [hframe hk hp] at hl
    exact hout (m.suffix.subset hl)
  · -- a table of the new tree is no frame of the old one
    intro k hk p hp level htable
    rw [hframe hk hp] at htable
    have hkind := h.treeTyping_frame (hout (k := k)) (fun level ht => by
      have heq := honly level _ ht
      simp only [heapPage] at heq
      omega)
    obtain ⟨par, hpar⟩ := m.typed.tableAt hr' htable
    rw [m.grows.kinds _ (by simp [hkind]), hkind] at hpar
    cases hpar

theorem uvmunmap_range_one : ∃ s r l, WellFormed s r l ∧
    (∀ k < 2, leafAt s r (0+k*PAGE_SIZE) ≠ none) ∧ UnmapsRange s r l 0 1 true := by
  obtain ⟨s, r, l, h, hm, hown⟩ := exists_twoPages
  have hfirst : OwnFrames s r l 0 1 := by
    constructor
    case distinct => exact fun k hk k' hk' => hown.distinct k (by omega) k' (by omega)
    case page => exact fun k hk => hown.page k (by omega)
    case allocated => exact fun k hk => hown.allocated k (by omega)
    case not_table => exact fun k hk => hown.not_table k (by omega)
  exact ⟨s, r, l, h, hm, (uvmunmap_range h (by decide) (by decide) (fun k hk => hm k (by omega))
    (fun _ => hfirst)).mpr le_rfl⟩

/-- Two mapped pages are not unmapped: the second turn walks to the first page. -/
theorem uvmunmap_two_panics : ∃ s r l, WellFormed s r l ∧
    (∀ k < 2, leafAt s r (0+k*PAGE_SIZE) ≠ none) ∧ OwnFrames s r l 0 2 ∧
    uvmunmap s r 0 2 true = .error (.panic "uvmunmap: not mapped") ∧
    ¬UnmapsRange s r l 0 2 true := by
  obtain ⟨s, r, l, h, hm, hown⟩ := exists_twoPages
  obtain ⟨s', l', hrun, _⟩ := h.uvmunmap_eq (by decide) (by decide) (by decide) hm
    (fun _ : true = true => hown)
  refine ⟨s, r, l, h, hm, hown, hrun, ?_⟩
  rintro ⟨s₁, _, hrun', _⟩
  rw [hrun] at hrun'
  cases hrun'

end RiscvMos
