import Mathlib.Data.List.Range
import RiscvMos.CString
import RiscvMos.LibLinkChain

/-! The physical page allocator of phypage.c: a free list whose links lie in
the first words of the free pages. -/
namespace RiscvMos
open ByteMem LinkChain

/-- Physical memory together with `kmem`. -/
structure Phys where
  mem : Mem
  freelist : ℕ

def kalloc (s : Phys) : ℕ × Phys :=
  let r := s.freelist
  if r ≠ 0 then
    let freelist := load64 s.mem r
    let (_, mem) := memset s.mem r 0 PAGE_SIZE
    (r, ⟨mem, freelist⟩)
  else (r, s)

def kfree (s : Phys) (pa : ℕ) : Result Phys :=
  if pa%PAGE_SIZE ≠ 0 ∨ pa < KERNEND ∨ pa ≥ PHYEND then .error (.panic "kfree")
  else
    let (_, mem) := memset s.mem pa 0 PAGE_SIZE
    .ok ⟨store64 mem pa s.freelist, pa⟩

/-- `for (; p + PAGE_SIZE <= (char *)pa_end; p += PAGE_SIZE) kfree(p);` -/
def freerangeLoop (s : Phys) (p pa_end : ℕ) : Result Phys :=
  if p+PAGE_SIZE ≤ pa_end then do
    let s ← kfree s p
    freerangeLoop s (p+PAGE_SIZE) pa_end
  else .ok s
  termination_by pa_end-p
  decreasing_by simp only [PAGE_SIZE] at *; omega

def freerange (s : Phys) (pa_start pa_end : ℕ) : Result Phys :=
  freerangeLoop s (ROUND pa_start PAGE_SIZE) pa_end

def kinit (s : Phys) : Result Phys := freerange s KERNEND PHYEND

/-! ### The free list as a list of pages -/

/-- A page-aligned address of `[KERNEND, PHYEND)`. -/
def IsPage (p : ℕ) : Prop := KERNEND ≤ p ∧ p < PHYEND ∧ p%PAGE_SIZE = 0

instance (p : ℕ) : Decidable (IsPage p) := inferInstanceAs (Decidable (_ ∧ _ ∧ _))

theorem IsPage.bounds {p : ℕ} (h : IsPage p) :
    0x80400000 ≤ p ∧ p < 0x88000000 ∧ p%4096 = 0 := h

theorem IsPage.disjoint {p q : ℕ} (hp : IsPage p) (hq : IsPage q) (hne : p ≠ q) :
    p+4096 ≤ q ∨ q+4096 ≤ p := by
  have hp := hp.bounds
  have hq := hq.bounds
  omega

/-- The chain that starts at `kmem.freelist` runs through the pages `l`. -/
structure FreeList (s : Phys) (l : List ℕ) : Prop where
  chain : Chain (load64 s.mem) 0 s.freelist l
  pages : ∀ p ∈ l, IsPage p

def ZeroPage (m : Mem) (p : ℕ) : Prop := ∀ b, p ≤ b → b < p+4096 → m b = 0

theorem zeroPage_memset (m : Mem) (p : ℕ) : ZeroPage (memset m p 0 PAGE_SIZE).2 p := by
  intro b hl hu
  rw [memset_eq_fill]
  exact fill_apply_mem _ _ _ _ _ ⟨hl, hu⟩

theorem load64_sameOutside {m m' : Mem} {a n : ℕ} (h : SameOutside m m' a n) {b : ℕ}
    (hd : b+8 ≤ a ∨ a+n ≤ b) : load64 m' b = load64 m b := load_sameOutside h hd

theorem load64_store64_same (m : Mem) (a v : ℕ) (hv : v < 2^64) :
    load64 (store64 m a v) a = v := by
  rw [load64, store64, load_store_same, Nat.mod_eq_of_lt (by simpa using hv)]

theorem FreeList.nodup {s : Phys} {l : List ℕ} (h : FreeList s l) : l.Nodup :=
  chain_nodup h.chain

theorem FreeList.unique {s : Phys} {l l' : List ℕ} (h : FreeList s l) (h' : FreeList s l') :
    l = l' := chain_unique h.chain h'.chain

/-- Writes that leave the links of the free pages alone keep the free list. -/
theorem FreeList.write {s : Phys} {l : List ℕ} (h : FreeList s l) {m : Mem}
    (hm : ∀ p ∈ l, AgreeOn m s.mem p 8) : FreeList ⟨m, s.freelist⟩ l :=
  ⟨chain_congr h.chain (fun p hp => load_congr (hm p hp)), h.pages⟩

theorem FreeList.ne_nil_iff {s : Phys} {l : List ℕ} (h : FreeList s l) :
    l ≠ [] ↔ s.freelist ≠ 0 := by
  cases l with
  | nil =>
    have hf : s.freelist = 0 := h.chain
    exact iff_of_false (fun hne => hne rfl) (fun hne => hne hf)
  | cons p l =>
    obtain ⟨hf, hne, _⟩ := h.chain
    rw [hf]
    exact iff_of_true nofun hne

theorem kalloc_fst (s : Phys) : (kalloc s).1 = s.freelist := by
  rw [kalloc]
  dsimp only
  split_ifs <;> rfl

theorem kalloc_nil {s : Phys} (h : FreeList s []) : kalloc s = (0, s) := by
  have hf : s.freelist = 0 := h.chain
  simp [kalloc, hf]

theorem kalloc_cons {s : Phys} {p : ℕ} {l : List ℕ} (h : FreeList s (p :: l)) :
    ∃ s', kalloc s = (p, s') ∧ FreeList s' l ∧ ZeroPage s'.mem p ∧
      SameOutside s.mem s'.mem p 4096 := by
  obtain ⟨hf, hne, ht⟩ := h.chain
  have hp := h.pages p List.mem_cons_self
  have hnd := List.nodup_cons.mp h.nodup
  have hsame : SameOutside s.mem (fill s.mem p 4096 0) p 4096 := fill_sameOutside _ _ _ _
  refine ⟨⟨fill s.mem p 4096 0, load64 s.mem p⟩, ?_, ⟨?_, ?_⟩, ?_, hsame⟩
  · simp [kalloc, hf, hne, memset_eq_fill, PAGE_SIZE]
  · apply chain_congr ht
    intro q hq
    have hpq : p ≠ q := fun he => hnd.1 (he ▸ hq)
    apply load64_sameOutside hsame
    have hd := hp.disjoint (h.pages q (List.mem_cons_of_mem p hq)) hpq
    omega
  · intro q hq
    exact h.pages q (List.mem_cons_of_mem p hq)
  · intro b hl hu
    exact fill_apply_mem _ _ _ _ _ ⟨hl, hu⟩

theorem kfree_page {s : Phys} {l : List ℕ} (h : FreeList s l) {p : ℕ} (hp : IsPage p)
    (hl : p ∉ l) :
    ∃ s', kfree s p = .ok s' ∧ FreeList s' (p :: l) ∧ SameOutside s.mem s'.mem p 4096 := by
  have hb := hp.bounds
  have hhead : s.freelist < 2^64 := by
    cases l with
    | nil =>
      have hf : s.freelist = 0 := h.chain
      omega
    | cons q l =>
      have hq := (h.pages q List.mem_cons_self).bounds
      have hf := h.chain.1
      omega
  let m := store64 (fill s.mem p 4096 0) p s.freelist
  have hsame : SameOutside s.mem m p 4096 :=
    (fill_sameOutside s.mem p 4096 0).trans
      ((store_sameOutside _ p 8 s.freelist).mono le_rfl (by omega))
  refine ⟨⟨m, p⟩, ?_, ⟨⟨rfl, by omega, ?_⟩, ?_⟩, hsame⟩
  · have hok : ¬(p%PAGE_SIZE ≠ 0 ∨ p < KERNEND ∨ p ≥ PHYEND) := by
      simp only [PAGE_SIZE, KERNEND, PHYEND]
      omega
    rw [kfree, if_neg hok, memset_eq_fill]
    rfl
  · have hlink : load64 m p = s.freelist := load64_store64_same _ _ _ hhead
    rw [hlink]
    apply chain_congr h.chain
    intro q hq
    have hpq : p ≠ q := fun he => hl (he ▸ hq)
    apply load64_sameOutside hsame
    have hd := hp.disjoint (h.pages q hq) hpq
    omega
  · intro q hq
    rcases List.mem_cons.mp hq with rfl | hq
    · exact hp
    · exact h.pages q hq

/-! ### The list that kinit builds -/

def heapPage (i : ℕ) : ℕ := KERNEND+4096*i

/-- The number of pages of `[KERNEND, PHYEND)`. -/
def heapCount : ℕ := 31744

/-- The free list after kinit: the highest page is first. -/
def heapPages (n : ℕ) : List ℕ := ((List.range n).map heapPage).reverse

theorem heapPages_succ (n : ℕ) : heapPages (n+1) = heapPage n :: heapPages n := by
  simp [heapPages, List.range_succ]

theorem heapPages_length (n : ℕ) : (heapPages n).length = n := by
  simp [heapPages]

theorem mem_heapPages {p n : ℕ} : p ∈ heapPages n ↔ ∃ i < n, p = heapPage i := by
  simp only [heapPages, List.mem_reverse, List.mem_map, List.mem_range]
  exact exists_congr fun i => and_congr_right fun _ => eq_comm

theorem mem_heapPages_iff_isPage {p : ℕ} : p ∈ heapPages heapCount ↔ IsPage p := by
  rw [mem_heapPages]
  simp only [heapPage, heapCount, IsPage, KERNEND, PHYEND, PAGE_SIZE]
  constructor
  · rintro ⟨i, hi, rfl⟩
    omega
  · intro h
    exact ⟨(p-0x80400000)/4096, by omega, by omega⟩

theorem heapPage_isPage {i : ℕ} (hi : i < heapCount) : IsPage (heapPage i) :=
  mem_heapPages_iff_isPage.mp (mem_heapPages.mpr ⟨i, hi, rfl⟩)

theorem heapPage_injective : Function.Injective heapPage := by
  intro i j h
  simp only [heapPage] at h
  omega

theorem freerangeLoop_heap (n : ℕ) : ∀ (i : ℕ) (s : Phys), i+n = heapCount →
    FreeList s (heapPages i) →
    ∃ s', freerangeLoop s (heapPage i) PHYEND = .ok s' ∧ FreeList s' (heapPages heapCount) := by
  induction n with
  | zero =>
    intro i s hi h
    have hstop : ¬heapPage i+PAGE_SIZE ≤ PHYEND := by
      simp only [heapPage, heapCount, PAGE_SIZE, PHYEND, KERNEND] at *
      omega
    rw [freerangeLoop, if_neg hstop]
    rw [Nat.add_zero] at hi
    rw [hi] at h
    exact ⟨s, rfl, h⟩
  | succ n ih =>
    intro i s hi h
    have hgo : heapPage i+PAGE_SIZE ≤ PHYEND := by
      simp only [heapPage, heapCount, PAGE_SIZE, PHYEND, KERNEND] at *
      omega
    have hnew : heapPage i ∉ heapPages i := by
      intro hm
      obtain ⟨j, hj, he⟩ := mem_heapPages.mp hm
      exact absurd (heapPage_injective he) (by omega)
    obtain ⟨s₁, hk, h₁, _⟩ := kfree_page h (heapPage_isPage (by omega)) hnew
    rw [← heapPages_succ] at h₁
    obtain ⟨s', hs', h'⟩ := ih (i+1) s₁ (by omega) h₁
    refine ⟨s', ?_, h'⟩
    have hstep : heapPage i+PAGE_SIZE = heapPage (i+1) := by
      simp only [heapPage, PAGE_SIZE]
      omega
    rw [freerangeLoop, if_pos hgo, hk, ok_bind, hstep]
    exact hs'

/-- kinit puts every page of the heap on the free list, whatever memory holds. -/
theorem kinit_heap (m : Mem) :
    ∃ s, kinit ⟨m, 0⟩ = .ok s ∧ FreeList s (heapPages heapCount) := by
  have hempty : FreeList ⟨m, 0⟩ (heapPages 0) := ⟨rfl, by simp [heapPages]⟩
  obtain ⟨s, hs, h⟩ := freerangeLoop_heap heapCount 0 ⟨m, 0⟩ (Nat.zero_add _) hempty
  refine ⟨s, ?_, h⟩
  have hstart : ROUND KERNEND PAGE_SIZE = heapPage 0 := by decide
  rw [kinit, freerange, hstart]
  exact hs

end RiscvMos
