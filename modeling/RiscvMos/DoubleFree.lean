import RiscvMos.LibLinkPath
import RiscvMos.Phypage

/-! `kfree` of a page that is free already: the list comes back to itself, and `kalloc` hands
pages out twice. -/
namespace RiscvMos
open ByteMem LinkChain

/-- The pages that `n` calls of `kalloc` return. -/
def kallocs : ℕ → Phys → List ℕ × Phys
  | 0, s => ([], s)
  | n+1, s =>
    let (r, s) := kalloc s
    let (rs, s) := kallocs n s
    (r :: rs, s)

/-- The links run from `kmem.freelist` through the pages `l` and from the last one back to `c`. -/
structure Cyclic (s : Phys) (l : List ℕ) (c : ℕ) : Prop where
  path : Path (load64 s.mem) s.freelist l c
  nodup : l.Nodup
  pages : ∀ p ∈ l, IsPage p
  back : c ∈ l

section
variable {s : Phys} {l l₁ l₂ : List ℕ} {p c : ℕ}

theorem kfree_links (hp : IsPage p) (hf : s.freelist < 2^64) :
    ∃ m, kfree s p = .ok ⟨m, p⟩ ∧ load64 m p = s.freelist ∧ SameOutside s.mem m p 4096 := by
  have hb := hp.bounds
  have hok : ¬(p%PAGE_SIZE ≠ 0 ∨ p < KERNEND ∨ p ≥ PHYEND) := by
    simp only [PAGE_SIZE, KERNEND, PHYEND]
    omega
  refine ⟨store64 (fill s.mem p 4096 0) p s.freelist, ?_, load64_store64_same _ _ _ hf, ?_⟩
  · rw [kfree, if_neg hok, memset_eq_fill]
    rfl
  · apply (fill_sameOutside s.mem p 4096 0).trans
    exact (store_sameOutside _ p 8 s.freelist).mono le_rfl (by omega)

theorem kalloc_links (hp : IsPage p) (hf : s.freelist = p) :
    ∃ m, kalloc s = (p, ⟨m, load64 s.mem p⟩) ∧ load64 m p = 0 ∧ SameOutside s.mem m p 4096 := by
  have hb := hp.bounds
  have hne : s.freelist ≠ 0 := by omega
  refine ⟨fill s.mem p 4096 0, ?_, ?_, fill_sameOutside _ _ _ _⟩
  · rw [kalloc, if_pos hne, hf, memset_eq_fill]
    rfl
  · apply load_zero_bytes
    intro b hlo hhi
    exact fill_apply_mem _ _ _ _ _ (by omega)

theorem links_kept {m : Mem} (hm : SameOutside s.mem m p 4096) (hp : IsPage p) {q : ℕ}
    (hq : IsPage q) (hne : q ≠ p) : load64 m q = load64 s.mem q := by
  have hd := hp.disjoint hq (Ne.symm hne)
  exact load64_sameOutside hm (by omega)

theorem head_lt (hpath : Path (load64 s.mem) s.freelist l c) (hl : ∀ q ∈ l, IsPage q)
    (hc : IsPage c) : s.freelist < 2^64 := by
  cases l with
  | nil =>
    have hb := hc.bounds
    have hh : s.freelist = c := hpath
    omega
  | cons q l =>
    have hb := (hl q List.mem_cons_self).bounds
    have hh : s.freelist = q := hpath.1
    omega

/-- A page of the list closes a cycle through the pages before it. -/
theorem FreeList.kfree_listed (h : FreeList s (l₁++p :: l₂)) :
    ∃ s', kfree s p = .ok s' ∧ Cyclic s' (p :: l₁) p := by
  have hpath : Path (load64 s.mem) s.freelist l₁ p := path_of_chain h.chain
  have hp := h.pages p (by simp)
  have hpages (q : ℕ) (hq : q ∈ l₁) : IsPage q := h.pages q (by simp [hq])
  obtain ⟨hnd, _, hd⟩ := List.nodup_append.mp h.nodup
  have hne (q : ℕ) (hq : q ∈ l₁) : q ≠ p := hd q hq p List.mem_cons_self
  obtain ⟨m, hk, hlink, hm⟩ := kfree_links hp (head_lt hpath hpages hp)
  refine ⟨_, hk, ⟨rfl, ?_⟩, List.nodup_cons.mpr ⟨fun hl => hne p hl rfl, hnd⟩, fun q hq => ?_,
    List.mem_cons_self⟩
  -- The new link of `p` is the old head, and the links in front of `p` stay.
  · show Path (load64 m) (load64 m p) l₁ p
    rw [hlink]
    exact path_congr hpath (fun q hq => links_kept hm hp (hpages q hq) (hne q hq))
  · rcases List.mem_cons.mp hq with rfl | hq
    · exact hp
    · exact hpages q hq

theorem Cyclic.kfree (h : Cyclic s l c) (hp : IsPage p) (hl : p ∉ l) :
    ∃ s', RiscvMos.kfree s p = .ok s' ∧ Cyclic s' (p :: l) c := by
  obtain ⟨m, hk, hlink, hm⟩ := kfree_links hp (head_lt h.path h.pages (h.pages c h.back))
  refine ⟨_, hk, ⟨rfl, ?_⟩, List.nodup_cons.mpr ⟨hl, h.nodup⟩, fun q hq => ?_,
    List.mem_cons_of_mem p h.back⟩
  · show Path (load64 m) (load64 m p) l c
    rw [hlink]
    apply path_congr h.path
    intro q hq
    apply links_kept hm hp (h.pages q hq)
    rintro rfl
    exact hl hq
  · rcases List.mem_cons.mp hq with rfl | hq
    · exact hp
    · exact h.pages q hq

theorem Cyclic.kalloc (h : Cyclic s (p :: l) c) (hne : p ≠ c) :
    ∃ s', RiscvMos.kalloc s = (p, s') ∧ Cyclic s' l c := by
  have hp := h.pages p List.mem_cons_self
  obtain ⟨hf, hpath⟩ := h.path
  obtain ⟨hl, hnd⟩ := List.nodup_cons.mp h.nodup
  obtain ⟨m, hk, _, hm⟩ := kalloc_links hp hf
  refine ⟨_, hk, ?_, hnd, fun q hq => h.pages q (List.mem_cons_of_mem p hq),
    (List.mem_cons.mp h.back).resolve_left (Ne.symm hne)⟩
  apply path_congr hpath
  intro q hq
  apply links_kept hm hp (h.pages q (List.mem_cons_of_mem p hq))
  rintro rfl
  exact hl hq

/-- At the page where the cycle closes its zeroed link ends the list, behind the page itself. -/
theorem Cyclic.kalloc_back (h : Cyclic s (c :: l) c) :
    ∃ s', RiscvMos.kalloc s = (c, s') ∧ FreeList s' (l++[c]) := by
  have hc := h.pages c List.mem_cons_self
  have hb := hc.bounds
  obtain ⟨hf, hpath⟩ := h.path
  obtain ⟨hl, _⟩ := List.nodup_cons.mp h.nodup
  obtain ⟨m, hk, hlink, hm⟩ := kalloc_links hc hf
  have hpages (q : ℕ) (hq : q ∈ l++[c]) : IsPage q := h.pages q (by simpa [or_comm] using hq)
  refine ⟨_, hk, chain_iff_path.mpr ⟨path_append.mpr ⟨c, ?_, rfl, hlink⟩, fun h0 => ?_⟩, hpages⟩
  · apply path_congr hpath
    intro q hq
    apply links_kept hm hc (h.pages q (List.mem_cons_of_mem c hq))
    rintro rfl
    exact hl hq
  · have hz := (hpages 0 h0).bounds
    omega

theorem FreeList.kallocs (h : FreeList s l) :
    ∃ s', RiscvMos.kallocs l.length s = (l, s') ∧ RiscvMos.kalloc s' = (0, s') := by
  induction l generalizing s with
  | nil => exact ⟨s, rfl, kalloc_nil h⟩
  | cons p l ih =>
    obtain ⟨s₁, hk, h₁, _⟩ := kalloc_cons h
    obtain ⟨s', hks, hend⟩ := ih h₁
    refine ⟨s', ?_, hend⟩
    rw [List.length_cons, RiscvMos.kallocs, hk]
    dsimp only
    rw [hks]

/-- A cyclic list is handed out up to its end and the page `c` once more. Then there is nothing
left. -/
theorem Cyclic.kallocs (h : Cyclic s (l₁++c :: l₂) c) :
    ∃ s', RiscvMos.kallocs ((l₁++c :: l₂).length+1) s = (l₁++c :: l₂++[c], s') ∧
      RiscvMos.kalloc s' = (0, s') := by
  induction l₁ generalizing s with
  -- At `c` the zeroed link cuts the cycle, and what is left is a list that ends in `c`.
  | nil =>
    obtain ⟨s₁, hk, h₁⟩ := h.kalloc_back
    obtain ⟨s', hks, hend⟩ := h₁.kallocs
    refine ⟨s', ?_, hend⟩
    rw [List.length_append] at hks
    show RiscvMos.kallocs (l₂.length+1+1) s = _
    rw [RiscvMos.kallocs, hk]
    dsimp only
    rw [show l₂.length+1 = l₂.length+[c].length from rfl, hks]
    rfl
  | cons p l₁ ih =>
    have hpc : p ≠ c := by
      rintro rfl
      exact (List.nodup_cons.mp h.nodup).1 (by simp)
    obtain ⟨s₁, hk, h₁⟩ := Cyclic.kalloc h hpc
    obtain ⟨s', hks, hend⟩ := ih h₁
    refine ⟨s', ?_, hend⟩
    rw [List.cons_append, List.length_cons, RiscvMos.kallocs, hk]
    dsimp only
    rw [hks]
    rfl

/-- `kfree` takes a page that is free already. `kalloc` then hands out this page, those that were
in front of it and this page once more, and after that nothing: the pages behind it are lost. -/
theorem double_free (h : FreeList s (l₁++p :: l₂)) :
    ∃ s' s'', kfree s p = .ok s' ∧ kallocs (l₁.length+2) s' = (p :: l₁++[p], s'') ∧
      kalloc s'' = (0, s'') := by
  obtain ⟨s', hk, hc⟩ := h.kfree_listed
  have hcyclic : Cyclic s' ([]++p :: l₁) p := hc
  obtain ⟨s'', hks, hend⟩ := hcyclic.kallocs
  exact ⟨s', s'', hk, hks, hend⟩

/-- The page that `kinit` freed last is freed again. -/
theorem double_free_kinit : ∃ s s' s'', kinit ⟨fun _ => 0, 0⟩ = .ok s ∧
    kfree s (heapPage 31742) = .ok s' ∧
    kallocs ([heapPage 31743].length+2) s' =
      (heapPage 31742 :: [heapPage 31743]++[heapPage 31742], s'') ∧ kalloc s'' = (0, s'') := by
  obtain ⟨s, hinit, h⟩ := kinit_heap (fun _ => 0)
  rw [show heapCount = 31742+1+1 from rfl, heapPages_succ, heapPages_succ] at h
  have hlist : FreeList s ([heapPage 31743]++heapPage 31742 :: heapPages 31742) := h
  obtain ⟨s', s'', hk, hks, hend⟩ := double_free hlist
  exact ⟨s, s', s'', hinit, hk, hks, hend⟩

/-! ### kalloc_check -/

/-- The pages from `p` down. -/
def below (p i : ℕ) : ℕ := p-4096*i

end

end RiscvMos
