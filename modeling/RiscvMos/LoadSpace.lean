import RiscvMos.FirstEnv
import RiscvMos.UserSpace

/-! The loader fills the user address space of its image: what one call of the mapper, the
two loops of `elf_load_seg` and the loop over the headers leave in memory. -/
namespace RiscvMos
open ByteMem Tiling Function

/-- Page `v` of the root `u` is mapped to a frame of its own that holds `x`. -/
def Backed (s : Phys) (τ : Typing) (u v : ℕ) (x : UserPage) : Prop :=
  ∃ c, IsPage c ∧ τ c = .frame (some (u,v)) ∧ leaf s.mem u v = mkLeaf c x.perm ∧
    ∀ b < PAGE_SIZE, s.mem (c+b) = x.bytes b

/-- In a load for the root `u` the pages `space` are there, and of the others below
0x80000000 none is mapped. `N` pages are left for frames and for the tables of the regions
`G`, and memory below the heap is `m₀`. -/
structure Loaded (k : ℕ) (f : ℕ → ℕ) (u : ℕ) (G : Finset ℕ) (m₀ : Mem) (s : Phys) (τ : Typing)
    (sm : ℕ → Prop) (l : List ℕ) (space : ℕ → Option UserPage) (N : ℕ) : Prop where
  spaces : Spaces k f s τ sm l
  root : sm u
  mapped : ∀ v x, space v = some x → v < 2^19 ∧ Backed s τ u v x
  unmapped : ∀ v < 2^19, space v = none → ¬Valid (leaf s.mem u v)
  budget : Budget s.mem u l N G
  low : ∀ b < KERNEND, s.mem b = m₀ b

section
variable {k : ℕ} {f : ℕ → ℕ} {u : ℕ} {G : Finset ℕ} {m₀ : Mem} {s : Phys} {τ : Typing}
  {sm : ℕ → Prop} {l : List ℕ} {space : ℕ → Option UserPage} {N : ℕ}

theorem Backed.step {v c : ℕ} {x : UserPage} {s₁ s' : Phys} {τ' : Typing} {o : Option (ℕ × ℕ)}
    (h : Backed s τ u v x) (hc : IsPage c) (hfree : τ c = .free)
    (hm : SameOutside s.mem s₁.mem c 4096) (g : Grows s₁ (update τ c (.frame o)) s' τ')
    (hleaf : leaf s'.mem u v = leaf s.mem u v) : Backed s' τ' u v x := by
  obtain ⟨q, hq, hτ, hl, hbytes⟩ := h
  have hqc : q ≠ c := by
    rintro rfl
    rw [hfree] at hτ
    cases hτ
  have hτ₁ : update τ c (.frame o) q = .frame (some (u,v)) := by
    rw [update_other_kind _ _ hqc, hτ]
  refine ⟨q, hq, ?_, by rw [hleaf, hl], fun b hb => ?_⟩
  · rw [g.kinds q (by simp [hτ₁]), hτ₁]
  · have hpage : PAGE_SIZE = 4096 := rfl
    have hd := hq.disjoint hc hqc
    rw [g.frame_agree hq hτ₁ (q+b) (by omega) (by omega), hm (q+b) (by omega), hbytes b hb]

theorem Backed.new {v c : ℕ} {x : UserPage} {s₁ s' : Phys} {τ' : Typing} (hc : IsPage c)
    (hbytes : ∀ b < PAGE_SIZE, s₁.mem (c+b) = x.bytes b)
    (g : Grows s₁ (update τ c (.frame (some (u,v)))) s' τ')
    (hleaf : leaf s'.mem u v = mkLeaf c x.perm) : Backed s' τ' u v x := by
  have hpage : PAGE_SIZE = 4096 := rfl
  have hτ := update_same_kind τ c (.frame (some (u,v)))
  refine ⟨c, hc, ?_, hleaf, fun b hb => ?_⟩
  · rw [g.kinds c (by simp), hτ]
  · rw [g.frame_agree hc hτ (c+b) (by omega) (by omega), hbytes b hb]

theorem Loaded.mapper (h : Loaded k f u G m₀ s τ sm l space N) (img : Image) (src : Option ℕ)
    (ph : Phdr) {len v : ℕ} {x : UserPage} (hv : v < 2^19) (hlen : len ≤ 4096)
    (hnone : space v = none) (hreg : v/512 ∈ G) (hG : ∀ g ∈ G, g < 1024) (hN : 2*G.card+1 < N)
    (hperm : x.perm = segPerm ph) (hbytes : ∀ b < PAGE_SIZE, x.bytes b = copied img src 0 len b) :
    ∃ s' τ' l', loadIcodeMapper img u s (v*4096) 0 (segPerm ph) src len = .ok (0, s') ∧
      Loaded k f u G m₀ s' τ' sm l' (update space v (some x)) (N-1) := by
  cases l with
  | nil =>
    -- the budget rules out an empty list
    obtain ⟨P, hP, _, hle⟩ := h.budget
    have hcard := Finset.card_le_card hP
    simp only [List.length_nil] at hle
    omega
  | cons c l =>
    have hpage : PAGE_SIZE = 4096 := rfl
    have hc := h.spaces.typed.free.pages c List.mem_cons_self
    have hfree := h.spaces.typed.free_kind List.mem_cons_self
    have hcb := hc.bounds
    have hroot := h.spaces.root_of_sm h.root
    have hclear {w : ℕ} (hw : w < 2^19) : Clear sm u 2 (vpnIndex 2 w) :=
      clear_of_index sm u (user_index hw)
    have hclearG (g : ℕ) (hg : g ∈ G) : Clear sm u 2 (vpnIndex 2 (512*g)) :=
      hclear (by have := hG g hg; omega)
    obtain ⟨s₁, hmap, h₁, hleaf, hm, hfill⟩ := h.spaces.loadIcodeMapper img src (some (u,v))
      (by omega : 0+len ≤ 4096)
    have hleaf₁ (w : ℕ) (hw : w < 2^19) : leaf s₁.mem u w = leaf s.mem u w :=
      hleaf u w hroot (hclear hw)
    -- the fill takes one page of the budget and changes no table
    have hb₁ : Budget s₁.mem u l (N-1) G := by
      refine h.budget.spend 1 (by rw [List.length_cons]) (fun g hg hp => ?_)
      obtain ⟨q, hq⟩ := hp
      refine ⟨q, ?_⟩
      rw [h.spaces.typed.descend_agree (h.spaces.typed.table_agree hc
        (Typed.not_table_of_free hfree) hm) _ hroot (hclearG g hg), hq]
    obtain ⟨s', τ', l', hrun, m, hb'⟩ := Typed.mappagesLoop_map (segPerm_lt ph) (HasRWX_segPerm ph)
      (by omega : v < 2^26) (by omega : 2*G.card < N-1) hclearG 0 rfl h₁.typed (h₁.root_of_sm h.root)
      (by omega : c < 2^64) (fun w h1 h2 => by rw [Nat.le_antisymm h2 h1]; exact hreg)
      (fun w h1 h2 => by
        rw [Nat.le_antisymm h2 h1, hleaf₁ v hv]
        exact h.unmapped v hv hnone) hb₁
    -- only the leaf of `v` is new
    have hleaves (w : ℕ) (hw : w < 2^19) : leaf s'.mem u w =
        if w = v then mkLeaf c (segPerm ph) else leaf s.mem u w := by
      rw [m.leaves (h₁.root_of_sm h.root) (hclear hw) (by omega), hleaf₁ w hw]
      by_cases hwv : w = v
      · rw [if_pos hwv, if_pos ⟨rfl, by omega, by omega⟩, hwv, Nat.sub_self, Nat.mul_zero,
          Nat.add_zero, Nat.mod_eq_of_lt (by omega)]
      · rw [if_neg hwv, if_neg (by omega)]
    refine ⟨s', τ', l', ?_, h₁.map h.root (by omega) m, h.root, ?_, ?_, hb', ?_⟩
    · rw [hmap, mappages_page_eq (by omega), hrun]
    · intro w y hwy
      by_cases hwv : w = v
      · rw [hwv, update_self] at hwy
        obtain rfl := Option.some.inj hwy
        rw [hwv]
        refine ⟨hv, Backed.new hc (fun b hb => ?_) m.grows ?_⟩
        · rw [hfill b hb, hbytes b hb]
        · rw [hleaves v hv, if_pos rfl, hperm]
      · rw [update_of_ne hwv] at hwy
        obtain ⟨hw, hback⟩ := h.mapped w y hwy
        exact ⟨hw, hback.step hc hfree hm m.grows (by rw [hleaves w hw, if_neg hwv])⟩
    · intro w hw hwn
      have hwv : w ≠ v := by
        rintro rfl
        rw [update_self] at hwn
        cases hwn
      rw [update_of_ne hwv] at hwn
      rw [hleaves w hw, if_neg hwv]
      exact h.unmapped w hw hwn
    · intro b hb
      have hend : KERNEND = 0x80400000 := rfl
      rw [m.grows.low hb, hm b (by omega), h.low b hb]

/-! ### A segment -/

/-- A segment that starts on a page and lies below USTACKTOP and in the image; none of its
pages is there yet. -/
structure NewSegment (img : Image) (ph : Phdr) (G : Finset ℕ) (space : ℕ → Option UserPage) : Prop where
  aligned : ph.p_vaddr%PAGE_SIZE = 0
  filesz : ph.p_filesz ≤ ph.p_memsz
  below : ph.p_vaddr+ph.p_memsz ≤ USTACKTOP
  bytes : ph.p_offset+ph.p_filesz < 2^64
  regions : ∀ v ∈ (segTile img ph).cells, v/512 ∈ G
  none : ∀ v ∈ (segTile img ph).cells, space v = none

variable {img : Image} {ph : Phdr}

theorem Loaded.page {j len : ℕ} (src : Option ℕ) (n : NewSegment img ph G space)
    (h : Loaded k f u G m₀ s τ sm l (put space (segTile img ph) j) (N-j))
    (hj : j < (segTile img ph).count) (hG : ∀ g ∈ G, g < 1024)
    (hN : 2*G.card+1+(segTile img ph).count ≤ N) (hlen : len ≤ PAGE_SIZE)
    (hsrc : ∀ b < PAGE_SIZE, segByte img ph (j*PAGE_SIZE+b) = copied img src 0 len b) :
    ∃ s' τ' l', loadIcodeMapper img u s ((ph.p_vaddr+j*PAGE_SIZE)%2^64) 0 (segPerm ph) src len =
        .ok (0, s') ∧
      Loaded k f u G m₀ s' τ' sm l' (put space (segTile img ph) (j+1)) (N-(j+1)) := by
  have htop : USTACKTOP = 524287*4096 := by decide
  have hal := n.aligned
  have hbelow := n.below
  have hcount : (segTile img ph).count = (ph.p_memsz+4096-1)/4096 := rfl
  have hfirst : (segTile img ph).first = ph.p_vaddr/4096 := rfl
  have hmem : (segTile img ph).first+j ∈ (segTile img ph).cells := by
    rw [Tile.mem_cells]
    omega
  have hnone : put space (segTile img ph) j ((segTile img ph).first+j) = Option.none := by
    rw [put, if_neg (by omega)]
    exact n.none _ hmem
  rw [PAGE_SIZE] at hal hlen
  have hva : (ph.p_vaddr+j*PAGE_SIZE)%2^64 = ((segTile img ph).first+j)*4096 := by
    rw [hfirst, PAGE_SIZE]
    omega
  obtain ⟨s', τ', l', hrun, h'⟩ := h.mapper img src ph
    (x := (segTile img ph).value j) (by omega) hlen hnone (n.regions _ hmem) hG (by omega) rfl hsrc
  refine ⟨s', τ', l', by rw [hva, hrun], ?_⟩
  rw [put_succ, ← Nat.sub_sub]
  exact h'

/-- The number of pages that get bytes of the file. -/
def filePages (ph : Phdr) : ℕ := (ph.p_filesz+PAGE_SIZE-1)/PAGE_SIZE

theorem Loaded.elfBinLoop (n : NewSegment img ph G space) (hG : ∀ g ∈ G, g < 1024)
    (hN : 2*G.card+1+(segTile img ph).count ≤ N) (d : ℕ) :
    ∀ {s : Phys} {τ : Typing} {l : List ℕ} {j : ℕ}, j+d = filePages ph →
    Loaded k f u G m₀ s τ sm l (put space (segTile img ph) j) (N-j) →
    ∃ s' τ' l', RiscvMos.elfBinLoop (loadIcodeMapper img u) s ph.p_vaddr (segPerm ph) ph.p_offset
        ph.p_filesz (j*PAGE_SIZE) = .ok (0, filePages ph*PAGE_SIZE, s') ∧
      Loaded k f u G m₀ s' τ' sm l' (put space (segTile img ph) (filePages ph)) (N-filePages ph) := by
  have hbytes := n.bytes
  have hsize := n.filesz
  induction d with
  | zero =>
    intro s τ l j hj h
    obtain rfl : j = filePages ph := hj
    refine ⟨s, τ, l, ?_, h⟩
    rw [elfBinLoop_eq, if_neg (by rw [filePages, PAGE_SIZE]; omega)]
  | succ d ih =>
    intro s τ l j hj h
    have hlt : j*4096 < ph.p_filesz := by
      rw [filePages, PAGE_SIZE] at hj
      omega
    have hcount : j < (segTile img ph).count := by
      show j < (ph.p_memsz+4096-1)/4096
      omega
    have hsrc (b : ℕ) (hb : b < PAGE_SIZE) : segByte img ph (j*PAGE_SIZE+b) =
        copied img (some ((ph.p_offset+j*PAGE_SIZE)%2^64)) 0 (min (ph.p_filesz-j*PAGE_SIZE) PAGE_SIZE)
          b := by
      rw [PAGE_SIZE] at hb ⊢
      rw [segByte, copied, Nat.mod_eq_of_lt (by omega), Nat.sub_zero, Nat.add_assoc]
      exact if_congr (by omega) rfl rfl
    obtain ⟨s₁, τ₁, l₁, hcall, h₁⟩ := h.page (some ((ph.p_offset+j*PAGE_SIZE)%2^64)) n hcount hG hN
      (Nat.min_le_right _ _) hsrc
    obtain ⟨s', τ', l', hrun, h'⟩ := ih (by omega) h₁
    refine ⟨s', τ', l', ?_, h'⟩
    rw [elfBinLoop_eq, if_pos (by rw [PAGE_SIZE]; exact hlt), hcall, ok_bind]
    dsimp only
    rw [if_neg (fun hne => hne rfl), ← hrun, Nat.add_mul, Nat.one_mul]

theorem Loaded.elfZeroLoop (n : NewSegment img ph G space) (hG : ∀ g ∈ G, g < 1024)
    (hN : 2*G.card+1+(segTile img ph).count ≤ N) (d : ℕ) :
    ∀ {s : Phys} {τ : Typing} {l : List ℕ} {j : ℕ}, j+d = (segTile img ph).count →
    filePages ph ≤ j → Loaded k f u G m₀ s τ sm l (put space (segTile img ph) j) (N-j) →
    ∃ s' τ' l', RiscvMos.elfZeroLoop (loadIcodeMapper img u) s ph.p_vaddr (segPerm ph) ph.p_memsz
        (j*PAGE_SIZE) = .ok (0, s') ∧
      Loaded k f u G m₀ s' τ' sm l' (put space (segTile img ph) (segTile img ph).count)
        (N-(segTile img ph).count) := by
  have hcount : (segTile img ph).count = (ph.p_memsz+4096-1)/4096 := rfl
  induction d with
  | zero =>
    intro s τ l j hj _ h
    obtain rfl : j = (segTile img ph).count := hj
    refine ⟨s, τ, l, ?_, h⟩
    rw [elfZeroLoop_eq, if_neg (by rw [hcount, PAGE_SIZE]; omega)]
  | succ d ih =>
    intro s τ l j hj hfile h
    have hzero (b : ℕ) (hb : b < PAGE_SIZE) : segByte img ph (j*PAGE_SIZE+b) =
        copied img Option.none 0 (min (ph.p_memsz-j*PAGE_SIZE) PAGE_SIZE) b := by
      rw [filePages] at hfile
      rw [PAGE_SIZE] at hfile ⊢
      rw [segByte, copied, if_neg (by omega)]
    obtain ⟨s₁, τ₁, l₁, hcall, h₁⟩ := h.page Option.none n (by omega) hG hN (Nat.min_le_right _ _) hzero
    obtain ⟨s', τ', l', hrun, h'⟩ := ih (by omega) (by omega) h₁
    refine ⟨s', τ', l', ?_, h'⟩
    rw [elfZeroLoop_eq, if_pos (by rw [PAGE_SIZE]; omega), hcall, ok_bind]
    dsimp only
    rw [if_neg (fun hne => hne rfl), ← hrun, Nat.add_mul, Nat.one_mul]

theorem Loaded.elfLoadSeg (n : NewSegment img ph G space) (hG : ∀ g ∈ G, g < 1024)
    (hN : 2*G.card+1+(segTile img ph).count ≤ N) (h : Loaded k f u G m₀ s τ sm l space N) :
    ∃ s' τ' l', RiscvMos.elfLoadSeg (loadIcodeMapper img u) s ph ph.p_offset = .ok (0, s') ∧
      Loaded k f u G m₀ s' τ' sm l' (put space (segTile img ph) (segTile img ph).count)
        (N-(segTile img ph).count) := by
  have hlt := USTACKTOP_lt
  have hbelow := n.below
  have hal := n.aligned
  have hsize := n.filesz
  have hcount : (segTile img ph).count = (ph.p_memsz+4096-1)/4096 := rfl
  have h0 : ph.p_vaddr-ROUNDDOWN ph.p_vaddr PAGE_SIZE = 0 := by
    rw [PAGE_SIZE] at hal
    rw [ROUNDDOWN_page _ (by omega)]
    omega
  have hfile : filePages ph ≤ (segTile img ph).count := by
    rw [filePages, hcount, PAGE_SIZE]
    omega
  have hstart : Loaded k f u G m₀ s τ sm l (put space (segTile img ph) 0) (N-0) := by
    rw [put_zero]
    exact h
  obtain ⟨s₁, τ₁, l₁, hbin, h₁⟩ := hstart.elfBinLoop n hG hN (filePages ph) (Nat.zero_add _)
  obtain ⟨s', τ', l', hzero, h'⟩ := h₁.elfZeroLoop n hG hN ((segTile img ph).count-filePages ph)
    (by omega) le_rfl
  refine ⟨s', τ', l', ?_, h'⟩
  rw [Nat.zero_mul] at hbin
  rw [RiscvMos.elfLoadSeg]
  simp only [h0, ne_eq, not_true_eq_false, if_false]
  rw [hbin, ok_bind]
  exact hzero

/-! ### All segments -/

theorem Loaded.segments (hG : ∀ g ∈ G, g < 1024) (phs : List Phdr) :
    ∀ {s : Phys} {τ : Typing} {l : List ℕ} {space : ℕ → Option UserPage} {N : ℕ},
    Apart (phs.map (segTile img)) → (∀ ph ∈ phs, NewSegment img ph G space) →
    2*G.card+1+((phs.map (segTile img)).map Tile.count).sum ≤ N →
    Loaded k f u G m₀ s τ sm l space N →
    ∃ s' τ' l', phs.foldlM (fun s ph => RiscvMos.elfLoadSeg (loadIcodeMapper img u) s ph ph.p_offset >>=
        fun x => Except.ok x.2) s = .ok s' ∧
      Loaded k f u G m₀ s' τ' sm l' (layOut space (phs.map (segTile img)))
        (N-((phs.map (segTile img)).map Tile.count).sum) := by
  induction phs with
  | nil =>
    intro s τ l space N _ _ _ h
    exact ⟨s, τ, l, rfl, h⟩
  | cons ph phs ih =>
    intro s τ l space N hapart hnew hN h
    rw [List.map_cons, List.map_cons, List.sum_cons] at hN
    obtain ⟨hhead, htail⟩ := List.pairwise_cons.mp hapart
    have n := hnew ph List.mem_cons_self
    obtain ⟨s₁, τ₁, l₁, hcall, h₁⟩ := h.elfLoadSeg n hG (by omega)
    -- the other segments stay new, as they share no page with this one
    have hrest (ph' : Phdr) (hmem : ph' ∈ phs) :
        NewSegment img ph' G (put space (segTile img ph) (segTile img ph).count) := by
      have n' := hnew ph' (List.mem_cons_of_mem _ hmem)
      refine ⟨n'.aligned, n'.filesz, n'.below, n'.bytes, n'.regions, fun v hv => ?_⟩
      have hd := Finset.disjoint_left.mp (hhead _ (List.mem_map_of_mem hmem))
      rw [put_of_not_mem _ (fun hv' => hd hv' hv), n'.none v hv]
    obtain ⟨s', τ', l', hrun, h'⟩ := ih htail hrest (by omega) h₁
    refine ⟨s', τ', l', ?_, ?_⟩
    · rw [List.foldlM_cons, hcall, ok_bind]
      exact hrun
    · rw [List.map_cons, List.map_cons, List.sum_cons, layOut_cons, ← Nat.sub_sub]
      exact h'

end

/-! ### Images -/

/-- The regions of 512 pages that the image touches. -/
def imageRegions (img : Image) (ehdr : Ehdr) : Finset ℕ := (imagePages img ehdr).image (· / 512)

/-- Frames and tables for the image. -/
def imageRoom (img : Image) (ehdr : Ehdr) : ℕ :=
  (imagePages img ehdr).card+2*(imageRegions img ehdr).card

section
variable {img : Image} {ehdr : Ehdr}

theorem LinkedImage.page_lt (li : LinkedImage img ehdr) {v : ℕ} (hv : v ∈ imagePages img ehdr) :
    v < 2^19 := by
  obtain ⟨ph, hs, hv⟩ := mem_imagePages.mp hv
  have htop : USTACKTOP = 524287*4096 := by decide
  have hal := li.aligned ph hs
  have hbelow := li.below ph hs
  rw [Tile.mem_cells] at hv
  simp only [segTile, PAGE_SIZE] at hv hal
  omega

theorem LinkedImage.region_lt (li : LinkedImage img ehdr) {g : ℕ} (hg : g ∈ imageRegions img ehdr) :
    g < 1024 := by
  obtain ⟨v, hv, rfl⟩ := Finset.mem_image.mp hg
  have hlt := li.page_lt hv
  show v/512 < 1024
  omega

theorem LinkedImage.newSegment (li : LinkedImage img ehdr) {ph : Phdr} (hs : Segment img ehdr ph) :
    NewSegment img ph (imageRegions img ehdr) (fun _ => none) where
  aligned := li.aligned ph hs
  filesz := li.filesz ph hs
  below := li.below ph hs
  bytes := (li.bytes ph hs).trans_lt li.size
  regions _ hv := Finset.mem_image_of_mem _ (mem_imagePages.mpr ⟨ph, hs, hv⟩)
  none _ _ := rfl

/-- In an address space without user pages the loader builds the space of the image. -/
theorem Spaces.loadImage {k : ℕ} {f : ℕ → ℕ} {s : Phys} {τ : Typing} {sm : ℕ → Prop} {l : List ℕ}
    {u : ℕ} (h : Spaces k f s τ sm l) (hu : sm u) (li : LinkedImage img ehdr)
    (hempty : ∀ v < 2^19, ¬Valid (leaf s.mem u v)) (hroom : imageRoom img ehdr < l.length) :
    ∃ s' τ' l', loadSegments (RiscvMos.loadIcodeMapper img u) img ehdr s 0 ehdr.e_phoff = .ok s' ∧
      Loaded k f u (imageRegions img ehdr) s.mem s' τ' sm l' (imageSpace img ehdr)
        (l.length-(imagePages img ehdr).card) := by
  have hG (g : ℕ) (hg : g ∈ imageRegions img ehdr) : g < 1024 := li.region_lt hg
  have hcount : (imagePages img ehdr).card = ((imageTiles img ehdr).map Tile.count).sum :=
    li.tiles_apart.card_cells
  have hstart : Loaded k f u (imageRegions img ehdr) s.mem s τ sm l (fun _ => none) l.length :=
    ⟨h, hu, fun _ _ hx => absurd hx (by simp), fun v hv _ => hempty v hv, Budget.start _ _ _ _,
      fun _ _ => rfl⟩
  rw [imageRoom, hcount] at hroom
  obtain ⟨s', τ', l', hrun, h'⟩ := hstart.segments hG (segments img ehdr) li.tiles_apart
    (fun ph hph => li.newSegment (mem_segments.mp hph))
    (by
      show 2*(imageRegions img ehdr).card+1+((imageTiles img ehdr).map Tile.count).sum ≤ l.length
      omega)
  refine ⟨s', τ', l', ?_, ?_⟩
  · have hoff : (ehdr.e_phoff+0*ehdr.e_phentsize)%2^64 = ehdr.e_phoff := by
      rw [Nat.zero_mul, Nat.add_zero, Nat.mod_eq_of_lt (elfFrom_phoff li.elf)]
    have hfold := loadSegments_eq_foldlM (RiscvMos.loadIcodeMapper img u) img ehdr ehdr.e_phnum s 0
      (Nat.zero_add _)
    rw [hoff] at hfold
    rw [hfold]
    exact hrun
  · rw [hcount]
    exact h'

end

end RiscvMos
