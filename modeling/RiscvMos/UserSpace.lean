import RiscvMos.LibTiling
import RiscvMos.Loader

/-! What an image should become: the pages of its segments as tiles, and the user
address space that they fill. Next to it, the loader's loop over headers as a fold. -/
namespace RiscvMos
open ByteMem Tiling

/-- A user page: its permissions and its bytes. -/
structure UserPage where
  perm : ℕ
  bytes : ℕ → UInt8

/-- What lies at byte `n` of a segment: the file up to `p_filesz`, then zeros. -/
def segByte (img : Image) (ph : Phdr) (n : ℕ) : UInt8 :=
  if n < ph.p_filesz then img.bytes (ph.p_offset+n) else 0

/-- The pages of a segment. -/
def segTile (img : Image) (ph : Phdr) : Tile UserPage where
  first := ph.p_vaddr/PAGE_SIZE
  count := (ph.p_memsz+PAGE_SIZE-1)/PAGE_SIZE
  value j := ⟨segPerm ph, fun b => segByte img ph (j*PAGE_SIZE+b)⟩

/-- `sizeof(Elf64_Phdr)` -/
def PHDR_SIZE : ℕ := 56

def header (img : Image) (ehdr : Ehdr) (idx : ℕ) : Phdr :=
  readPhdr img.bytes ((ehdr.e_phoff+idx*ehdr.e_phentsize)%2^64)

/-- The segments of the `n` headers from `idx` on. -/
def segmentsFrom (img : Image) (ehdr : Ehdr) (idx n : ℕ) : List Phdr :=
  ((List.range' idx n).map (header img ehdr)).filter (fun ph => ph.p_type = PT_LOAD)

def segments (img : Image) (ehdr : Ehdr) : List Phdr := segmentsFrom img ehdr 0 ehdr.e_phnum

def imageTiles (img : Image) (ehdr : Ehdr) : List (Tile UserPage) :=
  (segments img ehdr).map (segTile img)

/-- The user address space of a program: which page lies at which page number. -/
def imageSpace (img : Image) (ehdr : Ehdr) : ℕ → Option UserPage :=
  layOut (fun _ => none) (imageTiles img ehdr)

/-- The program headers and the bytes of the segments lie in the image, and the segments
start on pages, lie below USTACKTOP and share no page. -/
structure LinkedImage (img : Image) (ehdr : Ehdr) : Prop where
  elf : elfFrom img = some ehdr
  size : img.size < 2^64
  headers : ∀ idx < ehdr.e_phnum, ehdr.e_phoff+idx*ehdr.e_phentsize+PHDR_SIZE ≤ img.size
  bytes : ∀ ph, Segment img ehdr ph → ph.p_offset+ph.p_filesz ≤ img.size
  aligned : ∀ ph, Segment img ehdr ph → ph.p_vaddr%PAGE_SIZE = 0
  filesz : ∀ ph, Segment img ehdr ph → ph.p_filesz ≤ ph.p_memsz
  below : ∀ ph, Segment img ehdr ph → ph.p_vaddr+ph.p_memsz ≤ USTACKTOP
  apart : ∀ i j, i < j → j < ehdr.e_phnum → (header img ehdr i).p_type = PT_LOAD →
    (header img ehdr j).p_type = PT_LOAD →
      Disjoint (segTile img (header img ehdr i)).cells (segTile img (header img ehdr j)).cells

/-! ### The headers as a list -/

theorem mem_segments {img : Image} {ehdr : Ehdr} {ph : Phdr} :
    ph ∈ segments img ehdr ↔ Segment img ehdr ph := by
  rw [segments, segmentsFrom, List.mem_filter, List.mem_map]
  constructor
  · rintro ⟨⟨idx, hidx, rfl⟩, hload⟩
    rw [List.mem_range'_1] at hidx
    exact ⟨idx, by omega, rfl, by simpa using hload⟩
  · rintro ⟨idx, hidx, rfl, hload⟩
    refine ⟨⟨idx, ?_, rfl⟩, by simpa using hload⟩
    rw [List.mem_range'_1]
    omega

theorem segmentsFrom_succ (img : Image) (ehdr : Ehdr) (idx n : ℕ) :
    segmentsFrom img ehdr idx (n+1) =
      if (header img ehdr idx).p_type = PT_LOAD
        then header img ehdr idx :: segmentsFrom img ehdr (idx+1) n
        else segmentsFrom img ehdr (idx+1) n := by
  rw [segmentsFrom, List.range'_succ, List.map_cons]
  split_ifs with hload
  · exact List.filter_cons_of_pos (by simpa using hload)
  · exact List.filter_cons_of_neg (by simpa using hload)

theorem loadSegments_eq_foldlM {σ : Type} (map_page : ElfMapper σ) (img : Image) (ehdr : Ehdr)
    (n : ℕ) : ∀ (st : σ) (idx : ℕ), idx+n = ehdr.e_phnum →
    loadSegments map_page img ehdr st idx ((ehdr.e_phoff+idx*ehdr.e_phentsize)%2^64) =
      (segmentsFrom img ehdr idx n).foldlM
        (fun st ph => elfLoadSeg map_page st ph ph.p_offset >>= fun x => .ok x.2) st := by
  induction n with
  | zero =>
    intro st idx hn
    rw [loadSegments, if_neg (by omega)]
    rfl
  | succ n ih =>
    intro st idx hn
    have hoff : ((ehdr.e_phoff+idx*ehdr.e_phentsize)%2^64+ehdr.e_phentsize)%2^64 =
        (ehdr.e_phoff+(idx+1)*ehdr.e_phentsize)%2^64 := by
      rw [Nat.add_mul, Nat.mod_add_mod, Nat.one_mul, Nat.add_assoc]
    have hnext : idx+1+n = ehdr.e_phnum := by omega
    rw [loadSegments, if_pos (by omega), hoff, segmentsFrom_succ]
    dsimp only
    rw [← header]
    split_ifs with hload
    · rw [List.foldlM_cons]
      cases elfLoadSeg map_page st (header img ehdr idx) (header img ehdr idx).p_offset with
      | error e => rfl
      | ok x => exact ih x.2 (idx+1) hnext
    · exact ih st (idx+1) hnext

/-! ### Pages of linked images -/

section
variable {img : Image} {ehdr : Ehdr}

theorem LinkedImage.tiles_apart (h : LinkedImage img ehdr) : Apart (imageTiles img ehdr) := by
  rw [Apart, imageTiles, segments, segmentsFrom, List.pairwise_map, List.pairwise_filter,
    List.pairwise_map]
  refine List.Pairwise.imp_of_mem ?_ (List.pairwise_lt_range' 1)
  intro i j _ hj hij hi hload
  rw [List.mem_range'_1] at hj
  exact h.apart i j hij (by omega) (by simpa using hi) (by simpa using hload)

theorem PAGE_SIZE_pos : 0 < PAGE_SIZE := by decide

theorem seg_page {ph : Phdr} (hal : ph.p_vaddr%PAGE_SIZE = 0) (k : ℕ) :
    (ph.p_vaddr+k)/PAGE_SIZE = ph.p_vaddr/PAGE_SIZE+k/PAGE_SIZE ∧
      (ph.p_vaddr+k)%PAGE_SIZE = k%PAGE_SIZE := by
  rw [PAGE_SIZE] at hal ⊢
  omega

theorem seg_mem_cells {ph : Phdr} (hal : ph.p_vaddr%PAGE_SIZE = 0) {k : ℕ} (hk : k < ph.p_memsz) :
    (ph.p_vaddr+k)/PAGE_SIZE ∈ (segTile img ph).cells := by
  rw [Tile.mem_cells, (seg_page hal k).1]
  simp only [segTile, PAGE_SIZE]
  omega

theorem LinkedImage.imageSpace_seg (h : LinkedImage img ehdr) {ph : Phdr} (hs : Segment img ehdr ph)
    {k : ℕ} (hk : k < ph.p_memsz) : ∃ x, imageSpace img ehdr ((ph.p_vaddr+k)/PAGE_SIZE) = some x ∧
      x.perm = segPerm ph ∧ x.bytes (k%PAGE_SIZE) = segByte img ph k := by
  have hal := h.aligned ph hs
  have hmem : segTile img ph ∈ imageTiles img ehdr := List.mem_map_of_mem (mem_segments.mpr hs)
  have hx := layOut_of_mem (fun _ => none) h.tiles_apart hmem (seg_mem_cells hal hk)
  refine ⟨_, hx, rfl, ?_⟩
  show segByte img ph (_*PAGE_SIZE+k%PAGE_SIZE) = segByte img ph k
  rw [(seg_page hal k).1]
  show segByte img ph ((ph.p_vaddr/PAGE_SIZE+k/PAGE_SIZE-ph.p_vaddr/PAGE_SIZE)*PAGE_SIZE+k%PAGE_SIZE) = _
  rw [Nat.add_sub_cancel_left, Nat.div_add_mod']

/-- The pages of the segments. -/
def imagePages (img : Image) (ehdr : Ehdr) : Finset ℕ := Tiling.cells (imageTiles img ehdr)

theorem mem_imagePages {v : ℕ} :
    v ∈ imagePages img ehdr ↔ ∃ ph, Segment img ehdr ph ∧ v ∈ (segTile img ph).cells := by
  simp only [imagePages, Tiling.mem_cells, imageTiles, List.mem_map, mem_segments,
    exists_exists_and_eq_and]

theorem imageSpace_none {v : ℕ} (hv : v ∉ imagePages img ehdr) : imageSpace img ehdr v = none :=
  layOut_of_not_mem _ hv

end

end RiscvMos
