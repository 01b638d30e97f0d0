import RiscvMos.FsRuns
import RiscvMos.FsContents

/-! The tree of directories and files in the blocks of a disk, read from a directory on, and the
blocks that it takes. -/
namespace RiscvMos.Fsformat
open ByteMem HostWord Function Budget

/-- What stands under a name. -/
inductive Node
  | file (bytes : List UInt8)
  | dir (entries : List (List UInt8 × Node))

section
variable (F : FsH) (s : Tool)

/-- `f->f_name` up to its NUL. -/
def nameOf (f : FilePtr) : List UInt8 :=
  ((List.range F.MAXNAMELEN).map (s.nameByte F f)).takeWhile (fun c => c ≠ 0)

/-- The bytes of a file. -/
def readFile (f : FilePtr) : List UInt8 :=
  (List.range (s.get F f .f_size)).map fun k =>
    s.obj (.block (blockOf F s f (k/F.BLOCK_SIZE))) (k%F.BLOCK_SIZE)

/-- The entries in the blocks of a directory. -/
def entriesOf (p : FilePtr) : List FilePtr :=
  (List.range (s.get F p .f_size/F.BLOCK_SIZE*F.FILE2BLK)).map fun j =>
    F.entry (blockOf F s p (j/F.FILE2BLK)) (j%F.FILE2BLK)

/-- Those with a name. -/
def namedEntries (p : FilePtr) : List FilePtr :=
  (entriesOf F s p).filter fun f => s.nameByte F f 0 ≠ 0

/-- A directory with what is below it. Directories that lie deeper than `depth` are not opened. -/
def readDir : ℕ → FilePtr → List (List UInt8 × Node)
  | 0, _ => []
  | depth+1, p => (namedEntries F s p).map fun f =>
    (nameOf F s f, if s.get F f .f_type = F.FTYPE_DIR then .dir (readDir depth f)
      else .file (readFile F s f))

/-- The blocks of one file or directory, with its index block. -/
def blocksOf (f : FilePtr) : List ℕ :=
  (List.range (dataBlocks F (s.get F f .f_size))).map (blockOf F s f) ++
    if F.NDIRECT < dataBlocks F (s.get F f .f_size) then [s.get F f .f_indirect] else []

/-- The blocks of a directory with those of all that is below it. -/
def dirBlocks : ℕ → FilePtr → List ℕ
  | 0, _ => []
  | depth+1, p => blocksOf F s p ++ (namedEntries F s p).flatMap fun f =>
    if s.get F f .f_type = F.FTYPE_DIR then dirBlocks depth f else blocksOf F s f

/-- What an entry stands for. -/
def readNode (depth : ℕ) (f : FilePtr) : Node :=
  if s.get F f .f_type = F.FTYPE_DIR then .dir (readDir F s depth f) else .file (readFile F s f)

/-- The blocks of an entry with those of all that is below it. -/
def nodeBlocks (depth : ℕ) (f : FilePtr) : List ℕ :=
  if s.get F f .f_type = F.FTYPE_DIR then dirBlocks F s depth f else blocksOf F s f

end

section
variable {F : FsH} {s s' : Tool} {p f : FilePtr} {depth : ℕ}

theorem readDir_succ : readDir F s (depth+1) p =
    (namedEntries F s p).map fun f => (nameOf F s f, readNode F s depth f) := rfl

theorem dirBlocks_succ : dirBlocks F s (depth+1) p =
    blocksOf F s p ++ (namedEntries F s p).flatMap (nodeBlocks F s depth) := rfl

/-! ### What a tree depends on -/

/-- The bytes of `*f` are the same in both states. -/
def SameFile (F : FsH) (s s' : Tool) (f : FilePtr) : Prop :=
  ∀ i, InFile F f f.obj i → s'.obj f.obj i = s.obj f.obj i

/-- Each of the blocks is the same in both states. -/
def SameBlocks (s s' : Tool) (bs : List ℕ) : Prop :=
  ∀ b ∈ bs, s'.obj (.block b) = s.obj (.block b)

theorem SameBlocks.mono {bs bs' : List ℕ} (h : SameBlocks s s' bs') (hsub : bs ⊆ bs') :
    SameBlocks s s' bs := fun b hb => h b (hsub hb)

theorem SameFile.get (h : SameFile F s s' f) (w : FileWord F.NDIRECT) :
    s'.get F f w = s.get F f w := by
  apply loadAs_congr
  intro i hl hu
  exact h i (InWords.inFile ⟨rfl, w, hl, hu⟩)

theorem SameFile.nameByte (h : SameFile F s s' f) {i : ℕ} (hi : i < F.MAXNAMELEN) :
    s'.nameByte F f i = s.nameByte F f i :=
  h _ (InName.inFile ⟨rfl, Nat.le_add_right _ _, Nat.add_lt_add_left hi _⟩)

theorem nameOf_congr (h : SameFile F s s' f) :
    nameOf F s' f = nameOf F s f := by
  unfold nameOf
  congr 1
  apply List.map_congr_left
  intro i hi
  exact h.nameByte (List.mem_range.mp hi)

/-- The index block is among the blocks of the file as soon as a link stands in it. -/
theorem indirect_mem_blocksOf (h : F.NDIRECT < dataBlocks F (s.get F f .f_size)) :
    s.get F f .f_indirect ∈ blocksOf F s f := by
  rw [blocksOf, if_pos h]
  exact List.mem_append_right _ (List.mem_singleton_self _)

theorem blockOf_mem_blocksOf {i : ℕ} (hi : i < dataBlocks F (s.get F f .f_size)) :
    blockOf F s f i ∈ blocksOf F s f :=
  List.mem_append_left _ (List.mem_map_of_mem (List.mem_range.mpr hi))

theorem blockOf_congr (h : SameFile F s s' f) (hbs : SameBlocks s s' (blocksOf F s f)) {i : ℕ}
    (hi : i < dataBlocks F (s.get F f .f_size)) :
    blockOf F s' f i = blockOf F s f i := by
  rw [blockOf, blockOf]
  split_ifs with hdir
  · exact h.get _
  · have hind := hbs _ (indirect_mem_blocksOf (by omega))
    rw [h.get, Tool.getIndex, Tool.getIndex]
    exact congrArg (fun m => loadAs F.host m (4*i) 4) hind

theorem blocksOf_congr (h : SameFile F s s' f) (hbs : SameBlocks s s' (blocksOf F s f)) :
    blocksOf F s' f = blocksOf F s f := by
  unfold blocksOf
  rw [h.get, h.get]
  congr 1
  apply List.map_congr_left
  intro i hi
  exact blockOf_congr h hbs (List.mem_range.mp hi)

theorem div_lt_dataBlocks {k n : ℕ} (hk : k < n) : k/F.BLOCK_SIZE < dataBlocks F n := by
  have hpos := F.blockSize_pos
  have hle : k/F.BLOCK_SIZE+1 = (k+F.BLOCK_SIZE)/F.BLOCK_SIZE := (Nat.add_div_right _ hpos).symm
  have hmono : (k+F.BLOCK_SIZE)/F.BLOCK_SIZE ≤ dataBlocks F n := Nat.div_le_div_right (by omega)
  omega

theorem readFile_congr (h : SameFile F s s' f) (hbs : SameBlocks s s' (blocksOf F s f)) :
    readFile F s' f = readFile F s f := by
  unfold readFile
  rw [h.get]
  apply List.map_congr_left
  intro k hk
  have hi := div_lt_dataBlocks (F := F) (List.mem_range.mp hk)
  rw [blockOf_congr h hbs hi, hbs _ (blockOf_mem_blocksOf hi)]

theorem div_blockSize_le (F : FsH) (n : ℕ) : n/F.BLOCK_SIZE ≤ dataBlocks F n := by
  have hpos := F.blockSize_pos
  exact Nat.div_le_div_right (by omega)

theorem mem_entriesOf (hf : f ∈ entriesOf F s p) :
    ∃ b ∈ blocksOf F s p, f.obj = .block b := by
  obtain ⟨j, hj, rfl⟩ := List.mem_map.mp hf
  have hlt : j/F.FILE2BLK < s.get F p .f_size/F.BLOCK_SIZE := by
    apply Nat.div_lt_of_lt_mul
    rw [mul_comm]
    exact List.mem_range.mp hj
  exact ⟨_, blockOf_mem_blocksOf (hlt.trans_le (div_blockSize_le F _)), rfl⟩

theorem sameFile_entry (hbs : SameBlocks s s' (blocksOf F s p)) (hf : f ∈ entriesOf F s p) :
    SameFile F s s' f := by
  obtain ⟨b, hb, ho⟩ := mem_entriesOf hf
  intro i _
  rw [ho, hbs b hb]

theorem entriesOf_congr (h : SameFile F s s' p) (hbs : SameBlocks s s' (blocksOf F s p)) :
    entriesOf F s' p = entriesOf F s p := by
  unfold entriesOf
  rw [h.get]
  apply List.map_congr_left
  intro j hj
  have hlt : j/F.FILE2BLK < s.get F p .f_size/F.BLOCK_SIZE := by
    apply Nat.div_lt_of_lt_mul
    rw [mul_comm]
    exact List.mem_range.mp hj
  rw [blockOf_congr h hbs (hlt.trans_le (div_blockSize_le F _))]

theorem namedEntries_congr (h : SameFile F s s' p) (hbs : SameBlocks s s' (blocksOf F s p)) :
    namedEntries F s' p = namedEntries F s p := by
  unfold namedEntries
  rw [entriesOf_congr h hbs]
  apply List.filter_congr
  intro f hf
  rw [(sameFile_entry hbs hf).nameByte (Nat.zero_lt_of_lt F.name_gt)]

theorem readDir_congr (h : SameFile F s s' p) (hbs : SameBlocks s s' (dirBlocks F s depth p)) :
    readDir F s' depth p = readDir F s depth p ∧
      dirBlocks F s' depth p = dirBlocks F s depth p := by
  -- The induction goes down the directories; an entry of one lies in a block of it.
  induction depth generalizing p with
  | zero => exact ⟨rfl, rfl⟩
  | succ depth ih =>
    rw [dirBlocks_succ] at hbs
    have hown := hbs.mono (List.subset_append_left _ _)
    have hnamed := namedEntries_congr h hown
    have hnode : ∀ f ∈ namedEntries F s p, nameOf F s' f = nameOf F s f ∧
        readNode F s' depth f = readNode F s depth f ∧
        nodeBlocks F s' depth f = nodeBlocks F s depth f := by
      intro f hf
      have hsame := sameFile_entry hown (List.mem_of_mem_filter hf)
      have hsub : SameBlocks s s' (nodeBlocks F s depth f) := by
        apply hbs.mono
        intro b hb
        exact List.mem_append_right _ (List.mem_flatMap.mpr ⟨f, hf, hb⟩)
      refine ⟨nameOf_congr hsame, ?_⟩
      unfold readNode nodeBlocks at *
      rw [hsame.get]
      split_ifs at hsub ⊢ with htype
      · obtain ⟨hread, hblocks⟩ := ih hsame hsub
        exact ⟨congrArg Node.dir hread, hblocks⟩
      · exact ⟨congrArg Node.file (readFile_congr hsame hsub), blocksOf_congr hsame hsub⟩
    constructor
    · rw [readDir_succ, readDir_succ, hnamed]
      apply List.map_congr_left
      intro f hf
      rw [(hnode f hf).1, (hnode f hf).2.1]
    · rw [dirBlocks_succ, dirBlocks_succ, hnamed, blocksOf_congr h hown]
      congr 1
      apply List.flatMap_congr
      intro f hf
      exact (hnode f hf).2.2

theorem readNode_congr (h : SameFile F s s' f) (hbs : SameBlocks s s' (nodeBlocks F s depth f)) :
    readNode F s' depth f = readNode F s depth f ∧
      nodeBlocks F s' depth f = nodeBlocks F s depth f := by
  unfold readNode nodeBlocks at *
  rw [h.get]
  split_ifs at hbs ⊢ with htype
  · obtain ⟨hread, hblocks⟩ := readDir_congr h hbs
    exact ⟨congrArg Node.dir hread, hblocks⟩
  · exact ⟨congrArg Node.file (readFile_congr h hbs), blocksOf_congr h hbs⟩

end

end RiscvMos.Fsformat
