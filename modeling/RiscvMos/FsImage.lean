import RiscvMos.FsEndian
import RiscvMos.FsTreeSteps

/-! The image that fsformat writes reads back as the files and directories of its command line. -/
namespace RiscvMos.Fsformat
open ByteMem HostWord Function Budget

section
variable {F : FsH} {s₀ s s₁ s₂ s' : Tool} {p t f : FilePtr} {low m depth : ℕ} {bs bs' : List ℕ}
  {path : List UInt8} {file : HostFile F} {es : List (List UInt8 × Node)}

/-- The types of entries fit into their field and are two values there. -/
structure FsH.Types (F : FsH) : Prop where
  dir_lt : F.FTYPE_DIR < 2^32
  ne : F.FTYPE_REG%2^32 ≠ F.FTYPE_DIR

/-! ### Names -/

theorem nameOf_eq {name : List UInt8} (h : ∀ i < F.MAXNAMELEN, s.nameByte F f i = name.getD i 0)
    (hlen : name.length < F.MAXNAMELEN) (hnul : 0 ∉ name) : nameOf F s f = name := by
  obtain ⟨k, hk⟩ := Nat.exists_eq_add_of_lt hlen
  have hmap : (List.range F.MAXNAMELEN).map (s.nameByte F f) = name ++ List.replicate (k+1) 0 := by
    apply List.ext_getElem
    · simp [hk, Nat.add_assoc]
    · intro i hi hi'
      rw [List.length_map, List.length_range] at hi
      rw [List.getElem_map, List.getElem_range, h i hi]
      by_cases hin : i < name.length
      · rw [List.getD_eq_getElem _ _ hin, List.getElem_append_left hin]
      · rw [List.getD_eq_default _ _ (not_lt.mp hin), List.getElem_append_right (not_lt.mp hin),
          List.getElem_replicate]
  have hne : ∀ c ∈ name, decide (c ≠ 0) = true := by
    intro c hc
    rw [decide_eq_true_eq]
    intro h0
    exact hnul (h0 ▸ hc)
  rw [nameOf, hmap, List.takeWhile_append_of_pos hne, List.replicate_succ,
    List.takeWhile_cons_of_neg (by simp), List.append_nil]

theorem no_nul_fname (h : 0 ∉ path) : 0 ∉ fname path := fun hc => h (fname_subset path hc)

/-- The name of a directory is cut by `strncpy`. -/
def dirName (F : FsH) (path : List UInt8) : List UInt8 := (basename path).take (F.MAXNAMELEN-1)

theorem no_nul_dirName (h : 0 ∉ path) : 0 ∉ dirName F path :=
  fun hc => basename_no_nul h (List.mem_of_mem_take hc)

theorem dirName_length_lt (F : FsH) (path : List UInt8) :
    (dirName F path).length < F.MAXNAMELEN := by
  have hgt := F.name_gt
  rw [dirName, List.length_take]
  omega

theorem getD_dirName (F : FsH) (path : List UInt8) (i : ℕ) :
    (dirName F path).getD i 0 = if i < F.MAXNAMELEN-1 then (basename path).getD i 0 else 0 := by
  rw [dirName, List.getD_eq_getElem?_getD, List.getD_eq_getElem?_getD]
  split_ifs with hi
  · rw [List.getElem?_take_of_lt hi]
  · rw [List.getElem?_take_eq_none (not_lt.mp hi)]
    rfl

/-! ### Files -/

/-- The bytes that the calls of `read` return. -/
def HostFile.bytes (file : HostFile F) : List UInt8 := file.reads.flatten

/-- Each `read` but the last fills a block, and `lseek` has returned the size of the file. -/
def HostFile.Full (file : HostFile F) : Prop := file = HostFile.ofBytes F file.bytes

theorem fillFile_ok (hok : fillFile F s t path file = .ok s') :
    (fname path).length < F.MAXNAMELEN ∧
      readLoop F (titleFile F s t path file.size) t 0 file.reads = .ok s' := by
  rw [fillFile, nameFile] at hok
  split_ifs at hok with hlen
  · exact ⟨hlen, hok⟩
  · cases hok

theorem FsH.blockSize_lt (F : FsH) : F.BLOCK_SIZE < 2^20 := by
  have hlt := F.size_lt
  by_contra hge
  have hmul : 2^20/4*2^20 ≤ F.BLOCK_SIZE/4*F.BLOCK_SIZE :=
    Nat.mul_le_mul (Nat.div_le_div_right (not_lt.mp hge)) (not_lt.mp hge)
  omega

theorem Links.length_le {type : BlockType} (hl : Links F low s t type bs) :
    bs.length ≤ NBLOCK := by
  have hsub : bs ⊆ List.range NBLOCK := by
    intro b hb
    exact List.mem_range.mpr ((hl.mem b hb).2.1.trans_le hl.next_le)
  simpa using (hl.nodup.subperm hsub).length_le

theorem HostFile.Full.length (hfull : file.Full) :
    file.reads.length = dataBlocks F file.bytes.length := by
  conv_lhs => rw [hfull]
  exact length_fullReads F.blockSize_pos _

theorem le_dataBlocks (F : FsH) (n : ℕ) : n ≤ dataBlocks F n*F.BLOCK_SIZE := by
  have hdm := Nat.div_add_mod' (n+F.BLOCK_SIZE-1) F.BLOCK_SIZE
  have hmod := Nat.mod_lt (n+F.BLOCK_SIZE-1) F.blockSize_pos
  rw [dataBlocks]
  omega

theorem Filled.f_size_eq {cs : List ℕ} (h : Filled F s s' t path file cs) (hfull : file.Full) :
    s'.get F t .f_size = file.bytes.length := by
  have hsize : file.size = file.bytes.length := by
    conv_lhs => rw [hfull]
    rfl
  have hcs : dataBlocks F file.bytes.length ≤ NBLOCK := by
    rw [← hfull.length, ← h.length]
    exact h.links.length_le
  have hlt : file.bytes.length < 2^32 := by
    calc file.bytes.length ≤ dataBlocks F file.bytes.length*F.BLOCK_SIZE := le_dataBlocks F _
      _ ≤ NBLOCK*2^20 := Nat.mul_le_mul hcs F.blockSize_lt.le
      _ < 2^32 := by decide
  rw [h.f_size, hsize, Nat.mod_eq_of_lt hlt]

theorem readLoop_blocks {reads : List (List UInt8)} (hl : Links F low s t .BLOCK_DATA bs)
    (hz : FreeZero s) (hok : readLoop F s t bs.length reads = .ok s') :
    ∃ cs, cs.length = bs.length+reads.length ∧ Links F low s' t .BLOCK_DATA cs ∧
      s.nextbno ≤ s'.nextbno ∧ (ownBlocks F s' t cs).Perm
        (ownBlocks F s t bs ++ List.range' s.nextbno (s'.nextbno-s.nextbno)) := by
  induction reads generalizing s bs with
  | nil =>
    obtain ⟨_, _, hs⟩ := ((index_follows s.nextbno).bind_ok
      (f := fun _ => Except.ok s) (R := fun _ r => r = s) fun _ _ _ => ⟨s, rfl, rfl⟩).of_ok hok
    subst hs
    refine ⟨bs, rfl, hl, le_rfl, ?_⟩
    rw [Nat.sub_self, List.range'_zero, List.append_nil]
  | cons r reads ih =>
    generalize hs₁ : s.setObj (.block s.nextbno)
      (blit (s.disk s.nextbno).data 0 r.length (fun i => r.getD i 0)) = s₁
    have hnext : s₁.nextbno = s.nextbno := by rw [← hs₁, nextbno_setObj]
    have hl₁ : Links F low s₁ t .BLOCK_DATA bs := hs₁ ▸ hl.setNext _
    have hown : ownBlocks F s₁ t bs = ownBlocks F s t bs := by
      unfold ownBlocks Tool.get
      rw [← hs₁, obj_setObj_ne (hl.below.ne_block le_rfl)]
    rw [readLoop_cons, hs₁, nextBlock_eq] at hok
    split_ifs at hok with hroom
    · change (saveBlockLink F (s₁.claim .BLOCK_DATA) t bs.length s₁.nextbno >>= fun s =>
        readLoop F s t (bs.length+1) reads) = _ at hok
      cases hsave : saveBlockLink F (s₁.claim .BLOCK_DATA) t bs.length s₁.nextbno with
      | error e =>
        rw [hsave] at hok
        cases hok
      | ok s₂ =>
        rw [hsave] at hok
        obtain ⟨_, _, _, hlinked⟩ := (hl₁.save hroom).of_ok hsave
        have hblock := hl.readBlock hz hs₁.symm hlinked
        have hlen : (bs ++ [s.nextbno]).length = bs.length+1 := by simp
        have hle := hblock.changes.next_le
        have hsave' := hl₁.save_perm hroom hsave
        rw [hnext, hown] at hsave'
        change readLoop F s₂ t (bs.length+1) reads = _ at hok
        rw [← hlen] at hok
        obtain ⟨cs, hcs, hl', hle', hperm⟩ := ih hblock.links (hz.changes hblock.changes) hok
        refine ⟨cs, ?_, hl', hle.trans hle', ?_⟩
        · rw [hcs, hlen, List.length_cons]
          omega
        · calc List.Perm (ownBlocks F s' t cs) (ownBlocks F s₂ t (bs ++ [s.nextbno]) ++
                List.range' s₂.nextbno (s'.nextbno-s₂.nextbno)) := hperm
            List.Perm _ (ownBlocks F s t bs ++ List.range' s.nextbno (s₂.nextbno-s.nextbno) ++
                List.range' s₂.nextbno (s'.nextbno-s₂.nextbno)) := hsave'.append_right _
            _ = ownBlocks F s t bs ++ List.range' s.nextbno (s'.nextbno-s.nextbno) := by
                rw [List.append_assoc, range'_trans hle hle']
    · cases hok

/-- A fresh entry behind `write_file`. -/
structure FileEntry (F : FsH) (depth : ℕ) (s s' : Tool) (t : FilePtr) (name bytes : List UInt8) :
    Prop where
  name : nameOf F s' t = name
  node : readNode F s' depth t = .file bytes
  blocks : (nodeBlocks F s' depth t).Perm (List.range' s.nextbno (s'.nextbno-s.nextbno))
  changes : Changes s s' (InFile F t)
  next_le : s'.nextbno ≤ NBLOCK

theorem Filled.readFile {cs : List ℕ} (h : Filled F s s' t path file cs) (hfull : file.Full) :
    Fsformat.readFile F s' t = file.bytes := by
  have hpos := F.blockSize_pos
  have hsize := h.f_size_eq hfull
  have hcs : cs.length = dataBlocks F file.bytes.length := h.length.trans hfull.length
  apply List.ext_getElem
  · simp [Fsformat.readFile, hsize]
  · intro k _ hk
    have hi : k/F.BLOCK_SIZE < cs.length := hcs ▸ div_lt_dataBlocks hk
    have hdata := h.data _ hi
    rw [hfull] at hdata
    simp only [Fsformat.readFile, List.getElem_map, List.getElem_range]
    rw [h.links.link _ hi, hdata]
    show blockData ((fullReads F.BLOCK_SIZE file.bytes).getD _ []) _ = _
    rw [blockData_fullReads hpos _ _ (Nat.mod_lt _ hpos), Nat.div_add_mod',
      List.getD_eq_getElem _ _ hk]

theorem FreshEntry.titleLinks (h : FreshEntry F s t) (hlen : (fname path).length < F.MAXNAMELEN)
    (size : ℕ) : Links F s.nextbno (titleFile F s t path size) t .BLOCK_DATA [] := by
  have hnext : (titleFile F s t path size).nextbno = s.nextbno := nextbno_titleFile _
  have hnil : Links F _ (titleFile F s t path size) t .BLOCK_DATA [] :=
    Links.nil (hnext ▸ h.next_pos) (hnext ▸ h.next_le) (hnext ▸ h.older)
      (h.title_indirect size hlen) (by decide)
  rwa [hnext] at hnil

theorem FreshEntry.fileEntry (h : FreshEntry F s t) (hF : F.Types) (hnul : 0 ∉ path)
    (hfull : file.Full) (hok : fillFile F s t path file = .ok s') :
    FileEntry F depth s s' t (fname path) file.bytes := by
  obtain ⟨hlen, hloop⟩ := fillFile_ok hok
  obtain ⟨_, _, _, cs, hfilled⟩ := (fillFile_follows h path file).of_ok hok
  have hl := h.titleLinks hlen file.size
  have hz := h.zero.changes (h.title_changes file.size hlen)
  obtain ⟨_, _, _, _, hread⟩ := (readLoop_follows hl hz file.reads).of_ok hloop
  have htype : s'.get F t .f_type ≠ F.FTYPE_DIR := by
    rw [hread.other .f_type (by nofun) (by nofun), titleFile, get_set_mod]
    exact hF.ne
  constructor
  · exact nameOf_eq hfilled.name hlen (no_nul_fname hnul)
  · rw [readNode, if_neg htype, hfilled.readFile hfull]
  · obtain ⟨cs', hcs', hl', _, hperm⟩ := readLoop_blocks hl hz hloop
    have hown : blocksOf F s' t = ownBlocks F s' t cs' := by
      apply hl'.blocksOf
      rw [hfilled.f_size_eq hfull, ← hfull.length, hcs', List.length_nil, Nat.zero_add]
    rw [nodeBlocks, if_neg htype, hown]
    rwa [ownBlocks_nil, List.nil_append, nextbno_titleFile] at hperm
  · exact hfilled.changes
  · exact hfilled.links.next_le

/-! ### Directories -/

theorem DirTree.writeFile (h : DirTree F depth s₀ s p m bs es) (hF : F.Types) (hnul : 0 ∉ path)
    (hpath : fname path ≠ []) (hfull : file.Full) (hok : writeFile F s p path file = .ok s') :
    ∃ bs', DirTree F depth s₀ s' p (m+1) bs' (es ++ [(fname path, .file file.bytes)]) := by
  rw [Fsformat.writeFile] at hok
  cases hcreate : createFile F s p with
  | error e =>
    rw [hcreate] at hok
    cases hok
  | ok r =>
    obtain ⟨t, s₁⟩ := r
    rw [hcreate] at hok
    change fillFile F s₁ t path file = _ at hok
    obtain ⟨bs', hc⟩ := h.slots.entered h.tight hcreate
    have hentry : FileEntry F depth s₁ s' t _ _ := hc.fresh.fileEntry hF hnul hfull hok
    have hfirst : s'.nameByte F t 0 ≠ 0 := by
      obtain ⟨_, _, _, cs, hfilled⟩ := (fillFile_follows hc.fresh path file).of_ok hok
      rw [hfilled.name 0 (Nat.zero_lt_of_lt F.name_gt)]
      exact head_ne hpath (no_nul_fname hnul)
    have hfill := h.fill hc hentry.changes hentry.next_le hfirst hentry.blocks
    rw [hentry.name, hentry.node] at hfill
    exact ⟨bs', hfill⟩

/-- The entry of a directory that is entered, before its loop. -/
structure DirEntry (F : FsH) (s s' : Tool) (t : FilePtr) (name : List UInt8) : Prop where
  empty : EmptyDir F s' t
  changes : Changes s s' (InFile F t)
  nextbno : s'.nextbno = s.nextbno
  name : ∀ i < F.MAXNAMELEN, s'.nameByte F t i = name.getD i 0
  type : s'.get F t .f_type = F.FTYPE_DIR

theorem FreshEntry.dirEntry (h : FreshEntry F s t) (hF : F.Types) (path : List UInt8) :
    DirEntry F s ((s.copyName F t (F.MAXNAMELEN-1) (basename path)).set F t .f_type F.FTYPE_DIR) t
      (dirName F path) := by
  set s₂ := s.copyName F t (F.MAXNAMELEN-1) (basename path) with hs₂
  have hcopy : Changes s s₂ (InFile F t) :=
    (copyName_changes h.older (Nat.sub_le _ _) _).mono fun _ _ _ => InName.inFile
  have hold : t.obj.Below s₂.nextbno := by
    rw [hs₂, nextbno_copyName]
    exact h.older
  have hch : Changes s (s₂.set F t .f_type F.FTYPE_DIR) (InFile F t) :=
    hcopy.trans (set_changes hold _ _) fun _ _ _ => InWords.inFile
  have hnext : (s₂.set F t .f_type F.FTYPE_DIR).nextbno = s.nextbno := by
    rw [nextbno_set, hs₂, nextbno_copyName]
  have hget : ∀ w, w ≠ .f_type → (s₂.set F t .f_type F.FTYPE_DIR).get F t w = 0 := by
    intro w hw
    rw [get_set_ne hw, hs₂, get_copyName _ (Nat.sub_le _ _), h.get]
  constructor
  · exact ⟨hnext ▸ h.next_pos, hnext ▸ h.next_le, hnext ▸ h.older, hget _ nofun, hget _ nofun,
      h.zero.changes hch⟩
  · exact hch
  · exact hnext
  · intro i hi
    rw [nameByte_set _ _ hi, hs₂, nameByte_copyName, getD_dirName, h.empty.nameByte hi]
  · exact get_set_same _ hF.dir_lt

theorem EmptyDir.dirTree (h : EmptyDir F s p) (htype : s.get F p .f_type = F.FTYPE_DIR)
    (depth : ℕ) : DirTree F depth s s p 0 [] [] where
  toDir := h.dir
  type := htype
  reads := by rw [h.slots.readDir, List.range_zero, List.map_nil]
  blocks := by
    rw [h.slots.dirBlocks, h.slots.blocksOf, ownBlocks_nil, List.range_zero, List.flatMap_nil,
      Nat.sub_self]
    exact List.Perm.refl _

theorem DirTree.tree (h : DirTree F (depth+1) s₀ s p m bs es) (hF : F.Types) (hnul : 0 ∉ path)
    {es' : List (List UInt8 × Node)} {run : FilePtr × Tool → Run Tool}
    (hok : (enterDirectory F s p path >>= run) = .ok s')
    (hrun : ∀ t s₂, DirTree F depth s₂ s₂ t 0 [] [] → run (t, s₂) = .ok s' →
      ∃ m' bs', DirTree F depth s₂ s' t m' bs' es') :
    ∃ bs', DirTree F (depth+1) s₀ s' p (m+1) bs' (es ++ [(dirName F path, .dir es')]) := by
  rw [enterDirectory] at hok
  cases hcreate : createFile F s p with
  | error e =>
    rw [hcreate] at hok
    cases hok
  | ok r =>
    obtain ⟨t, s₁⟩ := r
    rw [hcreate] at hok
    obtain ⟨bs', hc⟩ := h.slots.entered h.tight hcreate
    change ((nameDirectory F s₁ t path >>= fun s =>
      Except.ok (t, s.set F t .f_type F.FTYPE_DIR)) >>=
      run) = _ at hok
    rw [hc.fresh.empty.nameDirectory] at hok
    change run (t, _) = _ at hok
    have hentry := hc.fresh.dirEntry hF path
    generalize (s₁.copyName F t (F.MAXNAMELEN-1) (basename path)).set F t .f_type F.FTYPE_DIR = s₂
      at hok hentry
    obtain ⟨m', bs'', hchild⟩ := hrun t s₂ (hentry.empty.dirTree hentry.type depth) hok
    -- The loop writes words of the entry, so that its name stays.
    have hname : ∀ i < F.MAXNAMELEN, s'.nameByte F t i = (dirName F path).getD i 0 := by
      intro i hi
      rw [hchild.changes.nameByte hentry.empty.older, hentry.name i hi]
      exact fun hin => hin.not_inName ⟨rfl, Nat.le_add_right _ _, Nat.add_lt_add_left hi _⟩
    have hch : Changes s₁ s' (InFile F t) :=
      hentry.changes.trans hchild.changes fun _ _ _ => InWords.inFile
    have hfirst : s'.nameByte F t 0 ≠ 0 := by
      have hgt := F.name_gt
      rw [hname 0 (by omega), getD_dirName, if_pos (by omega)]
      exact head_ne (basename_ne_nil path) (basename_no_nul hnul)
    have hblocks : (nodeBlocks F s' (depth+1) t).Perm
        (List.range' s₁.nextbno (s'.nextbno-s₁.nextbno)) := by
      rw [nodeBlocks, if_pos hchild.type, ← hentry.nextbno]
      exact hchild.blocks
    have hfill := h.fill hc hch hchild.slots.links.next_le hfirst hblocks
    rw [nameOf_eq hname (dirName_length_lt F path) (no_nul_dirName hnul), readNode,
      if_pos hchild.type, hchild.reads] at hfill
    exact ⟨bs', hfill⟩

/-! ### Listings -/

/-- All files of a listing are read block by block. -/
def Listing.Full : Listing F → Prop
  | .done => True
  | .file _ content rest => content.Full ∧ rest.Full
  | .dir _ content rest => content.Full ∧ rest.Full
  | .noDir _ rest => rest.Full
  | .dots rest => rest.Full

/-- The levels of directories in a listing. -/
def Listing.levels : Listing F → ℕ
  | .done => 0
  | .file _ _ rest => rest.levels
  | .dir _ content rest => max (content.levels+1) rest.levels
  | .noDir _ rest => rest.levels
  | .dots rest => rest.levels

/-- The entries that a listing stands for. -/
def Listing.entries : Listing F → List (List UInt8 × Node)
  | .done => []
  | .file d_name content rest => (d_name.bytes, .file content.bytes) :: rest.entries
  | .dir d_name content rest =>
    (d_name.bytes.take (F.MAXNAMELEN-1), .dir content.entries) :: rest.entries
  | .noDir _ rest => rest.entries
  | .dots rest => rest.entries

theorem dirName_name (path : List UInt8) (d_name : Name) :
    dirName F (path ++ slash :: d_name.bytes) = d_name.bytes.take (F.MAXNAMELEN-1) := by
  have hname := fname_name path d_name
  rw [dirName, basename_of_file, hname]
  rw [hname]
  exact d_name.ne_nil

theorem DirTree.writeListing (hF : F.Types) (l : Listing F) (hfull : l.Full)
    (hdepth : l.levels ≤ depth) (hnul : 0 ∉ path) (h : DirTree F depth s₀ s p m bs es)
    (hok : writeListing s p path l = .ok s') :
    ∃ m' bs', DirTree F depth s₀ s' p m' bs' (es ++ l.entries) := by
  -- The run below a directory starts with its empty entry, one level deeper.
  induction l generalizing depth s₀ s p m bs es path s' with
  | done =>
    injection hok with hok
    subst hok
    exact ⟨m, bs, by rwa [Listing.entries, List.append_nil]⟩
  | file d_name content rest ih =>
    rw [Fsformat.writeListing] at hok
    have hbuf := no_nul_append hnul d_name
    have hname : fname (path ++ slash :: d_name.bytes) ≠ [] := by
      rw [fname_name]
      exact d_name.ne_nil
    cases hfile : Fsformat.writeFile F s p (path ++ slash :: d_name.bytes) content with
    | error e =>
      rw [hfile] at hok
      cases hok
    | ok s₁ =>
      rw [hfile] at hok
      obtain ⟨bs', hdir⟩ := h.writeFile hF hbuf hname hfull.1 hfile
      obtain ⟨m', bs'', hrest⟩ := ih hfull.2 hdepth hnul hdir hok
      refine ⟨m', bs'', ?_⟩
      rwa [fname_name, List.append_assoc] at hrest
  | dir d_name content rest ihc ihr =>
    rw [Fsformat.writeListing, ← bind_assoc] at hok
    have hbuf := no_nul_append hnul d_name
    obtain ⟨hcontent, hrest⟩ := max_le_iff.mp hdepth
    obtain ⟨below, rfl⟩ : ∃ below, depth = below+1 := ⟨depth-1, by omega⟩
    cases htree : (enterDirectory F s p (path ++ slash :: d_name.bytes) >>= fun r =>
        Fsformat.writeListing r.2 r.1 (basenamePath (path ++ slash :: d_name.bytes)) content) with
    | error e =>
      rw [htree] at hok
      cases hok
    | ok s₁ =>
      rw [htree] at hok
      obtain ⟨bs', hdir⟩ := h.tree hF hbuf htree fun t s₂ hempty hrun =>
        ihc hfull.1 (Nat.le_of_succ_le_succ hcontent) (no_nul_basenamePath hbuf) hempty hrun
      obtain ⟨m', bs'', hlast⟩ := ihr hfull.2 hrest hnul hdir hok
      refine ⟨m', bs'', ?_⟩
      rwa [dirName_name, List.nil_append, List.append_assoc] at hlast
  | noDir _ rest ih => exact ih hfull hdepth hnul h hok
  | dots rest ih => exact ih hfull hdepth hnul h hok

/-! ### The command line -/

def CmdArg.Full : CmdArg F → Prop
  | .file _ _ content => content.Full
  | .dir _ (some content) => content.Full
  | _ => True

/-- The levels of directories below the root. -/
def argLevels : List (CmdArg F) → ℕ
  | [] => 0
  | .dir _ (some content) :: args => max (content.levels+1) (argLevels args)
  | _ :: args => argLevels args

/-- The entries of the root. -/
def argsEntries : List (CmdArg F) → List (List UInt8 × Node)
  | [] => []
  | .file path _ content :: args => (fname path.bytes, .file content.bytes) :: argsEntries args
  | .dir path (some content) :: args =>
    (dirName F path.bytes, .dir content.entries) :: argsEntries args
  | _ :: args => argsEntries args

theorem DirTree.argLoop (hF : F.Types) (args : List (CmdArg F)) (hfull : ∀ arg ∈ args, arg.Full)
    (hdepth : argLevels args ≤ depth) (h : DirTree F depth s₀ s F.root m bs es)
    (hok : argLoop F s args = .ok s') :
    ∃ m' bs', DirTree F depth s₀ s' F.root m' bs' (es ++ argsEntries args) := by
  induction args generalizing s m bs es with
  | nil =>
    injection hok with hok
    subst hok
    exact ⟨m, bs, by rwa [argsEntries, List.append_nil]⟩
  | cons arg args ih =>
    have hrest : ∀ arg ∈ args, arg.Full := fun arg ha => hfull arg (List.mem_cons_of_mem _ ha)
    have hhead := hfull arg List.mem_cons_self
    cases arg with
    | noStat => cases hok
    | other => cases hok
    | file path named content =>
      rw [Fsformat.argLoop] at hok
      cases hfile : Fsformat.writeFile F s F.root path.bytes content with
      | error e =>
        rw [hfile] at hok
        cases hok
      | ok s₁ =>
        rw [hfile] at hok
        obtain ⟨bs', hdir⟩ := h.writeFile hF path.no_nul named hhead hfile
        obtain ⟨m', bs'', hlast⟩ := ih hrest hdepth hdir hok
        refine ⟨m', bs'', ?_⟩
        rwa [List.append_assoc] at hlast
    | dir path content =>
      cases content with
      | none => exact ih hrest hdepth h hok
      | some content =>
        rw [Fsformat.argLoop, writeDirectory] at hok
        obtain ⟨hcontent, hdeep⟩ := max_le_iff.mp hdepth
        obtain ⟨below, rfl⟩ : ∃ below, depth = below+1 := ⟨depth-1, by omega⟩
        cases htree : (enterDirectory F s F.root path.bytes >>= fun r =>
            Fsformat.writeListing r.2 r.1 (basenamePath path.bytes) content) with
        | error e =>
          change ((enterDirectory F s F.root path.bytes >>= fun r => _) >>= _) = _ at hok
          rw [htree] at hok
          cases hok
        | ok s₁ =>
          change ((enterDirectory F s F.root path.bytes >>= fun r => _) >>= _) = _ at hok
          rw [htree] at hok
          obtain ⟨bs', hdir⟩ := h.tree hF path.no_nul htree fun t s₂ hempty hrun =>
            hempty.writeListing hF content hhead (Nat.le_of_succ_le_succ hcontent)
              (no_nul_basenamePath path.no_nul) hrun
          obtain ⟨m', bs'', hlast⟩ := ih hrest hdeep hdir hok
          refine ⟨m', bs'', ?_⟩
          rwa [List.nil_append, List.append_assoc] at hlast

/-! ### The bitmap and the super block -/

theorem bitmap_block_lt {i : ℕ} (hi : i < NBLOCK) : 2+i/F.BLOCK_SIZE_BIT < firstBlock F := by
  have hbit := F.le_blockSizeBit
  have hle : i/F.BLOCK_SIZE_BIT+1 ≤ (NBLOCK+F.BLOCK_SIZE_BIT-1)/F.BLOCK_SIZE_BIT := by
    rw [← Nat.add_div_right _ (by omega)]
    exact Nat.div_le_div_right (by omega)
  rw [firstBlock]
  omega

theorem flushBitmap_frame {n : ℕ} (hn : n ≤ NBLOCK) (hok : flushBitmap F s n = .ok s') :
    s'.nextbno = s.nextbno ∧
      ∀ o, (∀ b, 2 ≤ b → b < firstBlock F → o ≠ .block b) → s'.obj o = s.obj o := by
  induction n generalizing s' with
  | zero =>
    injection hok with hok
    subst hok
    exact ⟨rfl, fun _ _ => rfl⟩
  | succ n ih =>
    have hlt := bitmap_block_lt (F := F) hn
    rw [flushBitmap] at hok
    cases hprev : flushBitmap F s n with
    | error e =>
      rw [hprev] at hok
      cases hok
    | ok s₁ =>
      rw [hprev] at hok
      change (index (2+n/F.BLOCK_SIZE_BIT) >>= fun _ => _) = _ at hok
      rw [index_bind (bitmap_lt hn), Except.ok.injEq] at hok
      obtain ⟨hnext, hobj⟩ := ih (Nat.le_of_succ_le hn) hprev
      constructor
      · rw [← hok, nextbno_setIndex, hnext]
      · intro o ho
        rw [← hok, Tool.setIndex, obj_setObj_ne (ho _ (Nat.le_add_right _ _) hlt), hobj o ho]

/-- In both byte orders the image holds the bytes that the host has in memory. -/
theorem finishFs_eq (s : Tool) (i : ℕ) :
    finishFs F (configReverseEndian F) s i = ((prepareSuper F s).disk i).data := by
  rw [finishFs, configReverseEndian]
  cases hhost : F.host with
  | little => rfl
  | big => exact reverseBlock_big hhost _

/-- The blocks of an image in memory, with its super block in `super`. -/
def mount (image : ℕ → Mem) : Tool := ⟨fun i => ⟨image i, .BLOCK_FREE⟩, image 1, 0, 0⟩

theorem mount_root (s : Tool) :
    SameFile F s (mount (finishFs F (configReverseEndian F) s)) F.root := by
  rintro i ⟨_, _, hu⟩
  have hroot := F.root_le
  have hbase : F.root.base = F.s_root := rfl
  have hdata : ((prepareSuper F s).disk 1).data = blit (s.disk 1).data 0 F.SUPER_SIZE s.super :=
    obj_setObj_same (o := .block 1)
  show finishFs F (configReverseEndian F) s 1 i = s.super i
  rw [finishFs_eq, hdata, blit, if_pos (by omega), Nat.sub_zero]

theorem mount_block (s : Tool) {b : ℕ} (hb : b ≠ 1) :
    (mount (finishFs F (configReverseEndian F) s)).obj (.block b) = s.obj (.block b) := by
  show finishFs F (configReverseEndian F) s b = _
  rw [finishFs_eq]
  have hne : Obj.block b ≠ .block 1 := by simpa using hb
  exact obj_setObj_ne hne

/-! ### The image -/

theorem initDisk_dirTree (hF : F.Types) (depth : ℕ) :
    DirTree F depth (initDisk F) (initDisk F) F.root 0 [] [] := by
  apply (initDisk_empty F).dirTree
  obtain ⟨s, heq, _⟩ := initDisk_eq F
  rw [heq, get_copyName _ F.name_gt, get_set_same _ hF.dir_lt]

theorem buildDisk_dirTree (hF : F.Types) {args : List (CmdArg F)} (hfull : ∀ arg ∈ args, arg.Full)
    (hdepth : argLevels args ≤ depth) (h : buildDisk F args = .ok s) :
    ∃ s₁ m bs, DirTree F depth (initDisk F) s₁ F.root m bs (argsEntries args) ∧
      flushBitmap F s₁ s₁.nextbno = .ok s := by
  rw [buildDisk] at h
  split_ifs at h with hne
  cases hloop : argLoop F (initDisk F) args with
  | error e =>
    rw [hloop] at h
    cases h
  | ok s₁ =>
    rw [hloop] at h
    obtain ⟨m, bs, htree⟩ := (initDisk_dirTree hF depth).argLoop hF args hfull hdepth hloop
    rw [List.nil_append] at htree
    exact ⟨s₁, m, bs, htree, h⟩

theorem buildDisk_next {args : List (CmdArg F)} (hne : args ≠ []) {n : ℕ}
    (h : exec NBLOCK (.outside .disk) (initDisk F).nextbno (argsPlan F 0 args) = .ok n) :
    ∃ s, buildDisk F args = .ok s ∧ s.nextbno = n := by
  obtain ⟨s₁, hloop, hn, m, bs, hdir⟩ :=
    (argLoop_follows args (initDisk_empty F).dir rfl).of_exec h
  obtain ⟨s, hok, _⟩ := flushBitmap_ok hdir.slots.links.next_le
  refine ⟨s, ?_, (flushBitmap_frame hdir.slots.links.next_le hok).1.trans hn.symm⟩
  rw [buildDisk, if_neg hne, hloop]
  exact hok

/-- What the image holds: the tree, and the blocks that it takes. -/
theorem image_tree (hF : F.Types) {args : List (CmdArg F)} (hfull : ∀ arg ∈ args, arg.Full)
    (h : buildDisk F args = .ok s) (hdepth : argLevels args < depth) :
    readDir F (mount (finishFs F (configReverseEndian F) s)) depth F.root = argsEntries args ∧
      (dirBlocks F (mount (finishFs F (configReverseEndian F) s)) depth F.root).Perm
        (List.range' (firstBlock F) (s.nextbno-firstBlock F)) := by
  obtain ⟨below, rfl⟩ : ∃ below, depth = below+1 := ⟨depth-1, by omega⟩
  obtain ⟨s₁, m, bs, htree, hflush⟩ :=
    buildDisk_dirTree hF hfull (Nat.le_of_lt_succ hdepth) h
  obtain ⟨hnext, hobj⟩ := flushBitmap_frame htree.slots.links.next_le hflush
  have hfirst : (initDisk F).nextbno = firstBlock F := nextbno_initDisk F
  have hmem : ∀ b ∈ dirBlocks F s₁ (below+1) F.root, firstBlock F ≤ b := by
    intro b hb
    have hrange := htree.blocks.subset hb
    rw [List.mem_range'_1, hfirst] at hrange
    exact hrange.1
  -- The tree has no block in front of the bitmap's end, and its root is in the super block.
  have hroot : SameFile F s₁ (mount (finishFs F (configReverseEndian F) s)) F.root := by
    intro i hi
    rw [mount_root s i hi]
    exact congrFun (hobj .super (by nofun)) i
  have hblocks : SameBlocks s₁ (mount (finishFs F (configReverseEndian F) s))
      (dirBlocks F s₁ (below+1) F.root) := by
    intro b hb
    have hlow := hmem b hb
    have h2 : 2 ≤ firstBlock F := Nat.le_add_right 2 _
    rw [mount_block s (by omega)]
    apply hobj
    intro c _ hc he
    injection he with he
    omega
  obtain ⟨hread, hown⟩ := readDir_congr hroot hblocks
  constructor
  · rw [hread, htree.reads]
  · rw [hown, hnext, ← hfirst]
    exact htree.blocks

/-- The image of a run that comes to its end reads back as the directories and files of the
command line, in their order, with names of directories that are cut to the room in an entry. -/
theorem image_reads_back (hF : F.Types) {args : List (CmdArg F)} (hfull : ∀ arg ∈ args, arg.Full)
    (h : buildDisk F args = .ok s) (hdepth : argLevels args < depth) :
    readDir F (mount (finishFs F (configReverseEndian F) s)) depth F.root = argsEntries args :=
  (image_tree hF hfull h hdepth).1

/-- From the root each block between the bitmap and the first free one is reached once, and no
other block is. -/
theorem image_blocks_once (hF : F.Types) {args : List (CmdArg F)} (hfull : ∀ arg ∈ args, arg.Full)
    (h : buildDisk F args = .ok s) (hdepth : argLevels args < depth) (b : ℕ) :
    (dirBlocks F (mount (finishFs F (configReverseEndian F) s)) depth F.root).count b =
      if firstBlock F ≤ b ∧ b < s.nextbno then 1 else 0 := by
  rw [(image_tree hF hfull h hdepth).2.count_eq]
  split_ifs with hb
  · apply List.count_eq_one_of_mem List.nodup_range'
    rw [List.mem_range'_1]
    omega
  · apply List.count_eq_zero_of_not_mem
    rw [List.mem_range'_1]
    omega

end

/-! ### The sample header -/

theorem sample_types (host : HostWord.Endian) : (FsH.sample host).Types := by
  cases host <;> exact ⟨by decide, by decide⟩

theorem threeBytes_full (host : Endian) : (threeBytes host).Full := by
  have hreads : fullReads (FsH.sample host).BLOCK_SIZE [1, 2, 3] = [[1, 2, 3]] := by
    rw [fullReads_cons (FsH.blockSize_pos _) (by decide)]
    exact congrArg (List.cons _) (fullReads_nil _)
  rw [HostFile.Full, threeBytes, HostFile.ofBytes]
  congr 1
  exact hreads.symm

theorem oneDir_full (host : Endian) : ∀ arg ∈ oneDir host, arg.Full := by
  intro arg harg
  rw [List.mem_singleton.mp harg]
  exact ⟨threeBytes_full host, trivial⟩

theorem buildDisk_oneDir (host : Endian) :
    ∃ s, buildDisk (FsH.sample host) (oneDir host) = .ok s ∧ s.nextbno = 6 :=
  buildDisk_next (List.cons_ne_nil _ _) (oneDir_exec host)

theorem image_reads_back_oneDir : ∃ s, buildDisk (FsH.sample .little) (oneDir .little) = .ok s ∧
    readDir (FsH.sample .little)
      (mount (finishFs (FsH.sample .little) (configReverseEndian (FsH.sample .little)) s)) 2
      (FsH.sample .little).root = [([100], .dir [([102], .file [1, 2, 3])])] := by
  obtain ⟨s, hok, _⟩ := buildDisk_oneDir .little
  exact ⟨s, hok, image_reads_back (sample_types _) (oneDir_full _) hok (Nat.lt_succ_self 1)⟩

theorem image_blocks_once_oneDir : ∃ s, buildDisk (FsH.sample .little) (oneDir .little) = .ok s ∧
    ∀ b, (dirBlocks (FsH.sample .little)
      (mount (finishFs (FsH.sample .little) (configReverseEndian (FsH.sample .little)) s)) 2
      (FsH.sample .little).root).count b = if 3 ≤ b ∧ b < 6 then 1 else 0 := by
  obtain ⟨s, hok, hnext⟩ := buildDisk_oneDir .little
  refine ⟨s, hok, fun b => ?_⟩
  have hcount := image_blocks_once (sample_types _) (oneDir_full _) hok (Nat.lt_succ_self 1) b
  rwa [hnext] at hcount

end RiscvMos.Fsformat
