import RiscvMos.FsTree
import RiscvMos.FsBounds

/-! What the runs of fsformat add to the tree of a directory, and which blocks it takes. -/
namespace RiscvMos.Fsformat
open ByteMem HostWord Function Budget

section
variable {F : FsH} {s₀ s s₁ s' : Tool} {p t f : FilePtr} {low m depth : ℕ} {bs bs' : List ℕ}
  {type : BlockType} {es : List (List UInt8 × Node)}

/-! ### The blocks of one file -/

/-- The blocks `bs`, with the index block once there is one. -/
def ownBlocks (F : FsH) (s : Tool) (f : FilePtr) (bs : List ℕ) : List ℕ :=
  bs ++ if F.NDIRECT < bs.length then [s.get F f .f_indirect] else []

theorem ownBlocks_nil (F : FsH) (s : Tool) (f : FilePtr) : ownBlocks F s f [] = [] := by
  rw [ownBlocks, List.nil_append]
  exact if_neg (Nat.not_lt_zero _)

theorem Links.blocksOf (hl : Links F low s f type bs)
    (hn : dataBlocks F (s.get F f .f_size) = bs.length) :
    Fsformat.blocksOf F s f = ownBlocks F s f bs := by
  rw [Fsformat.blocksOf, ownBlocks, hn]
  congr 1
  apply List.ext_getElem
  · simp
  · intro i hi hi'
    rw [List.getElem_map, List.getElem_range, hl.link i hi']

theorem dataBlocks_mul (F : FsH) (n : ℕ) : dataBlocks F (n*F.BLOCK_SIZE) = n := by
  have hpos := F.blockSize_pos
  rw [dataBlocks, Nat.add_sub_assoc hpos, Nat.mul_comm, Nat.mul_add_div hpos,
    Nat.div_eq_of_lt (Nat.sub_one_lt hpos.ne'), Nat.add_zero]

theorem Slots.blocksOf (h : Slots F low s p m bs) :
    Fsformat.blocksOf F s p = ownBlocks F s p bs := by
  apply h.links.blocksOf
  rw [h.size, dataBlocks_mul]

theorem saveBlockLink_lt {i bno : ℕ} (hok : saveBlockLink F s f i bno = .ok s') :
    i < F.NINDIRECT := by
  by_contra hge
  rw [saveBlockLink, if_neg hge] at hok
  cases hok

theorem Links.save_perm (hl : Links F low s f type bs) (hroom : s.nextbno < NBLOCK)
    (hok : saveBlockLink F (s.claim type) f bs.length s.nextbno = .ok s') :
    (ownBlocks F s' f (bs ++ [s.nextbno])).Perm
      (ownBlocks F s f bs ++ List.range' s.nextbno (s'.nextbno-s.nextbno)) := by
  have hlen := saveBlockLink_lt hok
  have hone : (bs ++ [s.nextbno]).length = bs.length+1 := by simp
  unfold ownBlocks
  rw [hone]
  rcases lt_trichotomy bs.length F.NDIRECT with hi | hi | hi
  · -- A direct link.
    rw [saveBlockLink_direct hi, Except.ok.injEq] at hok
    have hnext : s'.nextbno-s.nextbno = 1 := by
      rw [← hok, nextbno_set, nextbno_claim, Nat.add_sub_cancel_left]
    rw [if_neg (by omega), if_neg (by omega), hnext, List.range'_one, List.append_nil,
      List.append_nil]
  · -- The index block is the next one behind the new block.
    have h0 : (s.claim type).get F f .f_indirect = 0 := by rw [get_claim, hl.direct hi.le]
    rw [saveBlockLink_first hlen hi.not_lt h0, nextbno_claim] at hok
    split_ifs at hok with hroom'
    rw [Except.ok.injEq] at hok
    have hne : f.obj ≠ .block (s.nextbno+1) := hl.below.ne_block (Nat.le_succ _)
    have hN : NBLOCK < 2^32 := by decide
    have hind : s'.get F f .f_indirect = s.nextbno+1 := by
      rw [← hok, get_setIndex hne, get_set_same _ (hroom'.trans hN)]
    have hnext : s'.nextbno-s.nextbno = 2 := by
      rw [← hok, nextbno_setIndex, nextbno_set, nextbno_claim, nextbno_claim]
      omega
    rw [if_pos (by omega), if_neg (by omega), hind, hnext, List.append_nil, List.append_assoc]
    rfl
  · -- The index block is there.
    have h0 := hl.indirect_ne_zero hi
    obtain ⟨hlow, hlt, _⟩ := hl.indirect hi
    have hlt' := hlt.trans hroom
    rw [← get_claim type] at h0 hlt'
    rw [saveBlockLink_next hlen hi.not_gt h0 hlt', Except.ok.injEq, get_claim] at hok
    have hind : s'.get F f .f_indirect = s.get F f .f_indirect := by
      rw [← hok, get_setIndex (hl.older.ne_block hlow), get_claim]
    have hnext : s'.nextbno-s.nextbno = 1 := by
      rw [← hok, nextbno_setIndex, nextbno_claim, Nat.add_sub_cancel_left]
    rw [if_pos (by omega), if_pos hi, hind, hnext, List.range'_one, List.append_assoc,
      List.append_assoc]
    exact (List.Perm.swap _ _ _).append_left bs

theorem range'_trans {a b c : ℕ} (hab : a ≤ b) (hbc : b ≤ c) :
    List.range' a (b-a) ++ List.range' b (c-b) = List.range' a (c-a) := by
  calc List.range' a (b-a) ++ List.range' b (c-b)
      = List.range' a (b-a) ++ List.range' (a+1*(b-a)) (c-b) := by
        congr 2
        omega
    _ = List.range' a (b-a+(c-b)) := List.range'_append
    _ = List.range' a (c-a) := by
        congr 1
        omega

/-! ### Entries of a directory -/

theorem Slots.entriesOf (h : Slots F low s p m bs) :
    Fsformat.entriesOf F s p = (List.range (bs.length*F.FILE2BLK)).map (entryAt F bs) := by
  rw [Fsformat.entriesOf, h.nblk]
  apply List.map_congr_left
  intro j hj
  have hq : j/F.FILE2BLK < bs.length := div_lt_length (List.mem_range.mp hj)
  rw [h.links.link _ hq, entryAt, List.getD_eq_getElem _ _ hq]

theorem Slots.namedEntries (h : Slots F low s p m bs) :
    Fsformat.namedEntries F s p = (List.range m).map (entryAt F bs) := by
  obtain ⟨k, hk⟩ := Nat.exists_eq_add_of_le h.room
  rw [Fsformat.namedEntries, h.entriesOf, hk, List.range_add, List.map_append, List.filter_append]
  have hused : ((List.range m).map (entryAt F bs)).filter (fun f => s.nameByte F f 0 ≠ 0) =
      (List.range m).map (entryAt F bs) := by
    apply List.filter_eq_self.mpr
    intro f hf
    obtain ⟨j, hj, rfl⟩ := List.mem_map.mp hf
    exact decide_eq_true (h.used j (List.mem_range.mp hj))
  have hfree : (((List.range k).map (fun j => m+j)).map (entryAt F bs)).filter
      (fun f => s.nameByte F f 0 ≠ 0) = [] := by
    apply List.filter_eq_nil_iff.mpr
    intro f hf
    obtain ⟨_, hadd, rfl⟩ := List.mem_map.mp hf
    obtain ⟨j, hj, rfl⟩ := List.mem_map.mp hadd
    have hlt : m+j < bs.length*F.FILE2BLK := by
      rw [hk]
      exact Nat.add_lt_add_left (List.mem_range.mp hj) m
    have hzero : s.nameByte F (entryAt F bs (m+j)) 0 = 0 :=
      h.unused (m+j) (Nat.le_add_right _ _) hlt _ _ (inName_first _).inFile
    simpa using hzero
  rw [hused, hfree, List.append_nil]

/-! ### A new entry -/

theorem Slots.create_cases (h : Slots F low s p m bs)
    (hok : createFile F s p = .ok (t, s')) :
    s' = s ∨ s.nextbno < NBLOCK ∧ ∃ s₁,
      saveBlockLink F (s.claim .BLOCK_FILE) p bs.length s.nextbno = .ok s₁ ∧
      s' = s₁.set F p .f_size (s₁.get F p .f_size+F.BLOCK_SIZE) := by
  rw [createFile, h.nblk] at hok
  cases hfind : findLoop F s p bs.length 0 with
  | error e =>
    rw [hfind] at hok
    cases hok
  | ok found =>
    rw [hfind] at hok
    cases found with
    | some g =>
      injection hok with hok
      injection hok with _ hs
      exact Or.inl hs.symm
    | none =>
      refine Or.inr ?_
      change (makeLinkBlock F s p bs.length >>= fun r =>
        index r.1 >>= fun _ => Except.ok (F.entry r.1 0, r.2)) = _ at hok
      rw [makeLinkBlock, nextBlock_eq] at hok
      split_ifs at hok with hroom
      · refine ⟨hroom, ?_⟩
        change ((saveBlockLink F (s.claim .BLOCK_FILE) p bs.length s.nextbno >>= fun s₁ =>
          Except.ok (s.nextbno, s₁.set F p .f_size (s₁.get F p .f_size+F.BLOCK_SIZE))) >>= _) = _
          at hok
        cases hsave : saveBlockLink F (s.claim .BLOCK_FILE) p bs.length s.nextbno with
        | error e =>
          rw [hsave] at hok
          cases hok
        | ok s₁ =>
          rw [hsave] at hok
          change (index s.nextbno >>= fun _ => Except.ok (F.entry s.nextbno 0, _)) = _ at hok
          rw [index_bind hroom, Except.ok.injEq, Prod.mk.injEq] at hok
          exact ⟨s₁, rfl, hok.2.symm⟩
      · cases hok

/-- The blocks of the directory are the old ones and those that have been claimed. -/
structure Entered (F : FsH) (low : ℕ) (s s' : Tool) (p t : FilePtr) (m : ℕ) (bs bs' : List ℕ) :
    Prop extends Created F low s s' p t m bs bs' where
  perm : (blocksOf F s' p).Perm
    (blocksOf F s p ++ List.range' s.nextbno (s'.nextbno-s.nextbno))
  type : s'.get F p .f_type = s.get F p .f_type

theorem Slots.entered (h : Slots F low s p m bs) (htight : bs.length*F.FILE2BLK < m+F.FILE2BLK)
    (hok : createFile F s p = .ok (t, s')) : ∃ bs', Entered F low s s' p t m bs bs' := by
  obtain ⟨_, _, _, bs', hc⟩ := (h.create htight).of_ok hok
  refine ⟨bs', hc, ?_, ?_⟩
  · rcases h.create_cases hok with rfl | ⟨hroom, s₁, hsave, hs'⟩
    · rw [Nat.sub_self, List.range'_zero, List.append_nil]
    · have hind : s'.get F p .f_indirect = s₁.get F p .f_indirect := by
        rw [hs', get_set_ne (by nofun)]
      have hnext : s'.nextbno = s₁.nextbno := by rw [hs', nextbno_set]
      obtain ⟨_, _, hn, hlinked⟩ := (h.links.save hroom).of_ok hsave
      -- The directory has got a block, since the counter has moved.
      have hblocks : bs' = bs ++ [s.nextbno] := by
        refine hc.blocks.resolve_left fun he => ?_
        subst he
        have hsize := hc.slots.size
        have hlt : (bs'.length+1)*F.BLOCK_SIZE < 2^32 :=
          (Nat.mul_le_mul_right _ (saveBlockLink_lt hsave)).trans_lt F.size_lt
        rw [hs', get_set_mod, hlinked.other .f_size (by nofun) (by nofun), h.size,
          ← Nat.succ_mul, Nat.mod_eq_of_lt hlt, Nat.succ_mul] at hsize
        have hpos := F.blockSize_pos
        omega
      have hperm := h.links.save_perm hroom hsave
      rw [hc.slots.blocksOf, h.blocksOf, hblocks, hnext]
      unfold ownBlocks at hperm ⊢
      rw [hind]
      exact hperm
  · rcases h.create_cases hok with rfl | ⟨hroom, s₁, hsave, hs'⟩
    · rfl
    · obtain ⟨_, _, hn, hlinked⟩ := (h.links.save hroom).of_ok hsave
      rw [hs', get_set_ne (by nofun), hlinked.other .f_type (by nofun) (by nofun)]

/-! ### The tree of a directory in use -/

/-- A directory with the entries `es`: down to `depth` levels below it the tree reads so, and it
takes each of the blocks that have been claimed since `s₀` once. -/
structure DirTree (F : FsH) (depth : ℕ) (s₀ s : Tool) (p : FilePtr) (m : ℕ) (bs : List ℕ)
    (es : List (List UInt8 × Node)) : Prop extends Dir F s₀ s p m bs where
  type : s.get F p .f_type = F.FTYPE_DIR
  reads : readDir F s (depth+1) p = es
  blocks : (dirBlocks F s (depth+1) p).Perm (List.range' s₀.nextbno (s.nextbno-s₀.nextbno))

theorem Slots.readDir (h : Slots F low s p m bs) (depth : ℕ) :
    Fsformat.readDir F s (depth+1) p = (List.range m).map fun j =>
      (nameOf F s (entryAt F bs j), readNode F s depth (entryAt F bs j)) := by
  rw [readDir_succ, h.namedEntries, List.map_map]
  rfl

theorem Slots.dirBlocks (h : Slots F low s p m bs) (depth : ℕ) :
    Fsformat.dirBlocks F s (depth+1) p = Fsformat.blocksOf F s p ++
      (List.range m).flatMap fun j => nodeBlocks F s depth (entryAt F bs j) := by
  rw [dirBlocks_succ, h.namedEntries, List.flatMap_map]

section
variable (h : DirTree F depth s₀ s p m bs es)
include h

theorem DirTree.below {j b : ℕ} (hj : j < m) (hb : b ∈ nodeBlocks F s depth (entryAt F bs j)) :
    s₀.nextbno ≤ b ∧ b < s.nextbno ∧ b ∉ blocksOf F s p := by
  have hperm := h.blocks
  rw [h.slots.dirBlocks] at hperm
  have hmem : b ∈ (List.range m).flatMap fun j => nodeBlocks F s depth (entryAt F bs j) :=
    List.mem_flatMap.mpr ⟨j, List.mem_range.mpr hj, hb⟩
  have hrange := hperm.subset (List.mem_append_right _ hmem)
  rw [List.mem_range'_1] at hrange
  have hnext := h.changes.next_le
  have hnodup := hperm.nodup_iff.mpr List.nodup_range'
  exact ⟨hrange.1, by omega, fun hown => List.disjoint_of_nodup_append hnodup hown hmem⟩

/-- What is below an entry stays while the directory gets its next entry. -/
theorem DirTree.older_entry (hc : Created F s₀.nextbno s s₁ p t m bs bs')
    (hch : Changes s₁ s' (InFile F t)) {j : ℕ} (hj : j < m) :
    entryAt F bs' j = entryAt F bs j ∧ nameOf F s' (entryAt F bs j) = nameOf F s (entryAt F bs j) ∧
      readNode F s' depth (entryAt F bs j) = readNode F s depth (entryAt F bs j) ∧
      nodeBlocks F s' depth (entryAt F bs j) = nodeBlocks F s depth (entryAt F bs j) := by
  have hlt : j < bs.length*F.FILE2BLK := hj.trans_le h.slots.room
  have hentry : entryAt F bs' j = entryAt F bs j := by
    rcases hc.blocks with rfl | rfl
    · rfl
    · exact entryAt_append hlt
  have hsame : SameFile F s s' (entryAt F bs j) := by
    intro i hi
    obtain ⟨hold, _, _⟩ := h.slots.links.entry_ne hlt
    rw [hch.byte _ (hold.mono hc.changes.next_le), hc.changes.byte _ hold]
    · exact h.slots.links.entry_not_inLinks hlt
    · rw [hc.entry]
      apply entryAt_apart hc.slots.links.nodup (hj.trans hc.lt) hc.lt hj.ne
      rwa [hentry]
  have hbelow : SameBlocks s s' (nodeBlocks F s depth (entryAt F bs j)) := by
    intro b hb
    obtain ⟨hlow, hnext, hnot⟩ := h.below hj hb
    -- The directory is older than its blocks, and they are apart from its own ones.
    have hlinks : ∀ i, ¬InLinks F s p (.block b) i := by
      rintro i (⟨ho, _⟩ | hin)
      · exact h.slots.links.older.ne_block hlow ho.symm
      · have hind := hin.2
        injection hind with hind
        have hlen := h.slots.links.lt_of_inIndex hin
        apply hnot
        rw [h.slots.blocksOf, ownBlocks, if_pos hlen, hind]
        exact List.mem_append_right _ (List.mem_singleton_self _)
    have hfile : ∀ i, ¬InFile F t (.block b) i := by
      rintro i ⟨ho, _⟩
      obtain ⟨c, hcs, hobj⟩ := entryAt_mem hc.lt
      rw [hc.entry, hobj] at ho
      injection ho with hbc
      subst hbc
      have hown : b ∉ bs := fun hin => hnot (by
        rw [h.slots.blocksOf]
        exact List.mem_append_left _ hin)
      rcases hc.blocks with rfl | rfl
      · exact hown hcs
      · rcases List.mem_append.mp hcs with hin | hin
        · exact hown hin
        · rw [List.mem_singleton] at hin
          omega
    ext i
    rw [hch.byte (.block b) (hnext.trans_le hc.changes.next_le) i (hfile i),
      hc.changes.byte (.block b) hnext i (hlinks i)]
  exact ⟨hentry, nameOf_congr hsame, readNode_congr hsame hbelow⟩

theorem DirTree.fill (hc : Entered F s₀.nextbno s s₁ p t m bs bs')
    (hch : Changes s₁ s' (InFile F t)) (hnext : s'.nextbno ≤ NBLOCK)
    (hname : s'.nameByte F t 0 ≠ 0) (hblocks : (nodeBlocks F s' depth t).Perm
      (List.range' s₁.nextbno (s'.nextbno-s₁.nextbno))) :
    DirTree F depth s₀ s' p (m+1) bs' (es ++ [(nameOf F s' t, readNode F s' depth t)]) := by
  have hdir := h.toDir.fill hc.toCreated hch hnext hname
  have hp : ∀ w, s'.get F p w = s₁.get F p w := by
    intro w
    apply hch.get (h.slots.links.below.mono hc.changes.next_le)
    rintro i _ ⟨ho, _⟩
    rw [hc.entry] at ho
    exact (hc.slots.links.entry_ne hc.lt).2.1 ho.symm
  refine ⟨hdir, ?_, ?_, ?_⟩
  · rw [hp, hc.type, h.type]
  · rw [hdir.slots.readDir, List.range_succ, List.map_append, List.map_singleton, ← hc.entry]
    congr 1
    rw [← h.reads, h.slots.readDir]
    apply List.map_congr_left
    intro j hj
    obtain ⟨he, hn, hr, _⟩ := h.older_entry hc.toCreated hch (List.mem_range.mp hj)
    rw [he, hn, hr]
  · have hown : (blocksOf F s' p).Perm
        (blocksOf F s p ++ List.range' s.nextbno (s₁.nextbno-s.nextbno)) := by
      have heq : blocksOf F s' p = blocksOf F s₁ p := by
        rw [hdir.slots.blocksOf, hc.slots.blocksOf, ownBlocks, ownBlocks, hp]
      rw [heq]
      exact hc.perm
    have hbelow : ((List.range m).flatMap fun j => nodeBlocks F s' depth (entryAt F bs' j)) =
        (List.range m).flatMap fun j => nodeBlocks F s depth (entryAt F bs j) := by
      apply List.flatMap_congr
      intro j hj
      obtain ⟨he, _, _, hb⟩ := h.older_entry hc.toCreated hch (List.mem_range.mp hj)
      rw [he, hb]
    have hold := h.blocks
    rw [h.slots.dirBlocks] at hold
    rw [hdir.slots.dirBlocks, List.range_succ, List.flatMap_append, hbelow, List.flatMap_singleton,
      ← hc.entry]
    generalize ((List.range m).flatMap fun j => nodeBlocks F s depth (entryAt F bs j)) = below
      at hold ⊢
    have h₁ := h.changes.next_le
    have h₂ := hc.changes.next_le
    have h₃ := hch.next_le
    calc List.Perm (blocksOf F s' p ++ (below ++ nodeBlocks F s' depth t))
          (blocksOf F s p ++ List.range' s.nextbno (s₁.nextbno-s.nextbno) ++
            (below ++ List.range' s₁.nextbno (s'.nextbno-s₁.nextbno))) :=
          hown.append (hblocks.append_left below)
      List.Perm _ (blocksOf F s p ++ below ++ (List.range' s.nextbno (s₁.nextbno-s.nextbno) ++
            List.range' s₁.nextbno (s'.nextbno-s₁.nextbno))) := by
          rw [List.append_assoc, List.append_assoc]
          exact (List.perm_append_comm_assoc _ _ _).append_left _
      List.Perm _ (List.range' s₀.nextbno (s.nextbno-s₀.nextbno) ++
            (List.range' s.nextbno (s₁.nextbno-s.nextbno) ++
            List.range' s₁.nextbno (s'.nextbno-s₁.nextbno))) := hold.append_right _
      _ = List.range' s₀.nextbno (s'.nextbno-s₀.nextbno) := by
          rw [range'_trans h₂ h₃, range'_trans h₁ (h₂.trans h₃)]

end

end

end RiscvMos.Fsformat
