import RiscvMos.FsDirectory
import RiscvMos.FsNames

/-! The loop of `write_file`: a block is read, claimed and linked. -/
namespace RiscvMos.Fsformat
open ByteMem HostWord Function Budget

section
variable {F : FsH} {s s' : Tool} {t : FilePtr} {low : ℕ} {bs : List ℕ}

/-- `n` bytes of a file in a block of zeros. -/
def blockData (r : List UInt8) : Mem := blit (fun _ => 0) 0 r.length (fun i => r.getD i 0)

/-- The words of `t` and the blocks from `low` on. -/
def Grown (F : FsH) (low : ℕ) (t : FilePtr) (o : Obj) (i : ℕ) : Prop :=
  InWords F t o i ∨ ¬o.Below low

/-! ### One block -/

theorem readLoop_cons (i : ℕ) (r : List UInt8) (reads : List (List UInt8)) :
    readLoop F s t i (r :: reads) =
      nextBlock (s.setObj (.block s.nextbno)
        (blit (s.disk s.nextbno).data 0 r.length (fun i => r.getD i 0))) .BLOCK_DATA >>=
      fun x => saveBlockLink F x.2 t i x.1 >>= fun s => readLoop F s t (i+1) reads := by
  rw [readLoop, index, nextBlock_eq, nextbno_setObj]
  split_ifs
  · show (nextBlock _ _ >>= fun x => _) = _
    rw [nextBlock_eq, nextbno_setObj, if_pos ‹_›]
  · rfl

theorem setNext_keeps (m : Mem) (A : Obj → ℕ → Prop) :
    Keeps s (s.setObj (.block s.nextbno) m) A where
  next_le := by rw [nextbno_setObj]
  byte o ho i _ := by rw [obj_setObj_ne (ho.ne_block le_rfl)]
  type b _ := type_setObj b

theorem Links.setNext (hl : Links F low s t .BLOCK_DATA bs) (m : Mem) :
    Links F low (s.setObj (.block s.nextbno) m) t .BLOCK_DATA bs :=
  hl.congr (setNext_keeps m fun _ _ => False) (nextbno_setObj.trans_le hl.next_le) (fun _ _ => id)
    fun _ _ => id

/-- The state after one turn of the loop. -/
structure ReadBlock (F : FsH) (low : ℕ) (s s' : Tool) (t : FilePtr) (bs : List ℕ)
    (r : List UInt8) : Prop where
  links : Links F low s' t .BLOCK_DATA (bs ++ [s.nextbno])
  data : s'.obj (.block s.nextbno) = blockData r
  kept : ∀ b ∈ bs, s'.obj (.block b) = s.obj (.block b)
  changes : Changes s s' (Grown F low t)
  other : ∀ w, (∀ i, w ≠ .f_direct i) → w ≠ .f_indirect → s'.get F t w = s.get F t w

theorem Links.inLinks_grown (hl : Links F low s t .BLOCK_DATA bs) {o : Obj} {i : ℕ}
    (h : InLinks F s t o i) : Grown F low t o i := by
  rcases h with h | h
  · exact Or.inl h
  · obtain ⟨hlow, _⟩ := hl.indirect (hl.lt_of_inIndex h)
    rw [Grown, h.2]
    exact Or.inr (not_lt.mpr hlow)

theorem Links.data_not_inLinks (hl : Links F low s t .BLOCK_DATA bs) {b i : ℕ} (hb : b ∈ bs) :
    ¬InLinks F s t (.block b) i := by
  rintro (⟨ho, _⟩ | hin)
  · exact hl.older.ne_block (hl.mem b hb).1 ho.symm
  · have hind := hin.2
    injection hind with hind
    exact hl.ne_index (hl.lt_of_inIndex hin) hb hind

theorem Links.readBlock (hl : Links F low s t .BLOCK_DATA bs) (hz : FreeZero s)
    {r : List UInt8} {s₁ : Tool}
    (hs₁ : s₁ = s.setObj (.block s.nextbno)
      (blit (s.disk s.nextbno).data 0 r.length (fun i => r.getD i 0)))
    (hlinked : Linked F low s₁ s' t .BLOCK_DATA bs) : ReadBlock F low s s' t bs r := by
  have hnext : s₁.nextbno = s.nextbno := by rw [hs₁, nextbno_setObj]
  have hkeeps : ∀ A, Keeps s s₁ A := fun A => hs₁ ▸ setNext_keeps _ A
  have hl₁ : Links F low s₁ t .BLOCK_DATA bs := hs₁ ▸ hl.setNext _
  have hobj : ∀ o, o ≠ .block s.nextbno → s₁.obj o = s.obj o := by
    intro o ho
    rw [hs₁, obj_setObj_ne ho]
  have hlt : s.nextbno < s'.nextbno := by
    rw [← hnext]
    exact (hlinked.links.mem _ (List.mem_append_right _ (List.mem_singleton_self _))).2.1
  constructor
  · exact hnext ▸ hlinked.links
  · have hfree : (s.disk s.nextbno).data = fun _ => 0 := funext (hz _ le_rfl)
    rw [← hnext, hlinked.data, hnext, hs₁, obj_setObj_same, hfree, blockData]
  · intro b hb
    obtain ⟨_, hb', _⟩ := hl.mem b hb
    rw [← hobj (.block b) (by simpa using hb'.ne)]
    funext i
    exact hlinked.changes.byte (.block b) (hnext ▸ hb') i (hl₁.data_not_inLinks hb)
  · have hk : Keeps s s' (Grown F low t) :=
      (hkeeps _).trans hlinked.changes.toKeeps fun _ _ _ => hl₁.inLinks_grown
    refine ⟨hk, fun b hb => ?_⟩
    rw [hlinked.changes.free b hb, hobj (.block b) (by simpa using (hlt.trans_le hb).ne')]
  · intro w hw hw'
    rw [hlinked.other w hw hw', Tool.get, Tool.get,
      hobj _ (hl.older.ne_block hl.low_le)]

/-! ### The loop -/

/-- What `readLoop` does to the counter of blocks, from link `i` on. -/
def readPlan (F : FsH) (i : ℕ) : List (List UInt8) → List (Ev Stop)
  | [] => [.peek]
  | _ :: reads => [.take] ++ (savePlan F i ++ readPlan F (i+1) reads)

/-- The state behind the loop, with the blocks `cs` for what has been read. -/
structure ReadBlocks (F : FsH) (low : ℕ) (s s' : Tool) (t : FilePtr) (bs cs : List ℕ)
    (reads : List (List UInt8)) : Prop where
  links : Links F low s' t .BLOCK_DATA (bs ++ cs)
  length : cs.length = reads.length
  data : ∀ i (h : i < cs.length), s'.obj (.block cs[i]) = blockData (reads.getD i [])
  kept : ∀ b ∈ bs, s'.obj (.block b) = s.obj (.block b)
  changes : Changes s s' (Grown F low t)
  other : ∀ w, (∀ i, w ≠ .f_direct i) → w ≠ .f_indirect → s'.get F t w = s.get F t w

theorem ReadBlock.cons {s₁ : Tool} {cs : List ℕ} {r : List UInt8} {reads : List (List UInt8)}
    (h : ReadBlock F low s s₁ t bs r)
    (h' : ReadBlocks F low s₁ s' t (bs ++ [s.nextbno]) cs reads) :
    ReadBlocks F low s s' t bs (s.nextbno :: cs) (r :: reads) where
  links := by
    have hl := h'.links
    rwa [List.append_assoc] at hl
  length := congrArg Nat.succ h'.length
  data i hi := by
    cases i with
    | zero => exact (h'.kept _ (List.mem_append_right _ (List.mem_singleton_self _))).trans h.data
    | succ i => exact h'.data i (Nat.lt_of_succ_lt_succ hi)
  kept b hb := (h'.kept b (List.mem_append_left _ hb)).trans (h.kept b hb)
  changes := h.changes.trans h'.changes fun _ _ _ => id
  other w hw hw' := (h'.other w hw hw').trans (h.other w hw hw')

theorem readLoop_follows (hl : Links F low s t .BLOCK_DATA bs) (hz : FreeZero s)
    (reads : List (List UInt8)) :
    Follows NBLOCK (.outside .disk) s.nextbno (readPlan F bs.length reads)
      (readLoop F s t bs.length reads)
      (fun n s' => n = s'.nextbno ∧ ∃ cs, ReadBlocks F low s s' t bs cs reads) := by
  induction reads generalizing s bs with
  | nil =>
    refine (index_follows s.nextbno).bind_ok ?_
    rintro n _ ⟨rfl, _⟩
    exact ⟨s, rfl, rfl, [], by rwa [List.append_nil], rfl, nofun, fun _ _ => rfl,
      Changes.refl _ _, fun _ _ _ => rfl⟩
  | cons r reads ih =>
    generalize hs₁ : s.setObj (.block s.nextbno)
      (blit (s.disk s.nextbno).data 0 r.length (fun i => r.getD i 0)) = s₁
    have hnext : s₁.nextbno = s.nextbno := by rw [← hs₁, nextbno_setObj]
    have hl₁ : Links F low s₁ t .BLOCK_DATA bs := hs₁ ▸ hl.setNext _
    rw [readLoop_cons, readPlan, hs₁, ← hnext]
    -- The block is claimed and linked where it already holds what was read.
    refine (nextBlock_follows s₁ .BLOCK_DATA).bind ?_
    rintro n ⟨b, s₂⟩ ⟨rfl, hn, heq⟩
    injection heq with hb hs₂
    subst hb hs₂
    refine (hl₁.save hn).bind ?_
    rintro n s₂ ⟨rfl, hlinked⟩
    have hblock := hl.readBlock hz hs₁.symm hlinked
    have hlen : (bs ++ [s.nextbno]).length = bs.length+1 := by simp
    rw [← hlen]
    refine (ih hblock.links (hz.changes hblock.changes)).mono ?_
    rintro n s' ⟨hn', cs, hcs⟩
    exact ⟨hn', _, hblock.cons hcs⟩

/-! ### The whole file -/

/-- What `write_file` does to the counter of blocks, behind `create_file`. -/
def fillPlan (F : FsH) (path : List UInt8) (reads : List (List UInt8)) : List (Ev Stop) :=
  if (fname path).length < F.MAXNAMELEN then readPlan F 0 reads else [.halt (.outside .f_name)]

/-- An entry that `create_file` has returned. -/
structure FreshEntry (F : FsH) (s : Tool) (t : FilePtr) : Prop where
  next_pos : 0 < s.nextbno
  next_le : s.nextbno ≤ NBLOCK
  older : t.obj.Below s.nextbno
  empty : ZeroFile F s t
  zero : FreeZero s

/-- The state behind `write_file`, with the blocks `cs` of the file. -/
structure Filled (F : FsH) (s s' : Tool) (t : FilePtr) (path : List UInt8) (file : HostFile F)
    (cs : List ℕ) : Prop where
  links : Links F s.nextbno s' t .BLOCK_DATA cs
  length : cs.length = file.reads.length
  data : ∀ i (h : i < cs.length), s'.obj (.block cs[i]) = blockData (file.reads.getD i [])
  f_size : s'.get F t .f_size = file.size%2^32
  name : ∀ i < F.MAXNAMELEN, s'.nameByte F t i = (fname path).getD i 0
  changes : Changes s s' (InFile F t)

theorem FreshEntry.get (h : FreshEntry F s t) (w : FileWord F.NDIRECT) : s.get F t w = 0 := by
  have hw := F.word_le w
  exact loadAs_zero _ fun i hl hu => h.empty i ⟨rfl, by omega, by omega⟩

/-- The entry before the first block is read. -/
def titleFile (F : FsH) (s : Tool) (t : FilePtr) (path : List UInt8) (size : ℕ) : Tool :=
  ((s.copyName F t ((fname path).length+1) (fname path)).set F t .f_size size).set F t
    .f_type F.FTYPE_REG

section
variable {path : List UInt8} (size : ℕ)

@[simp] theorem nextbno_titleFile : (titleFile F s t path size).nextbno = s.nextbno := by
  simp [titleFile]

theorem FreshEntry.title_changes (h : FreshEntry F s t) (hlen : (fname path).length < F.MAXNAMELEN) :
    Changes s (titleFile F s t path size) (InFile F t) := by
  have hcopy : Changes s (s.copyName F t ((fname path).length+1) (fname path)) (InFile F t) :=
    (copyName_changes h.older hlen _).mono fun _ _ _ => InName.inFile
  refine hcopy.trans ?_ fun _ _ _ => InWords.inFile
  refine (set_changes ?_ _ _).trans (set_changes ?_ _ _) fun _ _ _ => id
  · simpa using h.older
  · simpa using h.older

theorem FreshEntry.title_indirect (h : FreshEntry F s t)
    (hlen : (fname path).length < F.MAXNAMELEN) :
    (titleFile F s t path size).get F t .f_indirect = 0 := by
  rw [titleFile, get_set_ne (by nofun), get_set_ne (by nofun), get_copyName _ hlen, h.get]

theorem title_size : (titleFile F s t path size).get F t .f_size = size%2^32 := by
  rw [titleFile, get_set_ne (by nofun), get_set_mod]

theorem FreshEntry.title_name (h : FreshEntry F s t) {i : ℕ} (hi : i < F.MAXNAMELEN) :
    (titleFile F s t path size).nameByte F t i = (fname path).getD i 0 := by
  rw [titleFile, nameByte_set _ _ hi, nameByte_set _ _ hi, nameByte_copyName]
  split_ifs with hlt
  · rfl
  · rw [List.getD_eq_default _ _ (by omega)]
    exact h.empty.nameByte hi

end

theorem fillFile_follows (h : FreshEntry F s t) (path : List UInt8) (file : HostFile F) :
    Follows NBLOCK (.outside .disk) s.nextbno (fillPlan F path file.reads)
      (fillFile F s t path file)
      (fun n s' => n = s'.nextbno ∧ ∃ cs, Filled F s s' t path file cs) := by
  rw [fillFile, nameFile, fillPlan]
  split_ifs with hlen
  · have hch := h.title_changes file.size hlen
    have hnext : (titleFile F s t path file.size).nextbno = s.nextbno := nextbno_titleFile _
    have hl : Links F s.nextbno (titleFile F s t path file.size) t .BLOCK_DATA [] := by
      have hnil : Links F _ (titleFile F s t path file.size) t .BLOCK_DATA [] :=
        Links.nil (hnext ▸ h.next_pos) (hnext ▸ h.next_le) (hnext ▸ h.older)
          (h.title_indirect file.size hlen) (by decide)
      rwa [hnext] at hnil
    show Follows _ _ _ _ (readLoop F (titleFile F s t path file.size) t 0 file.reads) _
    rw [← hnext]
    refine (readLoop_follows hl (h.zero.changes hch) file.reads).mono ?_
    rintro n s' ⟨hn, cs, hcs⟩
    refine ⟨hn, cs, hcs.links, hcs.length, hcs.data, ?_, ?_, ?_⟩
    · rw [hcs.other .f_size (by simp) (by simp), title_size]
    · intro i hi
      rw [hcs.changes.nameByte (hnext ▸ h.older), h.title_name _ hi]
      -- The loop writes words of the entry and blocks that are newer than it.
      rintro (hin | hlow)
      · exact hin.not_inName ⟨rfl, Nat.le_add_right _ _, Nat.add_lt_add_left hi _⟩
      · exact hlow h.older
    · refine hch.trans hcs.changes fun o i ho hg => ?_
      exact (hg.resolve_right (not_not.mpr ho)).inFile
  · exact Follows.halt _

end

end RiscvMos.Fsformat
