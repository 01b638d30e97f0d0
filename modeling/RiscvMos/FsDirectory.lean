import RiscvMos.FsLinks
import Mathlib.Data.List.GetD

/-! Directories: the entries with a name come first, the others are zero. -/
namespace RiscvMos.Fsformat
open ByteMem HostWord Function Budget

section
variable {F : FsH} {s s' : Tool} {p : FilePtr} {low m j j' : ℕ} {bs cs : List ℕ} {o : Obj} {i : ℕ}

/-- Entry `j` of a directory with the blocks `bs`. -/
def entryAt (F : FsH) (bs : List ℕ) (j : ℕ) : FilePtr :=
  F.entry (bs.getD (j/F.FILE2BLK) 0) (j%F.FILE2BLK)

/-- The blocks that are not in use hold zeros. -/
def FreeZero (s : Tool) : Prop := ∀ b, s.nextbno ≤ b → ∀ i, s.obj (.block b) i = 0

/-- A directory whose first `m` entries have names; the entries behind them are zero. -/
structure Slots (F : FsH) (low : ℕ) (s : Tool) (p : FilePtr) (m : ℕ) (bs : List ℕ) : Prop where
  links : Links F low s p .BLOCK_FILE bs
  size : s.get F p .f_size = bs.length*F.BLOCK_SIZE
  room : m ≤ bs.length*F.FILE2BLK
  used : ∀ j < m, s.nameByte F (entryAt F bs j) 0 ≠ 0
  unused : ∀ j, m ≤ j → j < bs.length*F.FILE2BLK →
    ∀ o i, InFile F (entryAt F bs j) o i → s.obj o i = 0
  zero : FreeZero s

theorem FreeZero.changes {A : Obj → ℕ → Prop} (hz : FreeZero s) (h : Changes s s' A) :
    FreeZero s' := by
  intro b hb i
  rw [h.free b hb]
  exact hz b (h.next_le.trans hb) i

/-! ### Entries -/

theorem FsH.fileStruct_pos (F : FsH) : 0 < F.FILE_STRUCT_SIZE := by
  have hn := F.name_le
  have hg := F.name_gt
  omega

theorem FsH.blockSize_pos (F : FsH) : 0 < F.BLOCK_SIZE := F.fileStruct_pos.trans_le F.file_le

theorem FsH.file2blk_pos (F : FsH) : 0 < F.FILE2BLK := Nat.div_pos F.file_le F.fileStruct_pos

theorem div_lt_length (hj : j < bs.length*F.FILE2BLK) : j/F.FILE2BLK < bs.length :=
  Nat.div_lt_of_lt_mul (by rwa [mul_comm])

theorem entryAt_mem (hj : j < bs.length*F.FILE2BLK) : ∃ b ∈ bs, (entryAt F bs j).obj = .block b := by
  have hq : j/F.FILE2BLK < bs.length := div_lt_length hj
  refine ⟨bs[j/F.FILE2BLK], List.getElem_mem hq, ?_⟩
  rw [entryAt, FsH.entry, List.getD_eq_getElem _ _ hq]

theorem entryAt_append (hj : j < bs.length*F.FILE2BLK) :
    entryAt F (bs ++ cs) j = entryAt F bs j := by
  rw [entryAt, entryAt, List.getD_append _ _ _ _ (div_lt_length hj)]

theorem FsH.entry_apart {b b' k k' : ℕ} (hne : F.entry b k ≠ F.entry b' k')
    (h : InFile F (F.entry b k) o i) : ¬InFile F (F.entry b' k') o i := by
  rintro ⟨ho', hl', hu'⟩
  obtain ⟨ho, hl, hu⟩ := h
  rw [ho] at ho'
  injection ho' with hb
  subst hb
  have hk : k ≠ k' := fun hk => hne (by rw [hk])
  -- In one block the lower entry ends before the other one begins.
  simp only [FsH.entry] at hl hu hl' hu'
  rcases lt_or_gt_of_ne hk with hlt | hlt
  · have hmul := Nat.mul_le_mul_right F.FILE_STRUCT_SIZE (Nat.succ_le_of_lt hlt)
    rw [Nat.succ_mul] at hmul
    omega
  · have hmul := Nat.mul_le_mul_right F.FILE_STRUCT_SIZE (Nat.succ_le_of_lt hlt)
    rw [Nat.succ_mul] at hmul
    omega

theorem FsH.entry_inj {b b' k k' : ℕ} (h : F.entry b k = F.entry b' k') : b = b' ∧ k = k' := by
  injection h with hobj hbase
  injection hobj with hb
  exact ⟨hb, Nat.eq_of_mul_eq_mul_right F.fileStruct_pos hbase⟩

theorem entryAt_apart (hbs : bs.Nodup) (hj : j < bs.length*F.FILE2BLK)
    (hj' : j' < bs.length*F.FILE2BLK) (hne : j ≠ j') (h : InFile F (entryAt F bs j) o i) :
    ¬InFile F (entryAt F bs j') o i := by
  refine FsH.entry_apart (fun he => ?_) h
  obtain ⟨hb, hmod⟩ := FsH.entry_inj he
  rw [List.getD_eq_getElem _ _ (div_lt_length hj), List.getD_eq_getElem _ _ (div_lt_length hj'),
    List.Nodup.getElem_inj_iff hbs] at hb
  rw [← Nat.div_add_mod j F.FILE2BLK, ← Nat.div_add_mod j' F.FILE2BLK, hb, hmod] at hne
  exact hne rfl

theorem inName_first (f : FilePtr) : InName F f f.obj (f.base+F.f_name+0) :=
  ⟨rfl, le_rfl, Nat.add_lt_add_left (Nat.zero_lt_of_lt F.name_gt) _⟩

theorem Links.entry_ne (hl : Links F low s p .BLOCK_FILE bs) (hj : j < bs.length*F.FILE2BLK) :
    (entryAt F bs j).obj.Below s.nextbno ∧ (entryAt F bs j).obj ≠ p.obj ∧
      (F.NDIRECT < bs.length → (entryAt F bs j).obj ≠ .block (s.get F p .f_indirect)) := by
  obtain ⟨b, hb, ho⟩ := entryAt_mem hj
  obtain ⟨hlow, hlt, _⟩ := hl.mem b hb
  rw [ho]
  refine ⟨hlt, (hl.older.ne_block hlow).symm, ?_⟩
  intro hlen he
  injection he with he
  exact hl.ne_index hlen hb he

/-- A directory without blocks. -/
structure EmptyDir (F : FsH) (s : Tool) (p : FilePtr) : Prop where
  next_pos : 0 < s.nextbno
  next_le : s.nextbno ≤ NBLOCK
  older : p.obj.Below s.nextbno
  f_size : s.get F p .f_size = 0
  f_indirect : s.get F p .f_indirect = 0
  zero : FreeZero s

theorem EmptyDir.slots (h : EmptyDir F s p) : Slots F s.nextbno s p 0 [] where
  links := Links.nil h.next_pos h.next_le h.older h.f_indirect nofun
  size := by rw [h.f_size, List.length_nil, Nat.zero_mul]
  room := Nat.zero_le _
  used _ hj := absurd hj (Nat.not_lt_zero _)
  unused j _ hj := by
    rw [List.length_nil, Nat.zero_mul] at hj
    exact absurd hj (Nat.not_lt_zero _)
  zero := h.zero

/-- The bytes that belong to a directory: its links and size, its index block and its blocks. -/
def Owns (F : FsH) (s : Tool) (p : FilePtr) (o : Obj) (i : ℕ) : Prop :=
  InLinks F s p o i ∨ ∃ k < s.get F p .f_size/F.BLOCK_SIZE, o = .block (blockOf F s p k)

theorem Slots.nblk (h : Slots F low s p m bs) : s.get F p .f_size/F.BLOCK_SIZE = bs.length := by
  rw [h.size, Nat.mul_div_cancel _ F.blockSize_pos]

theorem Slots.owns_entry (h : Slots F low s p m bs) (hj : j < bs.length*F.FILE2BLK) :
    Owns F s p (entryAt F bs j).obj i := by
  have hq := div_lt_length hj
  refine Or.inr ⟨j/F.FILE2BLK, by rwa [h.nblk], ?_⟩
  rw [h.links.link _ hq, entryAt, FsH.entry, List.getD_eq_getElem _ _ hq]

/-- A directory stays as it is when of its own bytes only words of entries with a name change. -/
theorem Slots.congr {A : Obj → ℕ → Prop} (h : Slots F low s p m bs) (hc : Changes s s' A)
    (hnext : s'.nextbno ≤ NBLOCK)
    (hA : ∀ o i, o.Below s.nextbno → Owns F s p o i → A o i →
      ∃ j < m, InWords F (entryAt F bs j) o i) :
    Slots F low s' p m bs := by
  have hold := h.links.below
  have hlt : ∀ j < m, j < bs.length*F.FILE2BLK := fun j hj => hj.trans_le h.room
  have hp : ∀ i, InWords F p p.obj i → ¬A p.obj i := by
    intro i hin ha
    obtain ⟨j, hj, ho, _⟩ := hA _ i hold (Or.inl (Or.inl hin)) ha
    exact (h.links.entry_ne (hlt j hj)).2.1 ho.symm
  constructor
  · refine h.links.congr hc.toKeeps hnext hp ?_
    intro hlen i ha
    have hown : Owns F s p (.block (s.get F p .f_indirect)) i :=
      Or.inl (Or.inr ⟨h.links.indirect_ne_zero hlen, rfl⟩)
    obtain ⟨j, hj, ho, _⟩ := hA (.block _) i (h.links.indirect hlen).2.1 hown ha
    exact (h.links.entry_ne (hlt j hj)).2.2 hlen ho.symm
  · rw [hc.get hold _ hp, h.size]
  · exact h.room
  · intro j hj
    rw [hc.nameByte (h.links.entry_ne (hlt j hj)).1]
    · exact h.used j hj
    · intro ha
      obtain ⟨j', hj', hin⟩ := hA _ _ (h.links.entry_ne (hlt j hj)).1 (h.owns_entry (hlt j hj)) ha
      have hname : InName F (entryAt F bs j) _ _ := inName_first _
      -- A word of this entry is no part of its name, and one of another entry lies elsewhere.
      by_cases hjj : j' = j
      · subst hjj
        exact hin.not_inName hname
      · exact entryAt_apart h.links.nodup (hlt j' hj') (hlt j hj) hjj hin.inFile hname.inFile
  · intro j hmj hj o i hin
    rw [hc.byte o (hin.1 ▸ (h.links.entry_ne hj).1), h.unused j hmj hj o i hin]
    intro ha
    obtain ⟨j', hj', hin'⟩ := hA _ _ (hin.1 ▸ (h.links.entry_ne hj).1)
      (hin.1 ▸ h.owns_entry hj) ha
    exact entryAt_apart h.links.nodup (hlt j' hj') hj (by omega) hin'.inFile hin
  · exact h.zero.changes hc

theorem Slots.succ (h : Slots F low s p m bs) (hm : m < bs.length*F.FILE2BLK)
    (hc : Changes s s' (InFile F (entryAt F bs m))) (hnext : s'.nextbno ≤ NBLOCK)
    (hname : s'.nameByte F (entryAt F bs m) 0 ≠ 0) : Slots F low s' p (m+1) bs := by
  have hold := h.links.below
  obtain ⟨_, hne, hind⟩ := h.links.entry_ne hm
  have hp : ∀ i, InWords F p p.obj i → ¬InFile F (entryAt F bs m) p.obj i :=
    fun i _ ha => hne ha.1.symm
  constructor
  · exact h.links.congr hc.toKeeps hnext hp fun hlen i ha => hind hlen ha.1.symm
  · rw [hc.get hold _ hp, h.size]
  · exact hm
  · intro j hj
    by_cases hjm : j = m
    · subst hjm
      exact hname
    · have hj' : j < bs.length*F.FILE2BLK := by omega
      rw [hc.nameByte (h.links.entry_ne hj').1]
      · exact h.used j (by omega)
      · exact entryAt_apart h.links.nodup hj' hm hjm (inName_first _).inFile
  · intro j hmj hj o i hin
    rw [hc.byte o (hin.1 ▸ (h.links.entry_ne hj).1), h.unused j (by omega) hj o i hin]
    exact entryAt_apart h.links.nodup hj hm (by omega) hin
  · exact h.zero.changes hc

/-! ### The search for an unused entry -/

theorem freeEntry_none {b : ℕ} (h : ∀ k < F.FILE2BLK, s.nameByte F (F.entry b k) 0 ≠ 0) :
    freeEntry F s b = none := by
  rw [freeEntry, List.find?_range_eq_none]
  intro k hk
  simpa using h k hk

theorem freeEntry_some {b k : ℕ} (hk : k < F.FILE2BLK)
    (h : ∀ k' < k, s.nameByte F (F.entry b k') 0 ≠ 0) (h0 : s.nameByte F (F.entry b k) 0 = 0) :
    freeEntry F s b = some k := by
  rw [freeEntry, List.find?_range_eq_some]
  refine ⟨by simpa using h0, List.mem_range.mpr hk, ?_⟩
  intro k' hk'
  simpa using h k' hk'

theorem entryAt_add {q k : ℕ} (hq : q < bs.length) (hk : k < F.FILE2BLK) :
    entryAt F bs (q*F.FILE2BLK+k) = F.entry bs[q] k := by
  have hpos := F.file2blk_pos
  have hdiv : (q*F.FILE2BLK+k)/F.FILE2BLK = q := by
    rw [Nat.mul_comm, Nat.mul_add_div hpos, Nat.div_eq_of_lt hk, Nat.add_zero]
  have hmod : (q*F.FILE2BLK+k)%F.FILE2BLK = k := by
    rw [Nat.mul_comm, Nat.mul_add_mod, Nat.mod_eq_of_lt hk]
  rw [entryAt, hdiv, hmod, List.getD_eq_getElem _ _ hq]

theorem Links.dirLink (hl : Links F low s p .BLOCK_FILE bs) {q : ℕ} (hq : q < bs.length)
    (hdir : q < F.NDIRECT) : Fsformat.dirLink F s p q = .ok bs[q] := by
  have hlink := hl.link q hq
  rw [blockOf, dif_pos hdir] at hlink
  rw [Fsformat.dirLink, if_pos hdir.le, dif_pos hdir, hlink]

theorem findLoop_done (n : ℕ) : findLoop F s p n n = .ok none := by
  rw [findLoop, if_neg (lt_irrefl n)]

theorem Links.findLoop (hl : Links F low s p .BLOCK_FILE bs) {q : ℕ} (hq : q < bs.length)
    (hdir : q < F.NDIRECT) : Fsformat.findLoop F s p bs.length q =
      match freeEntry F s bs[q] with
      | some k => .ok (some (F.entry bs[q] k))
      | none => Fsformat.findLoop F s p bs.length (q+1) := by
  have hlt : bs[q] < NBLOCK := (hl.mem _ (List.getElem_mem hq)).2.1.trans_le hl.next_le
  rw [Fsformat.findLoop, if_pos hq, hl.dirLink hq hdir]
  exact index_bind hlt _

theorem Slots.findLoop_full (h : Slots F low s p m bs) {n : ℕ} (hn : n ≤ bs.length)
    (hdir : n ≤ F.NDIRECT) (hfull : n*F.FILE2BLK ≤ m) :
    findLoop F s p bs.length 0 = findLoop F s p bs.length n := by
  induction n with
  | zero => rfl
  | succ n ih =>
    have hmul : n*F.FILE2BLK+F.FILE2BLK ≤ m := by rwa [← Nat.succ_mul]
    rw [ih (by omega) (by omega) (by omega), h.links.findLoop hn hdir, freeEntry_none]
    intro k hk
    rw [← entryAt_add hn hk]
    exact h.used _ (by omega)

theorem Slots.findLoop_some (h : Slots F low s p m bs) (hm : m < bs.length*F.FILE2BLK)
    (hdir : m/F.FILE2BLK < F.NDIRECT) :
    findLoop F s p bs.length 0 = .ok (some (entryAt F bs m)) := by
  have hq : m/F.FILE2BLK < bs.length := div_lt_length hm
  have hk : m%F.FILE2BLK < F.FILE2BLK := Nat.mod_lt _ F.file2blk_pos
  have hdm : m/F.FILE2BLK*F.FILE2BLK+m%F.FILE2BLK = m := Nat.div_add_mod' m _
  have hentry : F.entry bs[m/F.FILE2BLK] (m%F.FILE2BLK) = entryAt F bs m := by
    rw [← entryAt_add hq hk, hdm]
  rw [h.findLoop_full hq.le hdir.le (by omega), h.links.findLoop hq hdir,
    freeEntry_some hk]
  · exact congrArg (fun f => Except.ok (some f)) hentry
  · intro k hlt
    rw [← entryAt_add hq (hlt.trans hk)]
    exact h.used _ (by omega)
  · rw [hentry]
    exact h.unused m le_rfl hm _ _ (inName_first _).inFile

theorem Slots.findLoop_none (h : Slots F low s p m bs) (hm : bs.length*F.FILE2BLK ≤ m)
    (hdir : bs.length ≤ F.NDIRECT) : findLoop F s p bs.length 0 = .ok none := by
  rw [h.findLoop_full le_rfl hdir hm, findLoop_done]

/-- With a block behind the direct links, and no unused entry before it, the search reads
`f_direct[NDIRECT]`. -/
theorem Slots.findLoop_outside (h : Slots F low s p m bs) (hlen : F.NDIRECT < bs.length)
    (hm : F.NDIRECT*F.FILE2BLK ≤ m) :
    findLoop F s p bs.length 0 = .error (.outside .f_direct) := by
  rw [h.findLoop_full hlen.le le_rfl hm, findLoop, if_pos hlen, dirLink, if_pos le_rfl,
    dif_neg (lt_irrefl _)]
  rfl

/-! ### A new entry -/

/-- What `create_file` does to the counter of blocks, in a directory whose first `m` entries have
names. -/
def createPlan (F : FsH) (m : ℕ) : List (Ev Stop) :=
  if F.NDIRECT*F.FILE2BLK < m then [.halt (.outside .f_direct)]
  else if m%F.FILE2BLK = 0 then .take :: savePlan F (m/F.FILE2BLK)
  else []

/-- The directory between `create_file`, which has returned `f`, and the name in that entry. -/
structure Created (F : FsH) (low : ℕ) (s s' : Tool) (p f : FilePtr) (m : ℕ) (bs bs' : List ℕ) :
    Prop where
  slots : Slots F low s' p m bs'
  entry : f = entryAt F bs' m
  lt : m < bs'.length*F.FILE2BLK
  le : bs'.length*F.FILE2BLK ≤ m+F.FILE2BLK
  blocks : bs' = bs ∨ bs' = bs ++ [s.nextbno]
  changes : Changes s s' (InLinks F s p)

theorem Links.entry_not_inLinks (hl : Links F low s p .BLOCK_FILE bs)
    (hj : j < bs.length*F.FILE2BLK) : ¬InLinks F s p (entryAt F bs j).obj i := by
  obtain ⟨_, hne, hind⟩ := hl.entry_ne hj
  rintro (⟨ho, _⟩ | hin)
  · exact hne ho
  · exact hind (hl.lt_of_inIndex hin) hin.2

theorem Slots.grow (h : Slots F low s p m bs) (hm : m = bs.length*F.FILE2BLK)
    (hl : Links F low s' p .BLOCK_FILE (bs ++ [s.nextbno])) (hc : Changes s s' (InLinks F s p))
    (hsize : s'.get F p .f_size = (bs.length+1)*F.BLOCK_SIZE)
    (hdata : s'.obj (.block s.nextbno) = s.obj (.block s.nextbno)) :
    Slots F low s' p m (bs ++ [s.nextbno]) where
  links := hl
  size := by rw [hsize, List.length_append, List.length_singleton]
  room := by
    rw [hm, List.length_append, List.length_singleton]
    exact Nat.mul_le_mul_right _ (Nat.le_succ _)
  used j hj := by
    have hj' : j < bs.length*F.FILE2BLK := hm ▸ hj
    rw [entryAt_append hj', hc.nameByte (h.links.entry_ne hj').1 (h.links.entry_not_inLinks hj')]
    exact h.used j hj
  unused j hmj hj o i hin := by
    obtain ⟨ho, _⟩ := hin
    -- The entries without a name are those of the new block.
    have hq : j/F.FILE2BLK = bs.length := by
      have hlt : j/F.FILE2BLK < (bs ++ [s.nextbno]).length := div_lt_length hj
      have hle : bs.length ≤ j/F.FILE2BLK :=
        (Nat.le_div_iff_mul_le F.file2blk_pos).mpr (hm ▸ hmj)
      rw [List.length_append, List.length_singleton] at hlt
      omega
    rw [entryAt, FsH.entry, hq, List.getD_append_right _ _ _ _ le_rfl, Nat.sub_self] at ho
    rw [ho]
    show s'.obj (.block s.nextbno) i = 0
    rw [hdata]
    exact h.zero _ le_rfl i
  zero := h.zero.changes hc

theorem makeLinkBlock_follows (h : Slots F low s p m bs) (hm : m = bs.length*F.FILE2BLK)
    (hdir : bs.length ≤ F.NDIRECT) :
    Follows NBLOCK (.outside .disk) s.nextbno (.take :: savePlan F bs.length)
      (makeLinkBlock F s p bs.length)
      (fun n r => n = r.2.nextbno ∧ r.1 < NBLOCK ∧
        Created F low s r.2 p (F.entry r.1 0) m bs (bs ++ [s.nextbno])) := by
  rw [makeLinkBlock]
  show Follows _ _ _ ([.take] ++ savePlan F bs.length) _ _
  refine (nextBlock_follows s .BLOCK_FILE).bind ?_
  rintro n ⟨bno, s₁⟩ ⟨rfl, hn, heq⟩
  injection heq with hb hs
  subst hb hs
  refine (h.links.save hn).bind_ok ?_
  rintro n s₁ ⟨rfl, hlinked⟩
  refine ⟨_, rfl, by rw [nextbno_set], hn, ?_⟩
  have hch : Changes s (s₁.set F p .f_size (s₁.get F p .f_size+F.BLOCK_SIZE)) (InLinks F s p) :=
    hlinked.changes.trans (set_changes hlinked.links.below _ _) fun _ _ _ => Or.inl
  have hl : Links F low (s₁.set F p .f_size (s₁.get F p .f_size+F.BLOCK_SIZE)) p .BLOCK_FILE
      (bs ++ [s.nextbno]) := hlinked.links.set (by nofun) (by nofun) _
  have hother : s₁.get F p .f_size = s.get F p .f_size := hlinked.other .f_size nofun nofun
  have hsum : s₁.get F p .f_size+F.BLOCK_SIZE = (bs.length+1)*F.BLOCK_SIZE := by
    rw [hother, h.size, Nat.succ_mul]
  have hlt : (bs.length+1)*F.BLOCK_SIZE < 2^32 :=
    (Nat.mul_le_mul_right _ (hdir.trans_lt F.direct_lt)).trans_lt F.size_lt
  have hlast : entryAt F (bs ++ [s.nextbno]) m = F.entry s.nextbno 0 := by
    have hlen : bs.length < (bs ++ [s.nextbno]).length := by simp
    have hadd := entryAt_add hlen F.file2blk_pos
    rwa [Nat.add_zero, ← hm, List.getElem_concat_length rfl] at hadd
  constructor
  · refine h.grow hm hl hch ?_ ?_
    · rw [get_set_same _ (hsum ▸ hlt), hsum]
    · rw [Tool.set, obj_setObj_ne (h.links.older.ne_block h.links.low_le).symm, hlinked.data]
  · exact hlast.symm
  · rw [hm, List.length_append, List.length_singleton]
    exact Nat.mul_lt_mul_of_pos_right (Nat.lt_succ_self _) F.file2blk_pos
  · rw [hm, List.length_append, List.length_singleton, Nat.succ_mul]
  · exact Or.inr rfl
  · exact hch

/-- `create_file`, in a directory without a spare block. -/
theorem Slots.create (h : Slots F low s p m bs) (htight : bs.length*F.FILE2BLK < m+F.FILE2BLK) :
    Follows NBLOCK (.outside .disk) s.nextbno (createPlan F m) (createFile F s p)
      (fun n r => n = r.2.nextbno ∧ ∃ bs', Created F low s r.2 p r.1 m bs bs') := by
  have hpos := F.file2blk_pos
  rw [createFile, h.nblk, createPlan]
  by_cases hout : F.NDIRECT*F.FILE2BLK < m
  · -- The entry is behind the direct links, and the search runs into `f_direct[NDIRECT]`.
    have hlen : F.NDIRECT < bs.length := Nat.lt_of_mul_lt_mul_right (hout.trans_le h.room)
    rw [if_pos hout, h.findLoop_outside hlen hout.le]
    exact Follows.halt _
  · rw [if_neg hout]
    have hdm : m/F.FILE2BLK*F.FILE2BLK+m%F.FILE2BLK = m := Nat.div_add_mod' m _
    by_cases hmod : m%F.FILE2BLK = 0
    · -- All blocks are full: a new one is linked.
      have hm : m = bs.length*F.FILE2BLK := by
        rw [hmod, Nat.add_zero] at hdm
        have hlt : bs.length*F.FILE2BLK < (m/F.FILE2BLK+1)*F.FILE2BLK := by
          rwa [Nat.succ_mul, hdm]
        have hle := Nat.le_of_lt_succ (Nat.lt_of_mul_lt_mul_right hlt)
        have hmul := Nat.mul_le_mul_right F.FILE2BLK hle
        have hroom := h.room
        omega
      have hdir : bs.length ≤ F.NDIRECT :=
        Nat.le_of_mul_le_mul_right (hm ▸ not_lt.mp hout) hpos
      have hq : m/F.FILE2BLK = bs.length := by rw [hm, Nat.mul_div_cancel _ hpos]
      rw [if_pos hmod, h.findLoop_none hm.ge hdir, hq]
      show Follows _ _ _ _ (makeLinkBlock F s p bs.length >>= fun r =>
        index r.1 >>= fun _ => Except.ok (F.entry r.1 0, r.2)) _
      refine (makeLinkBlock_follows h hm hdir).bind_ok ?_
      rintro n ⟨bno, s₁⟩ ⟨hn, hbno, hcreated⟩
      exact ⟨(F.entry bno 0, s₁), index_bind hbno _, hn, _, hcreated⟩
    · -- Entry `m` is in the last block.
      have hm : m < bs.length*F.FILE2BLK := by
        refine lt_of_le_of_ne h.room fun he => hmod ?_
        rw [he, Nat.mul_mod_left]
      have hdir : m/F.FILE2BLK < F.NDIRECT := by
        by_contra hge
        have hmul := Nat.mul_le_mul_right F.FILE2BLK (not_lt.mp hge)
        omega
      rw [if_neg hmod, h.findLoop_some hm hdir]
      exact Follows.ok ⟨rfl, bs, h, rfl, hm, by omega, Or.inl rfl, Changes.refl _ _⟩

end

end RiscvMos.Fsformat
