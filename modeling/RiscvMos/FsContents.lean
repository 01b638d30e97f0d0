import RiscvMos.FsFile
import RiscvMos.FsInit

/-! Files read back as they were written, also behind later files. -/
namespace RiscvMos.Fsformat
open ByteMem HostWord Function Budget

section
variable {F : FsH} {s s₀ s' s'' : Tool} {t : FilePtr} {bytes : List UInt8} {n : ℕ}

/-! ### Full blocks -/

/-- What the calls of `read` return when each of them gives `n` bytes until the tail. -/
def fullReads (n : ℕ) (bytes : List UInt8) : List (List UInt8) :=
  if n = 0 ∨ bytes = [] then [] else bytes.take n :: fullReads n (bytes.drop n)
  termination_by bytes.length
  decreasing_by
    rename_i h
    rw [not_or] at h
    have hpos := List.length_pos_of_ne_nil h.2
    rw [List.length_drop]
    omega

theorem fullReads_nil (n : ℕ) : fullReads n [] = [] := by
  rw [fullReads, if_pos (Or.inr rfl)]

theorem fullReads_cons (hn : 0 < n) (h : bytes ≠ []) :
    fullReads n bytes = bytes.take n :: fullReads n (bytes.drop n) := by
  rw [fullReads, if_neg (not_or.mpr ⟨hn.ne', h⟩)]

theorem length_fullReads (hn : 0 < n) (bytes : List UInt8) :
    (fullReads n bytes).length = (bytes.length+n-1)/n := by
  induction hlen : bytes.length using Nat.strong_induction_on generalizing bytes with
  | _ len ih =>
    by_cases h : bytes = []
    · subst h
      subst hlen
      simp only [fullReads_nil, List.length_nil, Nat.zero_add]
      exact (Nat.div_eq_of_lt (Nat.sub_one_lt hn.ne')).symm
    · have hpos := List.length_pos_of_ne_nil h
      rw [fullReads_cons hn h, List.length_cons, ih (len-n) (by omega) _ (by rw [List.length_drop, hlen])]
      -- A full block, or the last one.
      by_cases hle : n ≤ len
      · have hsum : len+n-1 = len-n+n-1+n := by omega
        rw [hsum, Nat.add_div_right _ hn]
      · have hone : (len+n-1)/n = 1 := Nat.div_eq_of_lt_le (by omega) (by omega)
        rw [Nat.div_eq_of_lt (by omega), hone]

theorem getD_fullReads (hn : 0 < n) (bytes : List UInt8) (i : ℕ) :
    (fullReads n bytes).getD i [] = (bytes.drop (i*n)).take n := by
  induction i generalizing bytes with
  | zero =>
    by_cases h : bytes = []
    · subst h
      simp [fullReads_nil]
    · rw [fullReads_cons hn h]
      simp
  | succ i ih =>
    by_cases h : bytes = []
    · subst h
      simp [fullReads_nil]
    · rw [fullReads_cons hn h, List.getD_cons_succ, ih, List.drop_drop, Nat.succ_mul, Nat.add_comm]

theorem fullReads_bound (n : ℕ) (bytes : List UInt8) :
    ∀ r ∈ fullReads n bytes, 0 < r.length ∧ r.length ≤ n := by
  fun_induction fullReads n bytes with
  | case1 => exact nofun
  | case2 bytes h ih =>
    rw [not_or] at h
    have hpos := List.length_pos_of_ne_nil h.2
    intro r hr
    rcases List.mem_cons.mp hr with rfl | hr
    · rw [List.length_take]
      omega
    · exact ih r hr

/-- A host file with these bytes. -/
def HostFile.ofBytes (F : FsH) (bytes : List UInt8) : HostFile F where
  size := bytes.length
  reads := fullReads F.BLOCK_SIZE bytes
  reads_le := fullReads_bound F.BLOCK_SIZE bytes

theorem blockData_apply (r : List UInt8) (k : ℕ) : blockData r k = r.getD k 0 := by
  rw [blockData, blit, Nat.sub_zero]
  split_ifs with h
  · rfl
  · rw [List.getD_eq_default _ _ (by omega)]

theorem blockData_fullReads (hn : 0 < n) (bytes : List UInt8) (i : ℕ) {k : ℕ} (hk : k < n) :
    blockData ((fullReads n bytes).getD i []) k = bytes.getD (i*n+k) 0 := by
  rw [blockData_apply, getD_fullReads hn, List.getD_eq_getElem?_getD, List.getD_eq_getElem?_getD,
    List.getElem?_take_of_lt hk, List.getElem?_drop]

/-! ### Room -/

/-- The blocks with the data of a file of `len` bytes. -/
def dataBlocks (F : FsH) (len : ℕ) : ℕ := (len+F.BLOCK_SIZE-1)/F.BLOCK_SIZE

/-- The blocks of a file of `len` bytes, with its index block. -/
def fileBlocks (F : FsH) (len : ℕ) : ℕ :=
  dataBlocks F len+if F.NDIRECT < dataBlocks F len then 1 else 0

theorem exec_readPlan {reads : List (List UInt8)} {i b : ℕ} (hlen : i+reads.length ≤ F.NINDIRECT)
    (hroom : b+reads.length+(if i ≤ F.NDIRECT ∧ F.NDIRECT < i+reads.length then 1 else 0) <
      NBLOCK) :
    ∃ m, exec NBLOCK (.outside .disk) b (readPlan F i reads) = .ok m := by
  induction reads generalizing i b with
  | nil =>
    rw [List.length_nil] at hroom
    exact ⟨b, if_pos (by omega)⟩
  | cons r reads ih =>
    rw [List.length_cons] at hlen hroom
    have hb : b < NBLOCK := by omega
    rw [readPlan, List.singleton_append, exec, if_pos hb, savePlan, if_neg (by omega)]
    -- The turn of link `NDIRECT` claims the index block as well.
    by_cases hi : i = F.NDIRECT
    · rw [if_pos ⟨hi.le, by omega⟩] at hroom
      rw [if_pos hi, List.singleton_append, exec, if_pos (by omega)]
      refine ih (by omega) ?_
      rw [if_neg (by omega)]
      omega
    · rw [if_neg hi, List.nil_append]
      refine ih (by omega) ?_
      by_cases hlt : i ≤ F.NDIRECT ∧ F.NDIRECT < i+(reads.length+1)
      · rw [if_pos hlt] at hroom
        rw [if_pos (by omega)]
        omega
      · rw [if_neg hlt] at hroom
        rw [if_neg (by omega)]
        omega

/-! ### Contents -/

/-- The entry `t` reads back as a file with these bytes, in blocks that were claimed behind
`s₀`. -/
structure Contents (F : FsH) (s₀ s : Tool) (t : FilePtr) (bytes : List UInt8) : Prop where
  f_size : s.get F t .f_size = bytes.length
  data : ∀ i < dataBlocks F bytes.length, ∀ k < F.BLOCK_SIZE,
    s.obj (.block (blockOf F s t i)) k = bytes.getD (i*F.BLOCK_SIZE+k) 0
  distinct : ∀ i < dataBlocks F bytes.length, ∀ j < dataBlocks F bytes.length,
    blockOf F s t i = blockOf F s t j → i = j
  new : ∀ i < dataBlocks F bytes.length,
    s₀.nextbno ≤ blockOf F s t i ∧ blockOf F s t i < s.nextbno
  index : F.NDIRECT < dataBlocks F bytes.length → s₀.nextbno ≤ s.get F t .f_indirect ∧
    s.get F t .f_indirect < s.nextbno ∧
    ∀ i < dataBlocks F bytes.length, blockOf F s t i ≠ s.get F t .f_indirect

theorem dataBlocks_le {len : ℕ} (h : len ≤ F.NINDIRECT*F.BLOCK_SIZE) :
    dataBlocks F len ≤ F.NINDIRECT := by
  have hpos := F.blockSize_pos
  refine Nat.le_of_lt_succ (Nat.div_lt_of_lt_mul ?_)
  rw [Nat.mul_succ, Nat.mul_comm]
  omega

theorem Filled.contents {path : List UInt8} {cs : List ℕ}
    (h : Filled F s s' t path (HostFile.ofBytes F bytes) cs)
    (hlen : bytes.length ≤ F.NINDIRECT*F.BLOCK_SIZE) : Contents F s s' t bytes := by
  have hcs : cs.length = dataBlocks F bytes.length :=
    h.length.trans (length_fullReads F.blockSize_pos bytes)
  have hlink : ∀ i (hi : i < dataBlocks F bytes.length), blockOf F s' t i = cs[i] :=
    fun i hi => h.links.link i (hcs ▸ hi)
  constructor
  · rw [h.f_size]
    exact Nat.mod_eq_of_lt (hlen.trans_lt F.size_lt)
  · intro i hi k hk
    rw [hlink i hi, h.data i]
    exact blockData_fullReads F.blockSize_pos bytes i hk
  · intro i hi j hj hij
    rw [hlink i hi, hlink j hj] at hij
    exact (List.Nodup.getElem_inj_iff h.links.nodup).mp hij
  · intro i hi
    rw [hlink i hi]
    obtain ⟨hlow, hlt, _⟩ := h.links.mem _ (List.getElem_mem (hcs ▸ hi))
    exact ⟨hlow, hlt⟩
  · intro hdir
    obtain ⟨hlow, hlt, _⟩ := h.links.indirect (hcs ▸ hdir)
    refine ⟨hlow, hlt, fun i hi => ?_⟩
    rw [hlink i hi]
    exact h.links.ne_index (hcs ▸ hdir) (List.getElem_mem (hcs ▸ hi))

/-! ### Later files -/

/-- The bytes of the entry, of its `n` blocks and of its index block. -/
def FileBytes (F : FsH) (s : Tool) (t : FilePtr) (n : ℕ) (o : Obj) (i : ℕ) : Prop :=
  InFile F t o i ∨ InIndex F s t o ∨ ∃ k < n, o = .block (blockOf F s t k)

/-- The entry lies in a block of a directory. -/
def InDirBlock (F : FsH) (s : Tool) (t : FilePtr) : Prop :=
  ∃ b k, t = F.entry b k ∧ (s.disk b).type = .BLOCK_FILE

/-- The states behind later calls of `write_file`. Each `create_file` leaves the file alone and
returns another fresh entry in a block of a directory. -/
inductive Later (F : FsH) (t : FilePtr) (n : ℕ) (s : Tool) : Tool → Prop
  | refl : Later F t n s s
  | file {s₁ s₂ s₃ : Tool} {t' : FilePtr} {A : Obj → ℕ → Prop} {path : List UInt8}
      {file : HostFile F} : Later F t n s s₁ → Changes s₁ s₂ A →
      (∀ o i, FileBytes F s t n o i → ¬A o i) → FreshEntry F s₂ t' → InDirBlock F s₂ t' →
      t' ≠ t → fillFile F s₂ t' path file = .ok s₃ → Later F t n s s₃

/-- A file is another one than the entries in directory blocks, but for its own entry. -/
theorem Links.fileBytes_apart {low : ℕ} {cs : List ℕ} {t' : FilePtr} {o : Obj} {i : ℕ}
    (hl : Links F low s t .BLOCK_DATA cs) (hdir : InDirBlock F s t)
    {A : Obj → ℕ → Prop} (hk : Keeps s s' A) (hdir' : InDirBlock F s' t') (hne : t' ≠ t)
    (h : FileBytes F s t cs.length o i) : ¬InFile F t' o i := by
  obtain ⟨b, k, rfl, htype⟩ := hdir
  obtain ⟨b', k', rfl, htype'⟩ := hdir'
  -- The entries of later files are in blocks of another type.
  have hblock : ∀ c < s.nextbno, (s.disk c).type ≠ .BLOCK_FILE → ¬InFile F (F.entry b' k')
      (.block c) i := by
    rintro c hc hct ⟨ho, _⟩
    injection ho with hcb
    subst hcb
    exact hct ((hk.type c hc).symm.trans htype')
  rcases h with h | h | ⟨j, hj, rfl⟩
  · exact FsH.entry_apart hne.symm h
  · obtain ⟨_, hlt, hindex⟩ := hl.indirect (hl.lt_of_inIndex h)
    rw [h.2]
    exact hblock _ hlt (by rw [hindex]; decide)
  · obtain ⟨_, hlt, hdata⟩ := hl.mem _ (List.getElem_mem hj)
    rw [hl.link j hj]
    exact hblock _ hlt (by rw [hdata]; decide)

theorem Links.fileBytes_below {low : ℕ} {cs : List ℕ} {o : Obj} {i : ℕ}
    (hl : Links F low s t .BLOCK_DATA cs) (h : FileBytes F s t cs.length o i) :
    o.Below s.nextbno := by
  rcases h with ⟨rfl, _⟩ | h | ⟨j, hj, rfl⟩
  · exact hl.below
  · rw [h.2]
    exact (hl.indirect (hl.lt_of_inIndex h)).2.1
  · rw [hl.link j hj]
    exact (hl.mem _ (List.getElem_mem hj)).2.1

theorem Later.keeps {low : ℕ} {cs : List ℕ} (hl : Links F low s t .BLOCK_DATA cs)
    (hdir : InDirBlock F s t) (h : Later F t cs.length s s') :
    Keeps s s' (fun o i => ¬FileBytes F s t cs.length o i) := by
  induction h with
  | refl => exact (Changes.refl _ _).toKeeps
  | file _ hc hA hfresh hdir' hne hok ih =>
    have hk₂ := ih.trans hc.toKeeps fun o i _ ha hf => hA o i hf ha
    obtain ⟨n, _, _, cs', hfilled⟩ := (fillFile_follows hfresh _ _).of_ok hok
    exact hk₂.trans hfilled.changes.toKeeps
      fun o i _ ha hf => hl.fileBytes_apart hdir hk₂ hdir' hne hf ha

theorem Contents.keeps (h : Contents F s₀ s t bytes) (hpos : 0 < s₀.nextbno)
    (hold : t.obj.Below s.nextbno)
    (hk : Keeps s s' (fun o i => ¬FileBytes F s t (dataBlocks F bytes.length) o i)) :
    Contents F s₀ s' t bytes := by
  have hwords : ∀ i, InWords F t t.obj i →
      ¬¬FileBytes F s t (dataBlocks F bytes.length) t.obj i :=
    fun i hi hnf => hnf (Or.inl hi.inFile)
  have hget : ∀ w, s'.get F t w = s.get F t w := fun w => hk.get hold w hwords
  have hblock : ∀ i < dataBlocks F bytes.length, blockOf F s' t i = blockOf F s t i := by
    intro i hi
    refine hk.blockOf hold hwords fun hdir => ?_
    obtain ⟨hlow, hlt, _⟩ := h.index (hdir.trans_lt hi)
    exact ⟨hlt, fun j hnf => hnf (Or.inr (Or.inl ⟨(hpos.trans_le hlow).ne', rfl⟩))⟩
  constructor
  · rw [hget, h.f_size]
  · intro i hi k hk'
    rw [hblock i hi, ← h.data i hi k hk']
    exact hk.byte (.block _) (h.new i hi).2 k fun hnf => hnf (Or.inr (Or.inr ⟨i, hi, rfl⟩))
  · intro i hi j hj hij
    rw [hblock i hi, hblock j hj] at hij
    exact h.distinct i hi j hj hij
  · intro i hi
    rw [hblock i hi]
    exact ⟨(h.new i hi).1, (h.new i hi).2.trans_le hk.next_le⟩
  · intro hdir
    obtain ⟨hlow, hlt, hne⟩ := h.index hdir
    rw [hget]
    exact ⟨hlow, hlt.trans_le hk.next_le, fun i hi => hblock i hi ▸ hne i hi⟩

/-- `write_file` on a fresh entry, with blocks left also for the place of its last `read`: the
file reads back as the bytes that were read, and later files leave it as it is. -/
theorem write_file_contents (h : FreshEntry F s t) (hdir : InDirBlock F s t)
    {path : List UInt8} (hname : (fname path).length < F.MAXNAMELEN)
    (hlen : bytes.length ≤ F.NINDIRECT*F.BLOCK_SIZE)
    (hroom : s.nextbno+fileBlocks F bytes.length < NBLOCK) :
    ∃ s', fillFile F s t path (HostFile.ofBytes F bytes) = .ok s' ∧ Contents F s s' t bytes ∧
      ∀ s'', Later F t (dataBlocks F bytes.length) s' s'' → Contents F s s'' t bytes ∧
        ∀ o i, FileBytes F s' t (dataBlocks F bytes.length) o i → s''.obj o i = s'.obj o i := by
  have hreads : (HostFile.ofBytes F bytes).reads.length = dataBlocks F bytes.length :=
    length_fullReads F.blockSize_pos bytes
  have hexec : ∃ m, exec NBLOCK (.outside .disk) s.nextbno
      (fillPlan F path (HostFile.ofBytes F bytes).reads) = .ok m := by
    rw [fillPlan, if_pos hname]
    refine exec_readPlan ?_ ?_
    · rw [hreads, Nat.zero_add]
      exact dataBlocks_le hlen
    · rw [fileBlocks] at hroom
      rw [hreads, Nat.zero_add]
      simpa [Nat.add_assoc] using hroom
  obtain ⟨m, hm⟩ := hexec
  obtain ⟨s', hok, _, cs, hfilled⟩ :=
    (fillFile_follows h path (HostFile.ofBytes F bytes)).of_exec hm
  have hcontents := hfilled.contents hlen
  have hcs : cs.length = dataBlocks F bytes.length := hfilled.length.trans hreads
  have hold : t.obj.Below s'.nextbno := h.older.mono hfilled.changes.next_le
  have hdir' : InDirBlock F s' t := by
    obtain ⟨b, k, rfl, htype⟩ := hdir
    exact ⟨b, k, rfl, (hfilled.changes.type b h.older).trans htype⟩
  refine ⟨s', hok, hcontents, fun s'' hlater => ?_⟩
  rw [← hcs] at hlater ⊢
  have hk := Later.keeps hfilled.links hdir' hlater
  exact ⟨hcontents.keeps h.next_pos hold (hcs ▸ hk), fun o i hf =>
    hk.byte o (hfilled.links.fileBytes_below hf) i (not_not.mpr hf)⟩

end

/-- A tool with an empty directory block. -/
def oneDirBlock : Tool := { Tool.start.setType 3 .BLOCK_FILE with nextbno := 4 }

theorem oneDirBlock_fresh : FreshEntry (FsH.sample .little) oneDirBlock
    ((FsH.sample .little).entry 3 0) := by
  have hzero : ∀ o i, oneDirBlock.obj o i = 0 := by
    intro o i
    cases o with
    | super => rfl
    | block b => exact congrFun (data_setType 3 b .BLOCK_FILE) i
  exact ⟨by decide, by decide, Nat.lt_succ_self 3, fun i _ => hzero _ i, fun b _ i => hzero (.block b) i⟩

/-- The file "a" with eleven blocks, the last of them in the index block. -/
theorem write_file_contents_indirect :
    ∃ s', fillFile (FsH.sample .little) oneDirBlock ((FsH.sample .little).entry 3 0) [97]
        (HostFile.ofBytes (FsH.sample .little) (List.replicate 41000 7)) = .ok s' ∧
      Contents (FsH.sample .little) oneDirBlock s' ((FsH.sample .little).entry 3 0)
        (List.replicate 41000 7) ∧
      ∀ s'', Later (FsH.sample .little) ((FsH.sample .little).entry 3 0) 11 s' s'' →
        Contents (FsH.sample .little) oneDirBlock s'' ((FsH.sample .little).entry 3 0)
          (List.replicate 41000 7) ∧
        ∀ o i, FileBytes (FsH.sample .little) s' ((FsH.sample .little).entry 3 0) 11 o i →
          s''.obj o i = s'.obj o i := by
  have hlen : (List.replicate 41000 (7 : UInt8)).length = 41000 := List.length_replicate
  have hblocks : dataBlocks (FsH.sample .little) 41000 = 11 := by decide
  have hname : (fname [97]).length < (FsH.sample .little).MAXNAMELEN := by decide
  have hroom : oneDirBlock.nextbno+fileBlocks (FsH.sample .little) 41000 < NBLOCK := by decide
  rw [← hlen] at hroom
  have hfile := write_file_contents oneDirBlock_fresh
    ⟨3, 0, rfl, by simp [oneDirBlock, Tool.setType]⟩ hname (by rw [hlen]; decide) hroom
  rwa [hlen, hblocks] at hfile

end RiscvMos.Fsformat
