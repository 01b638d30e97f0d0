import RiscvMos.LibBudget
import RiscvMos.FsMemory

/-! The links of a file: the direct ones, then the words of its index block. -/
namespace RiscvMos.Fsformat
open ByteMem HostWord Function Budget

section
variable {F : FsH} {s s' : Tool} {f : FilePtr} {low : ℕ} {type : BlockType} {bs : List ℕ}

/-- Block `i` of a file, as the file system reads it. -/
def blockOf (F : FsH) (s : Tool) (f : FilePtr) (i : ℕ) : ℕ :=
  if h : i < F.NDIRECT then s.get F f (.f_direct ⟨i, h⟩)
  else s.getIndex F (s.get F f .f_indirect) i

/-- The blocks `bs` of one type are linked to `f`, in their order; they and the index block are
different blocks from `low` on, and `f` is older. -/
structure Links (F : FsH) (low : ℕ) (s : Tool) (f : FilePtr) (type : BlockType)
    (bs : List ℕ) : Prop where
  type_ne : type ≠ .BLOCK_INDEX
  low_pos : 0 < low
  low_le : low ≤ s.nextbno
  next_le : s.nextbno ≤ NBLOCK
  older : f.obj.Below low
  link : ∀ i (h : i < bs.length), blockOf F s f i = bs[i]
  mem : ∀ b ∈ bs, low ≤ b ∧ b < s.nextbno ∧ (s.disk b).type = type
  nodup : bs.Nodup
  direct : bs.length ≤ F.NDIRECT → s.get F f .f_indirect = 0
  indirect : F.NDIRECT < bs.length → low ≤ s.get F f .f_indirect ∧
    s.get F f .f_indirect < s.nextbno ∧ (s.disk (s.get F f .f_indirect)).type = .BLOCK_INDEX

/-- The index block of `f`, once it has one. -/
def InIndex (F : FsH) (s : Tool) (f : FilePtr) (o : Obj) : Prop :=
  s.get F f .f_indirect ≠ 0 ∧ o = .block (s.get F f .f_indirect)

/-- The bytes that a new link changes. -/
def InLinks (F : FsH) (s : Tool) (f : FilePtr) (o : Obj) (i : ℕ) : Prop :=
  InWords F f o i ∨ InIndex F s f o

theorem Obj.Below.ne_block {o : Obj} (h : o.Below low) {b : ℕ} (hb : low ≤ b) : o ≠ .block b := by
  rintro rfl
  exact absurd h (not_lt.mpr hb)

theorem Links.below (hl : Links F low s f type bs) : f.obj.Below s.nextbno :=
  hl.older.mono hl.low_le

theorem Links.lt_of_inIndex (hl : Links F low s f type bs) {o : Obj} (h : InIndex F s f o) :
    F.NDIRECT < bs.length :=
  not_le.mp fun hle => h.1 (hl.direct hle)

theorem Links.indirect_ne_zero (hl : Links F low s f type bs) (h : F.NDIRECT < bs.length) :
    s.get F f .f_indirect ≠ 0 :=
  (hl.low_pos.trans_le (hl.indirect h).1).ne'

/-- The types tell a block of the file from its index block. -/
theorem Links.ne_index (hl : Links F low s f type bs) (h : F.NDIRECT < bs.length) {b : ℕ}
    (hb : b ∈ bs) : b ≠ s.get F f .f_indirect := by
  rintro rfl
  exact hl.type_ne ((hl.mem _ hb).2.2.symm.trans (hl.indirect h).2.2)

theorem Keeps.blockOf {A : Obj → ℕ → Prop} (h : Keeps s s' A) (hf : f.obj.Below s.nextbno)
    (hA : ∀ i, InWords F f f.obj i → ¬A f.obj i) {i : ℕ}
    (hind : F.NDIRECT ≤ i → s.get F f .f_indirect < s.nextbno ∧
      ∀ j, ¬A (.block (s.get F f .f_indirect)) j) :
    Fsformat.blockOf F s' f i = Fsformat.blockOf F s f i := by
  rw [Fsformat.blockOf, Fsformat.blockOf, h.get hf .f_indirect hA]
  split_ifs with hi
  · exact h.get hf _ hA
  · obtain ⟨hlt, hfree⟩ := hind (by omega)
    exact h.getIndex hlt hfree i

theorem Links.congr {A : Obj → ℕ → Prop} (hl : Links F low s f type bs) (h : Keeps s s' A)
    (hnext : s'.nextbno ≤ NBLOCK) (hA : ∀ i, InWords F f f.obj i → ¬A f.obj i)
    (hind : F.NDIRECT < bs.length → ∀ j, ¬A (.block (s.get F f .f_indirect)) j) :
    Links F low s' f type bs := by
  have hold := hl.below
  have hget := h.get hold .f_indirect hA
  constructor
  · exact hl.type_ne
  · exact hl.low_pos
  · exact hl.low_le.trans h.next_le
  · exact hnext
  · exact hl.older
  · intro i hi
    rw [h.blockOf hold hA fun hdir => ?_, hl.link i hi]
    exact ⟨(hl.indirect (by omega)).2.1, hind (by omega)⟩
  · intro b hb
    obtain ⟨hlow, hlt, htype⟩ := hl.mem b hb
    exact ⟨hlow, hlt.trans_le h.next_le, by rw [h.type b hlt, htype]⟩
  · exact hl.nodup
  · intro hlen
    rw [hget, hl.direct hlen]
  · intro hlen
    obtain ⟨hlow, hlt, htype⟩ := hl.indirect hlen
    rw [hget]
    exact ⟨hlow, hlt.trans_le h.next_le, by rw [h.type _ hlt, htype]⟩

theorem Links.nil (hlow : 0 < s.nextbno) (hnext : s.nextbno ≤ NBLOCK) (hf : f.obj.Below s.nextbno)
    (h0 : s.get F f .f_indirect = 0) (htype : type ≠ .BLOCK_INDEX) :
    Links F s.nextbno s f type [] where
  type_ne := htype
  low_pos := hlow
  low_le := le_rfl
  next_le := hnext
  older := hf
  link i hi := absurd hi (Nat.not_lt_zero i)
  mem _ hb := absurd hb List.not_mem_nil
  nodup := List.nodup_nil
  direct _ := h0
  indirect hlen := absurd hlen (Nat.not_lt_zero _)

theorem getIndex_set {b : ℕ} (h : f.obj ≠ .block b) (w : FileWord F.NDIRECT) (v i : ℕ) :
    (s.set F f w v).getIndex F b i = s.getIndex F b i :=
  congrArg (fun m => loadAs F.host m (4*i) 4) (obj_setObj_ne h.symm)

theorem Links.set (hl : Links F low s f type bs) {w : FileWord F.NDIRECT}
    (hdir : ∀ i, w ≠ .f_direct i) (hind : w ≠ .f_indirect) (v : ℕ) :
    Links F low (s.set F f w v) f type bs := by
  have hget : (s.set F f w v).get F f .f_indirect = s.get F f .f_indirect :=
    get_set_ne hind.symm v
  constructor
  · exact hl.type_ne
  · exact hl.low_pos
  · rw [nextbno_set]
    exact hl.low_le
  · rw [nextbno_set]
    exact hl.next_le
  · exact hl.older
  · intro i hi
    rw [← hl.link i hi, blockOf, blockOf]
    by_cases h : i < F.NDIRECT
    · rw [dif_pos h, dif_pos h, get_set_ne (hdir _).symm]
    · rw [dif_neg h, dif_neg h, hget,
        getIndex_set (hl.older.ne_block (hl.indirect (by omega)).1)]
  · intro b hb
    rw [nextbno_set, type_set]
    exact hl.mem b hb
  · exact hl.nodup
  · intro hlen
    rw [hget, hl.direct hlen]
  · intro hlen
    rw [hget, nextbno_set, type_set]
    exact hl.indirect hlen

/-! ### A new link -/

theorem saveBlockLink_direct {i : ℕ} (hi : i < F.NDIRECT) (bno : ℕ) :
    saveBlockLink F s f i bno = .ok (s.set F f (.f_direct ⟨i, hi⟩) bno) := by
  have hlen : i < F.NINDIRECT := hi.trans F.direct_lt
  rw [saveBlockLink, if_pos hlen, dif_pos hi]

/-- The first link behind the direct ones needs an index block. -/
theorem saveBlockLink_first {i : ℕ} (hlen : i < F.NINDIRECT) (hi : ¬i < F.NDIRECT)
    (h0 : s.get F f .f_indirect = 0) (bno : ℕ) :
    saveBlockLink F s f i bno = if s.nextbno < NBLOCK then
        .ok (((s.claim .BLOCK_INDEX).set F f .f_indirect s.nextbno).setIndex F s.nextbno i bno)
      else .error (.outside .disk) := by
  rw [saveBlockLink, if_pos hlen, dif_neg hi, if_pos h0, nextBlock_eq]
  split_ifs with hroom
  · have hN : NBLOCK < 2^32 := by decide
    have hset : ((s.claim .BLOCK_INDEX).set F f .f_indirect s.nextbno).get F f .f_indirect =
        s.nextbno := get_set_same _ (hroom.trans hN)
    show (index (((s.claim .BLOCK_INDEX).set F f .f_indirect s.nextbno).get F f .f_indirect) >>=
      fun _ => _) = _
    rw [hset, index_bind hroom]
  · rfl

theorem saveBlockLink_next {i : ℕ} (hlen : i < F.NINDIRECT) (hi : ¬i < F.NDIRECT)
    (h0 : s.get F f .f_indirect ≠ 0) (hlt : s.get F f .f_indirect < NBLOCK) (bno : ℕ) :
    saveBlockLink F s f i bno = .ok (s.setIndex F (s.get F f .f_indirect) i bno) := by
  rw [saveBlockLink, if_pos hlen, dif_neg hi, if_neg h0]
  exact index_bind hlt _

@[simp] theorem get_claim (type : BlockType) (w : FileWord F.NDIRECT) :
    (s.claim type).get F f w = s.get F f w := by
  rw [Tool.get, obj_claim, Tool.get]

@[simp] theorem getIndex_claim (type : BlockType) (b i : ℕ) :
    (s.claim type).getIndex F b i = s.getIndex F b i :=
  congrArg (fun m => loadAs F.host m (4*i) 4) (obj_claim type (.block b))

theorem get_setIndex {b : ℕ} (h : f.obj ≠ .block b) (i v : ℕ) (w : FileWord F.NDIRECT) :
    (s.setIndex F b i v).get F f w = s.get F f w := by
  rw [Tool.get, Tool.setIndex, obj_setObj_ne h, Tool.get]

theorem Links.snoc (hl : Links F low s f type bs) {A : Obj → ℕ → Prop} (h : Changes s s' A)
    (hlt : s.nextbno < s'.nextbno) (hnext : s'.nextbno ≤ NBLOCK)
    (hkeep : ∀ i < bs.length, blockOf F s' f i = blockOf F s f i)
    (hnew : blockOf F s' f bs.length = s.nextbno) (htype : (s'.disk s.nextbno).type = type)
    (hdirect : bs.length < F.NDIRECT → s'.get F f .f_indirect = 0)
    (hind : F.NDIRECT ≤ bs.length → low ≤ s'.get F f .f_indirect ∧
      s'.get F f .f_indirect < s'.nextbno ∧
      (s'.disk (s'.get F f .f_indirect)).type = .BLOCK_INDEX) :
    Links F low s' f type (bs ++ [s.nextbno]) where
  type_ne := hl.type_ne
  low_pos := hl.low_pos
  low_le := hl.low_le.trans h.next_le
  next_le := hnext
  older := hl.older
  link i hi := by
    rw [List.length_append, List.length_singleton] at hi
    by_cases hlast : i = bs.length
    · subst hlast
      rw [hnew, List.getElem_concat_length rfl]
    · have hi' : i < bs.length := by omega
      rw [hkeep i hi', hl.link i hi', List.getElem_append_left hi']
  mem b hb := by
    rcases List.mem_append.mp hb with hb | hb
    · obtain ⟨hlow, hb', ht⟩ := hl.mem b hb
      exact ⟨hlow, by omega, by rw [h.type b hb', ht]⟩
    · rw [List.mem_singleton] at hb
      subst hb
      exact ⟨hl.low_le, hlt, htype⟩
  nodup := by
    rw [List.nodup_append]
    refine ⟨hl.nodup, List.nodup_singleton _, ?_⟩
    intro b hb c hc hbc
    rw [List.mem_singleton] at hc
    have := (hl.mem b hb).2.1
    omega
  direct hlen := by
    rw [List.length_append, List.length_singleton] at hlen
    exact hdirect (by omega)
  indirect hlen := by
    rw [List.length_append, List.length_singleton] at hlen
    exact hind (by omega)

/-- The state after a new link to the block `s.nextbno`. -/
structure Linked (F : FsH) (low : ℕ) (s s' : Tool) (f : FilePtr) (type : BlockType)
    (bs : List ℕ) : Prop where
  links : Links F low s' f type (bs ++ [s.nextbno])
  changes : Changes s s' (InLinks F s f)
  data : s'.obj (.block s.nextbno) = s.obj (.block s.nextbno)
  other : ∀ w, (∀ i, w ≠ .f_direct i) → w ≠ .f_indirect → s'.get F f w = s.get F f w

theorem Links.linked_direct (hl : Links F low s f type bs) (hi : bs.length < F.NDIRECT)
    (hroom : s.nextbno < NBLOCK) :
    Linked F low s ((s.claim type).set F f (.f_direct ⟨bs.length, hi⟩) s.nextbno) f type bs := by
  have hold := hl.below
  have hN : NBLOCK < 2^32 := by decide
  have hch : Changes s ((s.claim type).set F f (.f_direct ⟨bs.length, hi⟩) s.nextbno)
      (InWords F f) :=
    (claim_changes type _).trans (set_changes (hold.mono (Nat.le_succ _)) _ _) fun _ _ _ h => h
  have hget : ∀ w, w ≠ .f_direct ⟨bs.length, hi⟩ →
      ((s.claim type).set F f (.f_direct ⟨bs.length, hi⟩) s.nextbno).get F f w = s.get F f w := by
    intro w hw
    rw [get_set_ne hw, get_claim]
  constructor
  · refine hl.snoc hch ?_ ?_ ?_ ?_ ?_ ?_ ?_
    · simp
    · simpa using Nat.succ_le_of_lt hroom
    · intro i hlt
      have hi' : i < F.NDIRECT := hlt.trans hi
      rw [blockOf, blockOf, dif_pos hi', dif_pos hi', hget]
      intro he
      injection he with he
      injection he with he
      omega
    · rw [blockOf, dif_pos hi, get_set_same _ (hroom.trans hN)]
    · rw [type_set, type_claim_same]
    · intro hlt
      exact (hget .f_indirect nofun).trans (hl.direct hlt.le)
    · intro hle
      omega
  · exact hch.mono fun _ _ _ h => Or.inl h
  · rw [Tool.set, obj_setObj_ne (hold.ne_block le_rfl).symm, obj_claim]
  · intro w hw _
    exact hget w (hw _)

theorem Links.linked_first (hl : Links F low s f type bs)
    (hi : bs.length = F.NDIRECT) (hroom : s.nextbno+1 < NBLOCK) :
    Linked F low s ((((s.claim type).claim .BLOCK_INDEX).set F f .f_indirect
      (s.nextbno+1)).setIndex F (s.nextbno+1) bs.length s.nextbno) f type bs := by
  have hold := hl.below
  have hne : f.obj ≠ .block (s.nextbno+1) := hold.ne_block (Nat.le_succ _)
  have hN : NBLOCK < 2^32 := by decide
  -- The index block is claimed behind the block that it links.
  set s₁ := ((s.claim type).claim .BLOCK_INDEX).set F f .f_indirect (s.nextbno+1) with hs₁
  have hch₁ : Changes s s₁ (InWords F f) :=
    (claim_changes type _).trans ((claim_changes _ _).trans
      (set_changes (hold.mono (Nat.le_add_right _ 2)) _ _) fun _ _ _ h => h) fun _ _ _ h => h
  have hlt₁ : s.nextbno+1 < s₁.nextbno := by
    simp [hs₁]
  have hch : Changes s (s₁.setIndex F (s.nextbno+1) bs.length s.nextbno) (InWords F f) := by
    refine hch₁.trans (setIndex_changes hlt₁ _ _) ?_
    rintro _ _ ho rfl
    exact absurd ho (not_lt.mpr (Nat.le_succ _))
  have hind : (s₁.setIndex F (s.nextbno+1) bs.length s.nextbno).get F f .f_indirect =
      s.nextbno+1 := by
    rw [get_setIndex hne, get_set_same _ (hroom.trans hN)]
  have hget : ∀ w, w ≠ .f_indirect →
      (s₁.setIndex F (s.nextbno+1) bs.length s.nextbno).get F f w = s.get F f w := by
    intro w hw
    rw [get_setIndex hne, get_set_ne hw, get_claim, get_claim]
  have htype : ((s₁.setIndex F (s.nextbno+1) bs.length s.nextbno).disk (s.nextbno+1)).type =
      .BLOCK_INDEX := by
    rw [type_setIndex, hs₁, type_set]
    exact type_claim_same .BLOCK_INDEX
  constructor
  · refine hl.snoc hch ?_ ?_ ?_ ?_ ?_ ?_ ?_
    · rw [nextbno_setIndex]
      exact (Nat.lt_succ_self _).trans hlt₁
    · simpa [hs₁] using Nat.succ_le_of_lt hroom
    · intro i hlt
      have hi' : i < F.NDIRECT := by omega
      rw [blockOf, blockOf, dif_pos hi', dif_pos hi']
      exact hget _ nofun
    · rw [blockOf, dif_neg (by omega), hind, getIndex_setIndex_same _ _ (by omega)]
    · rw [type_setIndex, hs₁, type_set, type_claim_ne _ (by simp), type_claim_same]
    · intro hlt
      omega
    · intro _
      rw [hind]
      exact ⟨hl.low_le.trans (Nat.le_succ _), by simpa using hlt₁, htype⟩
  · exact hch.mono fun _ _ _ h => Or.inl h
  · rw [Tool.setIndex, obj_setObj_ne (by simp), hs₁, Tool.set,
      obj_setObj_ne (hold.ne_block le_rfl).symm, obj_claim, obj_claim]
  · intro w _ hw
    exact hget w hw

theorem Links.linked_next (hl : Links F low s f type bs)
    (hi : F.NDIRECT < bs.length) (hroom : s.nextbno < NBLOCK) :
    Linked F low s ((s.claim type).setIndex F (s.get F f .f_indirect) bs.length s.nextbno)
      f type bs := by
  have hold := hl.below
  have hN : NBLOCK < 2^32 := by decide
  obtain ⟨hlow, hlt, htype⟩ := hl.indirect hi
  have hne : f.obj ≠ .block (s.get F f .f_indirect) := hl.older.ne_block hlow
  have hch : Changes s ((s.claim type).setIndex F (s.get F f .f_indirect) bs.length s.nextbno)
      (fun o _ => o = .block (s.get F f .f_indirect)) :=
    (claim_changes type _).trans (setIndex_changes (hlt.trans (Nat.lt_succ_self _)) _ _)
      fun _ _ _ h => h
  have hget : ∀ w, ((s.claim type).setIndex F (s.get F f .f_indirect) bs.length s.nextbno).get F f w
      = s.get F f w := by
    intro w
    rw [get_setIndex hne, get_claim]
  constructor
  · refine hl.snoc hch ?_ ?_ ?_ ?_ ?_ ?_ ?_
    · simp
    · simpa using Nat.succ_le_of_lt hroom
    · intro i hlt'
      rw [blockOf, blockOf]
      by_cases hdir : i < F.NDIRECT
      · rw [dif_pos hdir, dif_pos hdir, hget]
      · rw [dif_neg hdir, dif_neg hdir, hget, getIndex_setIndex_ne _ hlt'.ne, getIndex_claim]
    · rw [blockOf, dif_neg (by omega), hget, getIndex_setIndex_same _ _ (hroom.trans hN)]
    · rw [type_setIndex, type_claim_same]
    · intro hdir
      omega
    · intro _
      rw [hget, type_setIndex, type_claim_ne _ hlt.ne]
      exact ⟨hlow, by simpa using hlt.trans (Nat.lt_succ_self _), htype⟩
  · exact hch.mono fun _ _ _ h => Or.inr ⟨hl.indirect_ne_zero hi, h⟩
  · rw [Tool.setIndex, obj_setObj_ne (by simpa using hlt.ne'), obj_claim]
  · intro w _ _
    exact hget w

/-! ### The counter of blocks -/

/-- What `save_block_link` does to the counter. -/
def savePlan (F : FsH) (i : ℕ) : List (Ev Stop) :=
  if F.NINDIRECT ≤ i then [.halt .assert] else if i = F.NDIRECT then [.take] else []

theorem index_follows (n : ℕ) :
    Follows NBLOCK (.outside .disk) n [.peek] (index n) (fun m _ => m = n ∧ n < NBLOCK) := by
  rw [Follows, exec, index]
  split_ifs with hn
  · exact ⟨(), rfl, rfl, hn⟩
  · rfl

theorem nextBlock_follows (s : Tool) (type : BlockType) :
    Follows NBLOCK (.outside .disk) s.nextbno [.take] (nextBlock s type)
      (fun n r => n = s.nextbno+1 ∧ n ≤ NBLOCK ∧ r = (s.nextbno, s.claim type)) := by
  rw [Follows, exec, nextBlock_eq]
  split_ifs with hn
  · exact ⟨_, rfl, rfl, hn, rfl⟩
  · rfl

theorem Links.save (hl : Links F low s f type bs) (hroom : s.nextbno < NBLOCK) :
    Follows NBLOCK (.outside .disk) (s.nextbno+1) (savePlan F bs.length)
      (saveBlockLink F (s.claim type) f bs.length s.nextbno)
      (fun n s' => n = s'.nextbno ∧ Linked F low s s' f type bs) := by
  rw [savePlan]
  by_cases hlen : F.NINDIRECT ≤ bs.length
  · rw [if_pos hlen, saveBlockLink, if_neg (not_lt.mpr hlen)]
    exact Follows.halt _
  · rw [if_neg hlen]
    rw [not_le] at hlen
    -- A direct link, the first one behind them, or a later one.
    rcases lt_trichotomy bs.length F.NDIRECT with hi | hi | hi
    · rw [if_neg hi.ne, saveBlockLink_direct hi]
      exact Follows.ok ⟨by rw [nextbno_set, nextbno_claim], hl.linked_direct hi hroom⟩
    · have h0 : (s.claim type).get F f .f_indirect = 0 := by rw [get_claim, hl.direct hi.le]
      rw [if_pos hi, saveBlockLink_first hlen hi.not_lt h0, Follows, exec, nextbno_claim]
      split_ifs with h2
      · refine ⟨_, rfl, ?_, hl.linked_first hi h2⟩
        rw [nextbno_setIndex, nextbno_set, nextbno_claim, nextbno_claim]
      · rfl
    · have h0 := hl.indirect_ne_zero hi
      have hlt := (hl.indirect hi).2.1
      rw [← get_claim type] at h0 hlt
      rw [if_neg hi.ne', saveBlockLink_next hlen hi.not_gt h0 (hlt.trans hroom), get_claim]
      exact Follows.ok ⟨by rw [nextbno_setIndex, nextbno_claim], hl.linked_next hi hroom⟩

end

end RiscvMos.Fsformat
