import RiscvMos.FsDirectory

/-! The disk before the first argument. -/
namespace RiscvMos.Fsformat
open ByteMem HostWord Function Budget

section
variable {F : FsH} {s : Tool}

/-! ### Bitmap blocks -/

theorem FsH.le_blockSizeBit (F : FsH) : 32 ≤ F.BLOCK_SIZE_BIT := by
  have h := F.direct_lt
  rw [FsH.BLOCK_SIZE_BIT]
  omega

theorem bitmap_lt {i : ℕ} (hi : i < NBLOCK) : 2+i/F.BLOCK_SIZE_BIT < NBLOCK := by
  have hdiv : i/F.BLOCK_SIZE_BIT ≤ i/32 := Nat.div_le_div_left F.le_blockSizeBit (by decide)
  rw [NBLOCK] at hi ⊢
  omega

theorem bitmap_blocks_le (F : FsH) : 2+(NBLOCK+F.BLOCK_SIZE_BIT-1)/F.BLOCK_SIZE_BIT ≤ NBLOCK := by
  have hbit := F.le_blockSizeBit
  have hdiv : (NBLOCK+F.BLOCK_SIZE_BIT-1)/F.BLOCK_SIZE_BIT ≤ NBLOCK/F.BLOCK_SIZE_BIT+1 := by
    rw [← Nat.add_div_right _ (by omega)]
    exact Nat.div_le_div_right (Nat.sub_le _ _)
  have hle : NBLOCK/F.BLOCK_SIZE_BIT ≤ NBLOCK/32 := Nat.div_le_div_left hbit (by decide)
  rw [NBLOCK] at hdiv hle ⊢
  omega

@[simp] theorem nextbno_setType (b : ℕ) (type : BlockType) :
    (s.setType b type).nextbno = s.nextbno := rfl

@[simp] theorem obj_setType (b : ℕ) (type : BlockType) (o : Obj) :
    (s.setType b type).obj o = s.obj o := by
  cases o with
  | super => rfl
  | block c =>
    by_cases h : c = b
    · subst h
      simp [Tool.setType, Tool.obj]
    · simp [Tool.setType, Tool.obj, update_of_ne h]

theorem data_setType (b c : ℕ) (type : BlockType) :
    ((s.setType b type).disk c).data = (s.disk c).data := obj_setType b type (.block c)

@[simp] theorem nextbno_bitmapLoop (n : ℕ) : (bitmapLoop F s n).nextbno = s.nextbno := by
  induction n with
  | zero => rfl
  | succ n ih => rw [bitmapLoop, nextbno_setObj, nextbno_setType, ih]

theorem obj_bitmapLoop {n : ℕ} {o : Obj} (h : ∀ b, 2 ≤ b → b < 2+n → o ≠ .block b) :
    (bitmapLoop F s n).obj o = s.obj o := by
  induction n with
  | zero => rfl
  | succ n ih =>
    rw [bitmapLoop, obj_setObj_ne (h _ (by omega) (by omega)), obj_setType,
      ih fun b hb hlt => h b hb (by omega)]

theorem nextbno_initDisk (F : FsH) :
    (initDisk F).nextbno = 2+(NBLOCK+F.BLOCK_SIZE_BIT-1)/F.BLOCK_SIZE_BIT := by
  rw [initDisk]
  dsimp only
  split_ifs
  · simp
  · simp

theorem initDisk_eq (F : FsH) : ∃ s : Tool,
    initDisk F = (s.set F F.root .f_type F.FTYPE_DIR).copyName F F.root 2 [slash] ∧
      s.super = storeAs F.host (storeAs F.host (fun _ => 0) F.s_magic 4 F.FS_MAGIC)
        F.s_nblocks 4 NBLOCK ∧
      (s.disk 1).type = .BLOCK_SUPER ∧
      ∀ b, (initDisk F).nextbno ≤ b → s.obj (.block b) = fun _ => 0 := by
  have hbit := F.le_blockSizeBit
  have hn : 0 < (NBLOCK+F.BLOCK_SIZE_BIT-1)/F.BLOCK_SIZE_BIT :=
    Nat.div_pos (by rw [NBLOCK]; omega) (by omega)
  refine ⟨_, rfl, ?_, ?_, ?_⟩
  · refine congrArg (fun m => storeAs F.host (storeAs F.host m _ 4 _) _ 4 NBLOCK) ?_
    show Tool.obj _ .super = _
    -- Bits behind the last block are there or not.
    split_ifs
    · dsimp only
      rw [obj_setType, obj_setObj_ne (by nofun), obj_bitmapLoop (by nofun)]
      rfl
    · rw [obj_setType, obj_bitmapLoop (by nofun)]
      rfl
  · simp [Tool.setType]
  · intro b hb
    rw [nextbno_initDisk] at hb
    have hne : ∀ c, 2 ≤ c → c < 2+(NBLOCK+F.BLOCK_SIZE_BIT-1)/F.BLOCK_SIZE_BIT →
        Obj.block b ≠ .block c := by
      intro c _ hc he
      injection he with he
      omega
    show (Tool.disk (Tool.setType _ 1 _) b).data = _
    rw [data_setType]
    show Tool.obj _ (.block b) = _
    split_ifs
    · dsimp only
      rw [obj_setObj_ne (hne _ (by omega) (by omega)), obj_bitmapLoop hne]
      exact data_setType 0 b .BLOCK_BOOT
    · rw [obj_bitmapLoop hne]
      exact data_setType 0 b .BLOCK_BOOT

/-- Behind the two words of the super block only the root has been written. -/
theorem super_initDisk (F : FsH) : SameOutside
    (storeAs F.host (storeAs F.host (fun _ => 0) F.s_magic 4 F.FS_MAGIC) F.s_nblocks 4 NBLOCK)
    ((initDisk F).obj .super) F.s_root F.FILE_STRUCT_SIZE := by
  obtain ⟨s, heq, hsuper, _, _⟩ := initDisk_eq F
  have hword := F.word_le .f_type
  have hname := F.name_le
  have hgt := F.name_gt
  have hset : SameOutside s.super ((s.set F F.root .f_type F.FTYPE_DIR).obj .super)
      (F.s_root+F.word .f_type) 4 := storeAs_sameOutside _ _ _ _ _
  have hcopy : SameOutside ((s.set F F.root .f_type F.FTYPE_DIR).obj .super)
      ((initDisk F).obj .super) (F.s_root+F.f_name) 2 := by
    rw [heq]
    show SameOutside _ (Tool.obj (Tool.setObj _ .super _) .super) _ _
    rw [obj_setObj_same]
    exact blit_sameOutside _ _ _ _
  rw [← hsuper]
  exact (hset.mono (by omega) (by omega)).trans (hcopy.mono (by omega) (by omega))

theorem get_root_initDisk {w : FileWord F.NDIRECT} (hw : w ≠ .f_type) :
    (initDisk F).get F F.root w = 0 := by
  obtain ⟨s, heq, hsuper, _, _⟩ := initDisk_eq F
  have hword := F.word_le w
  have hname : (initDisk F).get F F.root w = (s.set F F.root .f_type F.FTYPE_DIR).get F F.root w := by
    rw [heq, Tool.get, Tool.copyName, obj_setObj_same]
    refine loadAs_sameOutside _ (blit_sameOutside _ _ _ _) ?_
    have hgt := F.name_gt
    rcases F.name_apart w with h | h <;> omega
  rw [hname, get_set_ne hw]
  show loadAs F.host s.super (F.s_root+F.word w) 4 = 0
  have hnb := F.nblocks_root
  have hmg := F.magic_root
  rw [hsuper, loadAs_sameOutside _ (storeAs_sameOutside _ _ _ _ _) (by omega),
    loadAs_sameOutside _ (storeAs_sameOutside _ _ _ _ _) (by omega)]
  exact loadAs_zero _ fun _ _ _ => rfl

theorem s_nblocks_initDisk (F : FsH) :
    loadAs F.host ((initDisk F).obj .super) F.s_nblocks 4 = NBLOCK := by
  rw [loadAs_sameOutside _ (super_initDisk F) F.nblocks_root, loadAs_storeAs_same]
  rfl

theorem type_initDisk (F : FsH) : ((initDisk F).disk 1).type = .BLOCK_SUPER := by
  obtain ⟨s, heq, _, htype, _⟩ := initDisk_eq F
  rw [heq, Tool.copyName, type_setObj, type_set, htype]

theorem freeZero_initDisk (F : FsH) : FreeZero (initDisk F) := by
  intro b hb i
  obtain ⟨s, heq, _, _, hzero⟩ := initDisk_eq F
  have hz := hzero b hb
  have hroot : Obj.block b ≠ F.root.obj := by
    intro h
    cases h
  rw [heq, Tool.copyName, obj_setObj_ne hroot, Tool.set, obj_setObj_ne hroot, hz]

theorem initDisk_empty (F : FsH) : EmptyDir F (initDisk F) F.root where
  next_pos := by
    rw [nextbno_initDisk]
    exact Nat.add_pos_left (by decide) _
  next_le := by
    rw [nextbno_initDisk]
    exact bitmap_blocks_le F
  older := trivial
  f_size := get_root_initDisk nofun
  f_indirect := get_root_initDisk nofun
  zero := freeZero_initDisk F

end

end RiscvMos.Fsformat
