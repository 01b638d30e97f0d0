import RiscvMos.FsInit
import RiscvMos.FsRuns

/-! The indices into `disk[]` in a run over all arguments. `finish_fs` counts to 1024, which is
`NBLOCK`, so that they are what decides whether the tool stays in the disk. -/
namespace RiscvMos.Fsformat
open ByteMem HostWord Function Budget

section
variable {F : FsH} {s s' : Tool} {args : List (CmdArg F)}

/-! ### The bitmap -/

theorem flushBitmap_ok {n : ℕ} (hn : n ≤ NBLOCK) : ∃ s', flushBitmap F s n = .ok s' ∧
    (∀ o, (∀ b, 2 ≤ b → o ≠ .block b) → s'.obj o = s.obj o) ∧
    ∀ b, (s'.disk b).type = (s.disk b).type := by
  induction n with
  | zero => exact ⟨s, rfl, fun _ _ => rfl, fun _ => rfl⟩
  | succ n ih =>
    obtain ⟨s₁, hok, hobj, htype⟩ := ih (by omega)
    have hlt : 2+n/F.BLOCK_SIZE_BIT < NBLOCK := bitmap_lt hn
    rw [flushBitmap, hok]
    refine ⟨_, index_bind hlt _, fun o ho => ?_, fun b => ?_⟩
    · rw [Tool.setIndex, obj_setObj_ne (ho _ (Nat.le_add_right _ _)), hobj o ho]
    · rw [type_setIndex, htype]

/-! ### The whole tool -/

/-- What the disk keeps from its start on. -/
structure Built (F : FsH) (s : Tool) : Prop where
  type : (s.disk 1).type = .BLOCK_SUPER
  s_nblocks : loadAs F.host s.super F.s_nblocks 4 = NBLOCK

theorem Dir.built {m : ℕ} {bs : List ℕ} (h : Dir F (initDisk F) s F.root m bs) : Built F s where
  type := by
    have hlt : 1 < (initDisk F).nextbno := by
      rw [nextbno_initDisk]
      exact Nat.lt_of_lt_of_le Nat.one_lt_two (Nat.le_add_right 2 _)
    rw [h.changes.type 1 hlt, type_initDisk]
  s_nblocks := by
    rw [← s_nblocks_initDisk F]
    refine loadAs_congr _ fun i hl hu => h.changes.byte .super trivial i ?_
    rintro ⟨_, w, hwl, hwu⟩
    have hw := F.word_le w
    have hroot := F.nblocks_root
    have hbase : F.root.base = F.s_root := rfl
    omega

theorem buildDisk_follows (hne : args ≠ []) :
    Follows NBLOCK (.outside .disk) (initDisk F).nextbno (argsPlan F 0 args) (buildDisk F args)
      (fun _ s' => Built F s') := by
  rw [buildDisk, if_neg hne]
  refine (argLoop_follows args (initDisk_empty F).dir rfl).bind_ok ?_
  rintro n s ⟨_, m, bs, hdir⟩
  obtain ⟨s', hok, hobj, htype⟩ := flushBitmap_ok hdir.slots.links.next_le
  have hbuilt := hdir.built
  refine ⟨s', hok, ?_, ?_⟩
  · rw [htype, hbuilt.type]
  · rw [← hbuilt.s_nblocks]
    exact congrArg (fun m => loadAs F.host m F.s_nblocks 4) (hobj .super (by nofun))

/-- The first block behind the bitmap. -/
def firstBlock (F : FsH) : ℕ := 2+(NBLOCK+F.BLOCK_SIZE_BIT-1)/F.BLOCK_SIZE_BIT

theorem buildDisk_fits (args : List (CmdArg F)) (bad : Stop → Prop) (hbad : bad (.outside .disk))
    (hexit : ¬bad (.exit 1)) :
    (∀ e, buildDisk F args = .error e → ¬bad e) ↔
      Fits NBLOCK bad (firstBlock F) (argsPlan F 0 args) := by
  by_cases hne : args = []
  · subst hne
    refine iff_of_true (fun e he => ?_) trivial
    injection he with he
    exact he ▸ hexit
  · rw [fits_iff bad hbad, firstBlock, ← nextbno_initDisk]
    refine forall_congr' fun e => ?_
    rw [(buildDisk_follows hne).error_iff]

/-- The tool uses no index outside of `disk[]` exactly when the blocks that its arguments claim
and touch, up to a stop of the tool, fit into the disk. The same holds for its accesses to all
arrays, where a stop may be no access outside of one. -/
theorem build_inside_iff (args : List (CmdArg F)) :
    (buildDisk F args ≠ .error (.outside .disk) ↔
      Fits NBLOCK (fun e => e = .outside .disk) (firstBlock F) (argsPlan F 0 args)) ∧
    ((∀ a, buildDisk F args ≠ .error (.outside a)) ↔
      Fits NBLOCK (fun e => ∃ a, e = .outside a) (firstBlock F) (argsPlan F 0 args)) := by
  constructor
  · rw [← buildDisk_fits args (fun e => e = .outside .disk) rfl nofun]
    exact ⟨fun h e he hbad => h (hbad ▸ he), fun h he => h _ he rfl⟩
  · rw [← buildDisk_fits args (fun e => ∃ a, e = .outside a) ⟨_, rfl⟩ nofun]
    refine ⟨fun h e he => ?_, fun h a he => h _ he ⟨a, rfl⟩⟩
    rintro ⟨a, rfl⟩
    exact h a he

end

/-- 1020 blocks of data, fewer than an index block has words. -/
def manyBlocks : HostFile (FsH.sample .little) where
  size := 1020*4096
  reads := List.replicate 1020 (List.replicate 4096 97)
  reads_le r hr := by
    rw [List.eq_of_mem_replicate hr, List.length_replicate]
    decide

theorem file_of_1020_blocks :
    buildDisk (FsH.sample .little) [.file ⟨[97], by decide⟩ (by decide) manyBlocks] =
      .error (.outside .disk) := by
  rw [(buildDisk_follows (by simp)).error_iff, nextbno_initDisk]
  decide +kernel

end RiscvMos.Fsformat
