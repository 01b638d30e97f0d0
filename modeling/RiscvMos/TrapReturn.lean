import RiscvMos.TrapSpec

/-! Trap entry and exit are inverse: whatever a handler does to the registers and to memory
outside of the frame, `ret_from_exception` puts back what `SAVE_ALL` saved. -/
namespace RiscvMos
open ByteMem Function

/-! ### Bits of sstatus -/

theorem and_sie (x : Word) : x &&& SSTATUS_SIE = 0 ∨ x &&& SSTATUS_SIE = SSTATUS_SIE := by
  have hbit : SSTATUS_SIE = BitVec.twoPow 64 1 := by decide
  rw [hbit, BitVec.and_twoPow]
  split_ifs
  · exact .inr rfl
  · exact .inl rfl

theorem Hart.trap_sstatus (h : Hart) (stvec scause stval : Word) :
    ((h.trap stvec scause stval).sstatus &&& SSTATUS_SPP = 0 ↔ h.mode = .user) ∧
      ((h.trap stvec scause stval).sstatus &&& BitVec.ofNat 64 SSTATUS_SPIE = 0 ↔
        h.sstatus &&& SSTATUS_SIE = 0) := by
  have hspp : ~~~(SSTATUS_SIE ||| BitVec.ofNat 64 SSTATUS_SPIE ||| SSTATUS_SPP) &&& SSTATUS_SPP = 0#64 := by
    decide
  have hspie : ~~~(SSTATUS_SIE ||| BitVec.ofNat 64 SSTATUS_SPIE ||| SSTATUS_SPP) &&&
      BitVec.ofNat 64 SSTATUS_SPIE = 0#64 := by
    decide
  rw [Hart.trap]
  dsimp only
  constructor
  · rw [BitVec.and_or_distrib_right, BitVec.and_or_distrib_right, BitVec.and_assoc, hspp,
      BitVec.and_zero, BitVec.zero_or]
    split_ifs with hsie hmode hmode
    · exact iff_of_true (by decide) hmode
    · exact iff_of_false (by decide) hmode
    · exact iff_of_true (by decide) hmode
    · exact iff_of_false (by decide) hmode
  · rw [BitVec.and_or_distrib_right, BitVec.and_or_distrib_right, BitVec.and_assoc, hspie,
      BitVec.and_zero, BitVec.zero_or]
    split_ifs with hsie hmode hmode
    · exact iff_of_true (by decide) hsie
    · exact iff_of_true (by decide) hsie
    · exact iff_of_false (by decide) hsie
    · exact iff_of_false (by decide) hsie

theorem Hart.sret_sie (h : Hart) : h.sret.sstatus &&& SSTATUS_SIE =
    if h.sstatus &&& BitVec.ofNat 64 SSTATUS_SPIE = 0 then 0 else SSTATUS_SIE := by
  have hsie : ~~~(SSTATUS_SIE ||| SSTATUS_SPP) &&& SSTATUS_SIE = 0 := by decide
  rw [Hart.sret]
  dsimp only
  rw [BitVec.and_or_distrib_right, BitVec.and_or_distrib_right, BitVec.and_assoc, hsie]
  split_ifs
  · simp [SSTATUS_SIE, SSTATUS_SPIE]
  · simp [SSTATUS_SIE, SSTATUS_SPIE]

/-! ### Handlers -/

/-- From user mode, where sscratch has the top of the kernel stack, or from the kernel, where
it is 0. -/
def TrapOrigin (h : Hart) : Prop :=
  h.mode = .user ∧ h.sscratch ≠ 0 ∨ h.mode = .supervisor ∧ h.sscratch = 0

/-- A handler comes back with sp at the frame, and only sepc has changed in the frame. The other
registers and all other memory are free. -/
structure Handles (h : Hart) (m : Mem) (h' : Hart) (m' : Mem) : Prop where
  sp : h'.x 2 = h.x 2
  sscratch : h'.sscratch = h.sscratch
  frame : ∀ i < 36, i ≠ 33 → slotWord m' (h.x 2) i = slotWord m (h.x 2) i

/-- `do_ebreak` on a frame that does not wrap around is such a handler, whatever the compiled
code does to the other registers. -/
theorem doEbreak_handles {h h' : Hart} (m : Mem) (hb : (h.x 2).toNat+288 ≤ 2^64)
    (hsp : h'.x 2 = h.x 2) (hs : h'.sscratch = h.sscratch) : Handles h m h' (doEbreak h m) := by
  refine ⟨hsp, hs, fun i hi hepc => ?_⟩
  rw [slotWord_eq hb _ hi, slotWord_eq hb _ hi]
  exact load_store_disjoint _ _ _ _ _ _ (by omega)

/-- `h'` is the hart `h` again, at the sepc of the frame in `m`. -/
structure BackFromTrap (h : Hart) (m : Mem) (h' : Hart) : Prop where
  regs : ∀ i, 0 < i → i < 32 → h'.x i = h.x i
  pc : h'.pc = BitVec.ofNat 64 (slotWord m (frameBase h) 33) &&& ~~~1
  mode : h'.mode = h.mode
  enable : h'.sstatus &&& SSTATUS_SIE = h.sstatus &&& SSTATUS_SIE
  sscratch : h'.sscratch = h.sscratch

theorem TrapOrigin.frame_end {h : Hart} (origin : TrapOrigin h) :
    frameBase h+36*8 = if h.mode = .user then h.sscratch else h.x 2 := by
  rcases origin with ⟨hmode, hs⟩ | ⟨hmode, hs⟩
  · rw [frameBase, if_neg hs, if_pos hmode, BitVec.sub_add_cancel]
  · rw [frameBase, if_pos hs, hmode, if_neg (by decide), BitVec.sub_add_cancel]

/-- An even sepc becomes the pc as it is. -/
theorem clear_bit_zero {x : Word} (h : x &&& 1 = 0) : x &&& ~~~1 = x := by
  have hsplit : x &&& (1 ||| ~~~1) = x := by
    have hones : (1 : Word) ||| ~~~1 = BitVec.allOnes 64 := by decide
    rw [hones, BitVec.and_allOnes]
  rw [BitVec.and_or_distrib_left, h] at hsplit
  simpa using hsplit

theorem trap_back {h h₁ : Hart} {m m₁ : Mem} {stvec scause stval : Word} (origin : TrapOrigin h)
    (handler : Handles (SAVE_ALL (h.trap stvec scause stval) m).1
      (SAVE_ALL (h.trap stvec scause stval) m).2 h₁ m₁) :
    BackFromTrap h m₁ (retFromException h₁ m₁) ∧
      slotWord (SAVE_ALL (h.trap stvec scause stval) m).2 (frameBase h) 33 = h.pc.toNat := by
  have hbase : frameBase (h.trap stvec scause stval) = frameBase h := rfl
  have saved := SAVE_ALL_pushed (h.trap stvec scause stval) m
  rw [hbase] at saved
  obtain ⟨hspp, hspie⟩ := h.trap_sstatus stvec scause stval
  generalize hrun : SAVE_ALL (h.trap stvec scause stval) m = x at handler saved ⊢
  have hsp : h₁.x 2 = frameBase h := handler.sp.trans saved.sp
  have back := RESTORE_ALL_popped hsp m₁
  -- the words of the frame that the exit loads are those that the entry stored
  have hword (i : ℕ) (h0 : 0 < i) (hi : i < 36) (hepc : i ≠ 33) :
      BitVec.ofNat 64 (slotWord m₁ (frameBase h) i) = (h.trap stvec scause stval).saved i := by
    have hframe := handler.frame i hi hepc
    rw [saved.sp] at hframe
    rw [hframe, saved.words i h0 hi, BitVec.ofNat_toNat, BitVec.setWidth_eq]
  have hstatus : (RESTORE_ALL h₁ m₁).sstatus = (h.trap stvec scause stval).sstatus :=
    back.sstatus.trans (hword 32 (by decide) (by decide) (by decide))
  refine ⟨?_, saved.words 33 (by decide) (by decide)⟩
  constructor
  case regs =>
    intro i h0 hi
    refine (back.regs i h0 hi).trans ((hword i h0 (by omega) (by omega)).trans ?_)
    rw [Hart.saved_reg _ hi]
    rfl
  case pc => exact back.sepc
  case mode =>
    have hmode : (retFromException h₁ m₁).mode =
        if (RESTORE_ALL h₁ m₁).sstatus &&& SSTATUS_SPP = 0 then .user else .supervisor := rfl
    rw [hmode, hstatus]
    rcases origin with ⟨hm, _⟩ | ⟨hm, _⟩
    · rw [if_pos (hspp.mpr hm), hm]
    · rw [if_neg (fun h0 => absurd (hm.symm.trans (hspp.mp h0)) (by decide)), hm]
  case enable =>
    rw [retFromException, Hart.sret_sie, hstatus]
    by_cases hsie : h.sstatus &&& SSTATUS_SIE = 0
    · rw [if_pos (hspie.mpr hsie), hsie]
    · rw [if_neg (fun h0 => hsie (hspie.mp h0)), (and_sie h.sstatus).resolve_left hsie]
  case sscratch =>
    have hscratch : (retFromException h₁ m₁).sscratch = (RESTORE_ALL h₁ m₁).sscratch := rfl
    have hend := origin.frame_end
    rw [hscratch, back.sscratch, hstatus, hend]
    rcases origin with ⟨hm, _⟩ | ⟨hm, hs⟩
    · rw [if_pos (hspp.mpr hm), if_pos hm]
    · rw [if_neg (fun h0 => absurd (hm.symm.trans (hspp.mp h0)) (by decide)), handler.sscratch,
        saved.sscratch, hs]

/-- For every hart and every handler that leaves its frame alone, sepc aside: after the trap
the registers, the mode, the interrupt enable and sscratch are as before, and the pc is the
frame's sepc, which `SAVE_ALL` made the pc of the trap. -/
theorem trap_returns {h h₁ : Hart} {m m₁ : Mem} {stvec scause stval : Word} (origin : TrapOrigin h)
    (handler : Handles (SAVE_ALL (h.trap stvec scause stval) m).1
      (SAVE_ALL (h.trap stvec scause stval) m).2 h₁ m₁) :
    BackFromTrap h m₁ (retFromException h₁ m₁) ∧
      (BitVec.ofNat 64 (slotWord m₁ (frameBase h) 33) &&& 1 = 0 →
        (retFromException h₁ m₁).pc = BitVec.ofNat 64 (slotWord m₁ (frameBase h) 33)) ∧
      slotWord (SAVE_ALL (h.trap stvec scause stval) m).2 (frameBase h) 33 = h.pc.toNat := by
  obtain ⟨back, hepc⟩ := trap_back origin handler
  exact ⟨back, fun heven => back.pc.trans (clear_bit_zero heven), hepc⟩

theorem trap_returns_ebreak : ∃ (h h₁ : Hart) (m m₁ : Mem), TrapOrigin h ∧ h.mode = .user ∧
    h₁ = (SAVE_ALL (h.trap 0 3 0) m).1 ∧ m₁ = doEbreak h₁ (SAVE_ALL (h.trap 0 3 0) m).2 ∧
    BackFromTrap h m₁ (retFromException h₁ m₁) := by
  let h : Hart := ⟨fun _ => 0, 0x1000, .user, 0, 0, 0, 0, 0x80400000⟩
  have origin : TrapOrigin h := .inl ⟨rfl, by decide⟩
  have saved := SAVE_ALL_pushed (h.trap 0 3 0) (fun _ => 0)
  have hsp : (SAVE_ALL (h.trap 0 3 0) (fun _ => 0)).1.x 2 = 0x80400000-36*8 := saved.sp
  have handler := doEbreak_handles (SAVE_ALL (h.trap 0 3 0) (fun _ => 0)).2
    (by rw [hsp]; decide) rfl rfl
  exact ⟨h, _, fun _ => 0, _, origin, rfl, rfl, rfl, (trap_returns origin handler).1⟩

theorem takeTrap_ebreak {L : Layout} {M M' : Machine} {stvec stval : Word}
    (origin : TrapOrigin M.hart) (hb : (frameBase M.hart).toNat+288 ≤ 2^64)
    (hrun : takeTrap L M stvec 3 stval = .ok M') :
    BackFromTrap M.hart M'.kernel.phys.mem M'.hart ∧
      slotWord M'.kernel.phys.mem (frameBase M.hart) 33 = (M.hart.pc+2).toNat := by
  have saved := SAVE_ALL_pushed (M.hart.trap stvec 3 stval) M.kernel.phys.mem
  have hbase : frameBase (M.hart.trap stvec 3 stval) = frameBase M.hart := rfl
  have hepc : (M.hart.trap stvec 3 stval).saved 33 = M.hart.pc := rfl
  rw [hbase] at saved
  have handler := doEbreak_handles (SAVE_ALL (M.hart.trap stvec 3 stval) M.kernel.phys.mem).2
    (by rwa [saved.sp]) rfl rfl
  have back := (trap_back origin handler).1
  have hhandler : kexcentryHandler (SAVE_ALL (M.hart.trap stvec 3 stval) M.kernel.phys.mem).1.scause =
      .handle_ebreak := by
    have hcause : (M.hart.trap stvec 3 stval).scause = 3 := rfl
    rw [saved.scause, hcause]
    decide
  rw [takeTrap] at hrun
  dsimp only at hrun
  rw [hhandler] at hrun
  cases hrun
  refine ⟨back, ?_⟩
  have hword := saved.words 33 (by decide) (by decide)
  rw [hepc] at hword
  rw [slotWord_eq hb _ (by decide)] at hword ⊢
  have hload : load64 (SAVE_ALL (M.hart.trap stvec 3 stval) M.kernel.phys.mem).2
      ((frameBase M.hart).toNat+8*33) = M.hart.pc.toNat := hword
  dsimp only [Kernel.setMem, doEbreak]
  rw [saved.sp, hload, frameWord, load64, store64, load_store_same, BitVec.toNat_add]
  rfl

end RiscvMos
