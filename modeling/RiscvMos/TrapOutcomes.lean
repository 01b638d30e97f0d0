import RiscvMos.ManyEnvs
import RiscvMos.SystemRuns

/-! What becomes of a trap, by the index of its handler in `exception_handlers`, and where the stack
of the handler starts. -/
namespace RiscvMos
open ByteMem IntrusiveQueue Function

section
variable {L : Layout} {stvec scause stval : Word} {M : Machine}

theorem SAVE_ALL_scause (h : Hart) (m : Mem) : (SAVE_ALL h m).1.scause = h.scause :=
  (SAVE_ALL_pushed h m).scause

theorem takeTrap_reserved (L : Layout) (M : Machine) (stvec stval : Word)
    (h : kexcentryHandler scause = .handle_reserved) :
    takeTrap L M stvec scause stval = .error (.panic "reserve_exception") := by
  have hcause := SAVE_ALL_scause (M.hart.trap stvec scause stval) M.kernel.phys.mem
  have hhandler : kexcentryHandler (M.hart.trap stvec scause stval).scause = .handle_reserved := h
  unfold takeTrap
  dsimp only
  rw [hcause, hhandler]

theorem takeTrap_break (L : Layout) (stvec stval : Word) (origin : TrapOrigin M.hart)
    (hb : (frameBase M.hart).toNat+288 ≤ 2^64) (h : kexcentryHandler scause = .handle_ebreak) :
    ∃ M' m, takeTrap L M stvec scause stval = .ok M' ∧ M'.kernel = M.kernel.setMem m ∧
      SameOutside M.kernel.phys.mem m (frameBase M.hart).toNat 288 ∧
      BackFromTrap M.hart m M'.hart ∧ M'.hart.pc = (M.hart.pc+2) &&& ~~~1 := by
  have hcause := SAVE_ALL_scause (M.hart.trap stvec scause stval) M.kernel.phys.mem
  have hhandler : kexcentryHandler (M.hart.trap stvec scause stval).scause = .handle_ebreak := h
  have saved := SAVE_ALL_pushed (M.hart.trap stvec scause stval) M.kernel.phys.mem
  have entered := SAVE_ALL_entered (h := M.hart.trap stvec scause stval) hb M.kernel.phys.mem
  have hbase : frameBase (M.hart.trap stvec scause stval) = frameBase M.hart := rfl
  rw [hbase] at saved entered
  have back := (@trap_back M.hart _ _ _ stvec scause stval origin
    (doEbreak_handles (SAVE_ALL (M.hart.trap stvec scause stval) M.kernel.phys.mem).2
      (by rwa [saved.sp]) rfl rfl)).1
  have hword := entered.words 33 (by decide) (by decide)
  have hsp := saved.sp
  have hout := entered.outside
  have htake : takeTrap L M stvec scause stval =
      .ok ⟨retFromException (SAVE_ALL (M.hart.trap stvec scause stval) M.kernel.phys.mem).1
        (doEbreak (SAVE_ALL (M.hart.trap stvec scause stval) M.kernel.phys.mem).1
          (SAVE_ALL (M.hart.trap stvec scause stval) M.kernel.phys.mem).2),
        M.kernel.setMem (doEbreak (SAVE_ALL (M.hart.trap stvec scause stval) M.kernel.phys.mem).1
          (SAVE_ALL (M.hart.trap stvec scause stval) M.kernel.phys.mem).2)⟩ := by
    unfold takeTrap
    dsimp only
    rw [hcause, hhandler]
    rfl
  -- The frame that the entry has pushed is all that the rest depends on.
  clear saved entered hcause
  generalize SAVE_ALL (M.hart.trap stvec scause stval) M.kernel.phys.mem = r
    at back hword hsp hout htake
  obtain ⟨h₁, m⟩ := r
  refine ⟨_, doEbreak h₁ m, htake, rfl, doEbreak_outside hsp hout, back, back.pc.trans ?_⟩
  -- Word 33 of the frame is the pc, and do_ebreak adds 2.
  have hload : load64 m ((frameBase M.hart).toNat+8*33) = M.hart.pc.toNat := hword
  have hepc : slotWord (doEbreak h₁ m) (frameBase M.hart) 33 = (M.hart.pc+2).toNat := by
    rw [slotWord_eq hb _ (by decide), doEbreak, hsp, hload, frameWord, load64, store64,
      load_store_same, BitVec.toNat_add]
    rfl
  rw [hepc, BitVec.ofNat_toNat, BitVec.setWidth_eq]

end

/-! ### Traps of user mode -/

section
variable {L : Layout} {stvec scause stval : Word} {M₀ M : Machine} {ls : List SystemLabel}

end

end RiscvMos
