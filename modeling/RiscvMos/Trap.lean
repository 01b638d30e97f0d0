import RiscvMos.Sched

/-! Traps: the entry of kexcentry.S, the exit of genex.S and what the hardware does around
them, on the registers of the hart and on memory. -/
namespace RiscvMos
open ByteMem Function

abbrev Word := BitVec 64

def SSTATUS_SIE : Word := 1#64 <<< 1
def SSTATUS_SPP : Word := 1#64 <<< 8

inductive Privilege
  | user
  | supervisor
  deriving DecidableEq, Inhabited

/-- The registers x1 to x31, the pc, the privilege mode and the CSRs that traps use. -/
structure Hart where
  x : ℕ → Word
  pc : Word
  mode : Privilege
  sstatus : Word
  sepc : Word
  stval : Word
  scause : Word
  sscratch : Word
  deriving Inhabited

namespace Hart

def setReg (h : Hart) (i : ℕ) (v : Word) : Hart := { h with x := update h.x i v }

/-- A trap is taken: the hardware saves the pc, the mode and the interrupt enable. -/
def trap (h : Hart) (stvec scause stval : Word) : Hart :=
  { h with
    pc := stvec
    mode := .supervisor
    sepc := h.pc
    scause := scause
    stval := stval
    sstatus := (h.sstatus &&& ~~~(SSTATUS_SIE ||| BitVec.ofNat 64 SSTATUS_SPIE ||| SSTATUS_SPP)) |||
      (if h.sstatus &&& SSTATUS_SIE = 0 then 0 else BitVec.ofNat 64 SSTATUS_SPIE) |||
      (if h.mode = .user then 0 else SSTATUS_SPP) }

def sret (h : Hart) : Hart :=
  { h with
    pc := h.sepc
    mode := if h.sstatus &&& SSTATUS_SPP = 0 then .user else .supervisor
    sstatus := (h.sstatus &&& ~~~(SSTATUS_SIE ||| SSTATUS_SPP)) ||| BitVec.ofNat 64 SSTATUS_SPIE |||
      (if h.sstatus &&& BitVec.ofNat 64 SSTATUS_SPIE = 0 then 0 else SSTATUS_SIE) }

end Hart

/-! ### The macros of kexcentry.S and genex.S -/

def STORE (h : Hart) (m : Mem) (reg offset : ℕ) : Mem :=
  store64 m (h.x 2+BitVec.ofNat 64 (offset*8)).toNat (h.x reg).toNat

def LOAD (h : Hart) (m : Mem) (reg offset : ℕ) : Hart :=
  h.setReg reg (BitVec.ofNat 64 (load64 m (h.x 2+BitVec.ofNat 64 (offset*8)).toNat))

/-- `SAVE_ALL` from the label `trap_from_user` on. -/
def trapFromUser (h : Hart) (m : Mem) : Hart × Mem :=
  let h := h.setReg 2 (h.x 2-36*8)
  let m := (1 :: List.range' 3 29).foldl (fun m i => STORE h m i i) m
  let h := { h.setReg 8 h.sscratch with sscratch := 0 }
  let h := h.setReg 9 h.sstatus
  let h := h.setReg 18 h.sepc
  let h := h.setReg 19 h.stval
  let h := h.setReg 20 h.scause
  let m := STORE h m 8 2
  let m := STORE h m 9 32
  let m := STORE h m 18 33
  let m := STORE h m 19 34
  (h, STORE h m 20 35)

def SAVE_ALL (h : Hart) (m : Mem) : Hart × Mem :=
  let h := { h.setReg 2 h.sscratch with sscratch := h.x 2 }
  if h.x 2 ≠ 0 then trapFromUser h m
  else trapFromUser (h.setReg 2 h.sscratch) m

/-- `RESTORE_ALL` from the label `_to_kernel` on. `csrw sepc` leaves bit 0 clear. -/
def toKernel (h : Hart) (m : Mem) : Hart :=
  let h := { h with sepc := h.x 18 &&& ~~~1, sstatus := h.x 9 }
  let h := ((List.range' 3 29).reverse ++ [1]).foldl (fun h i => LOAD h m i i) h
  LOAD h m 2 2

def RESTORE_ALL (h : Hart) (m : Mem) : Hart :=
  let h := LOAD h m 18 33
  let h := LOAD h m 9 32
  let h := h.setReg 8 (h.x 9 &&& 1#64 <<< 8)
  if h.x 8 ≠ 0 then toKernel h m
  else
    let h := h.setReg 8 (h.x 2+36*8)
    toKernel { h with sscratch := h.x 8 } m

def retFromException (h : Hart) (m : Mem) : Hart := (RESTORE_ALL h m).sret

/-- `env_pop_tf` of the trap frame at `tf`. -/
def envPopTf (h : Hart) (m : Mem) (tf : ℕ) : Hart := retFromException (h.setReg 2 (BitVec.ofNat 64 tf)) m

/-! ### The handlers -/

inductive Handler
  | handle_reserved
  | handle_ebreak
  | handle_s_int
  deriving DecidableEq

def exceptionHandlers (i : ℕ) : Handler :=
  if i = 21 then .handle_s_int else if i = 3 then .handle_ebreak else .handle_reserved

/-- The handler that `kexcentry` jumps to. -/
def kexcentryHandler (scause : Word) : Handler :=
  exceptionHandlers ((scause &&& 0x3f)+((scause &&& 1#64 <<< 63) >>> 63) <<< 4).toNat

/-- The hart and the kernel. -/
structure Machine where
  hart : Hart
  kernel : Kernel

/-- `do_ebreak` on the frame at sp. -/
def doEbreak (h : Hart) (m : Mem) : Mem :=
  store64 m ((h.x 2).toNat+8*33) (load64 m ((h.x 2).toNat+8*33)+2)

/-- From the trap to the `sret`. The C code may use all registers; `RESTORE_ALL` loads them. What it
keeps on its stack is not here; from user mode that stack starts at `envs[i].env_tf` and grows down
over `envs[i-1]`. -/
def takeTrap (L : Layout) (M : Machine) (stvec scause stval : Word) : Result Machine :=
  let (h, m) := SAVE_ALL (M.hart.trap stvec scause stval) M.kernel.phys.mem
  let K := M.kernel.setMem m
  match kexcentryHandler h.scause with
  | .handle_reserved => .error (.panic "reserve_exception")
  | .handle_ebreak =>
    let K := K.setMem (doEbreak h K.phys.mem)
    .ok ⟨retFromException h K.phys.mem, K⟩
  | .handle_s_int => do
    let K ← schedule L K false
    match K.curenv with
    | none => .error (.unsetPointer "curenv")
    | some e => .ok ⟨envPopTf h K.phys.mem (L.tf e), K⟩

def SCAUSE_TIMER : Word := 1#64 <<< 63 ||| 5

end RiscvMos
