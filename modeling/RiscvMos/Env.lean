import RiscvMos.Elf
import RiscvMos.KernelTable
import RiscvMos.LibIntrusiveQueue

/-! The environments of env.c on the kernel's global state. An env is named by
its index in `envs`; the index `NENV` is the slot behind the array that `env_init`
also uses. -/
namespace RiscvMos
open ByteMem IntrusiveQueue Function

def E_BAD_ENV : ℤ := 2
def E_NO_MEM : ℤ := 4
def E_NO_FREE_ENV : ℤ := 6
def LOG2NENV : ℕ := 10
def SSTATUS_SPIE : ℕ := 1 <<< 5

/-- `sizeof(struct Trapframe)` and `sizeof(struct Env)`. -/
def TF_SIZE : ℕ := 288
def ENV_SIZE : ℕ := 376

/-- What the linker decides: the end of the text and the place of `envs`, in front
of the trap frame at the top of the kernel stack. `stack` is the number of nested
calls of `freewalk` that the kernel stack holds. -/
structure Layout where
  etext : ℕ
  envs : ℕ
  stack : ℕ
  etext_gt : 0x80000000 < etext
  etext_lt : etext < KERNEND
  envs_ge : etext ≤ envs
  envs_lt : envs+ENV_SIZE*NENV ≤ KSTACKTOP-TF_SIZE

instance : Inhabited Layout :=
  ⟨⟨0x80204000, 0x80206000, 64, by decide, by decide, by decide, by decide⟩⟩

/-- The address of `envs[e].env_tf`, the first field. -/
def Layout.tf (L : Layout) (e : ℕ) : ℕ := L.envs+ENV_SIZE*e

inductive EnvStatus
  | ENV_FREE
  | ENV_RUNNABLE
  | ENV_NOT_RUNNABLE
  deriving DecidableEq

/-- `struct Env` without its trap frame, which lies in memory, and its links. -/
structure Env where
  env_id : ℕ
  env_asid : ℕ
  env_parent_id : ℕ
  env_status : EnvStatus
  env_pgtable : ℕ
  env_pri : ℕ
  env_runs : ℕ

/-- Memory and the global variables of the kernel. -/
structure Kernel where
  phys : Phys
  kernel_pagetable : ℕ
  envs : ℕ → Env
  env_free_list : Links ℕ
  env_sched_list : TailQueue ℕ
  curenv : Option ℕ
  asid_bitmap : ℕ → BitVec 32
  /-- `static u_int i` of `mkenvid` -/
  mkenvid_i : ℕ
  /-- `static int count` of `schedule` -/
  count : ℤ
  ticks : ℕ
  satp : ℕ

namespace Kernel

def setPhys (K : Kernel) (s : Phys) : Kernel := { K with phys := s }

def setMem (K : Kernel) (m : Mem) : Kernel := { K with phys := ⟨m, K.phys.freelist⟩ }

/-- `envs[e]` gets the fields of `v`. -/
def setEnv (K : Kernel) (e : ℕ) (v : Env) : Kernel := { K with envs := update K.envs e v }

/-- The variables in .bss. A null back pointer is not followed before it is set. -/
def start (m : Mem) : Kernel where
  phys := ⟨m, 0⟩
  kernel_pagetable := 0
  envs := fun _ => ⟨0, 0, 0, .ENV_FREE, 0, 0, 0⟩
  env_free_list := ⟨none, fun _ => none, fun _ => .head⟩
  env_sched_list := ⟨⟨none, fun _ => none, fun _ => .head⟩, .head⟩
  curenv := none
  asid_bitmap := fun _ => 0
  mkenvid_i := 0
  count := 0
  ticks := 0
  satp := 0

end Kernel

/-! ### Boot -/

def kpgtableInit (L : Layout) (K : Kernel) : Result Kernel := do
  let (kpgtable, s) ← kvmcreate K.phys L.etext
  .ok { K with phys := s, kernel_pagetable := kpgtable }

def kvmInit (K : Kernel) : Kernel := { K with satp := MAKE_SATP K.kernel_pagetable }

/-- `for (i = NENV; i >= 0; i--) LIST_INSERT_HEAD(&env_free_list, &envs[i], env_link);` -/
def envInitLoop (q : Links ℕ) : ℕ → Links ℕ
  | 0 => listInsertHead q 0
  | i+1 => envInitLoop (listInsertHead q (i+1)) i

def envInit (K : Kernel) : Kernel :=
  { K with
    env_free_list := envInitLoop (listInit K.env_free_list) NENV
    env_sched_list := tailqInit K.env_sched_list }

/-- `rv_main` up to the first `ENV_CREATE`. -/
def boot (L : Layout) (m : Mem) : Result Kernel := do
  let K := Kernel.start m
  let s ← kinit K.phys
  let K ← kpgtableInit L (K.setPhys s)
  .ok (envInit (kvmInit K))

/-! ### Identifiers -/

/-- The loop of `asid_alloc`, with the new bitmap, or `none` for -E_NO_FREE_ENV. -/
def asidAllocLoop (asid_bitmap : ℕ → BitVec 32) (i : ℕ) : Option (ℕ × (ℕ → BitVec 32)) :=
  if i < NASID then
    let index := i >>> 5
    let inner := i &&& 31
    if asid_bitmap index &&& (1#32 <<< inner) = 0 then
      some (i, update asid_bitmap index (asid_bitmap index ||| (1#32 <<< inner)))
    else asidAllocLoop asid_bitmap (i+1)
  else none
  termination_by NASID-i

def asidAlloc (asid_bitmap : ℕ → BitVec 32) : Option (ℕ × (ℕ → BitVec 32)) :=
  asidAllocLoop asid_bitmap 0

def asidFree (asid_bitmap : ℕ → BitVec 32) (i : ℕ) : ℕ → BitVec 32 :=
  let index := i >>> 5
  let inner := i &&& 31
  update asid_bitmap index (asid_bitmap index &&& ~~~(1#32 <<< inner))

/-- Returns the id and the new value of the static counter. -/
def mkenvid (i e : ℕ) : ℕ × ℕ :=
  let i := (i+1)%2^32
  ((i <<< (1+LOG2NENV))%2^32 ||| e, i)

/-! ### Creating an env -/

def envSetupVm (K : Kernel) (e : ℕ) : Result (ℤ × Kernel) :=
  let (pagetable, s) := uvmcreate K.phys
  if pagetable = 0 then .ok (-E_NO_MEM, K.setPhys s)
  else do
    let (r, s) ← kvmCopyToUserPagetable s K.kernel_pagetable pagetable
    if r ≠ 0 then .error (.panic "env_setup_vm: copy kernel pagetable error\n")
    else
      let K := (K.setPhys s).setEnv e { K.envs e with env_pgtable := pagetable }
      .ok (0, K.setMem (store64 s.mem (pagetable+8*VPN_L 2 UVPT)
        (PA2PTE pagetable ||| PTE_V ||| PTE_R ||| PTE_U)))

/-- Returns the code and, where it is 0, the env for `*new`. -/
def envAlloc (L : Layout) (K : Kernel) (parent_id : ℕ) : Result (ℤ × Option ℕ × Kernel) :=
  match K.env_free_list.first with
  | none => .ok (-E_NO_FREE_ENV, none, K)
  | some e => do
    let (r, K) ← envSetupVm K e
    if r ≠ 0 then .ok (r, none, K)
    else
      let (env_id, i) := mkenvid K.mkenvid_i e
      let K := { K with mkenvid_i := i }.setEnv e { K.envs e with env_runs := 0, env_id := env_id }
      match asidAlloc K.asid_bitmap with
      | none => .ok (-E_NO_FREE_ENV, none, K)
      | some (asid, bitmap) =>
        let K := { K with asid_bitmap := bitmap }.setEnv e
          { K.envs e with env_asid := asid, env_parent_id := parent_id }
        let K := K.setMem (store64 K.phys.mem (L.tf e+8*32) SSTATUS_SPIE)
        let K := K.setMem (store64 K.phys.mem (L.tf e+8*29) (USTACKTOP-4-8))
        .ok (0, some e, { K with env_free_list := listRemove K.env_free_list e })

/-- `memcpy` of image bytes to a physical page. Nothing is mapped at the null page,
so a first byte stored there traps, and `do_reserved` panics. -/
def copyToPage (img : Image) (s : Phys) (pa offset src len : ℕ) : Result Phys :=
  if pa = 0 ∧ 0 < len then .error (.panic "reserve_exception")
  else .ok ⟨blit s.mem (pa+offset) len (fun i => img.bytes (src+i)), s.freelist⟩

def loadIcodeMapper (img : Image) (env_pgtable : ℕ) : ElfMapper Phys :=
  fun s va offset perm src len => do
    let (pa, s) := kalloc s
    let s ← (match src with
      | some src => copyToPage img s pa offset src len
      | none => .ok s)
    mappages s env_pgtable va PAGE_SIZE pa perm

def loadIcode (L : Layout) (K : Kernel) (e : ℕ) (img : Image) : Result Kernel :=
  match elfFrom img with
  | none => .error (.panic "load icode: bad elf")
  | some ehdr => do
    let s ← loadSegments (loadIcodeMapper img (K.envs e).env_pgtable) img ehdr K.phys 0
      ehdr.e_phoff
    .ok (K.setPhys ⟨store64 s.mem (L.tf e+8*33) ehdr.e_entry, s.freelist⟩)

/-- `env_create` does not look at the result of `env_alloc`. -/
def envCreate (L : Layout) (K : Kernel) (img : Image) (priority : ℤ) : Result (ℕ × Kernel) := do
  let (_, new, K) ← envAlloc L K 0
  match new with
  | none => .error (.unsetPointer "e")
  | some e =>
    let K := K.setEnv e
      { K.envs e with env_pri := (priority%2^32).toNat, env_status := .ENV_RUNNABLE }
    let K ← loadIcode L K e img
    .ok (e, { K with env_sched_list := tailqInsertHead K.env_sched_list e })

/-! ### Freeing and running an env -/

/-- `env_free` after the page table is gone. -/
def envRelease (K : Kernel) (e : ℕ) : Kernel :=
  let K := { K with asid_bitmap := asidFree K.asid_bitmap (K.envs e).env_asid }
  let K := K.setEnv e { K.envs e with env_status := .ENV_FREE }
  { K with
    env_free_list := listInsertHead K.env_free_list e
    env_sched_list := tailqRemove K.env_sched_list e }

def envFree (L : Layout) (K : Kernel) (e : ℕ) : Result Kernel := do
  let pgtable := (K.envs e).env_pgtable
  let (_, s) ← uvmunmap K.phys pgtable 0x80000000 (MAXVA/PAGE_SIZE) false
  let s ← uvmfree L.stack s pgtable USTACKTOP
  .ok (envRelease (K.setPhys s) e)

/-- `curenv->env_tf = *((struct Trapframe *)KSTACKTOP - 1);` -/
def saveContext (L : Layout) (m : Mem) (curenv : Option ℕ) : Mem :=
  match curenv with
  | some c => blit m (L.tf c) TF_SIZE (fun i => m (KSTACKTOP-TF_SIZE+i))
  | none => m

/-- Returns the state in which `env_pop_tf(&(curenv->env_tf))` is called. -/
def envRun (L : Layout) (K : Kernel) (e : ℕ) : Result Kernel :=
  if (K.envs e).env_status ≠ .ENV_RUNNABLE then .error (.panic "env_run: not runnable env!\n")
  else
    let K := K.setMem (saveContext L K.phys.mem K.curenv)
    let K := { K with curenv := some e }.setEnv e
      { K.envs e with env_runs := ((K.envs e).env_runs+1)%2^32 }
    .ok { K with satp := MAKE_SATP (K.envs e).env_pgtable }

end RiscvMos
