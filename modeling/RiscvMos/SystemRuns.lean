import RiscvMos.SlotReuse
import RiscvMos.TrapReturn
import RiscvMos.UserMemories

/-! The whole system: user code, traps, the kernel and the calls that make, run and end envs, in
any order. Its runs refine those of processes with private memories. -/
namespace RiscvMos
open ByteMem IntrusiveQueue LinkChain Function

/-! ### satp -/

theorem MAKE_SATP_eq {r : ℕ} (hr : IsPage r) :
    MAKE_SATP r/2^60 = 8 ∧ MAKE_SATP r%2^44*4096 = r := by
  have hb := hr.bounds
  have hsum : MAKE_SATP r = 8*2^60+r/4096 := by
    -- The mode stands above the bits of the page number.
    have hlow : r/4096 < 2^60 := by omega
    calc MAKE_SATP r = 8 <<< 60 ||| r/4096 := by rw [MAKE_SATP, Nat.shiftRight_eq_div_pow]
      _ = 8 <<< 60+r/4096 := (Nat.shiftLeft_add_eq_or_of_lt hlow 8).symm
      _ = 8*2^60+r/4096 := by rw [Nat.shiftLeft_eq]
  rw [hsum]
  omega

theorem translateAt_MAKE_SATP {r : ℕ} (hr : IsPage r) (m : Mem) (mode : Sv39.Mode)
    (access : Sv39.Access) (va : ℕ) :
    translateAt m (MAKE_SATP r) mode access va = translate m r mode access va := by
  obtain ⟨hmode, hroot⟩ := MAKE_SATP_eq hr
  rw [translateAt, Sv39.translateAt, if_pos hmode, hroot, translate]

theorem schedule_satp {L : Layout} {K K' : Kernel} {yield : Bool} {e : ℕ}
    (h : schedule L K yield = .ok K') (hcur : K'.curenv = some e) :
    K'.satp = MAKE_SATP (K'.envs e).env_pgtable := by
  rw [schedule] at h
  obtain ⟨⟨i, K₁⟩, _, hrun⟩ := bind_eq_ok.mp h
  obtain ⟨hrunnable, _⟩ := envRun_cases hrun
  dsimp only at hrun
  rw [envRun, if_neg (fun hn => hn hrunnable)] at hrun
  cases hrun
  obtain rfl : i = e := Option.some.inj hcur
  rfl

/-! ### Steps -/

abbrev SystemLabel := PrivateMemory.Label ℕ Sv39.Access ℕ UInt8

/-- After `boot`, in the kernel. -/
structure Starts (L : Layout) (M : Machine) : Prop where
  boot : ∃ m, boot L m = .ok M.kernel
  mode : M.hart.mode = .supervisor
  sscratch : M.hart.sscratch = 0

/-- The stack of the C code that handles a trap: it may store anything below the heap, but that it
leaves the variables of the kernel and the fields of `envs[]` alone is an assumption. The source
does not see to it: see `SystemInv.handler_stack`. -/
structure HandlerStack (K K' : Kernel) : Prop where
  low : ∀ b, KERNEND ≤ b → K'.phys.mem b = K.phys.mem b
  fields : K' = K.setMem K'.phys.mem

/-- User code changes its registers, and reads and writes the bytes that its table lets it. The
kernel writes below its end; what it does behind it are the calls. Traps come from user mode and
from the kernel on its stack; the stack of their handlers lies below the frame, so that its stores
may as well come first. -/
inductive SystemStep (L : Layout) (stvec : Word) : SystemLabel → Machine → Machine → Prop
  | compute {M : Machine} {x : ℕ → Word} {pc : Word} (mode : M.hart.mode = .user) :
      SystemStep L stvec .silent M ⟨{ M.hart with x := x, pc := pc }, M.kernel⟩
  | read {M : Machine} {c va pa : ℕ} {access : Sv39.Access} (mode : M.hart.mode = .user)
      (curenv : M.kernel.curenv = some c)
      (hit : translateAt M.kernel.phys.mem M.kernel.satp .user access va = some pa) :
      SystemStep L stvec (.read c access va (M.kernel.phys.mem pa)) M M
  | write {M : Machine} {c va pa : ℕ} {b : UInt8} (mode : M.hart.mode = .user)
      (curenv : M.kernel.curenv = some c)
      (hit : translateAt M.kernel.phys.mem M.kernel.satp .user .store va = some pa) :
      SystemStep L stvec (.write c va b) M
        ⟨M.hart, M.kernel.setMem (update M.kernel.phys.mem pa b)⟩
  | kernel {M : Machine} {h : Hart} {m : Mem} (before : M.hart.mode = .supervisor)
      (mode : h.mode = .supervisor) (sscratch : h.sscratch = M.hart.sscratch)
      (low : ∀ b, KERNEND ≤ b → m b = M.kernel.phys.mem b) :
      SystemStep L stvec .silent M ⟨h, M.kernel.setMem m⟩
  | create {M : Machine} {K : Kernel} {e : ℕ} {img : Image} {priority : ℤ}
      (mode : M.hart.mode = .supervisor) (user : UserImage img)
      (pages : LoadsWholePages L M.kernel img)
      (call : envCreate L M.kernel img priority = .ok (e, K)) :
      SystemStep L stvec (.create e) M ⟨M.hart, K⟩
  | free {M : Machine} {s : Phys} {e : ℕ} (mode : M.hart.mode = .supervisor)
      (runnable : (M.kernel.envs e).env_status = .ENV_RUNNABLE) (torn : TornDown M.kernel e s) :
      SystemStep L stvec (.free e) M ⟨M.hart, envRelease (M.kernel.setPhys s) e⟩
  | forget {M : Machine} (mode : M.hart.mode = .supervisor) :
      SystemStep L stvec .silent M ⟨M.hart, { M.kernel with curenv := none }⟩
  | run {M : Machine} {K : Kernel} {e : ℕ} {yield : Bool} (mode : M.hart.mode = .supervisor)
      (call : schedule L M.kernel yield = .ok K) (dispatch : K.curenv = some e) :
      SystemStep L stvec .silent M ⟨envPopTf M.hart K.phys.mem (L.tf e), K⟩
  | trap {M M' : Machine} {K : Kernel} {scause stval : Word}
      (origin : M.hart.mode = .user ∨ OnKernelStack L M.hart) (stack : HandlerStack M.kernel K)
      (call : takeTrap L ⟨M.hart, K⟩ stvec scause stval = .ok M') : SystemStep L stvec .silent M M'

/-- In user mode the current env runs under its own table, with its trap frame below sscratch. -/
structure SystemInv (L : Layout) (M : Machine) : Prop where
  history : History L M.kernel
  user : M.hart.mode = .user → ∃ c, M.kernel.curenv = some c ∧ c < NENV ∧
    (M.kernel.envs c).env_status = .ENV_RUNNABLE ∧
    M.kernel.satp = MAKE_SATP (M.kernel.envs c).env_pgtable ∧
    M.hart.sscratch = BitVec.ofNat 64 (L.tf c+TF_SIZE)
  kernel : M.hart.mode = .supervisor → M.hart.sscratch = 0

theorem Starts.inv {L : Layout} {M : Machine} (start : Starts L M) : SystemInv L M := by
  obtain ⟨m, hboot⟩ := start.boot
  refine ⟨.boot hboot, fun hmode => ?_, fun _ => start.sscratch⟩
  rw [start.mode] at hmode
  cases hmode

/-! ### Traps -/

theorem doEbreak_outside {h : Hart} {m₀ m : Mem} {base : Word} (hsp : h.x 2 = base)
    (hout : SameOutside m₀ m base.toNat 288) :
    SameOutside m₀ (doEbreak h m) base.toNat 288 := by
  have hstore : SameOutside m (doEbreak h m) ((h.x 2).toNat+8*33) 8 := store_sameOutside m _ 8 _
  rw [hsp] at hstore
  exact hout.trans (hstore.mono (by omega) (by omega))

/-- A trap that returns scheduled an env, or went back behind a breakpoint. -/
theorem takeTrap_cases {L : Layout} {M M' : Machine} {stvec scause stval : Word}
    (hb : (frameBase M.hart).toNat+288 ≤ 2^64) (h : takeTrap L M stvec scause stval = .ok M') :
    ∃ h₁ m, SameOutside M.kernel.phys.mem m (frameBase M.hart).toNat 288 ∧ h₁.sscratch = 0 ∧
      ((∃ e, schedule L (M.kernel.setMem m) false = .ok M'.kernel ∧ M'.kernel.curenv = some e ∧
          M'.hart = envPopTf h₁ M'.kernel.phys.mem (L.tf e)) ∨
        ∃ m', SameOutside M.kernel.phys.mem m' (frameBase M.hart).toNat 288 ∧
          M'.kernel = M.kernel.setMem m' ∧
          (TrapOrigin M.hart → BackFromTrap M.hart m' M'.hart)) := by
  have saved := SAVE_ALL_pushed (M.hart.trap stvec scause stval) M.kernel.phys.mem
  have entered := SAVE_ALL_entered (h := M.hart.trap stvec scause stval) hb M.kernel.phys.mem
  have hsp : (SAVE_ALL (M.hart.trap stvec scause stval) M.kernel.phys.mem).1.x 2 =
    frameBase M.hart := saved.sp
  have back (origin : TrapOrigin M.hart) :=
    (@trap_back M.hart _ _ _ stvec scause stval origin (doEbreak_handles
      (SAVE_ALL (M.hart.trap stvec scause stval) M.kernel.phys.mem).2 (by rwa [hsp]) rfl rfl)).1
  have hout : SameOutside M.kernel.phys.mem
    (SAVE_ALL (M.hart.trap stvec scause stval) M.kernel.phys.mem).2
    (frameBase M.hart).toNat 288 := entered.outside
  have hs := entered.sscratch
  rw [takeTrap] at h
  clear saved entered
  -- From here on only what the entry promises is used.
  generalize SAVE_ALL (M.hart.trap stvec scause stval) M.kernel.phys.mem = r at hsp back hout hs h
  obtain ⟨h₁, m⟩ := r
  refine ⟨h₁, m, hout, hs, ?_⟩
  dsimp only at h
  -- The first handler panics; of the others only the last leaves by env_pop_tf.
  cases hhandler : kexcentryHandler h₁.scause with
  | handle_reserved =>
    rw [hhandler] at h
    cases h
  | handle_ebreak =>
    rw [hhandler] at h
    cases h
    exact Or.inr ⟨doEbreak h₁ m, doEbreak_outside hsp hout, rfl, back⟩
  | handle_s_int =>
    rw [hhandler] at h
    obtain ⟨K', hsched, h⟩ := bind_eq_ok.mp h
    obtain ⟨e, s⟩ := schedule_scheduled hsched
    rw [s.curenv] at h
    cases h
    exact Or.inl ⟨e, hsched, s.curenv, rfl⟩

section
variable {L : Layout} {stvec : Word} {M M' : Machine}

theorem SystemInv.trapOrigin (h : SystemInv L M) : TrapOrigin M.hart := by
  cases hmode : M.hart.mode with
  | supervisor => exact Or.inr ⟨hmode, h.kernel hmode⟩
  | user =>
    obtain ⟨c, _, hc, _, _, hs⟩ := h.user hmode
    -- The frame of an env does not end at the address 0.
    refine Or.inl ⟨hmode, fun h0 => ?_⟩
    have hend := L.tf_end hc
    have hk : KERNEND < 2^63 := by decide
    have htf : TF_SIZE = 288 := rfl
    rw [hs] at h0
    have hnat := congrArg BitVec.toNat h0
    simp only [BitVec.toNat_ofNat, BitVec.ofNat_eq_ofNat, Nat.zero_mod] at hnat
    omega

theorem SystemInv.frame_low (h : SystemInv L M)
    (origin : M.hart.mode = .user ∨ OnKernelStack L M.hart) :
    (frameBase M.hart).toNat+288 ≤ KERNEND := by
  have htf : TF_SIZE = 288 := rfl
  -- From user mode the frame is that of the env, else it lies on the kernel stack.
  cases hmode : M.hart.mode with
  | user =>
    obtain ⟨c, _, hc, _, _, hs⟩ := h.user hmode
    have hend := L.tf_end hc
    have hbase := SAVE_ALL_sscratch hc hs
    omega
  | supervisor =>
    have hstack := origin.resolve_left (by simp [hmode])
    have hbase := SAVE_ALL_kernel (h.kernel hmode) hstack
    obtain ⟨hlo, hhi⟩ := hstack
    have htop : KSTACKTOP = KERNEND := rfl
    omega

theorem History.dispatched {K K' : Kernel} {h : Hart} {e : ℕ} {yield : Bool}
    (history : History L K) (hs : h.sscratch = 0) (call : RiscvMos.schedule L K yield = .ok K')
    (dispatch : K'.curenv = some e) :
    SystemInv L ⟨envPopTf h K'.phys.mem (L.tf e), K'⟩ := by
  have hist := history.schedule call
  obtain ⟨_, _, _, _, _, _, _, _, hcur, _⟩ := hist.inv
  have he := hcur e dispatch
  have hend := L.tf_end he
  have hk : KERNEND < 2^63 := by decide
  have htf : TF_SIZE = 288 := rfl
  obtain ⟨_, hscratch⟩ := envPopTf_frame h K'.phys.mem (show L.tf e+288 ≤ 2^64 by omega)
  obtain ⟨i, s⟩ := schedule_scheduled call
  obtain rfl : i = e := Option.some.inj (s.curenv.symm.trans dispatch)
  -- The mode that sret enters decides what is left in sscratch.
  refine ⟨hist, fun hmode => ?_, fun hmode => ?_⟩
  · rw [if_pos hmode] at hscratch
    exact ⟨i, dispatch, he, s.runnable, schedule_satp call dispatch, hscratch⟩
  · dsimp only at hmode
    rw [hmode, if_neg (by decide), hs] at hscratch
    exact hscratch

theorem History.low {K : Kernel} {m : Mem} (history : History L K)
    (hm : ∀ b, KERNEND ≤ b → m b = K.phys.mem b) : History L (K.setMem m) :=
  history.user (userWrites_low hm)

/-! ### Memories -/

theorem History.userMemories_low {K : Kernel} {m : Mem} (history : History L K)
    (hm : ∀ b, KERNEND ≤ b → m b = K.phys.mem b) : userMemories (K.setMem m) = userMemories K := by
  obtain ⟨_, _, _, _, _, _, _, h, _⟩ := history.inv
  obtain ⟨_, _, _, _, _, _, _, h', _⟩ := (history.low hm).inv
  exact h.userMemories_low h' hm (fun _ => rfl) (fun _ => rfl)

theorem History.userMemories_schedule {K K' : Kernel} {yield : Bool} (history : History L K)
    (call : RiscvMos.schedule L K yield = .ok K') : userMemories K' = userMemories K := by
  obtain ⟨_, _, _, _, _, _, _, h, hcur, _⟩ := history.inv
  obtain ⟨_, _, _, _, _, _, _, h', _⟩ := (history.schedule call).inv
  obtain ⟨e, s⟩ := schedule_scheduled call
  apply h.userMemories_low h' _ s.env_status s.env_pgtable
  intro b hb
  rw [s.phys]
  exact saveContext_low L K.phys.mem hcur hb

theorem History.userMemories_create {K K' : Kernel} {e : ℕ} {img : Image} {priority : ℤ}
    (history : History L K) (user : UserImage img) (pages : LoadsWholePages L K img)
    (call : envCreate L K img priority = .ok (e, K')) : userMemories K e = none ∧
      userMemories K' = update (userMemories K) e
        (some (userMemory K'.phys.mem (K'.envs e).env_pgtable)) := by
  obtain ⟨_, _, _, _, _, _, _, h, _⟩ := history.inv
  obtain ⟨_, _, _, _, _, _, _, h', _⟩ := (history.create user pages call).inv
  obtain ⟨K₁, K₂, s, ehdr, c⟩ := envCreate_cases call
  obtain ⟨_, _, _, heq, _⟩ := h.sched.alloc c.alloc
  obtain ⟨kept, hfresh⟩ := h.create_others c user pages
  have hnot : (K.envs e).env_status ≠ .ENV_RUNNABLE := fun he => heq ((h.sched.mem_queue e).mpr he)
  refine ⟨userMemories_of_not hnot, ?_⟩
  ext1 i
  -- The new env gets its memory, and the tables of the others are kept.
  by_cases hie : i = e
  · rw [hie, update_self, userMemories_of c.runnable]
  · rw [update_of_ne hie]
    by_cases hi : (K.envs i).env_status = .ENV_RUNNABLE
    · have hroot : (K'.envs i).env_pgtable = (K.envs i).env_pgtable := by
        obtain ⟨_, ⟨h0, _⟩ | ⟨_, _, _, henvs, _⟩⟩ := envSetupVm_spaces h.owned.spaces c.alloc.setup
        · exact absurd rfl h0
        · rw [c.env_pgtable i, henvs, update_of_ne hie]
      apply h.userMemory_kept h' hi ((c.env_status i hie).trans hi) hroot kept
      intro hu
      apply hfresh
      rw [← hu]
      exact (h.tables _).mpr ⟨i, hi, rfl⟩
    · rw [userMemories_of_not hi, userMemories_of_not (by rwa [c.env_status i hie])]

theorem History.userMemories_free {K : Kernel} {s : Phys} {e : ℕ} (history : History L K)
    (he : (K.envs e).env_status = .ENV_RUNNABLE) (torn : TornDown K e s) :
    userMemories (envRelease (K.setPhys s) e) = update (userMemories K) e none := by
  obtain ⟨_, _, _, _, _, _, _, h, _⟩ := history.inv
  obtain ⟨_, _, _, _, _, _, _, h', _⟩ := (history.free he torn).inv
  have kept := h.free_others he torn
  have hsame {i : ℕ} (hie : i ≠ e) : (envRelease (K.setPhys s) e).envs i = K.envs i := by
    simp only [envRelease, Kernel.setEnv, Kernel.setPhys, update_of_ne hie]
  ext1 i
  -- No other runnable env has the same root.
  by_cases hie : i = e
  · rw [hie, update_self]
    apply userMemories_of_not
    simp [envRelease, Kernel.setEnv]
  · rw [update_of_ne hie]
    by_cases hi : (K.envs i).env_status = .ENV_RUNNABLE
    · have hi' : ((envRelease (K.setPhys s) e).envs i).env_status = .ENV_RUNNABLE := by
        rwa [hsame hie]
      apply h.userMemory_kept h' hi hi' (by rw [hsame hie]) kept
      exact fun hr => hie (h.distinct i e hi he hr)
    · rw [userMemories_of_not hi, userMemories_of_not (by rwa [hsame hie])]

/-! ### One step -/

theorem SystemInv.code (h : SystemInv L M) {x : Hart} {m : Mem} (mode : x.mode = M.hart.mode)
    (sscratch : x.sscratch = M.hart.sscratch) (history : History L (M.kernel.setMem m)) :
    SystemInv L ⟨x, M.kernel.setMem m⟩ := by
  refine ⟨history, fun hmode => ?_, fun hmode => ?_⟩
  · rw [sscratch]
    exact h.user (mode.symm.trans hmode)
  · rw [sscratch]
    exact h.kernel (mode.symm.trans hmode)

theorem SystemInv.call (h : SystemInv L M) {K : Kernel} (mode : M.hart.mode = .supervisor)
    (history : History L K) : SystemInv L ⟨M.hart, K⟩ := by
  refine ⟨history, fun hmode => ?_, h.kernel⟩
  dsimp only at hmode
  rw [mode] at hmode
  cases hmode

/-- The addresses of user mode are those of the current env. -/
theorem SystemInv.access (h : SystemInv L M) (mode : M.hart.mode = .user) :
    ∃ c, M.kernel.curenv = some c ∧ (M.kernel.envs c).env_status = .ENV_RUNNABLE ∧
      ∀ access va, translateAt M.kernel.phys.mem M.kernel.satp .user access va =
        translate M.kernel.phys.mem (M.kernel.envs c).env_pgtable .user access va := by
  obtain ⟨c, hcur, _, hrun, hsatp, _⟩ := h.user mode
  obtain ⟨_, _, _, _, _, _, _, hiso, _⟩ := h.history.inv
  have hpage := hiso.owned.spaces.typed.page (hiso.root hrun)
  refine ⟨c, hcur, hrun, fun access va => ?_⟩
  rw [hsatp]
  exact translateAt_MAKE_SATP hpage _ _ access va

theorem HandlerStack.refl (K : Kernel) : HandlerStack K K := ⟨fun _ _ => rfl, rfl⟩

theorem SystemInv.stack (h : SystemInv L M) {K : Kernel} (stack : HandlerStack M.kernel K) :
    userMemories K = userMemories M.kernel ∧ SystemInv L ⟨M.hart, K⟩ := by
  obtain ⟨low, fields⟩ := stack
  rw [fields]
  exact ⟨h.history.userMemories_low low, h.code rfl rfl (h.history.low low)⟩

theorem SystemInv.trap (h : SystemInv L M) {scause stval : Word}
    (origin : M.hart.mode = .user ∨ OnKernelStack L M.hart)
    (call : takeTrap L M stvec scause stval = .ok M') :
    userMemories M'.kernel = userMemories M.kernel ∧ SystemInv L M' := by
  have hlow := h.frame_low origin
  have hk : KERNEND < 2^63 := by decide
  have hout {m : Mem} (hm : SameOutside M.kernel.phys.mem m (frameBase M.hart).toNat 288) (b : ℕ)
      (hb : KERNEND ≤ b) : m b = M.kernel.phys.mem b := hm b (by omega)
  -- A trap ends in another env, or behind the instruction that caused it.
  obtain ⟨h₁, m, hm, hs, ⟨e, hsched, hcur, hhart⟩ | ⟨m', hm', hkernel, hback⟩⟩ :=
    takeTrap_cases (by omega) call
  · have hist := h.history.low (hout hm)
    have hmem := hist.userMemories_schedule hsched
    have hinv := hist.dispatched hs hsched hcur
    rw [← hhart] at hinv
    exact ⟨hmem.trans (h.history.userMemories_low (hout hm)), hinv⟩
  · have back := hback h.trapOrigin
    have hinv := h.code back.mode back.sscratch (h.history.low (hout hm'))
    rw [← hkernel] at hinv
    rw [hkernel]
    exact ⟨h.history.userMemories_low (hout hm'), hinv⟩

/-- A step of the system is one of the processes. -/
theorem SystemInv.step (h : SystemInv L M) {label : SystemLabel}
    (step : SystemStep L stvec label M M') :
    PrivateMemory.Step .store label (userMemories M.kernel) (userMemories M'.kernel) ∧
      SystemInv L M' := by
  -- User code moves in its own memory; the other steps keep, add or take away whole memories.
  cases step with
  | compute mode => exact ⟨.silent _, h.code rfl rfl h.history⟩
  | @read _ c va pa access mode curenv hit =>
    obtain ⟨c', hcur, hrun, haccess⟩ := h.access mode
    obtain rfl := Option.some.inj (hcur.symm.trans curenv)
    rw [haccess] at hit
    refine ⟨.read (userMemories_of hrun) ?_, h⟩
    rw [userMemory, hit]
    rfl
  | @write _ c va pa b mode curenv hit =>
    obtain ⟨c', hcur, hrun, haccess⟩ := h.access mode
    obtain rfl := Option.some.inj (hcur.symm.trans curenv)
    rw [haccess] at hit
    obtain ⟨_, _, _, _, _, _, _, hiso, _⟩ := h.history.inv
    refine ⟨?_, h.code rfl rfl (h.history.user (hiso.userWrites hrun b hit))⟩
    rw [hiso.userMemories_store hrun b hit]
    apply PrivateMemory.Step.write (userMemories_of hrun)
    rw [userMemory, hit]
    exact nofun
  | kernel before mode sscratch low =>
    rw [h.history.userMemories_low low]
    exact ⟨.silent _, h.code (mode.trans before.symm) sscratch (h.history.low low)⟩
  | create mode user pages call =>
    obtain ⟨hfresh, hmem⟩ := h.history.userMemories_create user pages call
    rw [hmem]
    exact ⟨.create _ hfresh, h.call mode (h.history.create user pages call)⟩
  | free mode runnable torn =>
    rw [h.history.userMemories_free runnable torn]
    exact ⟨.free (userMemories_of runnable), h.call mode (h.history.free runnable torn)⟩
  | forget mode => exact ⟨.silent _, h.call mode h.history.forget⟩
  | run mode call dispatch =>
    rw [h.history.userMemories_schedule call]
    exact ⟨.silent _, h.history.dispatched (h.kernel mode) call dispatch⟩
  | @trap _ _ K _ _ origin stack call =>
    obtain ⟨hlow, hstack⟩ := h.stack stack
    have horigin : (⟨M.hart, K⟩ : Machine).hart.mode = .user ∨ OnKernelStack L M.hart := origin
    obtain ⟨hmem, hinv⟩ := hstack.trap horigin call
    rw [hmem, hlow]
    exact ⟨.silent _, hinv⟩

/-! ### Runs -/

open PrivateMemory in
theorem SystemInv.run (h : SystemInv L M) {labels : List SystemLabel}
    (run : Run (SystemStep L stvec) labels M M') :
    Run (Step .store) labels (userMemories M.kernel) (userMemories M'.kernel) ∧ SystemInv L M' :=
  run.map (f := fun M => userMemories M.kernel) (fun _ _ _ hinv step => hinv.step step) h

theorem Starts.userMemories (start : Starts L M) : userMemories M.kernel = fun _ => none := by
  obtain ⟨m, hboot⟩ := start.boot
  have hs := boot_schedInv hboot
  ext1 e
  apply userMemories_of_not
  intro he
  exact absurd ((hs.mem_queue e).mpr he) List.not_mem_nil

end

/-! ### A run with a store -/

/-- An executable for 0x1000 that stores t0 in its own page. -/
def storeBytes : List UInt8 :=
  [0x7f, 0x45, 0x4c, 0x46, 2, 1, 1, 0, 0, 0, 0, 0, 0, 0, 0, 0] ++ leBytes 2 2 ++ leBytes 243 2 ++
    leBytes 1 4 ++ leBytes 0x1000 8 ++ leBytes 64 8 ++ leBytes 0 8 ++ leBytes 0 4 ++ leBytes 64 2 ++
    leBytes 56 2 ++ leBytes 1 2 ++ leBytes 0 6 ++
  leBytes 1 4 ++ leBytes 7 4 ++ leBytes 120 8 ++ leBytes 0x1000 8 ++ leBytes 0x1000 8 ++
    leBytes 16 8 ++ leBytes 16 8 ++ leBytes 8 8 ++
  -- lui t1, 1, then sb t0, 12(t1) and a jump back to it, and a word of data
  leBytes 0x00001337 4 ++ leBytes 0x00530623 4 ++ leBytes 0xffdff06f 4 ++ leBytes 0 4

def storeImage : Image := ⟨fun i => storeBytes.getD i 0, storeBytes.length⟩

theorem storeImage_onePage : OnePage storeImage (readEhdr storeImage.bytes)
    (readPhdr storeImage.bytes 64) where
  elf := if_pos (by decide +kernel)
  num := by decide
  header := congrArg (readPhdr _) (by decide)
  type := by decide
  pos := by decide
  size := by decide
  fit := by decide
  below := by decide

theorem storeImage_linked : LinkedImage storeImage (readEhdr storeImage.bytes) :=
  storeImage_onePage.linked (by decide +kernel) (by decide +kernel) (by decide +kernel) (by decide)

theorem storeImage_room : createRoom storeImage (readEhdr storeImage.bytes) = 149 := by
  decide +kernel

/-- The env of the image is created, dispatched from `spin`, and stores to its data. -/
theorem store_run (L : Layout) : ∃ M₀ M, Starts L M₀ ∧
    PrivateMemory.Run (SystemStep L 0) [.create 0, .silent] M₀ M ∧ M.hart.mode = .user ∧
    M.kernel.curenv = some 0 ∧
    ∀ access, ∃ pa, translateAt M.kernel.phys.mem M.kernel.satp .user access 0x100c = some pa := by
  obtain ⟨K₀, fr, τ, l, hboot, b⟩ := boot_ok L (fun _ => 0)
  have hlen := b.length
  have hroom := storeImage_room
  obtain ⟨K, _, _, _, c₀, hcreate, c, f⟩ := envCreate_first hboot storeImage_onePage 1
  have hist₀ : History L K₀ := .boot hboot
  have hstart := hist₀.started b.building.typed.free storeImage_linked (by omega) hcreate
  have hpages := hist₀.loadsWholePages b.building.typed.free storeImage_linked (by omega) hcreate
  obtain ⟨fl, _, _, hs⟩ := (boot_schedInv hboot).create c
  obtain ⟨M, _, call, d, _, _, hmode, _⟩ := spin_dispatch hs (c.curenv.trans b.curenv)
    (hstart.words 32 (by decide))
  -- The steps.
  have start : Starts L ⟨spinHart, K₀⟩ := ⟨⟨_, hboot⟩, rfl, rfl⟩
  have hfirst : SystemStep L 0 (.create 0) ⟨spinHart, K₀⟩ ⟨spinHart, K⟩ :=
    .create rfl storeImage_linked.userImage hpages hcreate
  have hsecond : SystemStep L 0 .silent ⟨spinHart, K⟩ M :=
    .trap (Or.inr (spinHart_stack L)) (.refl K) call
  have hinv := (start.inv.step hfirst).2
  obtain ⟨hmem, hlast⟩ := hinv.trap (Or.inr (spinHart_stack L)) call
  obtain ⟨c', hcur, hrun, haccess⟩ := hlast.access hmode
  obtain rfl : 0 = c' := Option.some.inj (d.curenv.symm.trans hcur)
  -- The leaf of the page lets user mode write.
  have hva : (readPhdr storeImage.bytes 64).p_vaddr = 0x1000 := by decide
  have hperm : segPerm (readPhdr storeImage.bytes 64) = 31 := by decide
  have hleaf := f.userLeaf c (w := 1) (by decide) (by rw [hva]; decide)
  rw [hva, hperm] at hleaf
  have hb := f.page.bounds
  obtain ⟨_, _, _, _, _, _, _, h, _⟩ := hinv.history.inv
  have hall (access : Sv39.Access) :
      ∃ pa, translate K.phys.mem (K.envs 0).env_pgtable .user access 0x100c = some pa :=
    ⟨_, (h.user_access_iff c.runnable).mpr ⟨_, hleaf,
      not_Faults_mkLeaf (by omega) (by decide) (by decide),
      (Permits_mkLeaf _ (by decide) .user access).mpr (by cases access <;> decide), rfl⟩⟩
  -- M has the memories of K.
  have hsame := congrFun hmem 0
  rw [userMemories_of hrun, userMemories_of c.runnable] at hsame
  refine ⟨⟨spinHart, K₀⟩, M, start, .cons hfirst (.cons hsecond (.nil M)), hmode, hcur,
    fun access => ?_⟩
  have hbyte := congrFun (congrFun (Option.some.inj hsame) access) 0x100c
  unfold userMemory at hbyte
  obtain ⟨pa₀, hpa₀⟩ := hall access
  rw [hpa₀, ← haccess] at hbyte
  obtain ⟨pa, hpa, _⟩ := Option.map_eq_some_iff.mp hbyte
  exact ⟨pa, hpa⟩

theorem store_run_read (L : Layout) : ∃ M₀ M M', Starts L M₀ ∧
    PrivateMemory.Run (SystemStep L 0) [.create 0, .silent] M₀ M ∧ M.hart.mode = .user ∧
    M.kernel.curenv = some 0 ∧
    PrivateMemory.Run (SystemStep L 0) ([.write 0 0x100c 7]++[.read 0 .load 0x100c 7]) M M' := by
  obtain ⟨M₀, M, start, run, hmode, hcur, hall⟩ := store_run L
  obtain ⟨pa, hpa⟩ := hall .store
  obtain ⟨M', hwrite, hmode', hcur'⟩ : ∃ M', SystemStep L 0 (.write 0 0x100c 7) M M' ∧
      M'.hart.mode = .user ∧ M'.kernel.curenv = some 0 := ⟨_, .write hmode hcur hpa, hmode, hcur⟩
  have hinv := (start.inv.run run).2
  obtain ⟨hstep, hinv'⟩ := hinv.step hwrite
  -- What the load finds.
  obtain ⟨c, hc, hrun, haccess⟩ := hinv.access hmode
  obtain ⟨c', hc', hrun', haccess'⟩ := hinv'.access hmode'
  obtain rfl : 0 = c := Option.some.inj (hcur.symm.trans hc)
  obtain rfl : 0 = c' := Option.some.inj (hcur'.symm.trans hc')
  have hspace := hstep.space (userMemories_of hrun) (by simp)
  rw [userMemories_of hrun'] at hspace
  have hbyte := congrFun (congrFun (Option.some.inj hspace) .load) 0x100c
  obtain ⟨pb, hpb⟩ := hall .load
  rw [haccess] at hpb
  have hseven : (userMemory M.kernel.phys.mem (M.kernel.envs 0).env_pgtable).writes
      (PrivateMemory.writesOf 0 ([.write 0 0x100c 7] : List SystemLabel)) .load 0x100c =
        some 7 := by
    rw [PrivateMemory.Space.writes_apply, userMemory, hpb]
    rfl
  rw [hseven, userMemory, ← haccess'] at hbyte
  obtain ⟨pc, hpc, h7⟩ := Option.map_eq_some_iff.mp hbyte
  have hread := @SystemStep.read L 0 _ _ _ _ _ hmode' hcur' hpc
  rw [h7] at hread
  exact ⟨M₀, M, _, start, run, hmode, hcur, .cons hwrite (.cons hread (.nil _))⟩

section
variable {L : Layout} {stvec : Word} {M₀ M M' : Machine} {ls ls' : List SystemLabel}

/-- Every run of the system is a run of processes with private memories: each read finds what
its own env has there, each write changes one byte of its own env, and traps, scheduling and the
kernel change none of the memories. -/
theorem system_refines (start : Starts L M₀)
    (run : PrivateMemory.Run (SystemStep L stvec) ls M₀ M) :
    PrivateMemory.Run (PrivateMemory.Step .store) ls (fun _ => none) (userMemories M.kernel) := by
  rw [← start.userMemories]
  exact (start.inv.run run).1

/-- An env is created, dispatched and stores a byte. -/
theorem system_refines_store : ∃ M₀ M, Starts default M₀ ∧
    PrivateMemory.Run (SystemStep default 0) [.create 0, .silent, .write 0 0x100c 7] M₀ M ∧
    PrivateMemory.Run (PrivateMemory.Step .store) [.create 0, .silent, .write 0 0x100c 7]
      (fun _ => none) (userMemories M.kernel) := by
  obtain ⟨M₀, M, start, run, hmode, hcur, hall⟩ := store_run default
  obtain ⟨pa, hpa⟩ := hall .store
  have hrun := run.append (.cons (.write (b := 7) hmode hcur hpa) (.nil _))
  exact ⟨M₀, _, start, hrun, system_refines start hrun⟩

/-- As long as an env is not freed, its memory is changed by its own writes and by nothing that
the other envs and the kernel do. -/
theorem user_memory_private (start : Starts L M₀)
    (before : PrivateMemory.Run (SystemStep L stvec) ls M₀ M)
    (run : PrivateMemory.Run (SystemStep L stvec) ls' M M') {e : ℕ} {S : UserMemory}
    (live : userMemories M.kernel e = some S) (kept : .free e ∉ ls') :
    userMemories M'.kernel e = some (S.writes (PrivateMemory.writesOf e ls')) := by
  have hinv := (start.inv.run before).2
  exact (hinv.run run).1.space live kept

/-- The byte that the env stored is in its memory. -/
theorem user_memory_private_store : ∃ M₀ M M' S, Starts default M₀ ∧
    PrivateMemory.Run (SystemStep default 0) [.create 0, .silent] M₀ M ∧
    PrivateMemory.Run (SystemStep default 0) [.write 0 0x100c 7] M M' ∧
    userMemories M.kernel 0 = some S ∧
    userMemories M'.kernel 0 = some (S.writes [(0x100c,7)]) := by
  obtain ⟨M₀, M, start, run, hmode, hcur, hall⟩ := store_run default
  obtain ⟨pa, hpa⟩ := hall .store
  obtain ⟨c, hc, hrun, _⟩ := (start.inv.run run).2.access hmode
  obtain rfl : 0 = c := Option.some.inj (hcur.symm.trans hc)
  have hstore : PrivateMemory.Run (SystemStep default 0) [.write 0 0x100c 7] M _ :=
    .cons (.write (b := 7) hmode hcur hpa) (.nil _)
  exact ⟨M₀, M, _, _, start, run, hstore, userMemories_of hrun,
    user_memory_private start run hstore (userMemories_of hrun) (by simp)⟩

/-- What user mode reads is what its env wrote to the address last, or what was there before,
whatever happened in between. -/
theorem user_reads_last_write (start : Starts L M₀)
    (before : PrivateMemory.Run (SystemStep L stvec) ls M₀ M) {e va : ℕ} {access : Sv39.Access}
    {b : UInt8} {S : UserMemory}
    (run : PrivateMemory.Run (SystemStep L stvec) (ls'++[.read e access va b]) M M')
    (live : userMemories M.kernel e = some S) (kept : .free e ∉ ls') :
    ∃ old, S access va = some old ∧
      b = (((PrivateMemory.writesOf e ls').reverse.find? (fun x => x.1 = va)).map Prod.snd).getD
        old := by
  have hinv := (start.inv.run before).2
  exact (hinv.run run).1.read live kept

theorem user_reads_last_write_store : ∃ M₀ M M' S, Starts default M₀ ∧
    PrivateMemory.Run (SystemStep default 0) [.create 0, .silent] M₀ M ∧
    PrivateMemory.Run (SystemStep default 0) ([.write 0 0x100c 7]++[.read 0 .load 0x100c 7]) M M' ∧
    userMemories M.kernel 0 = some S ∧ ∃ old, S .load 0x100c = some old ∧
    (7 : UInt8) =
      (((PrivateMemory.writesOf 0 ([.write 0 0x100c 7] : List SystemLabel)).reverse.find?
        (fun x => x.1 = 0x100c)).map Prod.snd).getD old := by
  obtain ⟨M₀, M, M', start, run, hmode, hcur, hread⟩ := store_run_read default
  obtain ⟨c, hc, hrun, _⟩ := (start.inv.run run).2.access hmode
  obtain rfl : 0 = c := Option.some.inj (hcur.symm.trans hc)
  exact ⟨M₀, M, M', _, start, run, hread, userMemories_of hrun,
    user_reads_last_write start run hread (userMemories_of hrun) (by simp)⟩

end

end RiscvMos
