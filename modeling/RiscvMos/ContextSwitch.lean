import RiscvMos.LoadImage
import RiscvMos.SchedList
import RiscvMos.TrapSpec

/-! Context switches by timer interrupts: what an env that was interrupted finds in its
registers when it is dispatched again. -/
namespace RiscvMos
open ByteMem IntrusiveQueue Function

/-! ### One interrupt -/

theorem SAVE_ALL_sscratch {L : Layout} {h : Hart} {c : ℕ} (hc : c < NENV)
    (hs : h.sscratch = BitVec.ofNat 64 (L.tf c+TF_SIZE)) : (frameBase h).toNat = L.tf c := by
  have hend := L.tf_end hc
  have htop : KERNEND < 2^63 := by decide
  have htf : TF_SIZE = 288 := rfl
  have hne : h.sscratch ≠ 0 := by
    rw [hs]
    intro h0
    have hnat := congrArg BitVec.toNat h0
    simp only [BitVec.toNat_ofNat, BitVec.ofNat_eq_ofNat, Nat.zero_mod] at hnat
    omega
  rw [frameBase, if_neg hne, hs, BitVec.toNat_sub, BitVec.toNat_ofNat]
  show (2^64-288+_)%2^64 = _
  omega

/-- The stack pointer of kernel code that is interrupted: the frame fits on the kernel stack. -/
def OnKernelStack (L : Layout) (h : Hart) : Prop :=
  L.envs+ENV_SIZE*NENV+TF_SIZE ≤ (h.x 2).toNat ∧ (h.x 2).toNat ≤ KSTACKTOP

theorem SAVE_ALL_kernel {L : Layout} {h : Hart} (hs : h.sscratch = 0) (hsp : OnKernelStack L h) :
    (frameBase h).toNat = (h.x 2).toNat-TF_SIZE := by
  obtain ⟨hlo, hhi⟩ := hsp
  have htop : KSTACKTOP < 2^63 := by decide
  have htf : TF_SIZE = 288 := rfl
  rw [frameBase, if_pos hs, BitVec.toNat_sub]
  show (2^64-288+_)%2^64 = _
  omega

/-- A timer interrupt that does not panic dispatches `e`. -/
structure Dispatched (L : Layout) (M M' : Machine) (e : ℕ) : Prop where
  curenv : M'.kernel.curenv = some e
  entry : ∃ h h' m, h.saved 32 = (M.hart.trap 0 SCAUSE_TIMER 0).sstatus ∧
    Entered h (frameBase M.hart) M.kernel.phys.mem h' m ∧
    schedule L (M.kernel.setMem m) false = .ok M'.kernel ∧
    M'.kernel.phys.mem = saveContext L m M.kernel.curenv
  frame : L.tf e+288 ≤ 2^64 → FrameOf M'.kernel.phys.mem (L.tf e) M'.hart ∧
    M'.hart.sscratch = if M'.hart.mode = .user then BitVec.ofNat 64 (L.tf e+288) else 0

theorem Entered.handle_s_int {h h' : Hart} {a : Word} {m m' : Mem} (entered : Entered h a m h' m')
    (hcause : h.scause = SCAUSE_TIMER) : kexcentryHandler h'.scause = .handle_s_int := by
  rw [entered.scause, hcause]
  decide

theorem takeTrap_dispatched {L : Layout} {M M' : Machine} {stvec : Word}
    (hb : (frameBase M.hart).toNat+288 ≤ 2^64) (h : takeTrap L M stvec SCAUSE_TIMER 0 = .ok M') :
    ∃ e, Dispatched L M M' e := by
  have entered := SAVE_ALL_entered (h := M.hart.trap stvec SCAUSE_TIMER 0) hb M.kernel.phys.mem
  rw [takeTrap] at h
  generalize SAVE_ALL (M.hart.trap stvec SCAUSE_TIMER 0) M.kernel.phys.mem = r at entered h
  obtain ⟨h₁, m⟩ := r
  have hcause := entered.handle_s_int rfl
  dsimp only at h
  rw [hcause] at h
  obtain ⟨K', hsched, h⟩ := bind_eq_ok.mp h
  obtain ⟨e, s⟩ := schedule_scheduled hsched
  rw [s.curenv] at h
  cases h
  refine ⟨e, s.curenv, ⟨M.hart.trap stvec SCAUSE_TIMER 0, h₁, m, rfl, entered, hsched, ?_⟩, fun htf => ?_⟩
  · exact congrArg Phys.mem s.phys
  · have hpop := envPopTf_frame h₁ K'.phys.mem htf
    rwa [entered.sscratch] at hpop

theorem Dispatched.queue {L : Layout} {M M' : Machine} {e : ℕ} {ql fl : List ℕ}
    (d : Dispatched L M M' e) (h : SchedInv M.kernel ql fl) :
    e ∈ ql ∧ ∃ ql', SchedInv M'.kernel ql' fl ∧ ∀ i, i ∈ ql' ↔ i ∈ ql := by
  obtain ⟨_, _, m, _, _, hsched, _⟩ := d.entry
  have hm := h.keeps (keepsEnvs_setPhys M.kernel ⟨m, M.kernel.phys.freelist⟩)
  obtain ⟨ql', hs⟩ := hm.schedule hsched
  obtain ⟨e', s⟩ := schedule_scheduled hsched
  obtain rfl : e' = e := Option.some.inj (s.curenv.symm.trans d.curenv)
  have hmem (i : ℕ) : i ∈ ql' ↔ i ∈ ql := by
    rw [hs.mem_queue, hm.mem_queue, s.env_status i]
    rfl
  exact ⟨(hmem e').mp ((hs.mem_queue e').mpr s.runnable), ql', hs, hmem⟩

/-! ### The frames of the envs -/

theorem Layout.tf_apart (L : Layout) {c e : ℕ} (h : c ≠ e) :
    L.tf e+TF_SIZE ≤ L.tf c ∨ L.tf c+TF_SIZE ≤ L.tf e := by
  have hsize : ENV_SIZE = 376 := rfl
  have htf : TF_SIZE = 288 := rfl
  rw [Layout.tf, Layout.tf, hsize, htf]
  omega

theorem Layout.tf_lt (L : Layout) {e : ℕ} (he : e < NENV) : L.tf e+TF_SIZE ≤ L.envs+ENV_SIZE*NENV := by
  have hsize : ENV_SIZE = 376 := rfl
  have htf : TF_SIZE = 288 := rfl
  have hn : NENV = 1024 := by decide
  rw [hn] at he ⊢
  rw [Layout.tf, hsize, htf]
  omega

theorem frameWord_congr {m m' : Mem} {a i : ℕ} (h : AgreeOn m m' a TF_SIZE) (hi : i < 36) :
    frameWord m a i = frameWord m' a i := by
  have htf : TF_SIZE = 288 := rfl
  exact load_congr (h.mono (by omega) (by omega))

theorem saveContext_outside (L : Layout) (m : Mem) (curenv : Option ℕ) {e : ℕ} (h : curenv ≠ some e) :
    AgreeOn (saveContext L m curenv) m (L.tf e) TF_SIZE := by
  cases curenv with
  | none => exact fun _ _ _ => rfl
  | some c =>
    have hce : c ≠ e := fun hc => h (by rw [hc])
    rw [saveContext]
    exact (blit_sameOutside m (L.tf c) TF_SIZE _).agreeOn (L.tf_apart hce)

theorem saveContext_word (L : Layout) (m : Mem) (c : ℕ) {i : ℕ} (hi : i < 36) :
    frameWord (saveContext L m (some c)) (L.tf c) i = frameWord m (KSTACKTOP-TF_SIZE) i := by
  have htf : TF_SIZE = 288 := rfl
  exact load_blit (by omega)

/-- Where the entry stores the frame: in the current env, or on the kernel stack. -/
def StoresFrame (L : Layout) (M : Machine) : Prop :=
  (∃ c, M.kernel.curenv = some c ∧ c < NENV ∧ (frameBase M.hart).toNat = L.tf c) ∨
    L.envs+ENV_SIZE*NENV ≤ (frameBase M.hart).toNat ∧ (frameBase M.hart).toNat+TF_SIZE ≤ KSTACKTOP

theorem StoresFrame.bound {L : Layout} {M : Machine} (h : StoresFrame L M) :
    (frameBase M.hart).toNat+288 ≤ 2^64 := by
  have htf : TF_SIZE = 288 := rfl
  have htop : KSTACKTOP < 2^63 := by decide
  rcases h with ⟨c, _, hc, hb⟩ | ⟨_, hb⟩
  · have hend := L.tf_end hc
    have hk : KERNEND < 2^63 := by decide
    omega
  · omega

theorem Dispatched.frames {L : Layout} {M M' : Machine} {e : ℕ} (d : Dispatched L M M' e)
    (hs : StoresFrame L M) {c : ℕ} (hc : c < NENV) (hcur : M.kernel.curenv ≠ some c) :
    AgreeOn M'.kernel.phys.mem M.kernel.phys.mem (L.tf c) TF_SIZE := by
  have htf : TF_SIZE = 288 := rfl
  obtain ⟨_, _, m, _, entered, _, hmem⟩ := d.entry
  have hm := entered.outside
  rw [hmem]
  refine (saveContext_outside L m M.kernel.curenv hcur).trans (hm.agreeOn ?_)
  rcases hs with ⟨b, hb, _, hbase⟩ | ⟨hlo, _⟩
  · have hne : b ≠ c := fun hbc => hcur (by rw [hb, hbc])
    rw [hbase]
    exact L.tf_apart hne
  · have hlt := L.tf_lt hc
    omega

theorem StoresFrame.low {L : Layout} {M : Machine} (h : StoresFrame L M) :
    (frameBase M.hart).toNat+TF_SIZE ≤ KERNEND := by
  rcases h with ⟨c, _, hc, hb⟩ | ⟨_, hb⟩
  · rw [hb]
    exact L.tf_end hc
  · exact hb

/-- The env that was interrupted in user mode has the frame from the top of the kernel stack. -/
theorem Dispatched.overwritten {L : Layout} {M M' : Machine} {c e : ℕ} (d : Dispatched L M M' e)
    (hc : c < NENV) (hcur : M.kernel.curenv = some c) (hb : (frameBase M.hart).toNat = L.tf c)
    {i : ℕ} (hi : i < 36) : frameWord M'.kernel.phys.mem (L.tf c) i =
      frameWord M.kernel.phys.mem (KSTACKTOP-TF_SIZE) i := by
  have htf : TF_SIZE = 288 := rfl
  obtain ⟨_, _, m, _, entered, _, hmem⟩ := d.entry
  have hm := entered.outside
  have hlt := L.tf_lt hc
  have henvs := L.envs_lt
  rw [hmem, hcur, saveContext_word L m c hi]
  refine frameWord_congr (hm.agreeOn ?_) hi
  rw [hb]
  omega

/-! ### Runs -/

/-- Timer interrupts reach user mode, and the kernel where SIE is set. -/
def TimerEnabled (L : Layout) (h : Hart) : Prop :=
  h.mode = .user ∨ h.sstatus &&& SSTATUS_SIE ≠ 0 ∧ OnKernelStack L h

/-- The envs that wait, with the machine as it was when they were interrupted in user mode. -/
def interrupted (M : Machine) (w : ℕ → Option Machine) : ℕ → Option Machine :=
  match M.kernel.curenv with
  | some c => if M.hart.mode = .user then update w c (some M) else w
  | none => w

/-- Runs from a kernel that has created envs and run none. User code does what it likes with
its registers and with memory behind the kernel. Kernel code with interrupts on, at first
`rv_main` and the loop `spin`, writes no trap frame. -/
inductive SwitchRun (L : Layout) (stvec : Word) : Machine → (ℕ → Option Machine) → Prop
  | start {m : Mem} {K₀ K : Kernel} {h : Hart} (start : boot L m = .ok K₀)
      (steps : Relation.ReflTransGen (SchedStep L) K₀ K) (first : K.curenv = none)
      (mode : h.mode = .supervisor) (sscratch : h.sscratch = 0) :
      SwitchRun L stvec ⟨h, K⟩ (fun _ => none)
  | user {M : Machine} {w : ℕ → Option Machine} {m : Mem} {x : ℕ → Word} {pc : Word}
      (run : SwitchRun L stvec M w) (mode : M.hart.mode = .user)
      (low : ∀ b < KERNEND, m b = M.kernel.phys.mem b) :
      SwitchRun L stvec ⟨{ M.hart with x := x, pc := pc }, M.kernel.setMem m⟩ w
  | kernel {M : Machine} {w : ℕ → Option Machine} {m : Mem} {h : Hart}
      (run : SwitchRun L stvec M w) (before : M.hart.mode = .supervisor) (mode : h.mode = .supervisor)
      (sscratch : h.sscratch = M.hart.sscratch)
      (frames : ∀ c < NENV, AgreeOn m M.kernel.phys.mem (L.tf c) TF_SIZE) :
      SwitchRun L stvec ⟨h, M.kernel.setMem m⟩ w
  | timer {M M' : Machine} {w : ℕ → Option Machine} {e : ℕ} (run : SwitchRun L stvec M w)
      (enabled : TimerEnabled L M.hart)
      (call : takeTrap L M stvec SCAUSE_TIMER 0 = .ok M') (dispatch : M'.kernel.curenv = some e) :
      SwitchRun L stvec M' (update (interrupted M w) e none)

/-- In user mode sscratch points behind the frame of the current env. An env that waits has
the frame that was at the top of the kernel stack when it was interrupted. -/
structure SwitchInv (L : Layout) (M : Machine) (w : ℕ → Option Machine) : Prop where
  sched : ∃ ql fl, SchedInv M.kernel ql fl
  curenv : ∀ c, M.kernel.curenv = some c → c < NENV ∧ w c = none
  user : M.hart.mode = .user → ∃ c, M.kernel.curenv = some c ∧
    M.hart.sscratch = BitVec.ofNat 64 (L.tf c+TF_SIZE)
  kernel : M.hart.mode = .supervisor → M.hart.sscratch = 0
  waiting : ∀ c N, w c = some N → c < NENV ∧ ∀ i < 36,
    frameWord M.kernel.phys.mem (L.tf c) i = frameWord N.kernel.phys.mem (KSTACKTOP-TF_SIZE) i

section
variable {L : Layout} {stvec : Word} {M M' : Machine} {w : ℕ → Option Machine} {e : ℕ}

theorem SwitchInv.code (h : SwitchInv L M w) {x : Hart} {m : Mem} (mode : x.mode = M.hart.mode)
    (sscratch : x.sscratch = M.hart.sscratch)
    (frames : ∀ c < NENV, AgreeOn m M.kernel.phys.mem (L.tf c) TF_SIZE) :
    SwitchInv L ⟨x, M.kernel.setMem m⟩ w := by
  obtain ⟨ql, fl, hs⟩ := h.sched
  refine ⟨⟨ql, fl, hs.keeps (keepsEnvs_setPhys M.kernel ⟨m, M.kernel.phys.freelist⟩)⟩, h.curenv, ?_, ?_,
    fun c N hw => ?_⟩
  · intro hm
    rw [sscratch]
    exact h.user (mode.symm.trans hm)
  · intro hm
    rw [sscratch]
    exact h.kernel (mode.symm.trans hm)
  · obtain ⟨hc, hwords⟩ := h.waiting c N hw
    exact ⟨hc, fun i hi => (frameWord_congr (frames c hc) hi).trans (hwords i hi)⟩

theorem SwitchInv.storesFrame (h : SwitchInv L M w)
    (enabled : TimerEnabled L M.hart) :
    StoresFrame L M := by
  cases hmode : M.hart.mode with
  | user =>
    obtain ⟨c, hc, hs⟩ := h.user hmode
    obtain ⟨hlt, _⟩ := h.curenv c hc
    exact Or.inl ⟨c, hc, hlt, SAVE_ALL_sscratch hlt hs⟩
  | supervisor =>
    obtain ⟨_, hstack⟩ := enabled.resolve_left (by simp [hmode])
    have hb := SAVE_ALL_kernel (h.kernel hmode) hstack
    obtain ⟨hlo, hhi⟩ := hstack
    have htf : TF_SIZE = 288 := rfl
    right
    rw [hb]
    omega

theorem SwitchInv.interrupted (h : SwitchInv L M w)
    (enabled : TimerEnabled L M.hart)
    (d : Dispatched L M M' e) {c : ℕ} {N : Machine} (hw : RiscvMos.interrupted M w c = some N) :
    c < NENV ∧ ∀ i < 36, frameWord M'.kernel.phys.mem (L.tf c) i =
      frameWord N.kernel.phys.mem (KSTACKTOP-TF_SIZE) i := by
  have hstores := h.storesFrame enabled
  have hold (hcur : M.kernel.curenv ≠ some c) (hw : w c = some N) : c < NENV ∧ ∀ i < 36,
      frameWord M'.kernel.phys.mem (L.tf c) i = frameWord N.kernel.phys.mem (KSTACKTOP-TF_SIZE) i := by
    obtain ⟨hc, hwords⟩ := h.waiting c N hw
    exact ⟨hc, fun i hi => (frameWord_congr (d.frames hstores hc hcur) hi).trans (hwords i hi)⟩
  -- the current env does not wait
  have hwait (hw : w c = some N) : M.kernel.curenv ≠ some c := by
    intro hcur
    rw [(h.curenv c hcur).2] at hw
    cases hw
  rw [RiscvMos.interrupted] at hw
  cases hcur : M.kernel.curenv with
  | none =>
    rw [hcur] at hw
    exact hold (hwait hw) hw
  | some b =>
    rw [hcur] at hw
    dsimp only at hw
    split_ifs at hw with hmode
    · by_cases hcb : c = b
      · subst hcb
        rw [update_self] at hw
        cases hw
        obtain ⟨c', hc', hs⟩ := h.user hmode
        obtain rfl : c' = c := Option.some.inj (hc'.symm.trans hcur)
        have hlt := (h.curenv c' hc').1
        exact ⟨hlt, fun i hi => d.overwritten hlt hc' (SAVE_ALL_sscratch hlt hs) hi⟩
      · rw [update_of_ne hcb] at hw
        exact hold (hwait hw) hw
    · exact hold (hwait hw) hw

theorem SwitchInv.timer (h : SwitchInv L M w)
    (enabled : TimerEnabled L M.hart)
    (d : Dispatched L M M' e) : e < NENV ∧ SwitchInv L M' (update (RiscvMos.interrupted M w) e none) := by
  obtain ⟨ql, fl, hs⟩ := h.sched
  obtain ⟨hmem, ql', hs', _⟩ := d.queue hs
  have he : e < NENV := (hs.queue_lt e hmem).1
  have hend := L.tf_end he
  have hk : KERNEND < 2^63 := by decide
  have htf : TF_SIZE = 288 := rfl
  obtain ⟨_, hscratch⟩ := d.frame (by omega)
  refine ⟨he, ⟨ql', fl, hs'⟩, fun c hc => ?_, fun hmode => ?_, fun hmode => ?_, fun c N hw => ?_⟩
  · obtain rfl : c = e := Option.some.inj (hc.symm.trans d.curenv)
    exact ⟨he, update_self ..⟩
  · rw [if_pos hmode] at hscratch
    exact ⟨e, d.curenv, hscratch⟩
  · rw [hmode, if_neg (by decide)] at hscratch
    exact hscratch
  · by_cases hce : c = e
    · rw [hce, update_self] at hw
      cases hw
    · rw [update_of_ne hce] at hw
      exact h.interrupted enabled d hw

theorem SwitchRun.inv (run : SwitchRun L stvec M w) : SwitchInv L M w := by
  induction run with
  | start start steps first mode sscratch =>
    obtain ⟨ql, fl, hs⟩ := (boot_schedInv start).run steps
    refine ⟨⟨ql, fl, hs⟩, fun c hc => ?_, fun hm => ?_, fun _ => sscratch, fun c N hw => ?_⟩
    · rw [first] at hc
      cases hc
    · rw [mode] at hm
      cases hm
    · cases hw
  | user _ mode low ih =>
    exact ih.code rfl rfl (fun c hc b _ hb => low b (hb.trans_le (L.tf_end hc)))
  | kernel _ before mode sscratch frames ih => exact ih.code (mode.trans before.symm) sscratch frames
  | timer _ enabled call dispatch ih =>
    obtain ⟨e', d⟩ := takeTrap_dispatched (ih.storesFrame enabled).bound call
    obtain rfl := Option.some.inj (d.curenv.symm.trans dispatch)
    exact (ih.timer enabled d).2

/-- In every run an env that was interrupted in user mode is dispatched with the registers,
pc and mode it had iff the frame at the top of the kernel stack had them already. -/
theorem context_switch_restores {N : Machine} (run : SwitchRun L stvec M w)
    (enabled : TimerEnabled L M.hart)
    (call : takeTrap L M stvec SCAUSE_TIMER 0 = .ok M') (dispatch : M'.kernel.curenv = some e)
    (again : interrupted M w e = some N) :
    SameState N.hart M'.hart ↔ FrameOf N.kernel.phys.mem (KSTACKTOP-TF_SIZE) N.hart := by
  have hinv := run.inv
  obtain ⟨e', d⟩ := takeTrap_dispatched (hinv.storesFrame enabled).bound call
  obtain rfl := Option.some.inj (d.curenv.symm.trans dispatch)
  obtain ⟨he, hwords⟩ := hinv.interrupted enabled d again
  have hend := L.tf_end he
  have hk : KERNEND < 2^63 := by decide
  have htf : TF_SIZE = 288 := rfl
  obtain ⟨hframe, _⟩ := d.frame (by omega)
  exact hframe.sameState_iff.trans (FrameOf.congr hwords)

theorem takeTrap_ok {ql fl : List ℕ} (h : SchedInv M.kernel ql fl) (hne : ql ≠ [])
    (hb : (frameBase M.hart).toNat+288 ≤ 2^64) : ∃ M', takeTrap L M stvec SCAUSE_TIMER 0 = .ok M' := by
  have entered := SAVE_ALL_entered (h := M.hart.trap stvec SCAUSE_TIMER 0) hb M.kernel.phys.mem
  rw [takeTrap]
  generalize SAVE_ALL (M.hart.trap stvec SCAUSE_TIMER 0) M.kernel.phys.mem = r at entered
  obtain ⟨h₁, m⟩ := r
  have hcause := entered.handle_s_int rfl
  have hs := h.keeps (keepsEnvs_setPhys M.kernel ⟨m, M.kernel.phys.freelist⟩)
  obtain ⟨K', hsched⟩ := hs.schedule_ok L hne false
  obtain ⟨e, s⟩ := schedule_scheduled hsched
  have hcall : schedule L (M.kernel.setMem m) false = .ok K' := hsched
  dsimp only
  rw [hcause]
  dsimp only
  rw [hcall, ok_bind, s.curenv]
  exact ⟨_, rfl⟩

end

/-! ### The loop spin -/

/-- The hart in `spin`, after `rv_main` has returned to start.S. -/
def spinHart : Hart where
  x i := if i = 2 then BitVec.ofNat 64 KSTACKTOP else 0
  pc := 0x8020000c
  mode := .supervisor
  sstatus := SSTATUS_SIE
  sepc := 0
  stval := 0
  scause := 0
  sscratch := 0

theorem spinHart_sp : (spinHart.x 2).toNat = KSTACKTOP := by decide

theorem spinHart_stack (L : Layout) : OnKernelStack L spinHart := by
  have htf : TF_SIZE ≤ KSTACKTOP := by decide
  have henvs := L.envs_lt
  rw [OnKernelStack, spinHart_sp]
  exact ⟨(Nat.le_sub_iff_add_le htf).mp henvs, le_rfl⟩

theorem spin_stores (L : Layout) {K : Kernel} : StoresFrame L ⟨spinHart, K⟩ := by
  have htf : TF_SIZE ≤ KSTACKTOP := by decide
  right
  rw [SAVE_ALL_kernel rfl (spinHart_stack L), spinHart_sp, Nat.sub_add_cancel htf]
  exact ⟨L.envs_lt, le_rfl⟩

/-- The first interrupt comes in `spin` and dispatches the only env in user mode. -/
theorem spin_dispatch {L : Layout} {K : Kernel} {fl : List ℕ} {e : ℕ} (hs : SchedInv K [e] fl)
    (hcur : K.curenv = none) (hword : frameWord K.phys.mem (L.tf e) 32 = SSTATUS_SPIE) :
    ∃ M ql, takeTrap L ⟨spinHart, K⟩ 0 SCAUSE_TIMER 0 = .ok M ∧
      Dispatched L ⟨spinHart, K⟩ M e ∧ SchedInv M.kernel ql fl ∧ (∀ i, i ∈ ql ↔ i ∈ [e]) ∧
      M.hart.mode = .user ∧ FrameOf K.phys.mem (L.tf e) M.hart := by
  have htf : TF_SIZE = 288 := rfl
  have hstores : StoresFrame L ⟨spinHart, K⟩ := spin_stores L
  obtain ⟨M, call⟩ : ∃ M, takeTrap L ⟨spinHart, K⟩ 0 SCAUSE_TIMER 0 = .ok M :=
    takeTrap_ok hs (List.cons_ne_nil e []) hstores.bound
  obtain ⟨e', d⟩ := takeTrap_dispatched hstores.bound call
  obtain ⟨he', ql, hs', hql⟩ := d.queue hs
  obtain rfl := List.mem_singleton.mp he'
  have he : e' < NENV := (hs.queue_lt e' he').1
  have hend := L.tf_end he
  have hk : KERNEND < 2^63 := by decide
  obtain ⟨hframe, _⟩ := d.frame (by omega)
  have hkept := d.frames hstores he (by rw [hcur]; simp)
  have hframe' : FrameOf K.phys.mem (L.tf e') M.hart :=
    (FrameOf.congr (fun i hi => frameWord_congr hkept hi)).mp hframe
  refine ⟨M, ql, call, d, hs', hql, ?_, hframe'⟩
  rw [hframe'.mode, hword]
  decide

/-- The kernel stack then has the frame of `spin`, with SPP set. -/
theorem spin_frame {L : Layout} {K : Kernel} {M : Machine} {e : ℕ} (d : Dispatched L ⟨spinHart, K⟩ M e)
    (hcur : K.curenv = none) : frameWord M.kernel.phys.mem (KSTACKTOP-TF_SIZE) 32 =
      (spinHart.trap 0 SCAUSE_TIMER 0).sstatus.toNat := by
  obtain ⟨h, _, m, h32, entered, _, hmem⟩ := d.entry
  have hbase := SAVE_ALL_kernel rfl (spinHart_stack L)
  have hword := entered.words 32 (by decide) (by decide)
  rw [hbase, spinHart_sp, h32] at hword
  rw [hmem, hcur]
  exact hword

/-- The first env is interrupted in user mode and goes on in kernel mode. -/
theorem spin_interrupted (L : Layout) : ∃ M M' w e, SwitchRun L 0 M w ∧ M.hart.mode = .user ∧
    takeTrap L M 0 SCAUSE_TIMER 0 = .ok M' ∧ M'.kernel.curenv = some e ∧
    interrupted M w e = some M ∧ M'.hart.mode = .supervisor := by
  obtain ⟨K₀, fr, τ, l, hboot, b⟩ := boot_ok L (fun _ => 0)
  obtain ⟨e, K, _, _, _, _, _, _, hcreate, c, hload, _⟩ :=
    b.envCreate_loads hboot spinImage_linked (spinImage_room.trans_le (by decide)) 1
  obtain ⟨fl, _, he, hs⟩ := (boot_schedInv hboot).create c
  have hcur : K.curenv = none := c.curenv.trans b.curenv
  have hend := L.tf_end he
  have hk : KERNEND < 2^63 := by decide
  have htf : TF_SIZE = 288 := rfl
  have hword : frameWord K.phys.mem (L.tf e) 32 = SSTATUS_SPIE := by
    calc frameWord K.phys.mem (L.tf e) 32
        = load64 (startFrame L K₀.phys.mem e _) (L.tf e+8*32) :=
          load_congr (fun b _ hb => hload.low b (by omega))
      _ = SSTATUS_SPIE := startFrame_word L K₀.phys.mem e (elfFrom_entry c.elf) 32
  have run₀ : SwitchRun L 0 ⟨spinHart, K⟩ (fun _ => none) :=
    .start hboot (.single (.create _ 1 hcreate)) hcur rfl rfl
  have enabled₀ : TimerEnabled L spinHart := Or.inr ⟨by decide, spinHart_stack L⟩
  obtain ⟨M, ql, call₀, d₀, hs₀, hql, hmode, _⟩ := spin_dispatch hs hcur hword
  have run := run₀.timer enabled₀ call₀ d₀.curenv
  have enabled : TimerEnabled L M.hart := Or.inl hmode
  have hstores := run.inv.storesFrame enabled
  have hne : ql ≠ [] := List.ne_nil_of_mem ((hql e).mpr List.mem_cons_self)
  obtain ⟨M', call⟩ : ∃ M', takeTrap L M 0 SCAUSE_TIMER 0 = .ok M' :=
    takeTrap_ok hs₀ hne hstores.bound
  obtain ⟨e', d⟩ := takeTrap_dispatched hstores.bound call
  obtain ⟨he', _⟩ := d.queue hs₀
  obtain rfl := List.mem_singleton.mp ((hql e').mp he')
  have hagain : interrupted M (update (interrupted ⟨spinHart, K⟩ (fun _ => none)) e' none) e' =
      some M := by
    rw [interrupted, d₀.curenv]
    dsimp only
    rw [if_pos hmode, update_self]
  refine ⟨M, M', _, e', run, hmode, call, d.curenv, hagain, ?_⟩
  obtain ⟨_, hwords⟩ := run.inv.interrupted enabled d hagain
  obtain ⟨hframe, _⟩ := d.frame (by omega)
  rw [hframe.mode, hwords 32 (by decide), spin_frame d₀ hcur]
  decide

theorem context_switch_restores_spin : ∃ M M' w e N, SwitchRun default 0 M w ∧
    takeTrap default M 0 SCAUSE_TIMER 0 = .ok M' ∧ M'.kernel.curenv = some e ∧
    interrupted M w e = some N ∧
    (SameState N.hart M'.hart ↔ FrameOf N.kernel.phys.mem (KSTACKTOP-TF_SIZE) N.hart) := by
  obtain ⟨M, M', w, e, run, hmode, call, dispatch, again, _⟩ := spin_interrupted default
  exact ⟨M, M', w, e, M, run, call, dispatch, again,
    context_switch_restores run (Or.inl hmode) call dispatch again⟩

/-- The env is dispatched in kernel mode. -/
theorem context_switch_loses : ∃ M M' w e N, SwitchRun default 0 M w ∧ TimerEnabled default M.hart ∧
    takeTrap default M 0 SCAUSE_TIMER 0 = .ok M' ∧ M'.kernel.curenv = some e ∧
    interrupted M w e = some N ∧ ¬SameState N.hart M'.hart := by
  obtain ⟨M, M', w, e, run, hmode, call, dispatch, again, hkernel⟩ := spin_interrupted default
  refine ⟨M, M', w, e, M, run, Or.inl hmode, call, dispatch, again, fun hsame => ?_⟩
  have hne := hsame.mode
  rw [hmode, hkernel] at hne
  cases hne

end RiscvMos
