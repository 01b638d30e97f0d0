import RiscvMos.LibSv39Cache
import RiscvMos.TrapOutcomes

/-! The system on a hart with an address-translation cache. User code can rely on the fence of
`env_run`, whatever the kernel does to the tables in between. -/
namespace RiscvMos
open ByteMem Function
open PrivateMemory (Run)

/-- The machine, and the entries that the hart may take instead of those in memory. -/
structure CachedMachine where
  machine : Machine
  cache : Sv39.Cache

/-- The root that satp names. -/
def satpRoot (satp : ℕ) : ℕ := satp%2^44*4096

/-- The steps of the system with the cache. The hart fetches ahead and evicts when it likes. What
the kernel leaves in the cache is anything; `env_run` changes satp and empties it, and a trap that
is handled without `schedule` keeps it. -/
inductive CachedStep (L : Layout) (stvec : Word) :
    SystemLabel → CachedMachine → CachedMachine → Prop
  | fill {M : Machine} {cache : Sv39.Cache} {va level pte : ℕ}
      (fetch : Sv39.Fetches (load64 M.kernel.phys.mem) cache va 2 (satpRoot M.kernel.satp) level
        pte) :
      CachedStep L stvec .silent ⟨M, cache⟩ ⟨M, cache.add level (Sv39.upper va level) pte⟩
  | evict {M : Machine} {cache cache' : Sv39.Cache}
      (fewer : ∀ level key pte, cache' level key pte → cache level key pte) :
      CachedStep L stvec .silent ⟨M, cache⟩ ⟨M, cache'⟩
  | compute {M : Machine} {cache : Sv39.Cache} {x : ℕ → Word} {pc : Word}
      (mode : M.hart.mode = .user) :
      CachedStep L stvec .silent ⟨M, cache⟩
        ⟨⟨{ M.hart with x := x, pc := pc }, M.kernel⟩, cache⟩
  | read {M : Machine} {cache : Sv39.Cache} {c va pa : ℕ} {access : Sv39.Access}
      (mode : M.hart.mode = .user) (curenv : M.kernel.curenv = some c)
      (hit : Sv39.TranslatesAt (load64 M.kernel.phys.mem) cache M.kernel.satp .user access va pa) :
      CachedStep L stvec (.read c access va (M.kernel.phys.mem pa)) ⟨M, cache⟩ ⟨M, cache⟩
  | write {M : Machine} {cache : Sv39.Cache} {c va pa : ℕ} {b : UInt8}
      (mode : M.hart.mode = .user) (curenv : M.kernel.curenv = some c)
      (hit : Sv39.TranslatesAt (load64 M.kernel.phys.mem) cache M.kernel.satp .user .store va pa) :
      CachedStep L stvec (.write c va b) ⟨M, cache⟩
        ⟨⟨M.hart, M.kernel.setMem (update M.kernel.phys.mem pa b)⟩, cache⟩
  | kernel {M M' : Machine} {cache cache' : Sv39.Cache} {label : SystemLabel}
      (before : M.hart.mode = .supervisor) (after : M'.hart.mode = .supervisor)
      (step : SystemStep L stvec label M M') : CachedStep L stvec label ⟨M, cache⟩ ⟨M', cache'⟩
  | run {M : Machine} {cache : Sv39.Cache} {K : Kernel} {e : ℕ} {yield : Bool}
      (mode : M.hart.mode = .supervisor) (call : schedule L M.kernel yield = .ok K)
      (dispatch : K.curenv = some e) :
      CachedStep L stvec .silent ⟨M, cache⟩
        ⟨⟨envPopTf M.hart K.phys.mem (L.tf e), K⟩, Sv39.noCache⟩
  | trap {M M' : Machine} {K : Kernel} {cache : Sv39.Cache} {scause stval : Word}
      (origin : M.hart.mode = .user ∨ OnKernelStack L M.hart) (stack : HandlerStack M.kernel K)
      (call : takeTrap L ⟨M.hart, K⟩ stvec scause stval = .ok M') :
      CachedStep L stvec .silent ⟨M, cache⟩
        ⟨M', if kexcentryHandler scause = .handle_s_int then Sv39.noCache else cache⟩

theorem SystemStep.cached {L : Layout} {stvec : Word} {label : SystemLabel} {M M' : Machine}
    (step : SystemStep L stvec label M M') :
    CachedStep L stvec label ⟨M, Sv39.noCache⟩ ⟨M', Sv39.noCache⟩ := by
  cases step with
  | compute mode => exact .compute mode
  | read mode curenv hit => exact .read mode curenv (Sv39.translatesAt_noCache.mpr hit)
  | write mode curenv hit => exact .write mode curenv (Sv39.translatesAt_noCache.mpr hit)
  | kernel before mode sscratch low => exact .kernel before mode (.kernel before mode sscratch low)
  | create mode user pages call => exact .kernel mode mode (.create mode user pages call)
  | free mode runnable torn => exact .kernel mode mode (.free mode runnable torn)
  | forget mode => exact .kernel mode mode (.forget mode)
  | run mode call dispatch => exact .run mode call dispatch
  | @trap _ _ K scause stval origin stack call =>
    have htrap := @CachedStep.trap L stvec M M' K Sv39.noCache scause stval origin stack call
    rwa [ite_self] at htrap

/-! ### Walks that stay in the tables -/

theorem selfPte_isLeaf {p : ℕ} (hp : IsPage p) : Sv39.IsLeaf (selfPte p) := by
  have hb := hp.bounds
  have hflags : PTE_V ||| PTE_R ||| PTE_U < 1024 := by decide
  have hval : PTE_V ||| PTE_R ||| PTE_U = 19 := by decide
  left
  rw [selfPte_eq, mkPte_eq p _ hflags, hval, Sv39.R, Nat.testBit_eq_decide_div_mod_eq]
  simp only [decide_eq_true_eq]
  omega

theorem Typed.fetches_frame {s : Phys} {τ : Typing} {sm : ℕ → Prop} {l : List ℕ}
    (h : Typed s τ sm l) {m' : Mem}
    (hm : ∀ {p ℓ par}, τ p = .table ℓ par → AgreeOn m' s.mem p 4096) {va level table k pte : ℕ}
    {par : Option (ℕ × ℕ)} (hp : τ table = .table level par)
    (hf : Sv39.Fetches (load64 s.mem) Sv39.noCache va level table k pte) :
    Sv39.Fetches (load64 m') Sv39.noCache va level table k pte := by
  have hsame {level table pte : ℕ} {par : Option (ℕ × ℕ)} (hp : τ table = .table level par)
      (found : Sv39.Found (load64 s.mem) Sv39.noCache va level table pte) :
      Sv39.Found (load64 m') Sv39.noCache va level table pte := by
    refine Or.inl (found.noCache.trans ?_)
    exact (entry_agree (hm hp) (vpnIndex_lt level (va/4096))).symm
  induction hf generalizing par with
  | here found => exact .here (hsame hp found)
  | @down level table pte k pte' found valid pointer _ ih =>
    have hent : pte = entry s.mem table (vpnIndex (level+1) (va/4096)) := found.noCache
    refine .down (hsame hp found) valid pointer ?_
    -- The slot of the self map holds a leaf, any other pointer leads to a table.
    have hc : Clear sm table (level+1) (vpnIndex (level+1) (va/4096)) := by
      rintro ⟨hsm, _, hslot⟩
      rw [hent, hslot, (h.selfMap hsm).2] at pointer
      exact pointer (selfPte_isLeaf (h.page hp))
    have hv : Valid pte := by
      by_contra hn
      exact valid (not_Valid_faults hn)
    rw [hent] at hv
    have hn := h.next hp (vpnIndex_lt _ _) hc hv
    have hpar := (h.parent hn).2.2.2
    have hppn := (tablePte_hardware (h.page hn)).2.2
    rw [← hpar, ← hent] at hppn
    rw [← hent] at hn
    rw [← hppn] at hn
    exact ih hn

section
variable {L : Layout} {stvec : Word} {M M' : Machine} {C C' : CachedMachine}

/-- Writes of user code and writes below the heap leave the cache coherent. -/
theorem SystemInv.coherent (h : SystemInv L M) (mode : M.hart.mode = .user) {m : Mem}
    (hw : UserWrites M.kernel m) {cache : Sv39.Cache}
    (hc : Sv39.Coherent (load64 M.kernel.phys.mem) cache (RiscvMos.satpRoot M.kernel.satp)) :
    Sv39.Coherent (load64 m) cache (RiscvMos.satpRoot M.kernel.satp) := by
  obtain ⟨c, hcur, _, hrun, hsatp, _⟩ := h.user mode
  obtain ⟨_, _, _, _, _, _, _, hiso, _⟩ := h.history.inv
  have hroot := hiso.root hrun
  have htyped := hiso.owned.spaces.typed
  have hsame : RiscvMos.satpRoot M.kernel.satp = (M.kernel.envs c).env_pgtable := by
    rw [hsatp, RiscvMos.satpRoot]
    exact (MAKE_SATP_eq (htyped.page hroot)).2
  rw [hsame] at hc ⊢
  refine hc.frame (fun va k pte hf => htyped.fetches_frame (fun {p ℓ par} hp => ?_) hroot hf)
  -- Frames of envs are no tables.
  intro b hlo hhi
  by_contra hb
  have hpage := htyped.page hp
  rcases hw b hb with hlow | ⟨e, v, pte, hu, hqlo, hqhi⟩
  · exact absurd (hpage.1.trans hlo) (by omega)
  · obtain ⟨hq, ht, _⟩ := hiso.userLeaf hu
    have hpq : p ≠ PTE2PA pte := by
      rintro rfl
      rw [hp] at ht
      cases ht
    have hd := hpage.disjoint hq hpq
    omega

/-- In user mode the cache agrees with the table of the env that runs. -/
structure CachedInv (L : Layout) (C : CachedMachine) : Prop where
  system : SystemInv L C.machine
  coherent : C.machine.hart.mode = .user → Sv39.Coherent (load64 C.machine.kernel.phys.mem) C.cache
    (RiscvMos.satpRoot C.machine.kernel.satp)

theorem CachedInv.stack {cache : Sv39.Cache} (h : CachedInv L ⟨M, cache⟩) {K : Kernel}
    (stack : HandlerStack M.kernel K) : CachedInv L ⟨⟨M.hart, K⟩, cache⟩ := by
  have hsys : SystemInv L M := h.system
  have hstack := (hsys.stack stack).2
  obtain ⟨low, fields⟩ := stack
  refine ⟨hstack, fun hmode => ?_⟩
  dsimp only
  rw [fields]
  exact hsys.coherent hmode (userWrites_low low) (h.coherent hmode)

theorem CachedInv.trap {cache : Sv39.Cache} (h : CachedInv L ⟨M, cache⟩) {scause stval : Word}
    (origin : M.hart.mode = .user ∨ OnKernelStack L M.hart)
    (call : takeTrap L M stvec scause stval = .ok M') (mode : M'.hart.mode = .user) :
    Sv39.Coherent (load64 M'.kernel.phys.mem)
      (if kexcentryHandler scause = .handle_s_int then Sv39.noCache else cache)
      (RiscvMos.satpRoot M'.kernel.satp) := by
  have hsys : SystemInv L M := h.system
  have hlow := hsys.frame_low origin
  have hk : KERNEND < 2^63 := by decide
  cases hhandler : kexcentryHandler scause with
  | handle_s_int => exact Sv39.coherent_noCache _ _
  | handle_reserved =>
    rw [takeTrap_reserved L M stvec stval hhandler] at call
    cases call
  | handle_ebreak =>
    obtain ⟨M₁, m, hcall, hkernel, hout, back, _⟩ :=
      takeTrap_break L stvec stval hsys.trapOrigin (by omega) hhandler
    obtain rfl : M₁ = M' := Except.ok.inj (hcall.symm.trans call)
    have hmode : M.hart.mode = .user := back.mode.symm.trans mode
    rw [if_neg (by decide), hkernel]
    exact hsys.coherent hmode (userWrites_low fun b hb => hout b (by omega)) (h.coherent hmode)

theorem SystemStep.idle (L : Layout) (stvec : Word) (M : Machine) :
    SystemStep L stvec .silent M M := by
  cases hmode : M.hart.mode with
  | user => exact @SystemStep.compute L stvec M M.hart.x M.hart.pc hmode
  | supervisor =>
    have hsame (b : ℕ) (_ : KERNEND ≤ b) : M.kernel.phys.mem b = M.kernel.phys.mem b := rfl
    exact .kernel hmode hmode rfl hsame

/-- A step with the cache is one without it. -/
theorem CachedInv.plain (h : CachedInv L C) {label : SystemLabel}
    (step : CachedStep L stvec label C C') :
    SystemStep L stvec label C.machine C'.machine := by
  cases step with
  | fill fetch => exact .idle L stvec _
  | evict fewer => exact .idle L stvec _
  | compute mode => exact .compute mode
  | read mode curenv hit => exact .read mode curenv ((h.coherent mode).translateAt hit)
  | write mode curenv hit => exact .write mode curenv ((h.coherent mode).translateAt hit)
  | kernel before after step => exact step
  | run mode call dispatch => exact .run mode call dispatch
  | trap origin stack call => exact .trap origin stack call

theorem CachedInv.step (h : CachedInv L C) {label : SystemLabel}
    (step : CachedStep L stvec label C C') :
    SystemStep L stvec label C.machine C'.machine ∧ CachedInv L C' := by
  have hsys := h.system
  have hplain := h.plain step
  refine ⟨hplain, (hsys.step hplain).2, fun hmode => ?_⟩
  cases step with
  | fill fetch => exact (h.coherent hmode).fill fetch
  | evict fewer => exact (h.coherent hmode).evict fewer
  | compute mode => exact h.coherent mode
  | read mode => exact h.coherent mode
  | @write M cache c va pa b mode curenv hit =>
    have hpa := (h.coherent mode).translateAt hit
    obtain ⟨c', hcur, hrun, haccess⟩ := hsys.access mode
    obtain ⟨_, _, _, _, _, _, _, hiso, _⟩ := hsys.history.inv
    have hw := hiso.userWrites hrun b ((haccess .store va).symm.trans hpa)
    exact hsys.coherent mode hw (h.coherent mode)
  | kernel before after =>
    rw [after] at hmode
    cases hmode
  | run => exact Sv39.coherent_noCache _ _
  | @trap M _ K cache _ _ origin stack call =>
    have horigin : (⟨M.hart, K⟩ : Machine).hart.mode = .user ∨ OnKernelStack L M.hart := origin
    exact (h.stack stack).trap horigin call hmode

end

/-- Whatever a hart keeps of the tables, what the system does is what it does with none: the fence
of `env_run` behind the change of satp is enough, since no table of the env that runs changes until
the next. -/
theorem cached_system_refines {L : Layout} {stvec : Word} {C₀ C : CachedMachine}
    {ls : List SystemLabel} (start : Starts L C₀.machine)
    (run : Run (CachedStep L stvec) ls C₀ C) :
    Run (SystemStep L stvec) ls C₀.machine C.machine := by
  have hinv : CachedInv L C₀ := by
    refine ⟨start.inv, fun hmode => ?_⟩
    rw [start.mode] at hmode
    cases hmode
  exact (run.map (f := fun C => C.machine) (fun _ _ _ h step => h.step step) hinv).1

/-- The env stores after the hart has fetched the root entry of its page. -/
theorem cached_system_refines_store : ∃ C₀ C, Starts default C₀.machine ∧
    Run (CachedStep default 0) [.create 0, .silent, .silent, .write 0 0x100c 7] C₀ C ∧
    (∃ pte, C.cache 2 0 pte) ∧
    Run (SystemStep default 0) [.create 0, .silent, .silent, .write 0 0x100c 7] C₀.machine
      C.machine := by
  obtain ⟨M₀, M, start, run, hmode, hcur, hall⟩ := store_run default
  obtain ⟨pa, hpa⟩ := hall .store
  have hbefore : Run (CachedStep default 0) [.create 0, .silent] ⟨M₀, Sv39.noCache⟩
      ⟨M, Sv39.noCache⟩ :=
    (run.map (f := fun M => (⟨M, Sv39.noCache⟩ : CachedMachine)) (I := fun _ => True)
      (fun _ _ _ _ step => ⟨step.cached, trivial⟩) trivial).1
  -- The hart fetches an entry of the root table, and then the store goes through it.
  obtain ⟨pte, hpte⟩ : ∃ pte, pte = load64 M.kernel.phys.mem
    (satpRoot M.kernel.satp+8*Sv39.vpn 0x100c 2) := ⟨_, rfl⟩
  have hfill := @CachedStep.fill default 0 M Sv39.noCache 0x100c 2 pte (.here (Or.inl hpte))
  have hhit := (Sv39.translatesAt_noCache.mpr hpa).of_noCache
    (Sv39.noCache.add 2 (Sv39.upper 0x100c 2) pte)
  have hrun := hbefore.append (.cons hfill (.cons (.write (b := 7) hmode hcur hhit) (.nil _)))
  exact ⟨⟨M₀, Sv39.noCache⟩, _, start, hrun, ⟨pte, Or.inr ⟨rfl, rfl, rfl⟩⟩,
    cached_system_refines start hrun⟩

end RiscvMos
