import Mathlib.Algebra.BigOperators.Group.Finset.Basic
import RiscvMos.LibWaiting
import RiscvMos.ManyEnvs

/-! How long a runnable env waits for the CPU, whatever is created, freed and scheduled in the
meantime. -/
namespace RiscvMos
open ByteMem IntrusiveQueue RoundRobin Function
open PrivateMemory (Run)

/-- The calls of `schedule(0)` that a new slice lasts. `count` starts at the priority and counts
down to 0, from a priority of 0 once around. -/
def share (priority : ℤ) : ℕ := ((priority-1)%2^32).toNat+1

/-- The calls that the slice of `curenv` has left. -/
def slicesLeft (K : Kernel) : ℕ := (K.count%2^32).toNat

/-- The operations of `SchedStep`, with the env that gets the CPU, is new or is freed. The
second half of an `env_destroy` is a step of its own. Nothing else writes to the fields of `envs[]`:
the stacks of trap handlers are assumed to lie outside, although the source puts them there. -/
inductive CpuStep (L : Layout) : LineLabel ℕ → Kernel → Kernel → Prop
  | memory {K : Kernel} (s : Phys) : CpuStep L .quiet K (K.setPhys s)
  | alloc {K K' : Kernel} {r : ℤ} {new : Option ℕ} (parent_id : ℕ)
      (call : envAlloc L K parent_id = .ok (r, new, K')) : CpuStep L .quiet K K'
  | create {K K' : Kernel} {e : ℕ} (img : Image) (priority : ℤ)
      (call : envCreate L K img priority = .ok (e, K')) :
      CpuStep L (.join e (share priority)) K K'
  | free {K : Kernel} (s : Phys) {e : ℕ} (runnable : (K.envs e).env_status = .ENV_RUNNABLE) :
      CpuStep L (.leave e) K (envRelease (K.setPhys s) e)
  | forget {K : Kernel} (gone : ¬isRunnable K K.curenv) :
      CpuStep L .quiet K { K with curenv := none }
  | schedule {K K' : Kernel} {e : ℕ} (yield : Bool) (call : schedule L K yield = .ok K')
      (dispatch : K'.curenv = some e) : CpuStep L (.serve e) K K'

theorem SchedStep.cpuRun {L : Layout} {K K' : Kernel} (st : SchedStep L K K') :
    ∃ labels, Run (CpuStep L) labels K K' := by
  have one {l : LineLabel ℕ} (step : CpuStep L l K K') : ∃ labels, Run (CpuStep L) labels K K' :=
    ⟨[l], .cons step (.nil K')⟩
  cases st with
  | memory s => exact one (.memory s)
  | create img priority call => exact one (.create img priority call)
  | alloc parent_id call => exact one (.alloc parent_id call)
  | free s runnable => exact one (.free s runnable)
  | schedule yield call =>
    obtain ⟨e, s⟩ := schedule_scheduled call
    exact one (.schedule yield call s.curenv)
  | @destroy s _ e runnable call =>
    have hfree : CpuStep L (.leave e) K (envRelease (K.setPhys s) e) := .free s runnable
    rw [envDestroyed] at call
    split_ifs at call with hcur
    · -- the env that was freed is no longer runnable
      have gone : ¬isRunnable (envRelease (K.setPhys s) e) (envRelease (K.setPhys s) e).curenv := by
        rintro ⟨i, hi, hrun⟩
        obtain rfl : e = i := Option.some.inj (hcur.symm.trans hi)
        simp [envRelease, Kernel.setEnv] at hrun
      obtain ⟨i, d⟩ := schedule_scheduled call
      exact ⟨_, .cons hfree (.cons (.forget gone) (.cons (.schedule true call d.curenv) (.nil K')))⟩
    · cases call
      exact one hfree

theorem cpuRun_of_steps {L : Layout} {K K' : Kernel}
    (steps : Relation.ReflTransGen (SchedStep L) K K') : ∃ labels, Run (CpuStep L) labels K K' := by
  induction steps with
  | refl => exact ⟨[], .nil K⟩
  | tail _ step ih =>
    obtain ⟨before, run⟩ := ih
    obtain ⟨labels, last⟩ := step.cpuRun
    exact ⟨before++labels, run.append last⟩

/-! ### The countdown -/

theorem toInt_emod (x : ℤ) : toInt x%2^32 = x%2^32 := Int.bmod_emod

theorem toInt_toInt (x : ℤ) : toInt (toInt x) = toInt x := Int.bmod_bmod

theorem toInt_bounds (x : ℤ) : -2^31 ≤ toInt x ∧ toInt x < 2^31 :=
  ⟨Int.le_bmod (by decide), Int.bmod_lt (by decide)⟩

/-- What `count` holds after the first call of a slice. -/
theorem share_toInt (priority : ℤ) :
    share priority = (toInt (toInt priority-1)%2^32).toNat+1 := by
  have hpri := toInt_emod priority
  have hcount := toInt_emod (toInt priority-1)
  rw [share]
  omega

theorem share_emod (priority : ℤ) : share ((priority%2^32).toNat : ℕ) = share priority := by
  rw [share, share]
  omega

theorem slicesLeft_pos {K : Kernel} (hint : toInt K.count = K.count) (h0 : K.count ≠ 0) :
    0 < slicesLeft K := by
  obtain ⟨hlo, hhi⟩ := toInt_bounds K.count
  rw [hint] at hlo hhi
  rw [slicesLeft]
  omega

theorem slicesLeft_next {K K' : Kernel} (h : K'.count = toInt (K.count-1))
    (hpos : 0 < slicesLeft K) : slicesLeft K' = slicesLeft K-1 := by
  have hcount := toInt_emod (K.count-1)
  rw [slicesLeft] at hpos
  rw [slicesLeft, slicesLeft, h]
  omega

/-! ### The queue as a line -/

/-- What the queue `ql` of the kernel says about turns. -/
def lineOf (K : Kernel) (ql : List ℕ) : Line ℕ :=
  ⟨ql, K.curenv, slicesLeft K, fun e => share (K.envs e).env_pri⟩

/-- The kernel keeps the line `d`. -/
structure InLine (K : Kernel) (d : Line ℕ) (fl : List ℕ) : Prop where
  sched : SchedInv K d.queue fl
  line : d = lineOf K d.queue
  int : toInt K.count = K.count

theorem tailRepr_unique {q : TailQueue ℕ} {l l' : List ℕ} (h : TailRepr q l)
    (h' : TailRepr q l') : l = l' :=
  elems_unique (repr_elems h) (repr_elems h')

theorem envAlloc_turns {L : Layout} {K K' : Kernel} {parent_id : ℕ} {r : ℤ} {new : Option ℕ}
    (h : envAlloc L K parent_id = .ok (r, new, K')) :
    K'.curenv = K.curenv ∧ K'.count = K.count ∧
      ∀ i, (K'.envs i).env_pri = (K.envs i).env_pri := by
  have hsetup {K₁ : Kernel} {e : ℕ} {r : ℤ} (hs : envSetupVm K e = .ok (r, K₁)) :
      K₁.curenv = K.curenv ∧ K₁.count = K.count ∧
        ∀ i, (K₁.envs i).env_pri = (K.envs i).env_pri := by
    have hk := (envSetupVm_keeps hs).env_pri
    rcases envSetupVm_cases hs with ⟨_, s, _, rfl⟩ | ⟨_, pagetable, s₁, s₂, _, _, _, rfl⟩
    · exact ⟨rfl, rfl, hk⟩
    · exact ⟨rfl, rfl, hk⟩
  cases envAlloc_returns h with
  | no_env => exact ⟨rfl, rfl, fun _ => rfl⟩
  | no_space _ hs => exact hsetup hs
  | no_asid _ hs =>
    obtain ⟨hcur, hcount, hpri⟩ := hsetup hs
    exact ⟨hcur, hcount, fun i => ((withId_keeps _ _).env_pri i).trans (hpri i)⟩
  | @new e asid bitmap K₁ _ hs =>
    obtain ⟨hcur, hcount, hpri⟩ := hsetup hs
    refine ⟨hcur, hcount, fun i => ?_⟩
    refine (envs_update Env.env_pri ?_ i).trans (((withId_keeps K₁ e).env_pri i).trans (hpri i))
    rfl

section
variable {L : Layout} {K K' : Kernel} {d : Line ℕ} {fl : List ℕ}

theorem InLine.keep (h : InLine K d fl) {fl' : List ℕ} (hs : SchedInv K' d.queue fl')
    (hcur : K'.curenv = K.curenv) (hcount : K'.count = K.count)
    (hpri : ∀ i, (K'.envs i).env_pri = (K.envs i).env_pri) : InLine K' d fl' := by
  refine ⟨hs, h.line.trans ?_, by rw [hcount, h.int]⟩
  simp only [lineOf, slicesLeft, hcur, hcount, hpri]

theorem InLine.last (h : InLine K d fl) : d.last = K.curenv := congrArg Line.last h.line

theorem InLine.left (h : InLine K d fl) : d.left = slicesLeft K := congrArg Line.left h.line

theorem InLine.slice (h : InLine K d fl) (e : ℕ) : d.slice e = share (K.envs e).env_pri :=
  congrFun (congrArg Line.slice h.line) e

theorem InLine.isRunnable_iff (h : InLine K d fl) :
    isRunnable K K.curenv ↔ ∃ a, d.last = some a ∧ a ∈ d.queue := by
  rw [h.last]
  exact exists_congr fun a => and_congr_right fun _ => (h.sched.mem_queue a).symm

theorem InLine.gone (h : InLine K d fl) (hn : ¬isRunnable K K.curenv) (a : ℕ)
    (ha : d.last = some a) : a ∉ d.queue :=
  fun hm => hn (h.isRunnable_iff.mpr ⟨a, ha, hm⟩)

theorem InLine.create (h : InLine K d fl) {e : ℕ} {img : Image} {priority : ℤ}
    (call : envCreate L K img priority = .ok (e, K')) :
    ∃ d' fl', d.Step (.join e (share priority)) d' ∧ InLine K' d' fl' := by
  obtain ⟨K₁, K₂, s, ehdr, c⟩ := envCreate_cases call
  obtain ⟨_, _, _, hnot, _⟩ := h.sched.alloc c.alloc
  obtain ⟨fl', _, _, hs⟩ := h.sched.create c
  obtain ⟨K₂', ehdr', s', halloc, _, _, rfl⟩ := envCreate_returns call
  obtain ⟨hcur, hcount, hpri⟩ := envAlloc_turns halloc
  set K'' := withQueued K₂' ⟨store64 s'.mem (L.tf e+8*33) ehdr'.e_entry, s'.freelist⟩ e priority
  have hcount' : K''.count = K.count := hcount
  have hown : share (K''.envs e).env_pri = share priority := by
    rw [← share_emod priority]
    simp only [K'', withQueued, Kernel.setEnv, update_self]
  have hothers (i : ℕ) (hi : i ∈ d.queue) : share (K''.envs i).env_pri = d.slice i := by
    have hie : i ≠ e := fun hie => hnot (hie ▸ hi)
    rw [h.slice, ← hpri i]
    simp only [K'', withQueued, Kernel.setEnv, Kernel.setPhys, update_of_ne hie]
  refine ⟨_, fl', .join (w := fun i => share (K''.envs i).env_pri) hown hothers, hs, ?_, ?_⟩
  · rw [h.last, h.left, lineOf, slicesLeft, slicesLeft, hcount', ← hcur]
    rfl
  · rw [hcount', h.int]

theorem InLine.free (h : InLine K d fl) (s : Phys) {e : ℕ}
    (runnable : (K.envs e).env_status = .ENV_RUNNABLE) :
    ∃ d' fl', d.Step (.leave e) d' ∧ InLine (envRelease (K.setPhys s) e) d' fl' := by
  obtain ⟨ql', hs⟩ := (h.sched.keeps (keepsEnvs_setPhys K s)).release runnable
  obtain ⟨l₁, l₂, hq⟩ := List.append_of_mem ((h.sched.mem_queue e).mpr runnable)
  have hrepr := h.sched.queue
  rw [hq] at hrepr
  obtain rfl : ql' = l₁ ++ l₂ := tailRepr_unique hs.queue (tailqRemove_repr hrepr)
  refine ⟨_, _, .leave hq, hs, ?_, h.int⟩
  have hpri (i : ℕ) : ((envRelease (K.setPhys s) e).envs i).env_pri = (K.envs i).env_pri := by
    apply envs_update Env.env_pri
    rfl
  rw [h.line, lineOf, lineOf]
  simp only [hpri]
  rfl

theorem InLine.forget (h : InLine K d fl) (hn : ¬isRunnable K K.curenv) :
    ∃ d' fl', d.Step .quiet d' ∧ InLine { K with curenv := none } d' fl' := by
  refine ⟨_, fl, .forget (h.gone hn), ?_, ?_, h.int⟩
  · exact h.sched.keeps ⟨rfl, rfl, rfl, fun _ => rfl, fun _ => rfl, fun _ => rfl⟩
  · rw [h.line]
    rfl

theorem InLine.rotated (h : InLine K d fl) :
    TailRepr (rotate K K.curenv).env_sched_list d.rotated := by
  obtain ⟨l, hl, _, ⟨hn, _, rfl⟩ | ⟨c, l₁, l₂, hc, hq, rfl⟩⟩ := h.sched.rotated
  · rwa [Line.rotated_gone (h.gone hn)]
  · obtain ⟨h₁, h₂, _⟩ := slots_split (hq ▸ h.sched.queue.nodup)
    rwa [Line.rotated_split (h.last.trans hc) hq h₁ h₂]

theorem InLine.schedule (h : InLine K d fl) {yield : Bool} {e : ℕ}
    (call : RiscvMos.schedule L K yield = .ok K') (dispatch : K'.curenv = some e) :
    ∃ d', d.Step (.serve e) d' ∧ InLine K' d' fl := by
  obtain ⟨ql', hs⟩ := h.sched.schedule call
  by_cases hp : picks K yield
  · cases hr : d.rotated with
    | nil =>
      -- the env that was dispatched is one of the queue
      obtain ⟨i, s⟩ := schedule_scheduled call
      have hi := s.runnable
      rw [s.env_status, ← h.sched.mem_queue, ← Line.mem_rotated, hr] at hi
      cases hi
    | cons b l =>
      have hrot := h.rotated
      rw [hr] at hrot
      have hb : (K.envs b).env_status = .ENV_RUNNABLE := by
        rw [← h.sched.mem_queue, ← Line.mem_rotated, hr]
        exact List.mem_cons_self
      obtain ⟨K₁, hrun, hcur, hcount, hk⟩ := schedule_pick L hp (repr_first hrot) hb
      obtain rfl : K₁ = K' := Except.ok.inj (hrun.symm.trans call)
      obtain rfl : b = e := Option.some.inj (hcur.symm.trans dispatch)
      obtain rfl : ql' = b :: l := by
        apply tailRepr_unique hs.queue
        rw [hk.env_sched_list]
        exact hrot
      have hslice : d.slice b = slicesLeft K₁+1 := by
        rw [h.slice, share_toInt, slicesLeft, hcount]
      refine ⟨_, .pick hr hslice, hs, ?_, by rw [hcount, toInt_toInt]⟩
      rw [lineOf, hcur, h.line, lineOf]
      simp only [hk.env_pri]
  · obtain ⟨K₁, c, hrun, hc, _, hcur, hcount, hk⟩ := schedule_again L hp
    obtain rfl : K₁ = K' := Except.ok.inj (hrun.symm.trans call)
    obtain rfl : c = e := Option.some.inj (hcur.symm.trans dispatch)
    have h0 : K.count ≠ 0 := fun h0 => hp (.inr (.inl h0))
    have hpos := slicesLeft_pos h.int h0
    have hleft : 0 < d.left := by rwa [h.left]
    refine ⟨_, .again (h.last.trans hc) hleft, h.sched.keeps hk, ?_, by rw [hcount, toInt_toInt]⟩
    rw [h.line, lineOf, lineOf, hcur, hc, slicesLeft_next hcount hpos]
    simp only [hk.env_pri]

theorem InLine.step (h : InLine K d fl) {l : LineLabel ℕ} (step : CpuStep L l K K') :
    ∃ d' fl', d.Step l d' ∧ InLine K' d' fl' := by
  cases step with
  | memory s =>
    exact ⟨d, fl, .stay, h.keep (h.sched.keeps (keepsEnvs_setPhys K s)) rfl rfl (fun _ => rfl)⟩
  | alloc parent_id call =>
    obtain ⟨hcur, hcount, hpri⟩ := envAlloc_turns call
    rcases envAlloc_cases call with ⟨_, _, hk⟩ | ⟨e, K₁, _, _, a⟩
    · exact ⟨d, fl, .stay, h.keep (h.sched.keeps hk) hcur hcount hpri⟩
    · obtain ⟨fl', _, _, _, _, hs⟩ := h.sched.alloc a
      exact ⟨d, fl', .stay, h.keep hs hcur hcount hpri⟩
  | create img priority call => exact h.create call
  | free s runnable => exact h.free s runnable
  | forget gone => exact h.forget gone
  | schedule yield call dispatch =>
    obtain ⟨d', hstep, h'⟩ := h.schedule call dispatch
    exact ⟨d', fl, hstep, h'⟩

/-- The runs of the kernel are runs of the line. -/
theorem InLine.run (h : InLine K d fl) {labels : List (LineLabel ℕ)}
    (run : Run (CpuStep L) labels K K') :
    ∃ d' fl', Run Line.Step labels d d' ∧ InLine K' d' fl' := by
  have hstep (l : LineLabel ℕ) (K K' : Kernel) (d : Line ℕ) (hd : ∃ fl, InLine K d fl)
      (step : CpuStep L l K K') : ∃ d', d.Step l d' ∧ ∃ fl', InLine K' d' fl' := by
    obtain ⟨fl, hfl⟩ := hd
    obtain ⟨d', fl', hd', hfl'⟩ := hfl.step step
    exact ⟨d', hd', fl', hfl'⟩
  obtain ⟨d', hrun, fl', h'⟩ := run.simulate hstep ⟨fl, h⟩
  exact ⟨d', fl', hrun, h'⟩

end

theorem boot_inLine {L : Layout} {m : Mem} {K : Kernel} (hboot : boot L m = .ok K) :
    InLine K (lineOf K []) (List.range NENV) := by
  refine ⟨boot_schedInv hboot, rfl, ?_⟩
  have hcount : K.count = 0 := by
    rw [boot] at hboot
    obtain ⟨s, _, hboot⟩ := bind_eq_ok.mp hboot
    obtain ⟨K₁, hk, hboot⟩ := bind_eq_ok.mp hboot
    rw [kpgtableInit] at hk
    obtain ⟨⟨kpgtable, s₁⟩, _, hk⟩ := bind_eq_ok.mp hk
    cases hk
    cases hboot
    rfl
  rw [hcount]
  rfl

/-! ### The wait -/

/-- The envs that may get the CPU before `e`. -/
def rivals (K : Kernel) (e : ℕ) : Finset ℕ :=
  (Finset.range NENV).filter (fun i => i ≠ e ∧ (K.envs i).env_status = .ENV_RUNNABLE)

theorem InLine.total_rivals {K : Kernel} {d : Line ℕ} {fl : List ℕ} (h : InLine K d fl) (e : ℕ) :
    total d.slice (d.queue.erase e) = ∑ i ∈ rivals K e, share (K.envs i).env_pri := by
  have hnodup := h.sched.queue.nodup
  have hset : (d.queue.erase e).toFinset = rivals K e := by
    ext i
    rw [List.mem_toFinset, hnodup.mem_erase_iff, rivals, Finset.mem_filter, Finset.mem_range,
      ← h.sched.mem_queue i]
    exact ⟨fun hi => ⟨(h.sched.queue_lt i hi.2).1, hi⟩, fun hi => hi.2⟩
  rw [← hset, List.sum_toFinset _ (hnodup.erase e), total]
  exact congrArg List.sum (List.map_congr_left (fun i _ => h.slice i))

/-- Between two turns of a runnable env the others get at most what the current slice has left, a
slice each, and a slice for every env that is created. Until then `schedule` finds an env. -/
theorem env_waits_bounded {L : Layout} {m : Mem} {K₀ K K' : Kernel} {labels : List (LineLabel ℕ)}
    {e : ℕ} (hboot : boot L m = .ok K₀) (steps : Relation.ReflTransGen (SchedStep L) K₀ K)
    (run : Run (CpuStep L) labels K K') (runnable : (K.envs e).env_status = .ENV_RUNNABLE)
    (kept : .leave e ∉ labels) (waiting : .serve e ∉ labels) :
    (labels.map LineLabel.served).sum ≤ slicesLeft K+∑ i ∈ rivals K e, share (K.envs i).env_pri+
        (labels.map LineLabel.joined).sum ∧
      ∀ s yield, ∃ K'', schedule L (K'.setPhys s) yield = .ok K'' := by
  obtain ⟨past, before⟩ := cpuRun_of_steps steps
  obtain ⟨d, fl, _, h⟩ := (boot_inLine hboot).run before
  obtain ⟨d', fl', hrun, h'⟩ := h.run run
  have hwait := Line.waits_of_mem ((h.sched.mem_queue e).mpr runnable)
  rw [h.left, h.total_rivals] at hwait
  obtain ⟨n, hn, hbound⟩ := hwait.run hrun waiting kept
  refine ⟨by omega, fun s yield => ?_⟩
  have hne : d'.queue ≠ [] := List.ne_nil_of_mem hn.mem
  exact (h'.sched.keeps (keepsEnvs_setPhys K' s)).schedule_ok L hne yield

/-- Of two envs one waits for the other. -/
theorem env_waits_bounded_two : ∃ K₀ K K' d e, boot default (fun _ => 0) = .ok K₀ ∧
    Relation.ReflTransGen (SchedStep default) K₀ K ∧ Run (CpuStep default) [.serve d] K K' ∧
    d ≠ e ∧ (K.envs e).env_status = .ENV_RUNNABLE ∧
    1 ≤ slicesLeft K+∑ i ∈ rivals K e, share (K.envs i).env_pri ∧
      ∀ s yield, ∃ K'', schedule default (K'.setPhys s) yield = .ok K'' := by
  obtain ⟨K₀, _, _, _, hboot, _⟩ := boot_ok default (fun _ => 0)
  obtain ⟨e₁, e₂, K₁, K₂, call₁, call₂, hne, hrun₁, hrun₂, ql, fl, hs⟩ := exists_twoEnvs hboot 1 2
  -- both are runnable, and one of them is not the first
  have hql : ql ≠ [] := List.ne_nil_of_mem ((hs.mem_queue e₁).mpr hrun₁)
  obtain ⟨K', call⟩ := hs.schedule_ok default hql false
  obtain ⟨d, s⟩ := schedule_scheduled call
  obtain ⟨e, hde, he⟩ : ∃ e, d ≠ e ∧ (K₂.envs e).env_status = .ENV_RUNNABLE := by
    by_cases hd : d = e₁
    · exact ⟨e₂, hd ▸ hne, hrun₂⟩
    · exact ⟨e₁, hd, hrun₁⟩
  have steps : Relation.ReflTransGen (SchedStep default) K₀ K₂ :=
    .tail (.single (.create _ 1 call₁)) (.create _ 2 call₂)
  have run : Run (CpuStep default) [.serve d] K₂ K' :=
    .cons (.schedule false call s.curenv) (.nil K')
  obtain ⟨hbound, hok⟩ := env_waits_bounded hboot steps run he (by simp) (by simpa using hde.symm)
  have hserved : (LineLabel.serve d).served = 1 := rfl
  have hjoined : (LineLabel.serve d).joined = 0 := rfl
  rw [List.map_singleton, List.map_singleton, List.sum_singleton, List.sum_singleton, hserved,
    hjoined, Nat.add_zero] at hbound
  exact ⟨K₀, K₂, K', d, e, hboot, steps, run, hde, he, hbound, hok⟩

end RiscvMos
