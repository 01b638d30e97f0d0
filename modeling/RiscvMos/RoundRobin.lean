import RiscvMos.LibRoundRobin
import RiscvMos.SchedSpec

/-! The runs of timer interrupts: every env gets as many slices in a row as its
priority says, in the order of the queue. -/
namespace RiscvMos
open ByteMem IntrusiveQueue RoundRobin Function

/-- Consecutive calls of `schedule(0)` and the envs they dispatch. Between two
calls the dispatched env writes what it likes. -/
inductive Ticks (L : Layout) (K : Kernel) : List ℕ → Kernel → Prop
  | nil : Ticks L K [] K
  | tick {ds : List ℕ} {K' K'' : Kernel} {s : Phys} {e : ℕ} (run : Ticks L K ds K')
      (call : schedule L (K'.setPhys s) false = .ok K'') (cur : K''.curenv = some e) :
      Ticks L K (ds ++ [e]) K''

/-- `env_pri` as the number of slices. -/
def slices (K : Kernel) (e : ℕ) : ℕ := (K.envs e).env_pri

/-- The envs that may be run, with a priority that an `int` holds. -/
def Ready (K : Kernel) (l : List ℕ) : Prop :=
  ∀ e ∈ l, (K.envs e).env_status = .ENV_RUNNABLE ∧ 1 ≤ slices K e ∧ slices K e < 2^31

/-- The queue, `curenv` and `count` after a dispatch. -/
structure Serving (K : Kernel) (t : Turn ℕ) : Prop where
  queue : TailRepr K.env_sched_list (t.head :: t.rest)
  curenv : K.curenv = some t.head
  count : K.count = t.left
  left_lt : t.left < 2^31

theorem Ready.keeps {K K' : Kernel} {l : List ℕ} (h : Ready K l) (k : KeepsEnvs K K') :
    Ready K' l := by
  intro e he
  obtain ⟨hs, hp⟩ := h e he
  rw [slices, k.env_pri, k.env_status]
  exact ⟨hs, hp⟩

theorem Ready.congr {K K' : Kernel} {l l' : List ℕ} (h : Ready K l) (hk : K'.envs = K.envs)
    (hl : ∀ e, e ∈ l' ↔ e ∈ l) : Ready K' l' := by
  intro e he
  rw [slices, hk]
  exact h e ((hl e).mp he)

theorem toInt_of_lt {x : ℤ} (h0 : 0 ≤ x) (hx : x < 2^31) : toInt x = x := by
  rw [toInt]
  apply Int.bmod_eq_of_le <;> omega

theorem slices_keeps {K K' : Kernel} (k : KeepsEnvs K K') : slices K' = slices K := by
  funext e
  exact k.env_pri e

theorem rotate_queue {K : Kernel} {t : Turn ℕ} (h : Serving K t)
    (hr : (K.envs t.head).env_status = .ENV_RUNNABLE) :
    TailRepr (rotate K K.curenv).env_sched_list (t.rest ++ [t.head]) := by
  rw [h.curenv, rotate, if_pos hr]
  have hq : TailRepr K.env_sched_list ([] ++ t.head :: t.rest) := h.queue
  exact tailqRotate_repr hq

theorem schedule_first (L : Layout) {K : Kernel} {b : ℕ} {l : List ℕ} (h : picks K false)
    (hq : TailRepr (rotate K K.curenv).env_sched_list (b :: l)) (hr : Ready K (b :: l)) :
    ∃ K', schedule L K false = .ok K' ∧ Serving K' ⟨b, l, slices K b-1⟩ ∧
      slices K' = slices K ∧ Ready K' (b :: l) := by
  obtain ⟨hb, h1, hlt⟩ := hr b List.mem_cons_self
  obtain ⟨K', hrun, hcur, hcount, hk⟩ := schedule_pick L h (repr_first hq) hb
  have hpri : toInt (K.envs b).env_pri = slices K b := toInt_of_lt (by omega) (by exact_mod_cast hlt)
  have hleft : toInt ((slices K b : ℤ)-1) = (slices K b-1 : ℕ) := by
    rw [toInt_of_lt (by omega) (by omega)]
    omega
  rw [hpri, hleft] at hcount
  have hr' : Ready { K with env_sched_list := (rotate K K.curenv).env_sched_list } (b :: l) := hr
  have hlt' : slices K b-1 < 2^31 := by omega
  refine ⟨K', hrun, ⟨?_, hcur, hcount, hlt'⟩, (slices_keeps hk).trans rfl, hr'.keeps hk⟩
  rw [hk.env_sched_list]
  exact hq

/-- One call goes on to the next turn, with whatever memory it finds. -/
theorem Serving.schedule_next {L : Layout} {K : Kernel} {t : Turn ℕ} (h : Serving K t)
    (hr : Ready K (t.head :: t.rest)) :
    ∃ K', schedule L K false = .ok K' ∧ Serving K' (t.next (slices K)) ∧ slices K' = slices K ∧
      Ready K' ((t.next (slices K)).head :: (t.next (slices K)).rest) := by
  have hrun := (hr t.head List.mem_cons_self).1
  by_cases hleft : 0 < t.left
  · -- the slice goes on
    have hnext : t.next (slices K) = ⟨t.head, t.rest, t.left-1⟩ := if_pos hleft
    have hn : ¬picks K false := by
      rintro (hy | h0 | hnr)
      · cases hy
      · rw [h.count] at h0
        omega
      · exact hnr ⟨t.head, h.curenv, hrun⟩
    obtain ⟨K', e, hcall, he, _, hcur, hcount, hk⟩ := schedule_again L hn
    obtain rfl : t.head = e := Option.some.inj (h.curenv.symm.trans he)
    have hlt := h.left_lt
    have hleft' : toInt (K.count-1) = (t.left-1 : ℕ) := by
      rw [h.count, toInt_of_lt (by omega) (by omega)]
      omega
    have hlt' : t.left-1 < 2^31 := by omega
    rw [hnext]
    refine ⟨K', hcall, ⟨?_, hcur, hcount.trans hleft', hlt'⟩, slices_keeps hk, hr.keeps hk⟩
    rw [hk.env_sched_list]
    exact h.queue
  · -- the next env of the queue gets its first slice
    have h0 : t.left = 0 := by omega
    have hp : picks K false := by
      refine .inr (.inl ?_)
      rw [h.count, h0]
      rfl
    have hq := rotate_queue h hrun
    cases hl : t.rest ++ [t.head] with
    | nil => simp at hl
    | cons b l =>
      have hnext : t.next (slices K) = ⟨b, l, slices K b-1⟩ := by
        rw [Turn.next, if_neg hleft, hl]
      rw [hl] at hq
      rw [hnext]
      refine schedule_first L hp hq (hr.congr rfl (fun e => ?_))
      rw [← hl, List.mem_append, List.mem_singleton, List.mem_cons, or_comm]

theorem schedule_start (L : Layout) {K : Kernel} {b : ℕ} {l : List ℕ}
    (hq : TailRepr K.env_sched_list (b :: l)) (hr : Ready K (b :: l)) (hcur : K.curenv = none) :
    ∃ K', schedule L K false = .ok K' ∧ Serving K' ⟨b, l, slices K b-1⟩ ∧
      slices K' = slices K ∧ Ready K' (b :: l) := by
  have hp : picks K false := by
    refine .inr (.inr ?_)
    rw [hcur]
    rintro ⟨i, hi, _⟩
    cases hi
  refine schedule_first L hp ?_ hr
  rw [hcur]
  exact hq

/-- Where a run of calls stands: before the first one, or in some turn whose
future is the rest of the cycle. -/
inductive OnCycle (es : List ℕ) (w : ℕ → ℕ) (n : ℕ) (K : Kernel) : Prop
  | start (at_start : n = 0) (queue : TailRepr K.env_sched_list es) (cur : K.curenv = none)
  | turn (t : Turn ℕ) (serving : Serving K t) (pos : 0 < n)
      (mem : ∀ e, e ∈ t.head :: t.rest ↔ e ∈ es)
      (future : ∀ j, t.future w j = cyc (shares w es) (n+j))

/-- The next call finds an env to run, and it is the one that the cycle names. -/
theorem OnCycle.schedule {L : Layout} {es : List ℕ} {n : ℕ} {K : Kernel}
    (h : OnCycle es (slices K) n K) (hne : es ≠ []) (hr : Ready K es) :
    ∃ K' e, RiscvMos.schedule L K false = .ok K' ∧ K'.curenv = some e ∧
      cyc (shares (slices K) es) n = some e ∧ slices K' = slices K ∧ Ready K' es ∧
      OnCycle es (slices K) (n+1) K' := by
  cases h with
  | start at_start queue cur =>
    obtain ⟨b, l, rfl⟩ := List.exists_cons_of_ne_nil hne
    obtain ⟨K', hrun, hserve, hs, hready⟩ := schedule_start L queue hr cur
    have hb := (hr b List.mem_cons_self).2.1
    refine ⟨K', b, hrun, hserve.curenv, ?_, hs, hready,
      .turn _ hserve (Nat.succ_pos n) (fun _ => Iff.rfl) ?_⟩
    · rw [at_start, future_first hb, if_pos rfl]
    · intro j
      rw [at_start, future_first hb, if_neg (by omega)]
      have hj : 0+1+j-1 = j := by omega
      rw [hj]
  | turn t serving pos mem future =>
    have hready : Ready K (t.head :: t.rest) := hr.congr rfl mem
    have hw (a) (ha : a ∈ t.head :: t.rest) : 1 ≤ slices K a := (hready a ha).2.1
    obtain ⟨K', hrun, hserve, hs, hready'⟩ := serving.schedule_next (L := L) hready
    have hmem (e : ℕ) := (Turn.mem_next (slices K) t e).trans (mem e)
    refine ⟨K', (t.next (slices K)).head, hrun, hserve.curenv, ?_, hs,
      hready'.congr rfl (fun e => (hmem e).symm), .turn _ hserve (Nat.succ_pos n) hmem ?_⟩
    · rw [← Nat.add_zero n, ← future 0, Turn.future_next hw, if_pos rfl]
    · intro j
      have hf := Turn.future_next hw (j+1)
      rw [if_neg (Nat.succ_ne_zero j), Nat.add_sub_cancel, future] at hf
      rw [← hf]
      have hn : n+(j+1) = n+1+j := by omega
      rw [hn]

theorem OnCycle.setPhys {es : List ℕ} {w : ℕ → ℕ} {n : ℕ} {K : Kernel} (h : OnCycle es w n K)
    (s : Phys) : OnCycle es w n (K.setPhys s) := by
  cases h with
  | start at_start queue cur => exact .start at_start queue cur
  | turn t serving pos mem future =>
    exact .turn t ⟨serving.queue, serving.curenv, serving.count, serving.left_lt⟩ pos mem future

theorem Ticks.onCycle {L : Layout} {K K' : Kernel} {es ds : List ℕ} (run : Ticks L K ds K')
    (hne : es ≠ []) (hq : TailRepr K.env_sched_list es) (hr : Ready K es)
    (hcur : K.curenv = none) :
    (∀ j < ds.length, ds[j]? = cyc (shares (slices K) es) j) ∧ slices K' = slices K ∧
      Ready K' es ∧ OnCycle es (slices K) ds.length K' := by
  induction run with
  | nil => exact ⟨fun j hj => absurd hj (Nat.not_lt_zero j), rfl, hr, .start rfl hq hcur⟩
  | @tick ds K₁ K₂ s e _ call cur ih =>
    obtain ⟨hds, hs, hready, hon⟩ := ih
    have hs' : slices (K₁.setPhys s) = slices K := hs
    have hon' := hon.setPhys s
    rw [← hs'] at hon'
    obtain ⟨K', d, hrun, hcur', hd, hs₂, hready₂, hon₂⟩ :=
      hon'.schedule (L := L) hne (hready.congr rfl (fun _ => Iff.rfl))
    obtain rfl : K' = K₂ := Except.ok.inj (hrun.symm.trans call)
    obtain rfl : d = e := Option.some.inj (hcur'.symm.trans cur)
    rw [hs'] at hd hs₂ hon₂
    have hlen : (ds ++ [d]).length = ds.length+1 := by simp
    refine ⟨?_, hs₂, hready₂, by rw [hlen]; exact hon₂⟩
    intro j hj
    rcases Nat.lt_or_ge j ds.length with hlt | hge
    · rw [List.getElem?_append_left hlt]
      exact hds j hlt
    · obtain rfl : j = ds.length := by omega
      rw [List.getElem?_concat_length, hd]

/-- With no current env, and then whatever `count` holds, consecutive `schedule(0)`
calls dispatch the envs of the queue in its order, each for as many calls as its
priority says, over and over, and no call panics. -/
theorem schedule_round_robin (L : Layout) {K K' : Kernel} {es ds : List ℕ} (hne : es ≠ [])
    (hq : TailRepr K.env_sched_list es)
    (hrun : ∀ e ∈ es, (K.envs e).env_status = .ENV_RUNNABLE)
    (hpri : ∀ e ∈ es, 1 ≤ (K.envs e).env_pri ∧ (K.envs e).env_pri ≤ 2^31-1)
    (hcur : K.curenv = none) (run : Ticks L K ds K') :
    (∀ j < ds.length, ds[j]? = cyc (es.flatMap (fun e => List.replicate (K.envs e).env_pri e)) j) ∧
      ∀ s, ∃ K'' e, schedule L (K'.setPhys s) false = .ok K'' ∧ K''.curenv = some e ∧
        Ticks L K (ds ++ [e]) K'' := by
  have hr : Ready K es := fun e he => ⟨hrun e he, (hpri e he).1, by
    have h := (hpri e he).2
    rw [slices]
    omega⟩
  obtain ⟨hds, hs, hready, hon⟩ := run.onCycle hne hq hr hcur
  refine ⟨hds, fun s => ?_⟩
  have hs' : slices (K'.setPhys s) = slices K := hs
  have hon' := hon.setPhys s
  rw [← hs'] at hon'
  obtain ⟨K'', e, hcall, hcur', _⟩ := hon'.schedule (L := L) hne (hready.congr rfl (fun _ => Iff.rfl))
  exact ⟨K'', e, hcall, hcur', run.tick hcall hcur'⟩

/-- Two runnable envs, 3 with two slices and 5 with one. -/
def twoEnvs : Kernel :=
  let K := Kernel.start (fun _ => 0)
  { K with
    envs := fun e => ⟨0, 0, 0, .ENV_RUNNABLE, 0, if e = 3 then 2 else 1, 0⟩
    env_sched_list := tailqInsertHead (tailqInsertHead (tailqInit K.env_sched_list) 5) 3 }

theorem schedule_round_robin_two :
    ∃ d₁ d₂ d₃ d₄ K', Ticks default twoEnvs [d₁, d₂, d₃, d₄] K' ∧
      [d₁, d₂, d₃, d₄] = [3, 3, 5, 3] := by
  have hq : TailRepr twoEnvs.env_sched_list [3, 5] :=
    tailqInsertHead_repr (tailqInsertHead_repr (tailqInit_repr _) (by decide)) (by decide)
  have hpri : ∀ e ∈ [3, 5], 1 ≤ (twoEnvs.envs e).env_pri ∧ (twoEnvs.envs e).env_pri ≤ 2^31-1 := by
    decide
  have hall {ds : List ℕ} {K' : Kernel} (run : Ticks default twoEnvs ds K') :=
    schedule_round_robin default (by decide) hq (fun _ _ => rfl) hpri rfl run
  obtain ⟨K₁, d₁, _, _, run₁⟩ := (hall .nil).2 ⟨fun _ => 0, 0⟩
  obtain ⟨K₂, d₂, _, _, run₂⟩ := (hall run₁).2 ⟨fun _ => 0, 0⟩
  obtain ⟨K₃, d₃, _, _, run₃⟩ := (hall run₂).2 ⟨fun _ => 0, 0⟩
  obtain ⟨K₄, d₄, _, _, run₄⟩ := (hall run₃).2 ⟨fun _ => 0, 0⟩
  refine ⟨d₁, d₂, d₃, d₄, K₄, run₄, ?_⟩
  have h₁ : some d₁ = some 3 := (hall run₄).1 0 (by simp)
  have h₂ : some d₂ = some 3 := (hall run₄).1 1 (by simp)
  have h₃ : some d₃ = some 5 := (hall run₄).1 2 (by simp)
  have h₄ : some d₄ = some 3 := (hall run₄).1 3 (by simp)
  rw [Option.some.inj h₁, Option.some.inj h₂, Option.some.inj h₃, Option.some.inj h₄]

end RiscvMos
