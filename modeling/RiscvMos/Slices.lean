import RiscvMos.ManyEnvs
import RiscvMos.RoundRobin

/-! How long one env can keep the processor, from the priorities that `env_create` got. -/
namespace RiscvMos
open ByteMem IntrusiveQueue RoundRobin Function

/-! ### The priorities -/

theorem envAlloc_pri {L : Layout} {K K' : Kernel} {parent_id : ℕ} {r : ℤ} {new : Option ℕ}
    (h : envAlloc L K parent_id = .ok (r, new, K')) (i : ℕ) :
    (K'.envs i).env_pri = (K.envs i).env_pri := by
  cases envAlloc_returns h with
  | no_env hf => rfl
  | no_space hf hsetup hr => exact (envSetupVm_keeps hsetup).env_pri i
  | @no_asid e K₁ hf hsetup ha =>
    exact ((withId_keeps K₁ e).env_pri i).trans ((envSetupVm_keeps hsetup).env_pri i)
  | @new e asid bitmap K₁ hf hsetup ha =>
    have hk := (envSetupVm_keeps hsetup).trans (withId_keeps K₁ e)
    refine (envs_update Env.env_pri ?_ i).trans (hk.env_pri i)
    rfl

theorem envCreate_pri {L : Layout} {K K' : Kernel} {img : Image} {priority : ℤ} {e : ℕ}
    (h : envCreate L K img priority = .ok (e, K')) :
    (K'.envs e).env_pri = (priority%2^32).toNat ∧
      ∀ i, i ≠ e → (K'.envs i).env_pri = (K.envs i).env_pri := by
  obtain ⟨K₂, ehdr, s, halloc, _, _, rfl⟩ := envCreate_returns h
  refine ⟨?_, fun i hi => ?_⟩
  · simp only [withQueued, Kernel.setEnv, update_self]
  · rw [← envAlloc_pri halloc i]
    simp only [withQueued, Kernel.setPhys, Kernel.setEnv, update_of_ne hi]

/-- The envs of `cs` are the queue, with their priorities, and none is running. -/
structure Waiting (K : Kernel) (cs : List (ℕ × ℤ)) : Prop where
  sched : ∃ fl, SchedInv K (cs.map Prod.fst) fl
  pri : ∀ c ∈ cs, (-2^31 ≤ c.2 ∧ c.2 < 2^31) ∧ (K.envs c.1).env_pri = (c.2%2^32).toNat
  curenv : K.curenv = none

theorem EnvsCreated.waiting {L : Layout} {m : Mem} {K₀ K : Kernel} {cs : List (ℕ × ℤ)}
    (hboot : boot L m = .ok K₀) (run : EnvsCreated L K₀ cs K) : Waiting K cs := by
  induction run with
  | start =>
    obtain ⟨_, _, _, b⟩ := boot_booted hboot
    exact ⟨⟨_, boot_schedInv hboot⟩, by simp, b.curenv⟩
  | @create cs K K' e run img priority int call ih =>
    obtain ⟨K₁, K₂, s, ehdr, c⟩ := envCreate_cases call
    obtain ⟨fl, hs⟩ := ih.sched
    obtain ⟨fl', _, _, hs'⟩ := hs.create c
    obtain ⟨hnew, hold⟩ := envCreate_pri call
    refine ⟨⟨fl', hs'⟩, fun c hc => ?_, c.curenv.trans ih.curenv⟩
    rcases List.mem_cons.mp hc with rfl | hmem
    · exact ⟨int, hnew⟩
    · have hce : c.1 ≠ e := by
        rintro rfl
        exact (List.nodup_cons.mp hs'.queue.nodup).1 (List.mem_map_of_mem hmem)
      rw [hold c.1 hce]
      exact ih.pri c hmem

theorem toInt_pri {p : ℤ} (h : -2^31 ≤ p ∧ p < 2^31) : toInt ((p%2^32).toNat : ℤ) = p := by
  rw [Int.toNat_of_nonneg (Int.emod_nonneg p (by decide)), toInt]
  rw [Int.bmod]
  split_ifs <;> omega

/-- A first slice that starts at 0 or below does not end soon. -/
theorem toInt_pred_ne_zero {p : ℤ} (h : -2^31 ≤ p) (hp : p < 1) : toInt (p-1) ≠ 0 := by
  rw [toInt, Int.bmod]
  split_ifs <;> omega

/-! ### Priorities from 1 on -/

section
variable {L : Layout} {K₀ K : Kernel} {ds : List ℕ}

theorem rest_ne_nil {es : List ℕ} {t : RoundRobin.Turn ℕ} (hnd : es.Nodup) (two : 2 ≤ es.length)
    (hmem : ∀ e, e ∈ t.head :: t.rest ↔ e ∈ es) : t.rest ≠ [] := by
  intro hnil
  rw [hnil] at hmem
  match es, two with
  | a :: b :: l, _ =>
    have ha := List.mem_singleton.mp ((hmem a).mpr List.mem_cons_self)
    have hb := List.mem_singleton.mp ((hmem b).mpr (by simp))
    rw [ha, hb] at hnd
    simp at hnd

/-- After some ticks the queue is the one at the start, or the head has been served for part
of its slices. -/
theorem Ticks.served {es : List ℕ} (run : Ticks L K₀ ds K) (hq : TailRepr K₀.env_sched_list es)
    (hr : Ready K₀ es) (hcur : K₀.curenv = none) (two : 2 ≤ es.length) :
    slices K = slices K₀ ∧ Ready K es ∧
      (ds = [] ∧ TailRepr K.env_sched_list es ∧ K.curenv = none ∨
        ∃ t, Serving K t ∧ Served (slices K₀) ds t ∧ ∀ e, e ∈ t.head :: t.rest ↔ e ∈ es) := by
  have hnd : es.Nodup := hq.nodup
  induction run with
  | nil => exact ⟨rfl, hr, .inl ⟨rfl, hq, hcur⟩⟩
  | @tick ds K₁ K₂ s e _ call cur ih =>
    obtain ⟨hs, hready, hstart | ⟨t, hserve, hserved, hmem⟩⟩ := ih
    · obtain ⟨rfl, hq', hcur'⟩ := hstart
      have hne : es ≠ [] := by
        rintro rfl
        simp at two
      obtain ⟨b, l, rfl⟩ := List.exists_cons_of_ne_nil hne
      obtain ⟨K', hrun, hserve, hs', hready'⟩ := schedule_start L (K := K₁.setPhys s) hq'
        (hready.congr rfl (fun _ => Iff.rfl)) hcur'
      obtain rfl : K' = K₂ := Except.ok.inj (hrun.symm.trans call)
      obtain rfl : b = e := Option.some.inj (hserve.curenv.symm.trans cur)
      have hs₁ : slices (K₁.setPhys s) = slices K₀ := hs
      rw [hs₁] at hserve hs'
      have hw := (hr b List.mem_cons_self).2.1
      have hserved := served_first l (blocksLe_nil (slices K₀))
        (fun ds' => (List.append_ne_nil_of_right_ne_nil ds' (by simp)).symm) hw
      exact ⟨hs', hready', .inr ⟨_, hserve, hserved, fun _ => Iff.rfl⟩⟩
    · have hserve₁ : Serving (K₁.setPhys s) t :=
        ⟨hserve.queue, hserve.curenv, hserve.count, hserve.left_lt⟩
      have hready₁ : Ready (K₁.setPhys s) (t.head :: t.rest) := hready.congr rfl hmem
      obtain ⟨K', hrun, hserve', hs', hready'⟩ := hserve₁.schedule_next (L := L) hready₁
      obtain rfl : K' = K₂ := Except.ok.inj (hrun.symm.trans call)
      obtain rfl : _ = e := Option.some.inj (hserve'.curenv.symm.trans cur)
      have hs₁ : slices (K₁.setPhys s) = slices K₀ := hs
      rw [hs₁] at hserve' hs' hready' ⊢
      have hmem' (e : ℕ) := (RoundRobin.Turn.mem_next (slices K₀) t e).trans (hmem e)
      have hw (a : ℕ) (ha : a ∈ t.rest) : 1 ≤ slices K₀ a :=
        (hr a ((hmem a).mp (List.mem_cons_of_mem _ ha))).2.1
      exact ⟨hs', hready'.congr rfl (fun e => (hmem' e).symm), .inr ⟨_, hserve',
        hserved.next (rest_ne_nil hnd two hmem) hserve.queue.nodup hw, hmem'⟩⟩

/-! ### A priority below 1 -/

/-- What the next tick finds after a tick that dispatched `b` of the queue `b :: l`. -/
structure Ticked (L : Layout) (K₀ : Kernel) (ds : List ℕ) (b : ℕ) (l : List ℕ) (n : ℤ) (K : Kernel) :
    Prop where
  run : Ticks L K₀ (ds ++ [b]) K
  curenv : K.curenv = some b
  queue : TailRepr K.env_sched_list (b :: l)
  count : K.count = n
  env_status : ∀ i, (K.envs i).env_status = (K₀.envs i).env_status
  env_pri : ∀ i, (K.envs i).env_pri = (K₀.envs i).env_pri

theorem ticked_first (L : Layout) {b : ℕ} {l : List ℕ} (hq : TailRepr K₀.env_sched_list (b :: l))
    (hcur : K₀.curenv = none) (hb : (K₀.envs b).env_status = .ENV_RUNNABLE) :
    ∃ K, Ticked L K₀ [] b l (toInt (toInt (slices K₀ b)-1)) K := by
  have hp : picks (K₀.setPhys K₀.phys) false := by
    refine .inr (.inr ?_)
    rintro ⟨i, hi, _⟩
    cases hcur.symm.trans hi
  have hf : (rotate (K₀.setPhys K₀.phys) (K₀.setPhys K₀.phys).curenv).env_sched_list.first =
      some b := by
    have hcur' : (K₀.setPhys K₀.phys).curenv = none := hcur
    rw [hcur']
    exact repr_first hq
  obtain ⟨K, hrun, hc, hn, hk⟩ := schedule_pick L hp hf hb
  refine ⟨K, Ticks.nil.tick hrun hc, hc, ?_, hn, hk.env_status, hk.env_pri⟩
  have hcur' : (K₀.setPhys K₀.phys).curenv = none := hcur
  rw [hk.env_sched_list, hcur']
  exact hq

section
variable {a n : ℕ} {l : List ℕ}

theorem Ticked.again {b : ℕ} {n : ℤ} (h : Ticked L K₀ ds b l n K) (hn : n ≠ 0)
    (hb : (K₀.envs b).env_status = .ENV_RUNNABLE) :
    ∃ K', Ticked L K₀ (ds ++ [b]) b l (toInt (n-1)) K' := by
  have hp : ¬picks (K.setPhys K.phys) false := by
    rintro (hy | h0 | hnr)
    · cases hy
    · exact hn (h.count.symm.trans h0)
    · exact hnr ⟨b, h.curenv, (h.env_status b).trans hb⟩
  obtain ⟨K', e, hrun, he, _, hc, hcount, hk⟩ := schedule_again L hp
  obtain rfl : b = e := Option.some.inj (h.curenv.symm.trans he)
  have hcount' : K'.count = toInt (n-1) := by
    rw [hcount, ← h.count]
    rfl
  refine ⟨K', h.run.tick hrun hc, hc, ?_, hcount', fun i => (hk.env_status i).trans (h.env_status i),
    fun i => (hk.env_pri i).trans (h.env_pri i)⟩
  rw [hk.env_sched_list]
  exact h.queue

theorem Ticked.pick {b : ℕ} (h : Ticked L K₀ ds a (b :: l) 0 K)
    (ha : (K₀.envs a).env_status = .ENV_RUNNABLE) (hb : (K₀.envs b).env_status = .ENV_RUNNABLE) :
    ∃ K', Ticked L K₀ (ds ++ [a]) b (l ++ [a]) (toInt (toInt (slices K₀ b)-1)) K' := by
  have hp : picks (K.setPhys K.phys) false := .inr (.inl h.count)
  have hq : TailRepr (rotate (K.setPhys K.phys) (K.setPhys K.phys).curenv).env_sched_list
      (b :: (l ++ [a])) := by
    have hcur : (K.setPhys K.phys).curenv = some a := h.curenv
    have hrun : ((K.setPhys K.phys).envs a).env_status = .ENV_RUNNABLE := (h.env_status a).trans ha
    rw [hcur, rotate, if_pos hrun]
    have hq : TailRepr K.env_sched_list ([] ++ a :: b :: l) := h.queue
    exact tailqRotate_repr hq
  obtain ⟨K', hrun, hc, hn, hk⟩ := schedule_pick L hp (repr_first hq) ((h.env_status b).trans hb)
  have hn' : K'.count = toInt (toInt (slices K₀ b)-1) := by
    rw [hn, slices, ← h.env_pri]
    rfl
  refine ⟨K', h.run.tick hrun hc, hc, ?_, hn', fun i => (hk.env_status i).trans (h.env_status i),
    fun i => (hk.env_pri i).trans (h.env_pri i)⟩
  rw [hk.env_sched_list]
  exact hq

theorem Ticked.exhaust (h : Ticked L K₀ ds a l n K) (hn : n < 2^31)
    (ha : (K₀.envs a).env_status = .ENV_RUNNABLE) : ∃ ds' K', Ticked L K₀ ds' a l 0 K' := by
  induction n generalizing ds K with
  | zero => exact ⟨ds, K, h⟩
  | succ n ih =>
    obtain ⟨K', h'⟩ := h.again (by omega) ha
    rw [toInt_of_lt (by omega) (by omega)] at h'
    have hpred : ((n+1 : ℕ) : ℤ)-1 = (n : ℕ) := by omega
    rw [hpred] at h'
    exact ih h' (by omega)

theorem Ticked.reach {b : ℕ} {p q : List ℕ} (h : Ticked L K₀ ds a (p ++ b :: q) n K)
    (hn : n < 2^31) (hrun : ∀ e ∈ a :: (p ++ b :: q), (K₀.envs e).env_status = .ENV_RUNNABLE)
    (hp : ∀ e ∈ p, 1 ≤ slices K₀ e ∧ slices K₀ e < 2^31) :
    ∃ ds' l' K', Ticked L K₀ ds' b l' (toInt (toInt (slices K₀ b)-1)) K' := by
  induction p generalizing ds a n q K with
  | nil =>
    obtain ⟨ds', K', h'⟩ := h.exhaust hn (hrun a List.mem_cons_self)
    obtain ⟨K'', h''⟩ := h'.pick (hrun a List.mem_cons_self) (hrun b (by simp))
    exact ⟨_, _, K'', h''⟩
  | cons c p ih =>
    obtain ⟨ds', K', h'⟩ := h.exhaust hn (hrun a List.mem_cons_self)
    obtain ⟨K'', h''⟩ := h'.pick (l := p ++ b :: q) (hrun a List.mem_cons_self) (hrun c (by simp))
    obtain ⟨h1, hlt⟩ := hp c List.mem_cons_self
    have hcount : toInt (toInt (slices K₀ c)-1) = (slices K₀ c-1 : ℕ) := by
      rw [toInt_of_lt (x := (slices K₀ c : ℤ)) (by omega) (by omega), toInt_of_lt (by omega) (by omega)]
      omega
    have hlist : p ++ b :: q ++ [a] = p ++ b :: (q ++ [a]) := by simp
    rw [hcount, hlist] at h''
    refine ih h'' (by omega) (fun e he => hrun e ?_) (fun e he => hp e (List.mem_cons_of_mem _ he))
    simp only [List.mem_cons, List.mem_append, List.not_mem_nil, or_false] at he
    rcases he with rfl | he | rfl | he | rfl <;> simp [*]

/-- The first env of the queue with a priority below 1 keeps the processor once it gets it. -/
theorem Ticked.monopoly {b : ℕ} {p : ℤ} (h : Ticked L K₀ ds b l (toInt (p-1)) K)
    (hlo : -2^31 ≤ p) (hp : p < 1) (hb : (K₀.envs b).env_status = .ENV_RUNNABLE) :
    ∃ ds' K', Ticks L K₀ ds' K' ∧ List.replicate 2 b <:+: ds' := by
  obtain ⟨K', h'⟩ := h.again (toInt_pred_ne_zero hlo hp) hb
  refine ⟨_, K', h'.run, List.IsSuffix.isInfix ⟨ds, ?_⟩⟩
  simp

end

end

/-! ### Any priorities -/

/-- No env of `cs` has more ticks in a row than its priority, or one, allows. -/
def NoMonopoly (cs : List (ℕ × ℤ)) (ds : List ℕ) : Prop :=
  ∀ c ∈ cs, ∀ n : ℕ, List.replicate n c.1 <:+: ds → (n : ℤ) ≤ max 1 c.2

section
variable {L : Layout} {K : Kernel} {cs : List (ℕ × ℤ)}

theorem Waiting.runnable (h : Waiting K cs) {e : ℕ} (he : e ∈ cs.map Prod.fst) :
    (K.envs e).env_status = .ENV_RUNNABLE := by
  obtain ⟨fl, hs⟩ := h.sched
  exact (hs.mem_queue e).mp he

theorem Waiting.slices (h : Waiting K cs) {c : ℕ × ℤ} (hc : c ∈ cs) (h1 : 1 ≤ c.2) :
    1 ≤ slices K c.1 ∧ RiscvMos.slices K c.1 < 2^31 ∧ (RiscvMos.slices K c.1 : ℤ) = c.2 := by
  obtain ⟨⟨hlo, hhi⟩, hpri⟩ := h.pri c hc
  rw [RiscvMos.slices, hpri]
  omega

theorem Waiting.bounded (h : Waiting K cs) (two : 2 ≤ cs.length) (h1 : ∀ c ∈ cs, 1 ≤ c.2)
    {ds : List ℕ} {K' : Kernel} (run : Ticks L K ds K') : NoMonopoly cs ds := by
  have hr : Ready K (cs.map Prod.fst) := by
    intro e he
    obtain ⟨c, hc, rfl⟩ := List.mem_map.mp he
    obtain ⟨hpos, hlt, _⟩ := h.slices hc (h1 c hc)
    exact ⟨h.runnable he, hpos, hlt⟩
  obtain ⟨fl, hs⟩ := h.sched
  intro c hc n hn
  obtain ⟨_, _, hpri⟩ := h.slices hc (h1 c hc)
  have hle : n ≤ RiscvMos.slices K c.1 := by
    rcases (run.served hs.queue hr h.curenv (by simpa using two)).2.2 with
      ⟨rfl, _⟩ | ⟨t, _, hserved, _⟩
    · exact blocksLe_nil _ c.1 n hn
    · exact hserved.blocks c.1 n hn
  omega

theorem Waiting.monopoly (L : Layout) (h : Waiting K cs) (hbad : ∃ c ∈ cs, c.2 < 1) :
    ∃ ds K', Ticks L K ds K' ∧ ¬NoMonopoly cs ds := by
  -- the first such env of the queue
  obtain ⟨b, hfind⟩ : ∃ b, cs.find? (fun c => decide (c.2 < 1)) = some b := by
    rw [← Option.isSome_iff_exists, List.find?_isSome]
    simpa using hbad
  obtain ⟨hb, p, q, rfl, hp⟩ := List.find?_eq_some_iff_append.mp hfind
  have hb1 : b.2 < 1 := of_decide_eq_true hb
  have hbm : b ∈ p ++ b :: q := by simp
  obtain ⟨fl, hs⟩ := h.sched
  have hq := hs.queue
  obtain ⟨⟨hlo, hhi⟩, hpri⟩ := h.pri b hbm
  have hcount : toInt (RiscvMos.slices K b.1) = b.2 := by
    rw [RiscvMos.slices, hpri]
    exact toInt_pri ⟨hlo, hhi⟩
  have hrun (e : ℕ) (he : e ∈ (p ++ b :: q).map Prod.fst) := h.runnable he
  have hreach : ∃ ds l K', Ticked L K ds b.1 l (toInt (b.2-1)) K' := by
    rw [← hcount]
    cases p with
    | nil =>
      obtain ⟨K', h'⟩ := ticked_first L hq h.curenv (hrun b.1 (by simp))
      exact ⟨_, _, K', h'⟩
    | cons c p =>
      have hpos (e : ℕ × ℤ) (he : e ∈ c :: p) := h.slices (List.mem_append_left _ he)
        (by simpa using hp e he)
      obtain ⟨h1, hlt, _⟩ := hpos c List.mem_cons_self
      have hq' : TailRepr K.env_sched_list (c.1 :: (p.map Prod.fst ++ b.1 :: q.map Prod.fst)) := by
        simpa using hq
      obtain ⟨K', h'⟩ := ticked_first L hq' h.curenv (hrun c.1 (by simp))
      have hc : toInt (toInt (RiscvMos.slices K c.1)-1) = (RiscvMos.slices K c.1-1 : ℕ) := by
        rw [toInt_of_lt (x := (RiscvMos.slices K c.1 : ℤ)) (by omega) (by omega),
          toInt_of_lt (by omega) (by omega)]
        omega
      rw [hc] at h'
      refine h'.reach (by omega) (fun e he => hrun e ?_) (fun e he => ?_)
      · simpa using he
      · obtain ⟨d, hd, rfl⟩ := List.mem_map.mp he
        obtain ⟨h1, hlt, _⟩ := hpos d (List.mem_cons_of_mem _ hd)
        exact ⟨h1, hlt⟩
  obtain ⟨ds, l, K', h'⟩ := hreach
  obtain ⟨ds', K'', run, htwo⟩ := h'.monopoly hlo hb1 (hrun b.1 (by simp))
  refine ⟨ds', K'', run, fun hn => ?_⟩
  have hle := hn b hbm 2 htwo
  omega

/-- Envs that `env_create` made keep the processor for at most as many ticks in a row as their
priorities say, in every run of ticks, iff all priorities are at least 1. -/
theorem schedule_no_monopoly {m : Mem} {K₀ : Kernel} (hboot : boot L m = .ok K₀)
    (created : EnvsCreated L K₀ cs K) (two : 2 ≤ cs.length) :
    (∀ ds K', Ticks L K ds K' → NoMonopoly cs ds) ↔ ∀ c ∈ cs, 1 ≤ c.2 := by
  have h := created.waiting hboot
  constructor
  · intro hall c hc
    by_contra hlt
    obtain ⟨ds, K', run, hn⟩ := h.monopoly L ⟨c, hc, by omega⟩
    exact hn (hall ds K' run)
  · exact fun h1 ds K' run => h.bounded two h1 run

end

theorem schedule_no_monopoly_two : ∃ K₀ K cs, boot default (fun _ => 0) = .ok K₀ ∧
    EnvsCreated default K₀ cs K ∧ cs.map Prod.snd = [2, 1] ∧
    ∀ ds K', Ticks default K ds K' → NoMonopoly cs ds := by
  obtain ⟨K₀, _, _, _, hboot, _⟩ := boot_ok default (fun _ => 0)
  obtain ⟨cs, K, _, _, created, hcs, _⟩ := exists_envsCreated hboot [2, 1] (by decide) (by decide)
  have two : 2 ≤ cs.length := by
    rw [← List.length_map (f := Prod.snd), hcs]
    decide
  have h1 : ∀ c ∈ cs, 1 ≤ c.2 := by
    intro c hc
    have hmem := List.mem_map_of_mem (f := Prod.snd) hc
    rw [hcs] at hmem
    have hall : ∀ p ∈ ([2, 1] : List ℤ), 1 ≤ p := by decide
    exact hall c.2 hmem
  exact ⟨K₀, K, cs, hboot, created, hcs, (schedule_no_monopoly hboot created two).mpr h1⟩

/-- An env with priority 0 gets more than one tick in a row. -/
theorem schedule_zero_monopoly : ∃ K₀ K cs, boot default (fun _ => 0) = .ok K₀ ∧
    EnvsCreated default K₀ cs K ∧ cs.map Prod.snd = [1, 0] ∧
    ∃ ds K', Ticks default K ds K' ∧ ¬NoMonopoly cs ds := by
  obtain ⟨K₀, _, _, _, hboot, _⟩ := boot_ok default (fun _ => 0)
  obtain ⟨cs, K, _, _, created, hcs, _⟩ := exists_envsCreated hboot [1, 0] (by decide) (by decide)
  obtain ⟨c, hc, h0⟩ : ∃ c ∈ cs, c.2 = 0 := by
    have hmem : (0 : ℤ) ∈ cs.map Prod.snd := by
      rw [hcs]
      decide
    exact List.mem_map.mp hmem
  exact ⟨K₀, K, cs, hboot, created, hcs, (created.waiting hboot).monopoly default ⟨c, hc, by omega⟩⟩

end RiscvMos
