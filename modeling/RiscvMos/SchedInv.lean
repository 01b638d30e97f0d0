import RiscvMos.SchedSpec
import Mathlib.Data.Finset.Card

/-! The invariant of the env lists: an env is in `env_sched_list` iff its status is
`ENV_RUNNABLE`, and the free list and the ASIDs keep the slot behind `envs` from
being handed out. -/
namespace RiscvMos
open ByteMem IntrusiveQueue Function

/-! ### The bitmap -/

/-- The bit of ASID `i`. -/
def asidBit (b : ℕ → BitVec 32) (i : ℕ) : Bool := (b (i/32)).getLsbD (i%32)

theorem asid_index (i : ℕ) : i >>> 5 = i/32 ∧ i &&& 31 = i%32 :=
  ⟨Nat.shiftRight_eq_div_pow i 5, Nat.and_two_pow_sub_one_eq_mod i 5⟩

theorem getLsbD_one_shift {k j : ℕ} (hj : j < 32) : (1#32 <<< k).getLsbD j = decide (j = k) := by
  rw [BitVec.getLsbD_shiftLeft, BitVec.getLsbD_one]
  by_cases h : j = k
  · simp [h]
    omega
  · simp [h]
    omega

theorem and_one_shift_eq_zero {x : BitVec 32} {k : ℕ} (hk : k < 32) :
    x &&& (1#32 <<< k) = 0 ↔ x.getLsbD k = false := by
  constructor
  · intro h
    have hbit := congrArg (fun y : BitVec 32 => y.getLsbD k) h
    simpa [BitVec.getLsbD_and, getLsbD_one_shift hk] using hbit
  · intro h
    apply BitVec.eq_of_getLsbD_eq
    intro j hj
    rw [BitVec.getLsbD_and, getLsbD_one_shift hj]
    by_cases hjk : j = k
    · simp [hjk, h]
    · simp [hjk]

theorem asidAllocLoop_spec {b b' : ℕ → BitVec 32} {i k : ℕ}
    (h : asidAllocLoop b k = some (i, b')) :
    i < NASID ∧ asidBit b i = false ∧ ∀ j, asidBit b' j = (asidBit b j || decide (j = i)) := by
  fun_induction asidAllocLoop b k with
  | case1 k hk index inner hfree =>
    obtain ⟨rfl, rfl⟩ := Prod.mk.inj (Option.some.inj h)
    have hm := Nat.mod_lt k (by decide : 0 < 32)
    simp only [index, inner, asid_index] at hfree ⊢
    refine ⟨hk, (and_one_shift_eq_zero hm).mp hfree, fun j => ?_⟩
    have hmj := Nat.mod_lt j (by decide : 0 < 32)
    rw [asidBit]
    by_cases hj : j/32 = k/32
    · have hiff : j%32 = k%32 ↔ j = k := by omega
      rw [hj, update_self, BitVec.getLsbD_or, getLsbD_one_shift hmj, asidBit, hj]
      simp only [hiff]
    · have hne : j ≠ k := fun he => hj (by rw [he])
      rw [update_of_ne hj, asidBit, decide_eq_false hne, Bool.or_false]
  | case2 k hk index inner hused ih => exact ih h
  | case3 k hk => cases h

theorem asidAlloc_ne_none {b : ℕ → BitVec 32} {i : ℕ} (hi : i < NASID) (hbit : asidBit b i = false) :
    asidAlloc b ≠ none := by
  have hloop (k : ℕ) (hk : k ≤ i) : asidAllocLoop b k ≠ none := by
    fun_induction asidAllocLoop b k with
    | case1 k _ index inner hfree => simp
    | case2 k hlt index inner hused ih =>
      have hki : k ≠ i := by
        rintro rfl
        simp only [index, inner, asid_index] at hused
        exact hused ((and_one_shift_eq_zero (Nat.mod_lt k (by decide))).mpr hbit)
      exact ih (by omega)
    | case3 k hge => omega
  exact hloop 0 (Nat.zero_le i)

theorem asidBit_free (b : ℕ → BitVec 32) (i j : ℕ) :
    asidBit (asidFree b i) j = (asidBit b j && decide (j ≠ i)) := by
  have hmj := Nat.mod_lt j (by decide : 0 < 32)
  simp only [asidFree, asid_index]
  rw [asidBit]
  by_cases hj : j/32 = i/32
  · have hiff : j%32 = i%32 ↔ j = i := by omega
    rw [hj, update_self, BitVec.getLsbD_and, BitVec.getLsbD_not, getLsbD_one_shift hmj, asidBit, hj]
    simp [hmj, hiff]
  · have hne : j ≠ i := fun he => hj (by rw [he])
    rw [update_of_ne hj, asidBit, decide_eq_true hne, Bool.and_true]

/-! ### The invariant -/

/-- `ql` is the list of the runnable envs and `fl` that of the free ones; the
others hold different ASIDs. -/
structure SchedInv (K : Kernel) (ql fl : List ℕ) : Prop where
  queue : TailRepr K.env_sched_list ql
  free : ∃ t, Repr K.env_free_list (fl ++ [NENV]) t
  free_lt : ∀ e ∈ fl, e < NENV
  mem_queue : ∀ e, e ∈ ql ↔ (K.envs e).env_status = .ENV_RUNNABLE
  queue_lt : ∀ e ∈ ql, e < NENV ∧ e ∉ fl
  asid_set : ∀ e < NENV, e ∉ fl →
    (K.envs e).env_asid < NASID ∧ asidBit K.asid_bitmap (K.envs e).env_asid = true
  asid_inj : ∀ e < NENV, e ∉ fl → ∀ e' < NENV, e' ∉ fl →
    (K.envs e).env_asid = (K.envs e').env_asid → e = e'

theorem SchedInv.keeps {K K' : Kernel} {ql fl : List ℕ} (h : SchedInv K ql fl)
    (k : KeepsEnvs K K') : SchedInv K' ql fl where
  queue := by rw [k.env_sched_list]; exact h.queue
  free := by rw [k.env_free_list]; exact h.free
  free_lt := h.free_lt
  mem_queue e := by rw [k.env_status]; exact h.mem_queue e
  queue_lt := h.queue_lt
  asid_set e he hf := by rw [k.env_asid, k.asid_bitmap]; exact h.asid_set e he hf
  asid_inj e he hf e' he' hf' := by
    rw [k.env_asid, k.env_asid]
    exact h.asid_inj e he hf e' he' hf'

/-- There are fewer ASIDs than envs, so some env of the array stays free. -/
theorem SchedInv.free_ne_nil {K : Kernel} {ql : List ℕ} (h : SchedInv K ql []) : False := by
  have hcard : (Finset.range NASID).card < (Finset.range NENV).card := by
    rw [Finset.card_range, Finset.card_range]
    decide
  obtain ⟨e, he, e', he', hne, heq⟩ :=
    Finset.exists_ne_map_eq_of_card_lt_of_maps_to (f := fun e => (K.envs e).env_asid) hcard
      (fun e he => Finset.mem_range.mpr (h.asid_set e (Finset.mem_range.mp he) (by simp)).1)
  exact hne (h.asid_inj e (Finset.mem_range.mp he) (by simp) e' (Finset.mem_range.mp he')
    (by simp) heq)

theorem SchedInv.first {K : Kernel} {ql fl : List ℕ} (h : SchedInv K ql fl) :
    ∃ e < NENV, K.env_free_list.first = some e := by
  cases fl with
  | nil => exact h.free_ne_nil.elim
  | cons e fl =>
    obtain ⟨t, hfree⟩ := h.free
    exact ⟨e, h.free_lt e List.mem_cons_self, repr_first hfree⟩

theorem SchedInv.alloc {L : Layout} {K K₁ K' : Kernel} {e : ℕ} {ql fl : List ℕ}
    (h : SchedInv K ql fl) (a : Allocated L K K₁ K' e) :
    ∃ fl', fl = e :: fl' ∧ e < NENV ∧ e ∉ ql ∧ e ∉ fl' ∧ SchedInv K' ql fl' := by
  cases fl with
  | nil => exact h.free_ne_nil.elim
  | cons c fl =>
    obtain ⟨t, hfree⟩ := h.free
    have hhead := repr_first hfree
    obtain rfl : e = c := Option.some.inj (a.head.symm.trans hhead)
    have he : e < NENV := h.free_lt e List.mem_cons_self
    have heq : e ∉ ql := fun hm => (h.queue_lt e hm).2 List.mem_cons_self
    have hef : e ∉ fl := fun hm =>
      (List.nodup_cons.mp hfree.nodup).1 (List.mem_append_left _ hm)
    -- the search finds a clear bit, and sets it
    obtain ⟨hlt, hclear, hset⟩ := asidAllocLoop_spec a.asid
    have hold (i : ℕ) (hi : i < NENV) (hif : i ∉ fl) (hie : i ≠ e) : i ∉ e :: fl :=
      fun hm => (List.mem_cons.mp hm).elim hie hif
    refine ⟨fl, rfl, he, heq, hef, ?_, ?_, ?_, ?_, ?_, ?_, ?_⟩
    · rw [a.env_sched_list]
      exact h.queue
    · rw [a.env_free_list]
      have hfree' : Repr K.env_free_list ([] ++ e :: (fl ++ [NENV])) t := hfree
      have hrm := listRemove_repr hfree'
      exact ⟨_, hrm⟩
    · exact fun i hi => h.free_lt i (List.mem_cons_of_mem e hi)
    · intro i
      rw [a.env_status]
      exact h.mem_queue i
    · exact fun i hi => ⟨(h.queue_lt i hi).1, fun hm =>
        (h.queue_lt i hi).2 (List.mem_cons_of_mem e hm)⟩
    · intro i hi hif
      rw [hset]
      by_cases hie : i = e
      · rw [hie]
        exact ⟨hlt, by simp⟩
      · obtain ⟨hlt', hset'⟩ := h.asid_set i hi (hold i hi hif hie)
        rw [a.env_asid i hie, hset']
        exact ⟨hlt', rfl⟩
    · -- the new ASID was clear in the bitmap, those of the others were set
      have hnew (i : ℕ) (hi : i < NENV) (hif : i ∉ fl) (hie : i ≠ e) :
          (K'.envs i).env_asid ≠ (K'.envs e).env_asid := by
        intro heq'
        obtain ⟨_, hset'⟩ := h.asid_set i hi (hold i hi hif hie)
        rw [← a.env_asid i hie, heq', hclear] at hset'
        cases hset'
      intro i hi hif j hj hjf hij
      by_cases hie : i = e <;> by_cases hje : j = e
      · rw [hie, hje]
      · rw [hie] at hij
        exact absurd hij.symm (hnew j hj hjf hje)
      · rw [hje] at hij
        exact absurd hij (hnew i hi hif hie)
      · rw [a.env_asid i hie, a.env_asid j hje] at hij
        exact h.asid_inj i hi (hold i hi hif hie) j hj (hold j hj hjf hje) hij

theorem SchedInv.create {L : Layout} {K K₁ K₂ K' : Kernel} {s : Phys} {e : ℕ} {img : Image}
    {ehdr : Ehdr} {ql fl : List ℕ} (h : SchedInv K ql fl)
    (c : Created L K K₁ K₂ K' s e img ehdr) :
    ∃ fl', fl = e :: fl' ∧ e < NENV ∧ SchedInv K' (e :: ql) fl' := by
  obtain ⟨fl', rfl, he, heq, hef, h₂⟩ := h.alloc c.alloc
  refine ⟨fl', rfl, he, ?_, ?_, h₂.free_lt, ?_, ?_, ?_, ?_⟩
  · rw [c.env_sched_list]
    exact tailqInsertHead_repr h.queue heq
  · rw [c.env_free_list]
    exact h₂.free
  · intro i
    rw [List.mem_cons]
    by_cases hi : i = e
    · simp [hi, c.runnable]
    · rw [c.env_status i hi, h.mem_queue]
      simp [hi]
  · intro i hi
    rcases List.mem_cons.mp hi with rfl | hi
    · exact ⟨he, hef⟩
    · exact h₂.queue_lt i hi
  · intro i hi hif
    rw [c.env_asid, c.asid_bitmap]
    exact h₂.asid_set i hi hif
  · intro i hi hif j hj hjf
    rw [c.env_asid, c.env_asid]
    exact h₂.asid_inj i hi hif j hj hjf

theorem SchedInv.release {K : Kernel} {e : ℕ} {ql fl : List ℕ} (h : SchedInv K ql fl)
    (he : (K.envs e).env_status = .ENV_RUNNABLE) :
    ∃ ql', SchedInv (envRelease K e) ql' (e :: fl) := by
  have hmem := (h.mem_queue e).mpr he
  obtain ⟨helt, hef⟩ := h.queue_lt e hmem
  obtain ⟨l₁, l₂, rfl⟩ := List.append_of_mem hmem
  obtain ⟨h₁, h₂, _⟩ := slots_split h.queue.nodup
  obtain ⟨t, hfree⟩ := h.free
  -- `e` moves from the queue to the free list and loses its bit, the other ASIDs keep theirs
  have hasid (i : ℕ) : ((envRelease K e).envs i).env_asid = (K.envs i).env_asid := by
    refine envs_update Env.env_asid ?_ i
    rfl
  have hold {i : ℕ} (hif : i ∉ e :: fl) : i ≠ e ∧ i ∉ fl :=
    ⟨fun hie => hif (hie ▸ List.mem_cons_self), fun hm => hif (List.mem_cons_of_mem e hm)⟩
  have hsub {i : ℕ} (hi : i ∈ l₁ ++ l₂) : i ≠ e ∧ i ∈ l₁ ++ e :: l₂ := by
    rcases List.mem_append.mp hi with hi | hi
    · exact ⟨fun hie => h₁ (hie ▸ hi), by simp [hi]⟩
    · exact ⟨fun hie => h₂ (hie ▸ hi), by simp [hi]⟩
  refine ⟨l₁ ++ l₂, tailqRemove_repr h.queue, ⟨_, listInsertHead_repr hfree ?_⟩, ?_, ?_, ?_, ?_, ?_⟩
  · rw [List.mem_append, List.mem_singleton]
    rintro (hm | rfl)
    · exact hef hm
    · exact Nat.lt_irrefl _ helt
  · intro i hi
    rcases List.mem_cons.mp hi with rfl | hi
    · exact helt
    · exact h.free_lt i hi
  · intro i
    by_cases hi : i = e
    · rw [hi]
      simp [envRelease, Kernel.setEnv, h₁, h₂]
    · have hst : ((envRelease K e).envs i).env_status = (K.envs i).env_status := by
        simp [envRelease, Kernel.setEnv, update_of_ne hi]
      rw [hst, ← h.mem_queue i]
      simp [hi]
  · intro i hi
    obtain ⟨hie, hm⟩ := hsub hi
    obtain ⟨hlt, hif⟩ := h.queue_lt i hm
    exact ⟨hlt, fun hc => (List.mem_cons.mp hc).elim hie hif⟩
  · intro i hi hif
    obtain ⟨hie, hif⟩ := hold hif
    obtain ⟨hlt, hset⟩ := h.asid_set i hi hif
    have hne : (K.envs i).env_asid ≠ (K.envs e).env_asid :=
      fun heq => hie (h.asid_inj i hi hif e helt hef heq)
    rw [hasid]
    refine ⟨hlt, ?_⟩
    have hbit := asidBit_free K.asid_bitmap (K.envs e).env_asid (K.envs i).env_asid
    rw [hset, decide_eq_true hne] at hbit
    exact hbit
  · intro i hi hif j hj hjf
    rw [hasid, hasid]
    exact h.asid_inj i hi (hold hif).2 j hj (hold hjf).2

theorem SchedInv.schedule {L : Layout} {K K' : Kernel} {yield : Bool} {ql fl : List ℕ}
    (h : SchedInv K ql fl) (hs : RiscvMos.schedule L K yield = .ok K') :
    ∃ ql', SchedInv K' ql' fl := by
  rcases schedule_cases hs with hk | ⟨i, hi, hk⟩
  · exact ⟨ql, h.keeps hk⟩
  · obtain ⟨l₁, l₂, rfl⟩ := List.append_of_mem ((h.mem_queue i).mpr hi)
    have hmem (e : ℕ) : e ∈ l₁ ++ l₂ ++ [i] ↔ e ∈ l₁ ++ i :: l₂ := by
      simp only [List.mem_append, List.mem_cons, List.not_mem_nil, or_false]
      tauto
    have hrot : SchedInv
        { K with env_sched_list := tailqInsertTail (tailqRemove K.env_sched_list i) i }
        (l₁ ++ l₂ ++ [i]) fl :=
      ⟨tailqRotate_repr h.queue, h.free, h.free_lt, fun e => (hmem e).trans (h.mem_queue e),
        fun e he => h.queue_lt e ((hmem e).mp he), h.asid_set, h.asid_inj⟩
    exact ⟨l₁ ++ l₂ ++ [i], hrot.keeps hk⟩

theorem SchedInv.timer {K : Kernel} {ql fl : List ℕ} (h : SchedInv K ql fl) :
    SchedInv (doTimer K) ql fl :=
  h.keeps ⟨rfl, rfl, rfl, fun _ => rfl, fun _ => rfl, fun _ => rfl⟩

/-- The queue after the rotation: the current env is at the tail if it is runnable. -/
theorem SchedInv.rotated {K : Kernel} {ql fl : List ℕ} (h : SchedInv K ql fl) :
    ∃ l, TailRepr (rotate K K.curenv).env_sched_list l ∧ (∀ e, e ∈ l ↔ e ∈ ql) ∧
      (¬isRunnable K K.curenv ∧ (rotate K K.curenv).env_sched_list = K.env_sched_list ∧ l = ql ∨
        ∃ c l₁ l₂, K.curenv = some c ∧ ql = l₁ ++ c :: l₂ ∧ l = l₁ ++ l₂ ++ [c]) := by
  cases hc : K.curenv with
  | none =>
    refine ⟨ql, h.queue, fun _ => Iff.rfl, .inl ⟨?_, rfl, rfl⟩⟩
    rintro ⟨i, hi, _⟩
    cases hi
  | some c =>
    rw [rotate]
    by_cases hrun : (K.envs c).env_status = .ENV_RUNNABLE
    · rw [if_pos hrun]
      obtain ⟨l₁, l₂, hl⟩ := List.append_of_mem ((h.mem_queue c).mpr hrun)
      have hq := h.queue
      rw [hl] at hq
      refine ⟨l₁ ++ l₂ ++ [c], tailqRotate_repr hq, fun e => ?_, .inr ⟨c, l₁, l₂, rfl, hl, rfl⟩⟩
      rw [hl]
      simp only [List.mem_append, List.mem_cons, List.not_mem_nil, or_false]
      tauto
    · rw [if_neg hrun]
      refine ⟨ql, h.queue, fun _ => Iff.rfl, .inl ⟨?_, rfl, rfl⟩⟩
      rintro ⟨i, hi, hs⟩
      cases hi
      exact hrun hs

theorem SchedInv.schedule_ok (L : Layout) {K : Kernel} {ql fl : List ℕ} (h : SchedInv K ql fl)
    (hne : ql ≠ []) (yield : Bool) : ∃ K', RiscvMos.schedule L K yield = .ok K' := by
  by_cases hp : picks K yield
  · -- the head of the queue, which the rotation keeps runnable
    obtain ⟨l, hq, hmem, _⟩ := h.rotated
    cases l with
    | nil => exact absurd (List.eq_nil_iff_forall_not_mem.mpr
        (fun e he => absurd ((hmem e).mpr he) List.not_mem_nil)) hne
    | cons b l =>
      have hb : (K.envs b).env_status = .ENV_RUNNABLE :=
        (h.mem_queue b).mp ((hmem b).mp List.mem_cons_self)
      obtain ⟨K', hrun, _⟩ := schedule_pick L hp (repr_first hq) hb
      exact ⟨K', hrun⟩
  · obtain ⟨K', _, hrun, _⟩ := schedule_again L hp
    exact ⟨K', hrun⟩

/-! ### Boot -/

theorem envInitLoop_repr {q : Links ℕ} {l : List ℕ} {t : Slot ℕ} {i : ℕ} (h : Repr q l t)
    (hl : ∀ a ∈ l, i < a) : ∃ t', Repr (envInitLoop q i) (List.range (i+1) ++ l) t' := by
  have hi : i ∉ l := fun hm => Nat.lt_irrefl i (hl i hm)
  induction i generalizing q l t with
  | zero => exact ⟨_, listInsertHead_repr h hi⟩
  | succ i ih =>
    obtain ⟨t', hr⟩ := ih (listInsertHead_repr h hi)
      (fun a ha => (List.mem_cons.mp ha).elim (by omega) (fun ha => by have := hl a ha; omega))
      (fun hm => (List.mem_cons.mp hm).elim (by omega) (fun hm => by have := hl i hm; omega))
    refine ⟨t', ?_⟩
    rw [List.range_succ, List.append_assoc]
    exact hr

theorem envInit_schedInv {K : Kernel} (h : ∀ e, (K.envs e).env_status = .ENV_FREE) :
    SchedInv (envInit K) [] (List.range NENV) where
  queue := tailqInit_repr _
  free := by
    have hall (n : ℕ) : ∃ t, Repr (envInitLoop (listInit K.env_free_list) n) (List.range n ++ [n]) t := by
      have hnil : ∀ a ∈ ([] : List ℕ), n < a := fun a ha => absurd ha List.not_mem_nil
      obtain ⟨t, hr⟩ := envInitLoop_repr (listInit_repr K.env_free_list) hnil
      rw [List.append_nil, List.range_succ] at hr
      exact ⟨t, hr⟩
    have hinit : (envInit K).env_free_list = envInitLoop (listInit K.env_free_list) NENV := by
      rw [envInit]
    rw [hinit]
    exact hall NENV
  free_lt e he := List.mem_range.mp he
  mem_queue e := by
    have hs : ((envInit K).envs e).env_status = .ENV_FREE := h e
    simp [hs]
  queue_lt e he := absurd he (by simp)
  asid_set e he hf := absurd (List.mem_range.mpr he) hf
  asid_inj e he hf := absurd (List.mem_range.mpr he) hf

theorem boot_envInit {L : Layout} {m : Mem} {K : Kernel} (h : boot L m = .ok K) :
    ∃ K₀, K = envInit K₀ ∧ K₀.envs = (Kernel.start m).envs ∧ K₀.mkenvid_i = 0 := by
  rw [boot] at h
  obtain ⟨s, _, h⟩ := bind_eq_ok.mp h
  obtain ⟨K₁, hk, h⟩ := bind_eq_ok.mp h
  rw [kpgtableInit] at hk
  obtain ⟨⟨kpgtable, s₁⟩, _, hk⟩ := bind_eq_ok.mp hk
  cases hk
  cases h
  exact ⟨_, rfl, rfl, rfl⟩

theorem boot_schedInv {L : Layout} {m : Mem} {K : Kernel} (h : boot L m = .ok K) :
    SchedInv K [] (List.range NENV) := by
  obtain ⟨K₀, rfl, henvs, _⟩ := boot_envInit h
  apply envInit_schedInv
  intro e
  rw [henvs]
  rfl

end RiscvMos
