import RiscvMos.SchedList
import RiscvMos.SetupSpace

/-! Up to 256 calls of `env_create` in a row after boot: every call takes an ASID and at most
75 pages. Below, the comment at `env_sched_list` for runs of any operations. -/
namespace RiscvMos
open ByteMem IntrusiveQueue LinkChain Function

/-- Calls of `env_create` from `K₀`, the last one first, with the priorities that they got:
any `int`. -/
inductive EnvsCreated (L : Layout) (K₀ : Kernel) : List (ℕ × ℤ) → Kernel → Prop
  | start : EnvsCreated L K₀ [] K₀
  | create {cs : List (ℕ × ℤ)} {K K' : Kernel} {e : ℕ} (run : EnvsCreated L K₀ cs K) (img : Image)
      {priority : ℤ} (int : -2^31 ≤ priority ∧ priority < 2^31)
      (call : envCreate L K img priority = .ok (e, K')) : EnvsCreated L K₀ ((e, priority) :: cs) K'

theorem EnvsCreated.steps {L : Layout} {K₀ K : Kernel} {cs : List (ℕ × ℤ)}
    (run : EnvsCreated L K₀ cs K) : Relation.ReflTransGen (SchedStep L) K₀ K := by
  induction run with
  | start => exact .refl
  | @create cs K K' e run img priority int call ih => exact ih.tail (.create img priority call)

/-! ### The ASIDs in use -/

def asids (b : ℕ → BitVec 32) : Finset ℕ := (Finset.range NASID).filter (fun i => asidBit b i = true)

theorem mem_asids {b : ℕ → BitVec 32} {i : ℕ} : i ∈ asids b ↔ i < NASID ∧ asidBit b i = true := by
  rw [asids, Finset.mem_filter, Finset.mem_range]

theorem asids_zero : asids (fun _ => 0) = ∅ := by
  refine Finset.eq_empty_of_forall_notMem fun i hi => ?_
  have hbit := (mem_asids.mp hi).2
  have hzero : asidBit (fun _ => 0) i = false := BitVec.getLsbD_zero
  rw [hzero] at hbit
  cases hbit

theorem asidAlloc_card {b b' : ℕ → BitVec 32} {i : ℕ} (h : asidAlloc b = some (i, b')) :
    (asids b').card = (asids b).card+1 := by
  obtain ⟨hlt, hclear, hset⟩ := asidAllocLoop_spec h
  have hnew : i ∉ asids b := fun hi => by
    rw [(mem_asids.mp hi).2] at hclear
    cases hclear
  rw [← Finset.card_insert_of_notMem hnew]
  congr 1
  ext j
  rw [Finset.mem_insert, mem_asids, mem_asids, hset, Bool.or_eq_true, decide_eq_true_iff]
  constructor
  · rintro ⟨hj, hbit | rfl⟩
    · exact .inr ⟨hj, hbit⟩
    · exact .inl rfl
  · rintro (rfl | ⟨hj, hbit⟩)
    · exact ⟨hlt, .inr rfl⟩
    · exact ⟨hj, .inl hbit⟩

theorem asidAlloc_none_iff {b : ℕ → BitVec 32} : asidAlloc b = none ↔ (asids b).card = NASID := by
  have hsub : asids b ⊆ Finset.range NASID := Finset.filter_subset _ _
  constructor
  · intro h
    have hall : asids b = Finset.range NASID := by
      refine hsub.antisymm fun i hi => ?_
      have hlt := Finset.mem_range.mp hi
      by_contra hnot
      refine asidAlloc_ne_none hlt ?_ h
      rw [← Bool.not_eq_true]
      exact fun hbit => hnot (mem_asids.mpr ⟨hlt, hbit⟩)
    rw [hall, Finset.card_range]
  · intro hcard
    have hall := Finset.eq_of_subset_of_card_le hsub (by rw [Finset.card_range, hcard])
    cases ha : asidAlloc b with
    | none => rfl
    | some x =>
      obtain ⟨i, b'⟩ := x
      obtain ⟨hlt, hclear, _⟩ := asidAllocLoop_spec ha
      have hmem := Finset.mem_range.mpr hlt
      rw [← hall] at hmem
      rw [(mem_asids.mp hmem).2] at hclear
      cases hclear

/-! ### Images without segments -/

/-- The file header of an executable, with no program header. -/
def bareImage : Image := ⟨fun i => if i < 56 then (spinBytes 0).getD i 0 else 0, 64⟩

/-- An image of which nothing gets loaded. -/
def Bare (img : Image) : Prop := ∃ ehdr, elfFrom img = some ehdr ∧ ehdr.e_phnum = 0

theorem bareImage_bare : Bare bareImage :=
  ⟨readEhdr bareImage.bytes, if_pos (by decide +kernel), by decide +kernel⟩

theorem loadSegments_bare {σ : Type} (map_page : ElfMapper σ) {img : Image} {ehdr : Ehdr}
    (h : ehdr.e_phnum = 0) (st : σ) : loadSegments map_page img ehdr st 0 ehdr.e_phoff = .ok st := by
  rw [loadSegments, if_neg (by omega)]

theorem WellFormed.write_low {s : Phys} {k : ℕ} {l : List ℕ} (h : WellFormed s k l) {m : Mem}
    (hm : ∀ b, KERNEND ≤ b → m b = s.mem b) :
    WellFormed ⟨m, s.freelist⟩ k l ∧ ∀ v, leaf m k v = leaf s.mem k v := by
  have hagree (p : ℕ) (hp : IsPage p) : AgreeOn m s.mem p 4096 := by
    intro b hlo _
    exact hm b (hp.1.trans hlo)
  have hleaf (v : ℕ) : leaf (Phys.mem ⟨m, s.freelist⟩) k v = leaf s.mem k v :=
    h.leaf_agree (fun _ p hp => hagree p (h.page hp).1) v
  obtain ⟨ht, hr⟩ := h.typed
  exact ⟨(ht.write_frames (fun p hp _ => hagree p hp)).wellFormed hr, hleaf⟩

/-! ### The calls -/

/-- After `n` calls. -/
structure Crowded (L : Layout) (fr : ℕ → ℕ) (K : Kernel) (n : ℕ) (l : List ℕ) : Prop where
  table : WellFormed K.phys K.kernel_pagetable l
  leaves : ∀ v < 2^26, leaf K.phys.mem K.kernel_pagetable v = kernelLeaf L.etext fr v
  room : 30575 ≤ l.length+75*n
  asids : (asids K.asid_bitmap).card = n
  sched : ∃ ql fl, SchedInv K ql fl

theorem boot_crowded {L : Layout} {m : Mem} {K : Kernel} (hboot : boot L m = .ok K) :
    ∃ fr l, Crowded L fr K 0 l := by
  obtain ⟨fr, τ, l, b⟩ := boot_booted hboot
  refine ⟨fr, l, ?_⟩
  constructor
  case table => exact b.building.typed.wellFormed ((b.building.roots _).mpr rfl)
  case leaves => exact b.building.leaves
  case room => exact b.length
  case asids => rw [b.asid_bitmap, asids_zero, Finset.card_empty]
  case sched => exact ⟨_, _, boot_schedInv hboot⟩

section
variable {L : Layout} {fr : ℕ → ℕ} {K : Kernel} {n : ℕ} {l : List ℕ}

/-- There are pages for one more space after up to 256 calls. -/
theorem Crowded.setup (h : Crowded L fr K n l) (hn : n ≤ 256) (e : ℕ) :
    ∃ K' u l₁ l', l = u :: l₁ ∧ envSetupVm K e = .ok (0, K') ∧
      K'.kernel_pagetable = K.kernel_pagetable ∧
      SpaceTaken K.phys K.kernel_pagetable l₁ K'.phys l' ∧ 30575 ≤ l'.length+75*(n+1) := by
  have hroom := h.room
  have hneeds := spaceNeeds_le h.leaves
  cases l with
  | nil =>
    rw [List.length_nil] at hroom
    omega
  | cons u l₁ =>
    rw [List.length_cons] at hroom
    rcases h.table.envSetupVm_cons e with ⟨K', l', hrun, hk, t⟩ | ⟨hshort, _⟩
    · have hlen := t.length
      exact ⟨K', u, l₁, l', rfl, hrun, hk, t, by omega⟩
    · omega

theorem Crowded.create (h : Crowded L fr K n l) (hn : n < 256) {img : Image} (hbare : Bare img)
    (priority : ℤ) : ∃ e K' l', envCreate L K img priority = .ok (e, K') ∧ Crowded L fr K' (n+1) l' := by
  obtain ⟨ehdr, hel, hnum⟩ := hbare
  obtain ⟨ql, fl, hs⟩ := h.sched
  obtain ⟨e, he, hfirst⟩ := hs.first
  obtain ⟨K₁, u, l₁, l', _, hsetup, _, t, hroom⟩ := h.setup (by omega) e
  obtain ⟨x, hasid⟩ : ∃ x, asidAlloc K.asid_bitmap = some x := by
    rw [← Option.ne_none_iff_exists']
    intro hnone
    have hcard := asidAlloc_none_iff.mp hnone
    rw [h.asids, NASID] at hcard
    omega
  obtain ⟨K₂, halloc, a⟩ := envAlloc_ok L 0 hfirst hsetup hasid
  obtain ⟨K', K₁', hcreate, c⟩ := envCreate_ok priority halloc hel (loadSegments_bare _ hnum K₂.phys)
  have hphys : K'.phys = ⟨store64 (initFrame L K₁.phys.mem e) (L.tf e+8*33) ehdr.e_entry,
      K₁.phys.freelist⟩ := by rw [c.phys, a.phys]
  obtain ⟨htable, hleaf⟩ := t.table.write_low
    (m := store64 (initFrame L K₁.phys.mem e) (L.tf e+8*33) ehdr.e_entry) (fun b hb => by
      rw [store64_low he (by decide) _ hb, initFrame_low he hb])
  refine ⟨e, K', l', hcreate, ?_⟩
  constructor
  case table =>
    rw [hphys, c.kernel_pagetable]
    exact htable
  case leaves =>
    intro v hv
    rw [hphys, c.kernel_pagetable, hleaf, t.leaves, h.leaves v hv]
  case room => exact hroom
  case asids =>
    rw [c.asid_bitmap, asidAlloc_card a.asid, h.asids]
  case sched =>
    obtain ⟨fl', _, _, hs'⟩ := hs.create c
    exact ⟨_, fl', hs'⟩

/-- After 256 calls `env_alloc` builds one more space and finds no ASID. -/
theorem Crowded.alloc_fails (h : Crowded L fr K 256 l) (parent_id : ℕ) :
    ∃ K', envAlloc L K parent_id = .ok (-E_NO_FREE_ENV, none, K') := by
  obtain ⟨ql, fl, hs⟩ := h.sched
  obtain ⟨e, _, hfirst⟩ := hs.first
  obtain ⟨K₁, u, l₁, l', _, hsetup, _⟩ := h.setup le_rfl e
  exact envAlloc_no_asid L parent_id hfirst hsetup (asidAlloc_none_iff.mpr h.asids)

end

theorem exists_envsCreated {L : Layout} {m : Mem} {K₀ : Kernel} (hboot : boot L m = .ok K₀)
    (ps : List ℤ) (hps : ∀ p ∈ ps, -2^31 ≤ p ∧ p < 2^31) (hlen : ps.length ≤ 256) :
    ∃ cs K fr l, EnvsCreated L K₀ cs K ∧ cs.map Prod.snd = ps ∧ Crowded L fr K ps.length l := by
  induction ps with
  | nil =>
    obtain ⟨fr, l, h⟩ := boot_crowded hboot
    exact ⟨[], K₀, fr, l, .start, rfl, h⟩
  | cons p ps ih =>
    rw [List.length_cons] at hlen
    obtain ⟨cs, K, fr, l, run, hcs, h⟩ := ih (fun q hq => hps q (List.mem_cons_of_mem p hq)) (by omega)
    obtain ⟨e, K', l', hcreate, h'⟩ := h.create (by omega) bareImage_bare p
    refine ⟨(e, p) :: cs, K', fr, l', run.create bareImage (hps p List.mem_cons_self) hcreate, ?_, h'⟩
    rw [List.map_cons, hcs]

theorem exists_crowd {L : Layout} {m : Mem} {K₀ : Kernel} (hboot : boot L m = .ok K₀) :
    ∃ cs K fr u l, EnvsCreated L K₀ cs K ∧ cs.length = 256 ∧ Crowded L fr K 256 (u :: l) := by
  have hps : ∀ p ∈ List.replicate 256 (1 : ℤ), -2^31 ≤ p ∧ p < 2^31 := by
    intro p hp
    rw [List.eq_of_mem_replicate hp]
    decide
  have hlen : (List.replicate 256 (1 : ℤ)).length = 256 := List.length_replicate
  obtain ⟨cs, K, fr, l, run, hcs, h⟩ := exists_envsCreated hboot _ hps hlen.le
  rw [hlen] at h
  have hroom := h.room
  cases l with
  | nil =>
    rw [List.length_nil] at hroom
    omega
  | cons u l =>
    refine ⟨cs, K, fr, u, l, run, ?_, h⟩
    rw [← List.length_map (f := Prod.snd), hcs, hlen]

theorem exists_twoEnvs {L : Layout} {m : Mem} {K₀ : Kernel} (hboot : boot L m = .ok K₀)
    (p₁ p₂ : ℤ) :
    ∃ e₁ e₂ K₁ K₂, envCreate L K₀ bareImage p₁ = .ok (e₁, K₁) ∧
      envCreate L K₁ bareImage p₂ = .ok (e₂, K₂) ∧ e₁ ≠ e₂ ∧
      (K₂.envs e₁).env_status = .ENV_RUNNABLE ∧ (K₂.envs e₂).env_status = .ENV_RUNNABLE ∧
      ∃ ql fl, SchedInv K₂ ql fl := by
  obtain ⟨fr, l, h₀⟩ := boot_crowded hboot
  obtain ⟨e₁, K₁, l₁, call₁, h₁⟩ := h₀.create (by decide) bareImage_bare p₁
  obtain ⟨e₂, K₂, l₂, call₂, h₂⟩ := h₁.create (by decide) bareImage_bare p₂
  obtain ⟨_, _, _, _, c₁⟩ := envCreate_cases call₁
  obtain ⟨_, _, _, _, c₂⟩ := envCreate_cases call₂
  obtain ⟨ql₁, fl₁, hs₁⟩ := h₁.sched
  obtain ⟨_, _, _, hnot, _⟩ := hs₁.alloc c₂.alloc
  -- the second call takes an env that was free
  have hne : e₁ ≠ e₂ := by
    rintro rfl
    exact hnot ((hs₁.mem_queue e₁).mpr c₁.runnable)
  exact ⟨e₁, e₂, K₁, K₂, call₁, call₂, hne, (c₂.env_status e₁ hne).trans c₁.runnable, c₂.runnable,
    h₂.sched⟩

/-! ### The comment at `env_sched_list` -/

/-- After boot and any sequence of operations `env_sched_list` is a well-formed tail
queue of envs of the array, with every runnable env once and no other env. -/
theorem env_sched_list_runnable {L : Layout} {m : Mem} {K K' : Kernel} (hboot : boot L m = .ok K)
    (run : Relation.ReflTransGen (SchedStep L) K K') :
    ∃ l, TailRepr K'.env_sched_list l ∧ (∀ e ∈ l, e < NENV) ∧
      ∀ e, l.count e = if (K'.envs e).env_status = .ENV_RUNNABLE then 1 else 0 := by
  obtain ⟨l, fl, h⟩ := (boot_schedInv hboot).run run
  refine ⟨l, h.queue, fun e he => (h.queue_lt e he).1, fun e => ?_⟩
  by_cases he : e ∈ l
  · rw [List.count_eq_one_of_mem h.queue.nodup he, if_pos ((h.mem_queue e).mp he)]
  · rw [List.count_eq_zero_of_not_mem he, if_neg (fun hr => he ((h.mem_queue e).mpr hr))]

/-- Two envs, a call of the scheduler, and the first env goes. -/
theorem env_sched_list_freed : ∃ K K' e₁ e₂ l, boot default (fun _ => 0) = .ok K ∧
    Relation.ReflTransGen (SchedStep default) K K' ∧ e₁ ≠ e₂ ∧
    TailRepr K'.env_sched_list l ∧ l.count e₁ = 0 ∧ l.count e₂ = 1 := by
  obtain ⟨K, _, _, _, hboot, _⟩ := boot_ok default (fun _ => 0)
  obtain ⟨e₁, e₂, K₁, K₂, call₁, call₂, hne, hrun₁, hrun₂, ql, fl, hs⟩ := exists_twoEnvs hboot 1 2
  have hql : ql ≠ [] := List.ne_nil_of_mem ((hs.mem_queue e₁).mpr hrun₁)
  obtain ⟨K₃, call₃⟩ := hs.schedule_ok default hql false
  obtain ⟨_, s⟩ := schedule_scheduled call₃
  have hrun₃ : (K₃.envs e₁).env_status = .ENV_RUNNABLE := (s.env_status e₁).trans hrun₁
  have run : Relation.ReflTransGen (SchedStep default) K (envRelease (K₃.setPhys K₃.phys) e₁) :=
    .tail (.tail (.tail (.single (.create _ 1 call₁)) (.create _ 2 call₂)) (.schedule false call₃))
      (.free K₃.phys hrun₃)
  obtain ⟨l, hq, _, hcount⟩ := env_sched_list_runnable hboot run
  refine ⟨K, _, e₁, e₂, l, hboot, run, hne, hq, ?_, ?_⟩
  · rw [hcount]
    simp [envRelease, Kernel.setEnv]
  · have hkeep : ((envRelease (K₃.setPhys K₃.phys) e₁).envs e₂).env_status = .ENV_RUNNABLE := by
      simpa [envRelease, Kernel.setEnv, Kernel.setPhys, hne.symm] using
        (s.env_status e₂).trans hrun₂
    rw [hcount, if_pos hkeep]

end RiscvMos
