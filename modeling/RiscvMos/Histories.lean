import RiscvMos.FreeTables
import RiscvMos.LoadImage

/-! Histories of the kernel: boot, and then calls of `env_create`, scheduling, user code and
`env_free` in any order. -/
namespace RiscvMos
open ByteMem IntrusiveQueue LinkChain Function

/-- Only memory of the kernel and frames that user leaves map may have changed. -/
def UserWrites (K : Kernel) (m : Mem) : Prop := ∀ b, m b ≠ K.phys.mem b →
  b < KERNEND ∨ ∃ e v pte, UserLeaf K e v pte ∧ PTE2PA pte ≤ b ∧ b < PTE2PA pte+4096

theorem userWrites_low {K : Kernel} {m : Mem} (hm : ∀ b, KERNEND ≤ b → m b = K.phys.mem b) :
    UserWrites K m := by
  intro b hb
  left
  by_contra hge
  exact hb (hm b (not_lt.mp hge))

/-- The loads get whole pages, and page-table teardowns succeed. -/
inductive History (L : Layout) : Kernel → Prop
  | boot {m : Mem} {K : Kernel} (start : boot L m = .ok K) : History L K
  | create {K K' : Kernel} {e : ℕ} {img : Image} {priority : ℤ} (history : History L K)
      (user : UserImage img) (pages : LoadsWholePages L K img)
      (call : envCreate L K img priority = .ok (e, K')) : History L K'
  | schedule {K K' : Kernel} {yield : Bool} (history : History L K)
      (call : schedule L K yield = .ok K') : History L K'
  | user {K : Kernel} {m : Mem} (history : History L K) (writes : UserWrites K m) :
      History L (K.setMem m)
  | free {K : Kernel} {s : Phys} {e : ℕ} (history : History L K)
      (runnable : (K.envs e).env_status = .ENV_RUNNABLE) (torn : TornDown K e s) :
      History L (envRelease (K.setPhys s) e)
  | forget {K : Kernel} (history : History L K) : History L { K with curenv := none }

section
variable {L : Layout} {K K' : Kernel} {calls : List (ℕ × ℕ × ℕ)} {fr : ℕ → ℕ} {τ : Typing}
  {sm : ℕ → Prop} {l ql fl : List ℕ}

theorem IsolationInv.keep (h : IsolationInv L K calls fr τ sm l ql fl) {ql' fl' : List ℕ}
    (hs : SchedInv K' ql' fl')
    (ho : Owned K'.kernel_pagetable (kernelLeaf L.etext fr) K'.phys τ sm l (HandedOut K calls))
    (hstatus : ∀ i, (K'.envs i).env_status = (K.envs i).env_status)
    (hroot : ∀ i, (K'.envs i).env_pgtable = (K.envs i).env_pgtable) :
    IsolationInv L K' calls fr τ sm l ql' fl' := by
  refine ⟨ho.mono ?_, hs, fun r => ?_, fun i j hi hj hij => ?_⟩
  · rintro r v p _ ⟨i, hi, hr, hm⟩
    exact ⟨i, (hstatus i).trans hi, (hroot i).trans hr, hm⟩
  · simp only [hstatus, hroot]
    exact h.tables r
  · rw [hstatus] at hi hj
    rw [hroot, hroot] at hij
    exact h.distinct i j hi hj hij

theorem saveContext_low (L : Layout) (m : Mem) {curenv : Option ℕ}
    (hcur : ∀ c, curenv = some c → c < NENV) {b : ℕ} (hb : KERNEND ≤ b) :
    saveContext L m curenv b = m b := by
  cases hc : curenv with
  | none => rfl
  | some c =>
    have hend := L.tf_end (hcur c hc)
    rw [saveContext]
    exact blit_sameOutside m (L.tf c) TF_SIZE _ b (by omega)

theorem IsolationInv.schedule (h : IsolationInv L K calls fr τ sm l ql fl)
    (hcur : ∀ c, K.curenv = some c → c < NENV) {yield : Bool}
    (hcall : RiscvMos.schedule L K yield = .ok K') :
    ∃ ql', IsolationInv L K' calls fr τ sm l ql' fl ∧ ∀ c, K'.curenv = some c → c < NENV := by
  obtain ⟨ql', hs⟩ := h.sched.schedule hcall
  obtain ⟨e, s⟩ := schedule_scheduled hcall
  have hlow (b : ℕ) (hb : KERNEND ≤ b) := saveContext_low L K.phys.mem hcur hb
  have ho := h.owned.write_low hlow
  rw [← s.phys, ← s.kernel_pagetable] at ho
  refine ⟨ql', h.keep hs ho s.env_status s.env_pgtable, fun c hc => ?_⟩
  obtain rfl : e = c := Option.some.inj (s.curenv.symm.trans hc)
  exact (hs.queue_lt e ((hs.mem_queue e).mpr s.runnable)).1

/-- Writes to frames of envs touch no table and no free page. -/
theorem IsolationInv.user_spaces (h : IsolationInv L K calls fr τ sm l ql fl) {m : Mem}
    (hw : UserWrites K m) :
    Spaces K.kernel_pagetable (kernelLeaf L.etext fr) ⟨m, K.phys.freelist⟩ τ sm l ∧
      ∀ r v, τ r = .table 2 none → Clear sm r 2 (vpnIndex 2 v) →
        leaf m r v = leaf K.phys.mem r v := by
  have hagree (p : ℕ) (hp : IsPage p) (hne : ∀ o, τ p ≠ .frame o) : AgreeOn m K.phys.mem p 4096 := by
    intro b hlo hhi
    by_contra hb
    rcases hw b hb with hlow | ⟨e, v, pte, hu, hqlo, hqhi⟩
    · exact absurd (hp.1.trans hlo) (by omega)
    · obtain ⟨hq, ht, _⟩ := h.userLeaf hu
      have hpq : p ≠ PTE2PA pte := by
        rintro rfl
        exact hne _ ht
      have hd := hp.disjoint hq hpq
      omega
  have htyped := h.owned.spaces.typed
  exact h.owned.spaces.retype (htyped.write_frames hagree) (fun _ _ _ => Iff.rfl)
    (fun {p _ _} hp => hagree p (htyped.page hp) (by simp [hp]))

theorem IsolationInv.user (h : IsolationInv L K calls fr τ sm l ql fl) {m : Mem}
    (hw : UserWrites K m) : IsolationInv L (K.setMem m) calls fr τ sm l ql fl := by
  obtain ⟨hspaces, hleaf⟩ := h.user_spaces hw
  have ho := h.owned.keep hspaces (fun _ _ hp => hp)
    (fun r v hr hv => hleaf r v (h.owned.spaces.root_of_sm hr) (clear_of_index sm r (user_index hv)))
  exact h.keep (h.sched.keeps (keepsEnvs_setPhys K ⟨m, K.phys.freelist⟩)) ho (fun _ => rfl)
    (fun _ => rfl)

end

/-- What holds after every history. -/
structure HistoryInv (L : Layout) (K : Kernel) (calls : List (ℕ × ℕ × ℕ)) (fr : ℕ → ℕ)
    (τ : Typing) (sm : ℕ → Prop) (l ql fl : List ℕ) : Prop where
  isolation : IsolationInv L K calls fr τ sm l ql fl
  curenv : ∀ c, K.curenv = some c → c < NENV
  frames : ∀ j < NENV, IsPage (fr j)

theorem History.inv {L : Layout} {K : Kernel} (history : History L K) :
    ∃ calls fr τ sm l ql fl, HistoryInv L K calls fr τ sm l ql fl := by
  induction history with
  | boot start =>
    obtain ⟨fr, τ, l, b⟩ := boot_booted start
    refine ⟨[], fr, τ, noSelfMap, l, [], _, b.isolationInv (boot_schedInv start), fun c hc => ?_, b.frames⟩
    rw [b.curenv] at hc
    cases hc
  | create _ user pages call ih =>
    obtain ⟨calls, fr, τ, sm, l, ql, fl, h, hcur, hfr⟩ := ih
    obtain ⟨K₁, K₂, s, ehdr, c⟩ := envCreate_cases call
    obtain ⟨τ', sm', l', ql', fl', h'⟩ := h.create c user pages
    rw [← c.curenv] at hcur
    exact ⟨_, fr, τ', sm', l', ql', fl', h', hcur, hfr⟩
  | schedule _ call ih =>
    obtain ⟨calls, fr, τ, sm, l, ql, fl, h, hcur, hfr⟩ := ih
    obtain ⟨ql', h', hcur'⟩ := h.schedule hcur call
    exact ⟨calls, fr, τ, sm, l, ql', fl, h', hcur', hfr⟩
  | user _ writes ih =>
    obtain ⟨calls, fr, τ, sm, l, ql, fl, h, hcur, hfr⟩ := ih
    exact ⟨calls, fr, τ, sm, l, ql, fl, h.user writes, hcur, hfr⟩
  | free _ runnable torn ih =>
    obtain ⟨calls, fr, τ, sm, l, ql, fl, h, hcur, hfr⟩ := ih
    obtain ⟨τ', sm', l', ql', h'⟩ := h.free runnable torn
    exact ⟨calls, fr, τ', sm', l', ql', _, h', hcur, hfr⟩
  | forget _ ih =>
    obtain ⟨calls, fr, τ, sm, l, ql, fl, h, _, hfr⟩ := ih
    refine ⟨calls, fr, τ, sm, l, ql, fl, h.keep ?_ h.owned (fun _ => rfl) (fun _ => rfl), ?_, hfr⟩
    · exact h.sched.keeps ⟨rfl, rfl, rfl, fun _ => rfl, fun _ => rfl, fun _ => rfl⟩
    · intro c hc
      cases hc

/-! ### Calls with enough pages -/

section
variable {L : Layout} {K K' : Kernel} {img : Image} {ehdr : Ehdr} {e : ℕ} {priority : ℤ}

theorem HistoryInv.spacesInv {calls : List (ℕ × ℕ × ℕ)} {fr : ℕ → ℕ} {τ : Typing} {sm : ℕ → Prop}
    {l ql fl : List ℕ} (h : HistoryInv L K calls fr τ sm l ql fl) :
    SpacesInv L K fr τ sm l ql fl := ⟨h.isolation.owned.spaces, h.isolation.sched⟩

/-- An image that is laid out as user.lds does it, and more free pages than its load can take. -/
theorem History.loadsWholePages (history : History L K) {l : List ℕ} (free : FreeList K.phys l)
    (image : LinkedImage img ehdr) (room : createRoom img ehdr < l.length)
    (call : envCreate L K img priority = .ok (e, K')) : LoadsWholePages L K img := by
  obtain ⟨calls, fr, τ, sm, l', ql, fl, h⟩ := history.inv
  obtain rfl := free.unique h.isolation.owned.spaces.typed.free
  exact h.spacesInv.loadsWholePages_of_room image room call

theorem History.loadsWholePages_of_left (history : History L K) (user : UserImage img)
    (aligned : StartsOnPages img) (call : envCreate L K img priority = .ok (e, K'))
    (left : K'.phys.freelist ≠ 0) : LoadsWholePages L K img := by
  obtain ⟨calls, fr, τ, sm, l, ql, fl, h⟩ := history.inv
  obtain ⟨_, _, _, ehdr, c⟩ := envCreate_cases call
  exact h.spacesInv.loadsWholePages c user aligned left

end

end RiscvMos
