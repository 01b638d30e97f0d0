import RiscvMos.FirstEnv
import Mathlib.Logic.Relation

/-! The operations on envs after boot, and the lists that they keep. -/
namespace RiscvMos
open ByteMem IntrusiveQueue Function

/-- One operation after boot. Between operations the envs write memory. `env_free`
is given the memory that its page-table teardown leaves. -/
inductive SchedStep (L : Layout) (K : Kernel) : Kernel → Prop
  | memory (s : Phys) : SchedStep L K (K.setPhys s)
  | create {K' : Kernel} {e : ℕ} (img : Image) (priority : ℤ)
      (call : envCreate L K img priority = .ok (e, K')) : SchedStep L K K'
  | alloc {K' : Kernel} {r : ℤ} {new : Option ℕ} (parent_id : ℕ)
      (call : envAlloc L K parent_id = .ok (r, new, K')) : SchedStep L K K'
  | free (s : Phys) {e : ℕ} (runnable : (K.envs e).env_status = .ENV_RUNNABLE) :
      SchedStep L K (envRelease (K.setPhys s) e)
  | destroy (s : Phys) {K' : Kernel} {e : ℕ} (runnable : (K.envs e).env_status = .ENV_RUNNABLE)
      (call : envDestroyed L (envRelease (K.setPhys s) e) e = .ok K') : SchedStep L K K'
  | schedule {K' : Kernel} (yield : Bool) (call : schedule L K yield = .ok K') : SchedStep L K K'

theorem keepsEnvs_setPhys (K : Kernel) (s : Phys) : KeepsEnvs K (K.setPhys s) :=
  ⟨rfl, rfl, rfl, fun _ => rfl, fun _ => rfl, fun _ => rfl⟩

theorem SchedInv.step {L : Layout} {K K' : Kernel} {ql fl : List ℕ} (h : SchedInv K ql fl)
    (st : SchedStep L K K') : ∃ ql' fl', SchedInv K' ql' fl' := by
  cases st with
  | memory s => exact ⟨ql, fl, h.keeps (keepsEnvs_setPhys K s)⟩
  | create img priority call =>
    obtain ⟨K₁, K₂, s, ehdr, c⟩ := envCreate_cases call
    obtain ⟨fl', _, _, h'⟩ := h.create c
    exact ⟨_, fl', h'⟩
  | alloc parent_id call =>
    rcases envAlloc_cases call with ⟨_, _, hk⟩ | ⟨e, K₁, _, _, a⟩
    · exact ⟨ql, fl, h.keeps hk⟩
    · obtain ⟨fl', _, _, _, _, h'⟩ := h.alloc a
      exact ⟨ql, fl', h'⟩
  | free s runnable =>
    obtain ⟨ql', h'⟩ := (h.keeps (keepsEnvs_setPhys K s)).release runnable
    exact ⟨ql', _, h'⟩
  | @destroy s K' e runnable call =>
    obtain ⟨ql', h'⟩ := (h.keeps (keepsEnvs_setPhys K s)).release runnable
    rw [envDestroyed] at call
    split_ifs at call with hc
    · have hn : SchedInv { envRelease (K.setPhys s) e with curenv := none } ql' (e :: fl) :=
        h'.keeps ⟨rfl, rfl, rfl, fun _ => rfl, fun _ => rfl, fun _ => rfl⟩
      obtain ⟨ql'', h''⟩ := hn.schedule call
      exact ⟨ql'', _, h''⟩
    · cases call
      exact ⟨ql', _, h'⟩
  | schedule yield call =>
    obtain ⟨ql', h'⟩ := h.schedule call
    exact ⟨ql', fl, h'⟩

theorem SchedInv.run {L : Layout} {K K' : Kernel} {ql fl : List ℕ} (h : SchedInv K ql fl)
    (run : Relation.ReflTransGen (SchedStep L) K K') : ∃ ql' fl', SchedInv K' ql' fl' := by
  induction run with
  | refl => exact ⟨ql, fl, h⟩
  | tail _ st ih =>
    obtain ⟨ql', fl', h'⟩ := ih
    exact h'.step st

end RiscvMos
