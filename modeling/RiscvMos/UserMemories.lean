import RiscvMos.LibPrivateMemory
import RiscvMos.OtherSpaces
import RiscvMos.UserAccess

/-! The memory that each env has in user mode, and what the calls of the kernel and the stores of
the envs do to it. -/
namespace RiscvMos
open ByteMem IntrusiveQueue LinkChain Function

abbrev UserMemory := PrivateMemory.Space Sv39.Access ℕ UInt8

/-- The bytes that accesses of user mode reach under the table at `root`. -/
def userMemory (m : Mem) (root : ℕ) : UserMemory := fun access va =>
  (translate m root .user access va).map m

/-- The memories of the envs that are there. -/
def userMemories (K : Kernel) : ℕ → Option UserMemory := fun e =>
  if (K.envs e).env_status = .ENV_RUNNABLE then some (userMemory K.phys.mem (K.envs e).env_pgtable)
  else none

theorem userMemories_of {K : Kernel} {e : ℕ} (h : (K.envs e).env_status = .ENV_RUNNABLE) :
    userMemories K e = some (userMemory K.phys.mem (K.envs e).env_pgtable) := if_pos h

theorem userMemories_of_not {K : Kernel} {e : ℕ} (h : (K.envs e).env_status ≠ .ENV_RUNNABLE) :
    userMemories K e = none := if_neg h

section
variable {L : Layout} {K K' : Kernel} {calls calls' : List (ℕ × ℕ × ℕ)} {fr fr' : ℕ → ℕ}
  {τ τ' : Typing} {sm sm' : ℕ → Prop} {l ql fl l' ql' fl' : List ℕ} {e : ℕ}

theorem IsolationInv.userLeaf_low (h : IsolationInv L K calls fr τ sm l ql fl) {v pte : ℕ}
    (u : UserLeaf K e v pte) : v < 2^19 := by
  have hr := (h.tables _).mpr ⟨e, u.env, rfl⟩
  have hval := u.valid
  by_contra hge
  -- Behind the user half the leaves are shared with the kernel, whose own are not for user mode.
  by_cases hmid : v < 2^26
  · have hs := h.owned.spaces.shared _ v hr (not_lt.mp hge) hmid u.slot
    rw [u.leaf] at hs
    by_cases hf : Valid (kernelLeaf L.etext fr v)
    · rw [if_pos hf] at hs
      apply u.user
      rw [hs]
      exact kernelLeaf_not_user L.etext_gt L.etext_lt hmid hf
    · rw [if_neg hf] at hs
      rw [hs] at hval
      exact not_Valid_zero hval
  · -- The root entries from 256 on are invalid.
    have hidx : 256 ≤ vpnIndex 2 v := by
      have hpage := u.page
      simp only [vpnIndex]
      omega
    have hhigh := h.owned.spaces.high _ _ (h.owned.spaces.root_of_sm hr) hidx (vpnIndex_lt 2 v)
    have hzero : leaf K.phys.mem (K.envs e).env_pgtable v = 0 := leafFrom_succ_of_not_valid hhigh
    rw [← u.leaf, hzero] at hval
    exact not_Valid_zero hval

theorem IsolationInv.translate_kept (h : IsolationInv L K calls fr τ sm l ql fl)
    (h' : IsolationInv L K' calls' fr' τ' sm' l' ql' fl')
    (he : (K.envs e).env_status = .ENV_RUNNABLE) (he' : (K'.envs e).env_status = .ENV_RUNNABLE)
    (hleaf : ∀ v < 2^19, leaf K'.phys.mem (K'.envs e).env_pgtable v =
      leaf K.phys.mem (K.envs e).env_pgtable v) (access : Sv39.Access) (va : ℕ) :
    translate K'.phys.mem (K'.envs e).env_pgtable .user access va =
      translate K.phys.mem (K.envs e).env_pgtable .user access va := by
  -- A translation in user mode depends on the user leaves only.
  have hsame (v pte : ℕ) : UserLeaf K' e v pte ↔ UserLeaf K e v pte := by
    constructor
    · intro u
      have hv := h'.userLeaf_low u
      exact ⟨he, u.page, u.slot, (hleaf v hv).symm.trans u.leaf, u.valid, u.user⟩
    · intro u
      have hv := h.userLeaf_low u
      exact ⟨he', u.page, u.slot, (hleaf v hv).trans u.leaf, u.valid, u.user⟩
  apply Option.ext
  intro pa
  rw [h'.user_access_iff he', h.user_access_iff he]
  simp only [hsame]

theorem IsolationInv.userMemory_kept (h : IsolationInv L K calls fr τ sm l ql fl)
    (h' : IsolationInv L K' calls' fr' τ' sm' l' ql' fl')
    (he : (K.envs e).env_status = .ENV_RUNNABLE) (he' : (K'.envs e).env_status = .ENV_RUNNABLE)
    (hroot : (K'.envs e).env_pgtable = (K.envs e).env_pgtable) {u : ℕ}
    (kept : OthersKept sm u K.phys K'.phys) (hne : (K.envs e).env_pgtable ≠ u) :
    userMemories K' e = userMemories K e := by
  have hsm := (h.tables _).mpr ⟨e, he, rfl⟩
  have htrans := h.translate_kept h' he he' (fun v hv => by
    rw [hroot]
    exact kept.leaf _ v hsm hne hv)
  rw [userMemories_of he, userMemories_of he']
  apply congrArg some
  funext access va
  unfold userMemory
  rw [htrans]
  -- What is reached lies in a frame of the env, which is kept.
  cases hpa : translate K.phys.mem (K.envs e).env_pgtable .user access va with
  | none => rfl
  | some pa =>
    obtain ⟨pte, hu, _, _, rfl⟩ := (h.user_access_iff he).mp hpa
    have hval := hu.valid
    have hagree := kept.frame _ (va/4096) hsm hne (h.userLeaf_low hu)
    rw [hu.leaf] at hagree
    rw [Option.map_some, Option.map_some, hagree hval _ (by omega) (by omega)]

theorem IsolationInv.userMemories_low (h : IsolationInv L K calls fr τ sm l ql fl)
    (h' : IsolationInv L K' calls' fr' τ' sm' l' ql' fl')
    (hm : ∀ b, KERNEND ≤ b → K'.phys.mem b = K.phys.mem b)
    (hstatus : ∀ i, (K'.envs i).env_status = (K.envs i).env_status)
    (hroot : ∀ i, (K'.envs i).env_pgtable = (K.envs i).env_pgtable) :
    userMemories K' = userMemories K := by
  have kept : OthersKept sm K.kernel_pagetable K.phys K'.phys := by
    have hlow := h.owned.others_low (u := K.kernel_pagetable) hm
    exact ⟨hlow.leaf, hlow.frame⟩
  ext1 i
  by_cases hi : (K.envs i).env_status = .ENV_RUNNABLE
  · apply h.userMemory_kept h' hi ((hstatus i).trans hi) (hroot i) kept
    intro hk
    apply h.owned.spaces.kernel_clear
    rw [← hk]
    exact (h.tables _).mpr ⟨i, hi, rfl⟩
  · rw [userMemories_of_not hi, userMemories_of_not (by rwa [hstatus])]

/-! ### Stores -/

theorem IsolationInv.store_leaf (h : IsolationInv L K calls fr τ sm l ql fl) {p pa r v : ℕ}
    {o : Option (ℕ × ℕ)} {b : UInt8} (hp : IsPage p) (hτ : τ p = .frame o) (hlo : p ≤ pa)
    (hhi : pa < p+4096) (hr : sm r) (hv : v < 2^19) :
    leaf (update K.phys.mem pa b) r v = leaf K.phys.mem r v := by
  have htyped := h.owned.spaces.typed
  have hroot := h.owned.spaces.root_of_sm hr
  apply htyped.leafFrom_agree _ v hroot (clear_of_index sm r (user_index hv))
  -- The tables that lead to the leaf are other pages.
  intro q ℓ par hq a hqlo hqhi
  have hqp : q ≠ p := by
    intro he
    rw [he, hτ] at hq
    cases hq
  have hd := (htyped.page hq).disjoint hp hqp
  exact update_of_ne (by omega) _ _

theorem IsolationInv.userWrites (h : IsolationInv L K calls fr τ sm l ql fl)
    (he : (K.envs e).env_status = .ENV_RUNNABLE) {access : Sv39.Access} {va pa : ℕ} (b : UInt8)
    (hpa : translate K.phys.mem (K.envs e).env_pgtable .user access va = some pa) :
    UserWrites K (update K.phys.mem pa b) := by
  obtain ⟨pte, u, _, _, hpa'⟩ := (h.user_access_iff he).mp hpa
  have hoff : va%4096 < 4096 := Nat.mod_lt _ (by decide)
  intro a ha
  have hap : a = pa := by
    by_contra hne
    exact ha (update_of_ne hne _ _)
  exact Or.inr ⟨e, va/4096, pte, u, by omega, by omega⟩

/-- A byte that user mode reaches is at one address of one env. -/
theorem IsolationInv.one_address (h : IsolationInv L K calls fr τ sm l ql fl) {i va va' pa pa' : ℕ}
    {access access' : Sv39.Access} (he : (K.envs e).env_status = .ENV_RUNNABLE)
    (hi : (K.envs i).env_status = .ENV_RUNNABLE)
    (hpa : translate K.phys.mem (K.envs e).env_pgtable .user access va = some pa)
    (hpa' : translate K.phys.mem (K.envs i).env_pgtable .user access' va' = some pa') :
    pa' = pa ↔ i = e ∧ va' = va := by
  obtain ⟨pte, u, _, _, heq⟩ := (h.user_access_iff he).mp hpa
  obtain ⟨pte', u', _, _, heq'⟩ := (h.user_access_iff hi).mp hpa'
  have hb := (h.userLeaf u).1.bounds
  have hb' := (h.userLeaf u').1.bounds
  have hoff : va%4096 < 4096 := Nat.mod_lt _ (by decide)
  have hoff' : va'%4096 < 4096 := Nat.mod_lt _ (by decide)
  constructor
  · intro hsame
    -- Equal bytes are in one frame, and a frame has one user leaf.
    have hpte : PTE2PA pte' = PTE2PA pte := by omega
    obtain ⟨_, _, _, _, _, hown⟩ := h.isolated e (va/4096) pte u
    obtain ⟨hie, hv⟩ := hown i (va'/4096) pte' u' hpte
    exact ⟨hie, by omega⟩
  · rintro ⟨rfl, rfl⟩
    have hpte := u'.leaf.symm.trans u.leaf
    rw [heq, heq', hpte]

theorem IsolationInv.userMemories_store (h : IsolationInv L K calls fr τ sm l ql fl)
    (he : (K.envs e).env_status = .ENV_RUNNABLE) {va pa : ℕ} (b : UInt8)
    (hpa : translate K.phys.mem (K.envs e).env_pgtable .user .store va = some pa) :
    userMemories (K.setMem (update K.phys.mem pa b)) = update (userMemories K) e
      (some ((userMemory K.phys.mem (K.envs e).env_pgtable).write va b)) := by
  obtain ⟨pte, u, _, _, hpte⟩ := (h.user_access_iff he).mp hpa
  have hoff : va%4096 < 4096 := Nat.mod_lt _ (by decide)
  obtain ⟨hp, ht, _⟩ := h.userLeaf u
  have h' := h.user (h.userWrites he b hpa)
  ext1 i
  by_cases hi : (K.envs i).env_status = .ENV_RUNNABLE
  · have hi' : ((K.setMem (update K.phys.mem pa b)).envs i).env_status = .ENV_RUNNABLE := hi
    have htrans (access : Sv39.Access) (va' : ℕ) :
        translate (update K.phys.mem pa b) (K.envs i).env_pgtable .user access va' =
          translate K.phys.mem (K.envs i).env_pgtable .user access va' :=
      h.translate_kept h' hi hi' (fun v hv =>
        h.store_leaf hp ht (by omega) (by omega) ((h.tables _).mpr ⟨i, hi, rfl⟩) hv) access va'
    rw [userMemories_of hi']
    show some (userMemory (update K.phys.mem pa b) (K.envs i).env_pgtable) = _
    -- Only one address of one env is at the byte that is stored.
    by_cases hie : i = e
    · subst hie
      rw [update_self]
      apply congrArg some
      funext access va'
      unfold PrivateMemory.Space.write userMemory
      rw [htrans access va']
      cases hpa' : translate K.phys.mem (K.envs i).env_pgtable .user access va' with
      | none => exact (ite_self none).symm
      | some pa' =>
        have heq := h.one_address he hi hpa hpa'
        by_cases hva : va' = va
        · rw [if_pos hva, heq.mpr ⟨rfl, hva⟩]
          exact congrArg some (update_self ..)
        · rw [if_neg hva]
          exact congrArg some (update_of_ne (fun hh => hva (heq.mp hh).2) _ _)
    · rw [update_of_ne hie, userMemories_of hi]
      apply congrArg some
      funext access va'
      unfold userMemory
      rw [htrans access va']
      cases hpa' : translate K.phys.mem (K.envs i).env_pgtable .user access va' with
      | none => rfl
      | some pa' =>
        have heq := h.one_address he hi hpa hpa'
        exact congrArg some (update_of_ne (fun hh => hie (heq.mp hh).1) _ _)
  · have hie : i ≠ e := by
      rintro rfl
      exact hi he
    rw [update_of_ne hie, userMemories_of_not hi]
    exact userMemories_of_not hi

end

end RiscvMos
