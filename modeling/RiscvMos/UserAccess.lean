import RiscvMos.Histories
import RiscvMos.LibSv39Access
import RiscvMos.Translation

/-! What the hardware lets user mode and the kernel reach under the table of an env. -/
namespace RiscvMos
open ByteMem IntrusiveQueue LinkChain Function

/-- The physical address of an access under the table at `root`. -/
def translate (m : Mem) (root : ℕ) (mode : Sv39.Mode) (access : Sv39.Access) (va : ℕ) : Option ℕ :=
  Sv39.translate (load64 m) root mode access va

/-- The physical address of an access of the hart with `satp`. -/
def translateAt (m : Mem) (satp : ℕ) (mode : Sv39.Mode) (access : Sv39.Access) (va : ℕ) :
    Option ℕ :=
  Sv39.translateAt (load64 m) satp mode access va

theorem vpn_eq (va level : ℕ) : Sv39.vpn va level = vpnIndex level (va/4096) := rfl

theorem sv39_eq (m : Mem) (root va : ℕ) :
    Sv39.walk (load64 m) (Sv39.vpn va) 2 root = sv39 m root va := by
  unfold sv39
  congr 1
  ext level
  rw [vpn_eq, VPN_L_eq]

section
variable {s : Phys} {τ : Typing} {sm : ℕ → Prop} {l : List ℕ} {root : ℕ}

theorem Typed.sv39_step (h : Typed s τ sm l) {va level p : ℕ} {par : Option (ℕ × ℕ)}
    (hp : τ p = .table level par) (hc : Clear sm p level (vpnIndex level (va/4096))) :
    Sv39.walk (load64 s.mem) (Sv39.vpn va) level p =
      Sv39.step 0 (leafFrom s.mem level p (va/4096)) none := by
  induction level generalizing p par with
  | zero => rfl
  | succ level ih =>
    show Sv39.step (level+1) (entry s.mem p (vpnIndex (level+1) (va/4096)))
      (Sv39.walk (load64 s.mem) (Sv39.vpn va) level
        (Sv39.ppn (entry s.mem p (vpnIndex (level+1) (va/4096)))*4096)) = _
    by_cases hv : Valid (entry s.mem p (vpnIndex (level+1) (va/4096)))
    · have hn := h.next hp (vpnIndex_lt _ _) hc hv
      have hlevel := (h.level hp).1
      have hpar := (h.parent hn).2.2.2
      obtain ⟨hf, hl, hppn⟩ := tablePte_hardware (h.page hn)
      rw [← hpar] at hf hl hppn
      rw [Sv39.step_pointer hf hl, hppn, leafFrom_succ_of_valid hv]
      exact ih hn (Typed.clear_of_lt sm _ _ (by omega))
    · rw [Sv39.step_fault (not_Valid_faults hv), leafFrom_succ_of_not_valid hv,
        Sv39.step_fault (not_Valid_faults not_Valid_zero)]

theorem Typed.translate_iff (h : Typed s τ sm l) (hr : τ root = .table 2 none) {va : ℕ}
    (hc : Clear sm root 2 (vpnIndex 2 (va/4096))) {mode : Sv39.Mode} {access : Sv39.Access}
    (pa : ℕ) :
    translate s.mem root mode access va = some pa ↔
      Sv39.Canonical va ∧ ¬Sv39.Faults (leaf s.mem root (va/4096)) ∧
        Sv39.Permits mode access (leaf s.mem root (va/4096)) ∧
        pa = Sv39.ppn (leaf s.mem root (va/4096))*4096+va%4096 :=
  Sv39.translate_of_walk (h.sv39_step hr hc) pa

/-- In that slot of an env table there is nothing to access. -/
theorem Typed.translate_selfSlot (h : Typed s τ sm l) (hr : sm root) {va : ℕ}
    (hs : vpnIndex 2 (va/4096) = selfSlot) (mode : Sv39.Mode) (access : Sv39.Access) :
    translate s.mem root mode access va = none := by
  apply Sv39.translate_of_walk_none
  rw [sv39_eq]
  apply h.sv39_selfSlot hr
  rw [VPN_L_eq, hs]
  rfl

end

/-! ### Leaves -/

theorem testBit_mkLeaf (pa : ℕ) {perm i : ℕ} (hf : perm < 1024) (h0 : 0 < i) (hi : i < 10) :
    (mkLeaf pa perm).testBit i = perm.testBit i := by
  have hflags := PTE_FLAGS_mkLeaf pa hf
  rw [PTE_FLAGS_eq] at hflags
  have hone : PTE_V.testBit i = false := by
    rw [show PTE_V = 1 from rfl, Bool.eq_false_iff, ne_eq, Nat.testBit_one_eq_true_iff_self_eq_zero]
    omega
  calc (mkLeaf pa perm).testBit i = (mkLeaf pa perm%2^10).testBit i := by
        rw [Nat.testBit_mod_two_pow, decide_eq_true hi, Bool.true_and]
    _ = (perm ||| PTE_V).testBit i := congrArg (fun x => x.testBit i) hflags
    _ = perm.testBit i := by rw [Nat.testBit_or, hone, Bool.or_false]

theorem Permits_mkLeaf (pa : ℕ) {perm : ℕ} (hf : perm < 1024) (mode : Sv39.Mode)
    (access : Sv39.Access) :
    Sv39.Permits mode access (mkLeaf pa perm) ↔ Sv39.Permits mode access perm := by
  have hbit : 0 < access.bit ∧ access.bit < 10 := by cases access <;> decide
  rw [Sv39.Permits, Sv39.Permits, testBit_mkLeaf pa hf hbit.1 hbit.2,
    testBit_mkLeaf pa hf (by decide) (by decide)]

theorem not_Faults_mkLeaf {pa perm : ℕ} (hpa : pa < 2^56) (hf : perm < 1024)
    (hr : perm &&& PTE_R ≠ 0) : ¬Sv39.Faults (mkLeaf pa perm) :=
  ((ReadLeaf_mkLeaf hpa hf hr).hardware (Valid_mkLeaf pa hf)).1

/-! ### User mode -/

theorem not_faults_lt {pte : ℕ} (h : ¬Sv39.Faults pte) : pte < 2^54 := by
  by_contra hge
  exact h (Or.inr (Or.inr (not_lt.mp hge)))

theorem ppn_eq {pte : ℕ} (h : ¬Sv39.Faults pte) : Sv39.ppn pte*4096 = PTE2PA pte := by
  have hlt := not_faults_lt h
  rw [PTE2PA_eq pte (by omega), Sv39.ppn]
  omega

theorem not_faults_valid {pte : ℕ} (h : ¬Sv39.Faults pte) : Valid pte := by
  by_contra hv
  exact h (not_Valid_faults hv)

section
variable {L : Layout} {K : Kernel} {calls : List (ℕ × ℕ × ℕ)} {fr : ℕ → ℕ} {τ : Typing}
  {sm : ℕ → Prop} {l ql fl : List ℕ} {e va pa : ℕ} {access : Sv39.Access}

theorem IsolationInv.translate_high (h : IsolationInv L K calls fr τ sm l ql fl)
    (runnable : (K.envs e).env_status = .ENV_RUNNABLE) (mode : Sv39.Mode)
    (hva : 2^27 ≤ va/4096) : translate K.phys.mem (K.envs e).env_pgtable mode access va = none := by
  have hsm := (h.tables _).mpr ⟨e, runnable, rfl⟩
  have hroot := h.owned.spaces.root_of_sm hsm
  by_cases hcan : Sv39.Canonical va
  · -- A negative address has an index from 256 on in the root table.
    have hidx : 256 ≤ vpnIndex 2 (va/4096) := by
      rcases hcan with hlt | ⟨hge, hlt⟩
      · omega
      · simp only [vpnIndex]
        omega
    have hslot : vpnIndex 2 (va/4096) ≠ selfSlot := by
      have := selfSlot_eq
      omega
    have hleaf : leaf K.phys.mem (K.envs e).env_pgtable (va/4096) = 0 :=
      leafFrom_succ_of_not_valid (h.owned.spaces.high _ _ hroot hidx (vpnIndex_lt 2 _))
    by_contra hne
    obtain ⟨pa, hpa⟩ := Option.ne_none_iff_exists'.mp hne
    obtain ⟨_, hf, _⟩ := (h.owned.spaces.typed.translate_iff hroot
      (clear_of_index sm _ hslot) pa).mp hpa
    rw [hleaf] at hf
    exact hf (not_Valid_faults not_Valid_zero)
  · exact if_neg hcan

/-- A user access goes through a user leaf of the env, and through nothing else. -/
theorem IsolationInv.user_access_iff (h : IsolationInv L K calls fr τ sm l ql fl)
    (runnable : (K.envs e).env_status = .ENV_RUNNABLE) :
    translate K.phys.mem (K.envs e).env_pgtable .user access va = some pa ↔
      ∃ pte, UserLeaf K e (va/4096) pte ∧ ¬Sv39.Faults pte ∧ Sv39.Permits .user access pte ∧
        pa = PTE2PA pte+va%4096 := by
  have hsm := (h.tables _).mpr ⟨e, runnable, rfl⟩
  have hroot := h.owned.spaces.root_of_sm hsm
  by_cases hva : va/4096 < 2^27
  -- The self map is a leaf at the level of the root that is not aligned, which is a fault.
  · by_cases hslot : vpnIndex 2 (va/4096) = selfSlot
    · rw [h.owned.spaces.typed.translate_selfSlot hsm hslot]
      exact iff_of_false nofun fun ⟨pte, u, _⟩ => u.slot hslot
    · rw [h.owned.spaces.typed.translate_iff hroot (clear_of_index sm _ hslot)]
      constructor
      · rintro ⟨_, hf, hp, hpa⟩
        refine ⟨_, ⟨runnable, hva, hslot, rfl, not_faults_valid hf, ?_⟩, hf, hp, ?_⟩
        · exact (testBit_flag _ 4).mpr (hp.2.mpr rfl)
        · rw [hpa, ppn_eq hf]
      · rintro ⟨pte, u, hf, hp, hpa⟩
        have hleaf := u.leaf
        subst hleaf
        refine ⟨?_, hf, hp, ?_⟩
        · -- A valid leaf has an index below 256 in the root table.
          by_contra hcan
          have hidx : 256 ≤ vpnIndex 2 (va/4096) := by
            have hge : ¬va < 2^38 := fun hlt => hcan (Or.inl hlt)
            simp only [vpnIndex]
            omega
          have hzero : leaf K.phys.mem (K.envs e).env_pgtable (va/4096) = 0 :=
            leafFrom_succ_of_not_valid (h.owned.spaces.high _ _ hroot hidx (vpnIndex_lt 2 _))
          have hval := u.valid
          rw [hzero] at hval
          exact not_Valid_zero hval
        · rw [hpa, ppn_eq hf]
  · rw [h.translate_high runnable .user (not_lt.mp hva)]
    exact iff_of_false nofun fun ⟨pte, u, _⟩ => hva u.page

end

end RiscvMos
