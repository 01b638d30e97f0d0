import RiscvMos.UserAccess

/-! What the kernel reaches under the table that is current: its own, or that of any env. -/
namespace RiscvMos
open ByteMem IntrusiveQueue LinkChain Function

/-- The kernel's table, or the table of an env. -/
def LiveTable (K : Kernel) (root : ℕ) : Prop := root = K.kernel_pagetable ∨
  ∃ e, (K.envs e).env_status = .ENV_RUNNABLE ∧ root = (K.envs e).env_pgtable

/-- What the kernel may do with its RAM: the pages that the text reaches are executable, the
others are writable. -/
def RamAccess (L : Layout) (access : Sv39.Access) (va : ℕ) : Prop :=
  match access with
  | .load => True
  | .store => dataFirst L.etext ≤ va/4096
  | .fetch => va/4096 < dataFirst L.etext

section
variable {k : ℕ} {f : ℕ → ℕ} {s : Phys} {τ : Typing} {sm : ℕ → Prop} {l : List ℕ} {r va : ℕ}
  {mode : Sv39.Mode} {access : Sv39.Access}

theorem Spaces.leaf_high (h : Spaces k f s τ sm l) (hr : τ r = .table 2 none) {v : ℕ}
    (hv : 256 ≤ vpnIndex 2 v) : leaf s.mem r v = 0 :=
  leafFrom_succ_of_not_valid (h.high r _ hr hv (vpnIndex_lt 2 v))

theorem canonical_high (hc : Sv39.Canonical va) (hva : 2^26 ≤ va/4096) :
    256 ≤ vpnIndex 2 (va/4096) := by
  simp only [vpnIndex]
  rcases hc with hlt | ⟨hge, hlt⟩
  · omega
  · omega

/-- The half of the kernel is the same in an env table, but for the slot of the self map. -/
theorem Spaces.translate_shared (h : Spaces k f s τ sm l) (hr : sm r) (hva : 0x80000000 ≤ va)
    (hs : vpnIndex 2 (va/4096) ≠ selfSlot) :
    translate s.mem r mode access va = translate s.mem k mode access va := by
  have hroot := h.root_of_sm hr
  have hk : Clear sm k 2 (vpnIndex 2 (va/4096)) := fun hh => h.kernel_clear hh.1
  apply Option.ext
  intro pa
  rw [h.typed.translate_iff hroot (clear_of_index sm r hs), h.typed.translate_iff h.kernel hk]
  apply and_congr_right
  intro hcan
  by_cases hmid : va/4096 < 2^26
  · have hshared := h.shared r (va/4096) hr (by omega) hmid hs
    rw [hshared, h.kernel_leaves _ hmid]
    by_cases hval : Valid (f (va/4096))
    · rw [if_pos hval]
    · -- Neither table has a page there.
      rw [if_neg hval]
      exact iff_of_false (fun hh => hh.1 (not_Valid_faults not_Valid_zero))
        (fun hh => hh.1 (not_Valid_faults hval))
  · have hidx := canonical_high hcan (not_lt.mp hmid)
    rw [h.leaf_high hroot hidx, h.leaf_high h.kernel hidx]

end

section
variable {L : Layout} {K : Kernel} {e va pa root : ℕ}

/-- Under the table of an env the half of the kernel is as under the kernel's own table, but for
the slot of the self map, where there is nothing. -/
theorem kernel_half_shared (history : History L K)
    (runnable : (K.envs e).env_status = .ENV_RUNNABLE)
    (hva : 0x80000000 ≤ va) (mode : Sv39.Mode) (access : Sv39.Access) :
    translate K.phys.mem (K.envs e).env_pgtable mode access va =
      if VPN_L 2 va = VPN_L 2 UVPT then none
      else translate K.phys.mem K.kernel_pagetable mode access va := by
  obtain ⟨_, _, _, _, _, _, _, h, _⟩ := history.inv
  have hsm := (h.tables _).mpr ⟨e, runnable, rfl⟩
  by_cases hself : VPN_L 2 va = VPN_L 2 UVPT
  · rw [if_pos hself]
    exact h.owned.spaces.typed.translate_selfSlot hsm ((VPN_L_self va).mp hself) mode access
  · rw [if_neg hself]
    exact h.owned.spaces.translate_shared hsm hva (fun hi => hself ((VPN_L_self va).mpr hi))

theorem history_first (L : Layout) : ∃ K, History L K ∧ (K.envs 0).env_status = .ENV_RUNNABLE := by
  obtain ⟨_, _, _, l, hboot, b⟩ := boot_ok L (fun _ => 0)
  have hlen := b.length
  have hroom := spinImage_room
  obtain ⟨K, _, _, _, _, hcreate, c, _⟩ := envCreate_first hboot spinImage_aligned 1
  have hpages := (History.boot hboot).loadsWholePages b.building.typed.free spinImage_linked
    (by omega) hcreate
  exact ⟨K, (History.boot hboot).create spinImage_linked.userImage hpages hcreate, c.runnable⟩

theorem kernel_half_shared_uart : ∃ K, History default K ∧ (K.envs 0).env_status = .ENV_RUNNABLE ∧
    translate K.phys.mem (K.envs 0).env_pgtable .supervisor .store 0x98000000 =
      if VPN_L 2 0x98000000 = VPN_L 2 UVPT then none
      else translate K.phys.mem K.kernel_pagetable .supervisor .store 0x98000000 := by
  obtain ⟨K, history, runnable⟩ := history_first default
  exact ⟨K, history, runnable, kernel_half_shared history runnable (by decide) .supervisor .store⟩

theorem identity_leaf {mode : Sv39.Mode} {access : Sv39.Access} {perm : ℕ} (hva : va < 2^38)
    (hf : perm < 1024) (hr : perm &&& PTE_R ≠ 0) :
    (Sv39.Canonical va ∧ ¬Sv39.Faults (mkLeaf (va/4096*4096) perm) ∧
      Sv39.Permits mode access (mkLeaf (va/4096*4096) perm) ∧
      pa = Sv39.ppn (mkLeaf (va/4096*4096) perm)*4096+va%4096) ↔
      Sv39.Permits mode access perm ∧ pa = va := by
  have hlt : va/4096*4096 < 2^56 := by omega
  have hfault := not_Faults_mkLeaf hlt hf hr
  -- The page number of the leaf is that of the address.
  have haddr : Sv39.ppn (mkLeaf (va/4096*4096) perm)*4096+va%4096 = va := by
    rw [ppn_eq hfault, PTE2PA_mkLeaf (by omega) hf]
    omega
  rw [haddr, Permits_mkLeaf _ hf]
  exact ⟨fun hh => hh.2.2, fun hh => ⟨Or.inl hva, hfault, hh⟩⟩

theorem kernelLeaf_ram (L : Layout) (fr : ℕ → ℕ) {v : ℕ} (hlo : 0x80000 ≤ v) (hhi : v < 0x88000) :
    kernelLeaf L.etext fr v = mkLeaf (v*4096)
      (if v < dataFirst L.etext then PTE_R ||| PTE_X else PTE_R ||| PTE_W) := by
  have hgt := L.etext_gt
  have hlt := L.etext_lt
  obtain ⟨hend, _, hn, htop, ht, hd, hp⟩ := kernel_layout L.etext
  rw [kernelLeaf_of_lt (by omega)]
  by_cases hv : v < dataFirst L.etext
  · rw [if_pos hv]
    exact ramLeaves_text ⟨hlo, by omega⟩ hv (by omega)
  · rw [if_neg hv]
    exact ramLeaves_data ⟨by omega, by omega⟩ (by omega)

/-- Under every live table the kernel finds its RAM at its physical addresses. -/
theorem kernel_ram_identity (history : History L K) (live : LiveTable K root)
    (hlo : 0x80000000 ≤ va) (hhi : va < PHYEND) (access : Sv39.Access) :
    translate K.phys.mem root .supervisor access va = some pa ↔
      RamAccess L access va ∧ pa = va := by
  obtain ⟨_, fr, _, sm, _, _, _, h, _⟩ := history.inv
  have htop : PHYEND = 0x88000000 := rfl
  have hslot : vpnIndex 2 (va/4096) ≠ selfSlot := by
    have hself := selfSlot_eq
    simp only [vpnIndex]
    omega
  have hk : Clear sm K.kernel_pagetable 2 (vpnIndex 2 (va/4096)) := clear_of_index sm _ hslot
  -- All tables agree with that of the kernel.
  have hsame : translate K.phys.mem root .supervisor access va =
      translate K.phys.mem K.kernel_pagetable .supervisor access va := by
    rcases live with rfl | ⟨e, he, rfl⟩
    · rfl
    · exact h.owned.spaces.translate_shared ((h.tables _).mpr ⟨e, he, rfl⟩) hlo hslot
  rw [hsame, h.owned.spaces.typed.translate_iff h.owned.spaces.kernel hk,
    h.owned.spaces.kernel_leaves _ (by omega), kernelLeaf_ram L fr (by omega) (by omega)]
  -- The text is readable and executable, the rest readable and writable.
  by_cases htext : va/4096 < dataFirst L.etext
  · rw [if_pos htext, identity_leaf (by omega) (by decide) (by decide)]
    apply and_congr_left'
    cases access with
    | load => exact iff_of_true (by decide) trivial
    | store => exact iff_of_false (by decide) (not_le.mpr htext)
    | fetch => exact iff_of_true (by decide) htext
  · rw [if_neg htext, identity_leaf (by omega) (by decide) (by decide)]
    apply and_congr_left'
    cases access with
    | load => exact iff_of_true (by decide) trivial
    | store => exact iff_of_true (by decide) (not_lt.mp htext)
    | fetch => exact iff_of_false (by decide) htext

/-- The entry of the kernel is executable under the table of an env. -/
theorem kernel_ram_identity_text : ∃ K, History default K ∧
    LiveTable K (K.envs 0).env_pgtable ∧
    (translate K.phys.mem (K.envs 0).env_pgtable .supervisor .fetch KERNBASE = some KERNBASE ↔
      RamAccess default .fetch KERNBASE ∧ KERNBASE = KERNBASE) := by
  obtain ⟨K, history, runnable⟩ := history_first default
  have live : LiveTable K (K.envs 0).env_pgtable := Or.inr ⟨0, runnable, rfl⟩
  exact ⟨K, history, live, kernel_ram_identity history live (by decide) (by decide) .fetch⟩

end

end RiscvMos
