import RiscvMos.LibSv39
import RiscvMos.Spaces

/-! `walk` of vm.c against the translation of the hardware, on typed memory. -/
namespace RiscvMos
open ByteMem LinkChain Function

/-- The hardware's walk of the table at `root`. -/
def sv39 (m : Mem) (root va : ℕ) : Option (ℕ × ℕ) :=
  Sv39.walk (load64 m) (fun level => VPN_L level va) 2 root

/-- The same frame and the same permissions. -/
def SameMapping (e e' : ℕ) : Prop :=
  PTE2PA e = Sv39.ppn e'*4096 ∧
    e &&& (PTE_R ||| PTE_W ||| PTE_X ||| PTE_U) = e' &&& (PTE_R ||| PTE_W ||| PTE_X ||| PTE_U)

/-- `walk(root, va, 0)` finds a valid leaf iff the hardware translates `va` at level
0, and both find the same mapping. -/
def WalksAgree (s : Phys) (root va : ℕ) : Prop :=
  (∀ e, leafAt s root va = some e → ∃ e', sv39 s.mem root va = some (0, e') ∧ SameMapping e e') ∧
    ∀ e', sv39 s.mem root va = some (0, e') → ∃ e, leafAt s root va = some e ∧ SameMapping e e'

/-- A leaf that the hardware accepts: readable, without reserved bits. -/
def ReadLeaf (e : ℕ) : Prop := e &&& PTE_R ≠ 0 ∧ e < 2^54

theorem testBit_flag (e i : ℕ) : e &&& 2^i ≠ 0 ↔ e.testBit i = true := by
  rw [Nat.and_two_pow]
  cases e.testBit i <;> simp

theorem Valid_testBit (e : ℕ) : Valid e ↔ e.testBit Sv39.V = true := testBit_flag e 0

/-- The hardware takes a valid readable entry of level 0 as the leaf. -/
theorem ReadLeaf.hardware {e : ℕ} (h : ReadLeaf e) (hv : Valid e) :
    ¬Sv39.Faults e ∧ Sv39.IsLeaf e := by
  have hr : e.testBit Sv39.R = true := (testBit_flag e 1).mp h.1
  have hlt := h.2
  refine ⟨?_, Or.inl hr⟩
  rintro (hn | ⟨hn, _⟩ | hn)
  · rw [(Valid_testBit e).mp hv] at hn
    exact absurd hn (by decide)
  · rw [hr] at hn
    exact absurd hn (by decide)
  · omega

theorem not_Valid_faults {e : ℕ} (h : ¬Valid e) : Sv39.Faults e := by
  refine Or.inl ?_
  rw [Valid_testBit] at h
  exact Bool.eq_false_iff.mpr h

theorem tablePte_hardware {c : ℕ} (hc : IsPage c) :
    ¬Sv39.Faults (PA2PTE c ||| PTE_V) ∧ ¬Sv39.IsLeaf (PA2PTE c ||| PTE_V) ∧
      Sv39.ppn (PA2PTE c ||| PTE_V)*4096 = c := by
  have hb := hc.bounds
  have hf : PTE_V < 1024 := by decide
  have heq : PA2PTE c ||| PTE_V = c/4096*1024+1 := mkPte_eq c PTE_V hf
  rw [heq]
  have hbit (i : ℕ) (hi : (c/4096*1024+1)/2^i%2 = 0) : (c/4096*1024+1).testBit i = false := by
    rw [Nat.testBit_eq_decide_div_mod_eq, hi]
    rfl
  have hr := hbit Sv39.R (by simp only [Sv39.R]; omega)
  have hw := hbit Sv39.W (by simp only [Sv39.W]; omega)
  have hx := hbit Sv39.X (by simp only [Sv39.X]; omega)
  refine ⟨?_, ?_, ?_⟩
  · rintro (hn | ⟨_, hn⟩ | hn)
    · rw [Sv39.V, Nat.testBit_eq_decide_div_mod_eq] at hn
      simp only [decide_eq_false_iff_not] at hn
      omega
    · rw [hw] at hn
      exact absurd hn (by decide)
    · omega
  · rintro (hn | hn)
    · rw [hr] at hn
      exact absurd hn (by decide)
    · rw [hx] at hn
      exact absurd hn (by decide)
  · rw [Sv39.ppn]
    omega

section
variable {k : ℕ} {f : ℕ → ℕ} {s : Phys} {τ : Typing} {sm : ℕ → Prop} {l : List ℕ}

theorem Typed.sv39_walk (h : Typed s τ sm l) {va level p : ℕ} {par : Option (ℕ × ℕ)}
    (hp : τ p = .table level par) (hc : Clear sm p level (vpnIndex level (va/4096)))
    (hleaf : Valid (leafFrom s.mem level p (va/4096)) →
      ReadLeaf (leafFrom s.mem level p (va/4096))) :
    Sv39.walk (load64 s.mem) (fun level => VPN_L level va) level p =
      if Valid (leafFrom s.mem level p (va/4096))
        then some (0, leafFrom s.mem level p (va/4096)) else none := by
  induction level generalizing p par with
  | zero =>
    have he : load64 s.mem (p+8*VPN_L 0 va) = leafFrom s.mem 0 p (va/4096) := by
      rw [VPN_L_eq]
      rfl
    rw [Sv39.walk, he]
    split_ifs with hv
    · obtain ⟨hf, hl⟩ := (hleaf hv).hardware hv
      exact Sv39.step_leaf_zero hf hl
    · exact Sv39.step_fault (not_Valid_faults hv)
  | succ level ih =>
    have he : load64 s.mem (p+8*VPN_L (level+1) va) = entry s.mem p (vpnIndex (level+1) (va/4096)) := by
      rw [VPN_L_eq]
      rfl
    rw [Sv39.walk, he]
    by_cases hv : Valid (entry s.mem p (vpnIndex (level+1) (va/4096)))
    · have hn := h.next hp (vpnIndex_lt _ _) hc hv
      have hℓ := (h.level hp).1
      have hpar := (h.parent hn).2.2.2
      obtain ⟨hf, hl, hppn⟩ := tablePte_hardware (h.page hn)
      rw [← hpar] at hf hl hppn
      rw [Sv39.step_pointer hf hl, hppn]
      rw [leafFrom_succ_of_valid hv] at hleaf ⊢
      exact ih hn (Typed.clear_of_lt sm _ _ (by omega)) hleaf
    · rw [Sv39.step_fault (not_Valid_faults hv), leafFrom_succ_of_not_valid hv,
        if_neg not_Valid_zero]

theorem ReadLeaf.sameMapping {e : ℕ} (h : ReadLeaf e) : SameMapping e e := by
  have hlt := h.2
  refine ⟨?_, rfl⟩
  rw [PTE2PA_eq e (by omega), Sv39.ppn]
  omega

theorem Typed.walksAgree (h : Typed s τ sm l) {r va : ℕ} (hr : τ r = .table 2 none)
    (hc : Clear sm r 2 (vpnIndex 2 (va/4096))) (hva : va < MAXVA)
    (hleaf : Valid (leaf s.mem r (va/4096)) → ReadLeaf (leaf s.mem r (va/4096))) :
    WalksAgree s r va := by
  have hsw := h.leafAt_eq hr hc hva
  have hhw : sv39 s.mem r va = if Valid (leaf s.mem r (va/4096))
      then some (0, leaf s.mem r (va/4096)) else none := h.sv39_walk hr hc hleaf
  rw [WalksAgree, hsw, hhw]
  by_cases hv : Valid (leaf s.mem r (va/4096))
  · have hm := (hleaf hv).sameMapping
    simp only [if_pos hv, Option.some.injEq, Prod.mk.injEq, true_and]
    refine ⟨?_, ?_⟩
    · rintro e rfl
      exact ⟨_, rfl, hm⟩
    · rintro e' rfl
      exact ⟨_, rfl, hm⟩
  · rw [if_neg hv, if_neg hv]
    exact ⟨fun _ he => absurd he (by simp), fun _ he => absurd he (by simp)⟩

/-- In the slot of the self map the hardware sees a misaligned superpage. -/
theorem Typed.sv39_selfSlot (h : Typed s τ sm l) {r va : ℕ} (hr : sm r)
    (hs : VPN_L 2 va = VPN_L 2 UVPT) : sv39 s.mem r va = none := by
  obtain ⟨hroot, hen⟩ := h.selfMap hr
  have hb := (h.page hroot).bounds
  have he : load64 s.mem (r+8*VPN_L 2 va) = selfPte r := by
    rw [hs]
    exact hen
  have hflags : PTE_V ||| PTE_R ||| PTE_U < 1024 := by decide
  have hpte : selfPte r = r/4096*1024+(PTE_V ||| PTE_R ||| PTE_U) := by
    rw [selfPte_eq, mkPte_eq r _ hflags]
  have hval : PTE_V ||| PTE_R ||| PTE_U = 19 := by decide
  rw [sv39, Sv39.walk, he]
  apply Sv39.step_misaligned
  · refine Or.inl ?_
    rw [hpte, hval, Sv39.R, Nat.testBit_eq_decide_div_mod_eq]
    simp only [decide_eq_true_eq]
    omega
  · -- RAM lies between two gigabyte boundaries
    rw [Sv39.ppn, hpte, hval]
    omega

/-- In that slot the software uses the root as a table of level 1. -/
theorem Typed.leafAt_selfSlot (h : Typed s τ sm l) {r va : ℕ} (hr : sm r) (hva : va < MAXVA)
    (hs : VPN_L 2 va = VPN_L 2 UVPT) :
    leafAt s r va =
      if Valid (entry s.mem r (VPN_L 1 va)) ∧
          Valid (entry s.mem (PTE2PA (entry s.mem r (VPN_L 1 va))) (VPN_L 0 va))
        then some (entry s.mem (PTE2PA (entry s.mem r (VPN_L 1 va))) (VPN_L 0 va)) else none := by
  obtain ⟨hroot, hen⟩ := h.selfMap hr
  have hs' : vpnIndex 2 (va/4096) = selfSlot := by
    rw [← VPN_L_eq, hs]
    rfl
  have hval : Valid (entry s.mem r (vpnIndex 2 (va/4096))) := by
    rw [hs', hen]
    exact Valid_selfPte r
  have hd : descend s.mem 2 r (va/4096) = descend s.mem 1 r (va/4096) := by
    rw [descend_succ_of_valid hval, hs', hen, PTE2PA_selfPte (h.page hroot)]
  rw [leafAt, walk_noalloc_eq s r hva, hd, VPN_L_eq, VPN_L_eq]
  by_cases hv : Valid (entry s.mem r (vpnIndex 1 (va/4096)))
  · have hpage : IsPage (PTE2PA (entry s.mem r (vpnIndex 1 (va/4096)))) := by
      by_cases hi : vpnIndex 1 (va/4096) = selfSlot
      · rw [hi, hen, PTE2PA_selfPte (h.page hroot)]
        exact h.page hroot
      · exact h.page (h.next hroot (vpnIndex_lt _ _) (fun hh => hi hh.2.2) hv)
    have hb := hpage.bounds
    have hdv : descend s.mem 1 r (va/4096) = some (PTE2PA (entry s.mem r (vpnIndex 1 (va/4096)))) :=
      descend_succ_of_valid hv
    have hne : PTE2PA (entry s.mem r (vpnIndex 1 (va/4096)))+8*vpnIndex 0 (va/4096) ≠ 0 := by omega
    rw [hdv]
    simp only [Option.elim_some, hne, ne_eq, not_false_eq_true, true_and, hv]
    rfl
  · have hdn : descend s.mem 1 r (va/4096) = none := descend_succ_of_not_valid hv
    rw [hdn]
    simp [hv]

theorem Typed.walksAgree_selfSlot (h : Typed s τ sm l) {r va : ℕ} (hr : sm r) (hva : va < MAXVA)
    (hs : VPN_L 2 va = VPN_L 2 UVPT) :
    WalksAgree s r va ↔ ¬(Valid (entry s.mem r (VPN_L 1 va)) ∧
      Valid (entry s.mem (PTE2PA (entry s.mem r (VPN_L 1 va))) (VPN_L 0 va))) := by
  rw [WalksAgree, h.sv39_selfSlot hr hs, h.leafAt_selfSlot hr hva hs]
  constructor
  · rintro ⟨hsw, _⟩ hval
    rw [if_pos hval] at hsw
    obtain ⟨e', he', _⟩ := hsw _ rfl
    cases he'
  · intro hval
    rw [if_neg hval]
    exact ⟨fun _ he => absurd he (by simp), fun _ he => absurd he (by simp)⟩

end

end RiscvMos
