import RiscvMos.AllocatorRuns
import RiscvMos.BootSpaces
import RiscvMos.Translation

/-! The env page tables that the kernel can build: `env_setup_vm`, mappings below
0x80000000, and pages that come and go in between. -/
namespace RiscvMos
open ByteMem LinkChain Function

/-- The kernel, the env tables made so far and the pages that are held. -/
structure TableState where
  kernel : Kernel
  tables : ℕ → Prop
  held : Set ℕ

/-- The state after boot. -/
def TableState.start (K : Kernel) : TableState := ⟨K, noSelfMap, ∅⟩

/-- `mappages` gets a readable permission and physical addresses, which have 56 bits. -/
inductive TableStep (L : Layout) (a : TableState) : TableState → Prop
  | setup (e : ℕ) {r : ℤ} {K' : Kernel} (call : envSetupVm a.kernel e = .ok (r, K')) :
      TableStep L a ⟨K', fun p => a.tables p ∨ (r = 0 ∧ p = (K'.envs e).env_pgtable), a.held⟩
  | map {p : ℕ} (va size pa perm : ℕ) {r : ℤ} {s' : Phys} (table : a.tables p)
      (user : va+size ≤ 0x80000000) (phys : pa+size+PAGE_SIZE ≤ 2^56) (flags : perm < 1024)
      (readable : perm &&& PTE_R ≠ 0)
      (call : mappages a.kernel.phys p va size pa perm = .ok (r, s')) :
      TableStep L a { a with kernel := a.kernel.setPhys s' }
  | client {b : AllocState} (step : AllocStep ⟨a.kernel.phys, a.held⟩ b) :
      TableStep L a ⟨a.kernel.setPhys b.phys, a.tables, b.held⟩

/-! ### The invariant of the runs -/

/-- Held pages are frames. -/
def HeldFrames (τ : Typing) (held : Set ℕ) : Prop := ∀ p ∈ held, IsPage p ∧ ∃ o, τ p = .frame o

structure TableInv (f : ℕ → ℕ) (a : TableState) (τ : Typing) (l : List ℕ) : Prop where
  spaces : Spaces a.kernel.kernel_pagetable f a.kernel.phys τ a.tables l
  held : HeldFrames τ a.held
  readable : ∀ r v, a.tables r → v < 2^19 → Valid (leaf a.kernel.phys.mem r v) →
    ReadLeaf (leaf a.kernel.phys.mem r v)

section
variable {k : ℕ} {f : ℕ → ℕ} {s : Phys} {τ : Typing} {sm : ℕ → Prop} {l : List ℕ}

theorem Spaces.client (h : Spaces k f s τ sm l) {held : Set ℕ} (hh : HeldFrames τ held)
    {b : AllocState} (st : AllocStep ⟨s, held⟩ b) :
    ∃ τ' l', Spaces k f b.phys τ' sm l' ∧ HeldFrames τ' b.held ∧
      ∀ r v, τ r = .table 2 none → Clear sm r 2 (vpnIndex 2 v) →
        leaf b.phys.mem r v = leaf s.mem r v := by
  cases st with
  | kalloc =>
    cases l with
    | nil =>
      rw [kalloc_nil h.typed.free]
      have hheld : heldAfter held 0 = held := if_pos rfl
      exact ⟨τ, [], h, by rw [hheld]; exact hh, fun _ _ _ _ => rfl⟩
    | cons c l =>
      obtain ⟨s', hk, ht, _, hm⟩ := h.typed.kalloc_frame none
      have hpage := h.typed.free.pages c List.mem_cons_self
      have hfree := h.typed.free_kind List.mem_cons_self
      have hb := hpage.bounds
      have hnt := Typed.not_table_of_free hfree
      obtain ⟨h', hleaf⟩ := h.retype ht (Typed.update_table_iff hnt (by simp))
        (h.typed.table_agree hpage hnt hm)
      rw [hk]
      refine ⟨_, l, h', ?_, hleaf⟩
      intro p hp
      rw [heldAfter_of_ne (by omega)] at hp
      by_cases hpc : p = c
      · rw [hpc, update_same_kind]
        exact ⟨hpage, none, rfl⟩
      · rw [update_other_kind _ _ hpc]
        exact hh p (hp.resolve_left hpc)
  | kfree p s' hp hk =>
    obtain ⟨hpage, o, ho⟩ := hh p hp
    obtain ⟨s₁, hk', ht, hm⟩ := h.typed.kfree_frame hpage ho
    obtain rfl : s₁ = s' := Except.ok.inj (hk'.symm.trans hk)
    have hnt (ℓ : ℕ) (par : Option (ℕ × ℕ)) : τ p ≠ .table ℓ par := by simp [ho]
    obtain ⟨h', hleaf⟩ := h.retype ht (Typed.update_table_iff hnt (by simp))
      (h.typed.table_agree hpage hnt hm)
    refine ⟨_, _, h', ?_, hleaf⟩
    rintro q ⟨hq, hqp⟩
    rw [update_other_kind _ _ hqp]
    exact hh q hq
  | write m' hm =>
    -- what lies in no held page keeps its bytes
    have hout (p : ℕ) (hp : IsPage p) (ho : ∀ o, τ p ≠ .frame o) : AgreeOn m' s.mem p 4096 := by
      intro b hl hu
      apply hm
      rintro ⟨q, hq, hql, hqu⟩
      obtain ⟨hqp, o, hqo⟩ := hh q hq
      have hne : p ≠ q := by
        rintro rfl
        exact ho o hqo
      have hd := hp.disjoint hqp hne
      simp only [PAGE_SIZE] at hqu
      omega
    obtain ⟨h', hleaf⟩ := h.retype (h.typed.write_frames hout) (fun _ _ _ => Iff.rfl)
      (fun {p _ _} hp => hout p (h.typed.page hp) (by simp [hp]))
    exact ⟨τ, l, h', hh, hleaf⟩

theorem ReadLeaf_mkLeaf {pa perm : ℕ} (hpa : pa < 2^56) (hf : perm < 1024)
    (hr : perm &&& PTE_R ≠ 0) : ReadLeaf (mkLeaf pa perm) := by
  refine ⟨?_, ?_⟩
  · rw [mkLeaf_and pa hf (by decide) (by decide)]
    exact hr
  · have hlt := perm_or_lt hf
    rw [mkLeaf_eq, mkPte_eq pa _ hlt]
    omega

theorem HasRWX_of_read {perm : ℕ} (h : perm &&& PTE_R ≠ 0) : HasRWX perm := by
  intro h0
  apply h
  rw [Nat.or_assoc, Nat.and_or_distrib_left] at h0
  exact (Nat.or_eq_zero_iff.mp h0).1

theorem Spaces.mappages_user (h : Spaces k f s τ sm l) {p va size pa perm : ℕ} {r : ℤ} {s' : Phys}
    (hp : sm p) (hva : va+size ≤ 0x80000000) (hpa : pa < 2^64) (hf : perm < 1024) (hx : HasRWX perm)
    (hrun : mappages s p va size pa perm = .ok (r, s')) :
    ∃ τ' l' n, MapOut sm s τ l p (va/4096) n pa perm s' τ' l' ∧ Spaces k f s' τ' sm l' ∧
      4096*n < size+8192 ∧ va/4096+n ≤ 2^19 := by
  have hsize : 0 < size := by
    rw [mappages] at hrun
    split_ifs at hrun with h0
    omega
  rw [mappages_eq hsize (by omega)] at hrun
  obtain ⟨fuel, hfuel⟩ : ∃ fuel, 2^26 ≤ va/4096+fuel := ⟨2^26, Nat.le_add_left _ _⟩
  have hclear (w : ℕ) (h1 : va/4096 ≤ w) (h2 : va/4096 ≤ (va+size-1)/4096 → w ≤ (va+size-1)/4096) :
      Clear sm p 2 (vpnIndex 2 w) := by
    have := h2 (by omega)
    exact clear_of_index sm p (user_index (by omega))
  obtain ⟨τ', l', n, m, _, _, hres⟩ := h.typed.mappagesLoop_ok hf hx fuel hfuel (h.root_of_sm hp) hpa
    hclear hrun
  have hn : va/4096+n ≤ (va+size-1)/4096+1 := by
    rcases hres with ⟨_, hn, _⟩ | ⟨_, _, hn⟩
    · omega
    · have := hn (by omega)
      omega
  have hle : va/4096+n ≤ 2^19 := by omega
  exact ⟨τ', l', n, m, h.map hp hle m, by omega, hle⟩

end

section
variable {L : Layout} {f : ℕ → ℕ} {a b : TableState} {τ : Typing} {l : List ℕ}

theorem TableInv.step (h : TableInv f a τ l) (st : TableStep L a b) :
    ∃ τ' l', TableInv f b τ' l' := by
  cases st with
  | @setup e r K' call =>
    rcases envSetupVm_spaces h.spaces call with ⟨hk, ⟨hr, rfl⟩ | ⟨rfl, τ', l', _, o⟩⟩
    · -- no page for the root
      have ht : (fun p => a.tables p ∨ (r = 0 ∧ p = (a.kernel.envs e).env_pgtable)) = a.tables := by
        funext p
        exact propext ⟨fun hp => hp.resolve_right (fun hh => hr hh.1), Or.inl⟩
      exact ⟨τ, l, by rw [ht]; exact h.spaces, h.held, by rw [ht]; exact h.readable⟩
    · have ht : (fun p => a.tables p ∨ ((0 : ℤ) = 0 ∧ p = (K'.envs e).env_pgtable)) =
          fun p => a.tables p ∨ p = (K'.envs e).env_pgtable := by
        funext p
        simp only [true_and]
      rw [ht]
      refine ⟨τ', l', by rw [hk]; exact o.spaces, ?_, ?_⟩
      · intro p hp
        obtain ⟨hpage, x, hx⟩ := h.held p hp
        exact ⟨hpage, x, o.frames p x hx⟩
      · rintro p v (hp | rfl) hv hval
        · have hold := o.old p v hp (by omega) (user_index hv)
          rw [hold] at hval ⊢
          exact h.readable p v hp hv hval
        · rw [o.empty v hv] at hval
          exact absurd hval not_Valid_zero
  | @map p va size pa perm r s' table user phys flags readable call =>
    have hpage : PAGE_SIZE = 4096 := rfl
    obtain ⟨τ', l', n, m, hs, hn, hle⟩ := h.spaces.mappages_user table user (by omega) flags
      (HasRWX_of_read readable) call
    refine ⟨τ', l', hs, ?_, ?_⟩
    · -- mapping takes free pages only, so no held frame
      intro q hq
      obtain ⟨hqp, hqo⟩ := h.held q hq
      exact ⟨hqp, (m.grows.frame_iff q).mpr hqo⟩
    · intro q v hq hv hval
      have hroot := h.spaces.root_of_sm hq
      have hleaf := m.leaves hroot (clear_of_index _ q (user_index hv)) (by omega : v < 2^27)
      change ReadLeaf (leaf s'.mem q v)
      have hval' : Valid (leaf s'.mem q v) := hval
      rw [hleaf] at hval' ⊢
      split_ifs with hin
      · apply ReadLeaf_mkLeaf _ flags readable
        omega
      · rw [if_neg hin] at hval'
        exact h.readable q v hq hv hval'
  | @client b step =>
    obtain ⟨τ', l', hs, hh, hleaf⟩ := h.spaces.client h.held step
    refine ⟨τ', l', hs, hh, ?_⟩
    intro r v hr hv hval
    have he : leaf b.phys.mem r v = leaf a.kernel.phys.mem r v :=
      hleaf r v (h.spaces.root_of_sm hr) (clear_of_index _ r (user_index hv))
    change ReadLeaf (leaf b.phys.mem r v)
    have hval' : Valid (leaf b.phys.mem r v) := hval
    rw [he] at hval' ⊢
    exact h.readable r v hr hv hval'

theorem TableInv.run (h : TableInv f a τ l) (run : Relation.ReflTransGen (TableStep L) a b) :
    ∃ τ' l', TableInv f b τ' l' := by
  induction run with
  | refl => exact ⟨τ, l, h⟩
  | tail _ st ih =>
    obtain ⟨τ', l', h'⟩ := ih
    exact h'.step st

end

theorem Booted.tableInv {L : Layout} {K : Kernel} {fr : ℕ → ℕ} {τ : Typing} {l : List ℕ}
    (b : Booted L K fr τ l) : TableInv (kernelLeaf L.etext fr) (.start K) τ l where
  spaces := b.spaces
  held p hp := absurd hp (Set.notMem_empty p)
  readable _ _ hr := hr.elim

theorem kernelLeaf_readable {etext : ℕ} {fr : ℕ → ℕ} (hfr : ∀ j < NENV, IsPage (fr j))
    (hlo : 0x80000000 < etext) (hhi : etext < KERNEND) {v : ℕ} (hv : v < 2^26)
    (hval : Valid (kernelLeaf etext fr v)) : ReadLeaf (kernelLeaf etext fr v) := by
  have hn : NENV = 1024 := by decide
  have htop : envsTop = 66846718 := rfl
  rcases kernelLeaf_cases hlo hhi hv hval with ⟨h1, h2, h⟩ | ⟨_, _, h⟩ | ⟨_, _, h⟩ | ⟨_, h⟩
  · have hb := (hfr (envsTop-v) (by omega)).bounds
    rw [h]
    exact ReadLeaf_mkLeaf (by omega) (by decide) (by decide)
  · rw [h]
    exact ReadLeaf_mkLeaf (by omega) (by decide) (by decide)
  · rw [h]
    exact ReadLeaf_mkLeaf (by omega) (by decide) (by decide)
  · rw [h]
    exact ReadLeaf_mkLeaf (by omega) (by decide) (by decide)

/-! ### Kernel mappings in the env tables -/

section
variable {s : Phys} {k etext : ℕ} {fr : ℕ → ℕ} {τ : Typing} {sm : ℕ → Prop} {l : List ℕ}

theorem VPN_L_self (va : ℕ) : VPN_L 2 va = VPN_L 2 UVPT ↔ vpnIndex 2 (va/4096) = selfSlot := by
  rw [VPN_L_eq 2 va]
  rfl

/-- The kernel's leaves in the slot of the self map are the pages of envs, which the
root, taken as a table of level 1, does not have. -/
theorem Spaces.kernel_page_lost (h : Spaces k (kernelLeaf etext fr) s τ sm l)
    (hlo : 0x80000000 < etext) (hhi : etext < KERNEND) {u va : ℕ} (hu : sm u) (hva : va < MAXVA)
    (hval : Valid (kernelLeaf etext fr (va/4096))) (hs : VPN_L 2 va = VPN_L 2 UVPT) :
    leafAt s u va = none := by
  obtain ⟨hend, _, hn, htop, _, hd, hp⟩ := kernel_layout etext
  have hmax : MAXVA = 2^38 := by decide
  have hslot := (VPN_L_self va).mp hs
  rw [selfSlot_eq] at hslot
  have hslot' : va/4096/2^18%512 = 254 := hslot
  have hidx : 256 ≤ VPN_L 1 va := by
    rw [VPN_L_eq]
    simp only [vpnIndex, Nat.pow_one]
    rcases kernelLeaf_cases hlo hhi (by omega) hval with ⟨h1, h2, _⟩ | ⟨h1, h2, _⟩ | ⟨h1, h2, _⟩ | ⟨hdev, _⟩
    · omega
    · omega
    · omega
    · rw [DevicePage] at hdev
      omega
  have hlt : VPN_L 1 va < 512 := by
    rw [VPN_L_eq]
    exact vpnIndex_lt 1 _
  rw [h.typed.leafAt_selfSlot hu hva hs, if_neg]
  exact fun hh => h.high u _ (h.root_of_sm hu) hidx hlt hh.1

end

theorem SetupOut.kernel_leaf {k u : ℕ} {f : ℕ → ℕ} {s s' : Phys} {τ τ' : Typing} {sm : ℕ → Prop}
    {l l' : List ℕ} (o : SetupOut k f s τ sm l u s' τ' l') {va : ℕ} (hva : va < MAXVA)
    (hval : Valid (f (va/4096))) : leafAt s' k va = some (f (va/4096)) := by
  have hmax : MAXVA = 2^38 := by decide
  rw [o.spaces.typed.leafAt_eq o.spaces.kernel (o.spaces.clear_kernel _) hva,
    o.spaces.kernel_leaves _ (by omega), if_pos hval]

theorem SetupOut.env_leaf {k u : ℕ} {f : ℕ → ℕ} {s s' : Phys} {τ τ' : Typing} {sm : ℕ → Prop}
    {l l' : List ℕ} (o : SetupOut k f s τ sm l u s' τ' l') {va : ℕ} (hlo : 0x80000000 ≤ va)
    (hva : va < MAXVA) (hidx : vpnIndex 2 (va/4096) ≠ selfSlot) (hval : Valid (f (va/4096))) :
    leafAt s' u va = some (f (va/4096)) := by
  have hmax : MAXVA = 2^38 := by decide
  have hu : (fun r => sm r ∨ r = u) u := Or.inr rfl
  have hleaf := o.spaces.shared _ (va/4096) hu (by omega) (by omega) hidx
  rw [if_pos hval] at hleaf
  rw [o.spaces.typed.leafAt_eq (o.spaces.root_of_sm hu) (clear_of_index _ _ hidx) hva, hleaf,
    if_pos hval]

/-- In every run, the table that `env_setup_vm` makes has the kernel's mapping of a
page exactly when the page lies outside the slot of the self map. -/
theorem env_setup_vm_kernel_mappings {L : Layout} {m : Mem} {K K' : Kernel} {a : TableState}
    {e va pte : ℕ} (hboot : boot L m = .ok K)
    (run : Relation.ReflTransGen (TableStep L) (.start K) a)
    (hsetup : envSetupVm a.kernel e = .ok (0, K')) (hva : 0x80000000 ≤ va)
    (hk : leafAt K'.phys K'.kernel_pagetable va = some pte) :
    (∃ pte', leafAt K'.phys (K'.envs e).env_pgtable va = some pte' ∧ PTE2PA pte' = PTE2PA pte ∧
      PTE_FLAGS pte' = PTE_FLAGS pte) ↔ VPN_L 2 va ≠ VPN_L 2 UVPT := by
  have hmax : MAXVA = 2^38 := by decide
  obtain ⟨fr, τ, l, b⟩ := boot_booted hboot
  obtain ⟨τ₁, l₁, h₁⟩ := b.tableInv.run run
  rcases envSetupVm_spaces h₁.spaces hsetup with ⟨hkt, ⟨h0, _⟩ | ⟨_, τ', l', _, o⟩⟩
  · exact absurd rfl h0
  have hlt : va < MAXVA := by
    by_contra hge
    rw [leafAt_of_ge (by omega)] at hk
    cases hk
  rw [hkt, o.spaces.typed.leafAt_eq o.spaces.kernel (o.spaces.clear_kernel _) hlt,
    o.spaces.kernel_leaves _ (by omega)] at hk
  split_ifs at hk with hval
  obtain rfl := Option.some.inj hk
  have hu : (fun r => a.tables r ∨ r = (K'.envs e).env_pgtable) (K'.envs e).env_pgtable := Or.inr rfl
  by_cases hs : VPN_L 2 va = VPN_L 2 UVPT
  · have hnone := o.spaces.kernel_page_lost L.etext_gt L.etext_lt hu hlt hval hs
    rw [hnone]
    constructor
    · rintro ⟨pte', he, _⟩
      cases he
    · exact fun hne => absurd hs hne
  · have hidx : vpnIndex 2 (va/4096) ≠ selfSlot := fun hh => hs ((VPN_L_self va).mpr hh)
    exact ⟨fun _ => hs, fun _ => ⟨_, o.env_leaf hva hlt hidx hval, rfl, rfl⟩⟩

theorem kernelLeaf_textPage (fr : ℕ → ℕ) :
    kernelLeaf (default : Layout).etext fr (0x80000000/4096) = 0x2000000b := by
  rw [kernelLeaf_of_lt (by decide), ramLeaves_text (by decide) (by decide) (by decide)]
  decide

theorem env_setup_vm_text_page : ∃ K K' pte, boot default (fun _ => 0) = .ok K ∧
    envSetupVm K 0 = .ok (0, K') ∧ leafAt K'.phys K'.kernel_pagetable 0x80000000 = some pte ∧
    ∃ pte', leafAt K'.phys (K'.envs 0).env_pgtable 0x80000000 = some pte' ∧
      PTE2PA pte' = PTE2PA pte ∧ PTE_FLAGS pte' = PTE_FLAGS pte := by
  obtain ⟨K, fr, τ, l, hboot, b⟩ := boot_ok default (fun _ => 0)
  obtain ⟨K', τ', l', hsetup, o, _⟩ := b.envSetupVm_map 0
  have hkt := (envSetupVm_spaces b.spaces hsetup).1
  have hval : Valid (kernelLeaf (default : Layout).etext fr (0x80000000/4096)) := by
    rw [kernelLeaf_textPage]
    decide
  have hk := o.kernel_leaf (by decide) hval
  rw [← hkt] at hk
  exact ⟨K, K', _, hboot, hsetup, hk, (env_setup_vm_kernel_mappings hboot .refl hsetup le_rfl hk).mpr
    (by decide)⟩

/-- The page of `envs[0]` is mapped in the kernel table and lost in the env's. -/
theorem env_setup_vm_loses_envs : ∃ K K' pte, boot default (fun _ => 0) = .ok K ∧
    envSetupVm K 0 = .ok (0, K') ∧ 0x80000000 ≤ ENVS 0 ∧
    leafAt K'.phys K'.kernel_pagetable (ENVS 0) = some pte ∧
    leafAt K'.phys (K'.envs 0).env_pgtable (ENVS 0) = none := by
  obtain ⟨K, fr, τ, l, hboot, b⟩ := boot_ok default (fun _ => 0)
  obtain ⟨K', τ', l', hsetup, o, _⟩ := b.envSetupVm_map 0
  have hkt := (envSetupVm_spaces b.spaces hsetup).1
  have hpage : ENVS 0/4096 = envsTop := (ENVS_page (by decide)).1
  have hval : Valid (kernelLeaf (default : Layout).etext fr (ENVS 0/4096)) := by
    rw [hpage, kernelLeaf_envs (by decide)]
    exact Valid_mkLeaf _ (by decide)
  have hk := o.kernel_leaf (by decide) hval
  rw [← hkt] at hk
  refine ⟨K, K', _, hboot, hsetup, by decide, hk, ?_⟩
  exact o.spaces.kernel_page_lost (by decide) (by decide) (Or.inr rfl) (by decide) hval (by decide)

/-! ### The software walk and the hardware -/

/-- In every run, on every env table, the two walks agree on an address exactly when
it lies outside the slot of the self map or the root, taken as a table of level 1,
leads to no valid entry for it. -/
theorem env_walks_agree {L : Layout} {m : Mem} {K : Kernel} {a : TableState} {r va : ℕ}
    (hboot : boot L m = .ok K) (run : Relation.ReflTransGen (TableStep L) (.start K) a)
    (hr : a.tables r) (hva : va < MAXVA) :
    WalksAgree a.kernel.phys r va ↔ VPN_L 2 va ≠ VPN_L 2 UVPT ∨
      ¬(Valid (entry a.kernel.phys.mem r (VPN_L 1 va)) ∧
        Valid (entry a.kernel.phys.mem (PTE2PA (entry a.kernel.phys.mem r (VPN_L 1 va)))
          (VPN_L 0 va))) := by
  have hmax : MAXVA = 2^38 := by decide
  obtain ⟨fr, τ, l, b⟩ := boot_booted hboot
  obtain ⟨τ', l', h⟩ := b.tableInv.run run
  by_cases hs : VPN_L 2 va = VPN_L 2 UVPT
  · rw [h.spaces.typed.walksAgree_selfSlot hr hva hs]
    exact ⟨Or.inr, fun hh => hh.resolve_left (fun hne => hne hs)⟩
  · have hidx : vpnIndex 2 (va/4096) ≠ selfSlot := fun hh => hs ((VPN_L_self va).mpr hh)
    refine ⟨fun _ => Or.inl hs, fun _ => ?_⟩
    apply h.spaces.typed.walksAgree (h.spaces.root_of_sm hr) (clear_of_index _ r hidx) hva
    intro hval
    rcases Nat.lt_or_ge (va/4096) (2^19) with hlow | hhigh
    · exact h.readable r _ hr hlow hval
    · have hleaf := h.spaces.shared r _ hr hhigh (by omega) hidx
      rw [hleaf] at hval ⊢
      split_ifs at hval ⊢ with hf
      · exact kernelLeaf_readable b.frames L.etext_gt L.etext_lt (by omega) hf
      · exact absurd hval not_Valid_zero

/-- Both find the first page of the text, readable and executable. -/
theorem env_walks_agree_text : ∃ K a r e, boot default (fun _ => 0) = .ok K ∧
    Relation.ReflTransGen (TableStep default) (.start K) a ∧ a.tables r ∧
    leafAt a.kernel.phys r 0x80000000 = some 0x2000000b ∧
    sv39 a.kernel.phys.mem r 0x80000000 = some (0, e) ∧ SameMapping 0x2000000b e := by
  obtain ⟨K, fr, τ, l, hboot, b⟩ := boot_ok default (fun _ => 0)
  obtain ⟨K', τ', l', hsetup, o, _⟩ := b.envSetupVm_map 0
  have hval : Valid (kernelLeaf (default : Layout).etext fr (0x80000000/4096)) := by
    rw [kernelLeaf_textPage]
    decide
  have hleaf := o.env_leaf le_rfl (by decide) (by decide) hval
  rw [kernelLeaf_textPage] at hleaf
  have run : Relation.ReflTransGen (TableStep default) (.start K) _ := .single (.setup 0 hsetup)
  have agree := (env_walks_agree hboot run (Or.inr ⟨rfl, rfl⟩)
    (by decide : 0x80000000 < MAXVA)).mpr (Or.inl (by decide))
  obtain ⟨e, hsv, hsame⟩ := agree.1 _ hleaf
  exact ⟨K, _, _, e, hboot, run, Or.inr ⟨rfl, rfl⟩, hleaf, hsv, hsame⟩

/-- The page whose three indices are the slot of the self map: the software finds the
root, the hardware faults. -/
theorem env_walks_disagree : ∃ K K', boot default (fun _ => 0) = .ok K ∧
    envSetupVm K 0 = .ok (0, K') ∧ 254*2^30+254*2^21+254*2^12 < MAXVA ∧
    ¬WalksAgree K'.phys (K'.envs 0).env_pgtable (254*2^30+254*2^21+254*2^12) := by
  obtain ⟨K, fr, τ, l, hboot, b⟩ := boot_ok default (fun _ => 0)
  obtain ⟨K', τ', l', hsetup, o, _⟩ := b.envSetupVm_map 0
  have hu : (fun r => noSelfMap r ∨ r = (K'.envs 0).env_pgtable) (K'.envs 0).env_pgtable :=
    Or.inr rfl
  have h1 : VPN_L 1 (254*2^30+254*2^21+254*2^12) = selfSlot := by decide
  have h0 : VPN_L 0 (254*2^30+254*2^21+254*2^12) = selfSlot := by decide
  obtain ⟨hroot, hen⟩ := o.spaces.typed.selfMap hu
  refine ⟨K, K', hboot, hsetup, by decide, ?_⟩
  rw [o.spaces.typed.walksAgree_selfSlot hu (by decide) (by decide), h1, h0, hen,
    PTE2PA_selfPte (o.spaces.typed.page hroot), hen]
  exact fun hh => hh ⟨Valid_selfPte _, Valid_selfPte _⟩

end RiscvMos
