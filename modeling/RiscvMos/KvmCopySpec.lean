import RiscvMos.UvmunmapSpec

/-! What `kvm_copy_to_user_pagetable` does on typed memory: it copies every valid
leaf of the kernel table from 0x80000000 on. -/
namespace RiscvMos
open ByteMem LinkChain Function

variable {s : Phys} {τ : Typing} {sm : ℕ → Prop} {l : List ℕ}

theorem kvmCopyLoop_eq (s : Phys) (k u i : ℕ) :
    kvmCopyLoop s k u i =
      if i < MAXVA then walk s k i false >>= fun x =>
        if x.1 = 0 then kvmCopyLoop x.2 k u (i+PAGE_SIZE)
        else if ¬Valid (load64 x.2.mem x.1) then kvmCopyLoop x.2 k u (i+PAGE_SIZE)
        else mappages x.2 u i PAGE_SIZE (PTE2PA (load64 x.2.mem x.1))
            (PTE_FLAGS (load64 x.2.mem x.1)) >>= fun y =>
          if y.1 ≠ 0 then
            uvmunmap y.2 u 0x80000000 (i/PAGE_SIZE) false >>= fun z => .ok (-1, z.2)
          else kvmCopyLoop y.2 k u (i+PAGE_SIZE)
      else .ok (0, s) := by
  rw [kvmCopyLoop]

theorem mkLeaf_self {e : ℕ} (hval : Valid e) (he : e < 2^62) :
    mkLeaf (PTE2PA e%2^64) (PTE_FLAGS e) = e := by
  have hv := (Valid_iff e).mp hval
  have hbit : PTE_FLAGS e ||| PTE_V = PTE_FLAGS e := by
    rw [PTE_FLAGS_eq]
    apply Nat.eq_of_testBit_eq
    intro i
    rw [Nat.testBit_or]
    cases i with
    | zero => simp [PTE_V, Nat.testBit_zero, hv]
    | succ i => simp [PTE_V, Nat.testBit_succ]
  rw [mkLeaf_eq, hbit, mkPte_eq _ _ (by rw [PTE_FLAGS_eq]; omega), PTE2PA_eq e he, PTE_FLAGS_eq]
  omega

theorem HasRWX_flags {e : ℕ} (h : HasRWX e) : HasRWX (PTE_FLAGS e) := by
  rw [HasRWX, and_flags e _ (by decide)] at h
  exact h

/-- The kernel leaves from page `a` up to page `b` were copied to the root `u`, and
no other leaf changed. -/
structure CopyOut (sm : ℕ → Prop) (s : Phys) (τ : Typing) (l : List ℕ) (k u a b : ℕ)
    (s' : Phys) (τ' : Typing) (l' : List ℕ) : Prop where
  typed : Typed s' τ' sm l'
  grows : Grows s τ s' τ'
  suffix : l' <:+ l
  leaves : ∀ {r' w}, τ r' = .table 2 none → Clear sm r' 2 (vpnIndex 2 w) → w < 2^27 →
    leaf s'.mem r' w = if r' = u ∧ a ≤ w ∧ w < b ∧ Valid (leaf s.mem k w)
      then leaf s.mem k w else leaf s.mem r' w

theorem CopyOut.skip {k u a b : ℕ} {s' : Phys} {τ' : Typing} {l' : List ℕ}
    (c : CopyOut sm s τ l k u (a+1) b s' τ' l') (hna : ¬Valid (leaf s.mem k a)) :
    CopyOut sm s τ l k u a b s' τ' l' := by
  refine ⟨c.typed, c.grows, c.suffix, ?_⟩
  intro r' w hr' hc hw
  rw [c.leaves hr' hc hw]
  apply if_congr _ rfl rfl
  constructor
  · rintro ⟨hu, h1, h2, hval⟩
    exact ⟨hu, by omega, h2, hval⟩
  · rintro ⟨hu, h1, h2, hval⟩
    have hwa : w ≠ a := fun he => hna (he ▸ hval)
    exact ⟨hu, by omega, h2, hval⟩

theorem CopyOut.cons {k u a b : ℕ} {s₁ s' : Phys} {τ₁ τ' : Typing} {l₁ l' : List ℕ}
    (h : Typed s τ sm l) (hk : τ k = .table 2 none) (hck : ∀ i, Clear sm k 2 i)
    (ha : a < b) (hval : Valid (leaf s.mem k a))
    (m : MapOut sm s τ l u a 1 (PTE2PA (leaf s.mem k a)) (PTE_FLAGS (leaf s.mem k a)) s₁ τ₁ l₁)
    (c : CopyOut sm s₁ τ₁ l₁ k u (a+1) b s' τ' l') : CopyOut sm s τ l k u a b s' τ' l' := by
  refine ⟨c.typed, m.grows.trans c.grows, c.suffix.trans m.suffix, ?_⟩
  intro r' w hr' hc hw
  rw [c.leaves (m.grows.table hr') hc hw, m.leaves hr' hc hw]
  by_cases hwa : w = a
  · rw [if_neg (by omega), hwa]
    by_cases hu : r' = u
    · rw [if_pos ⟨hu, le_rfl, by omega⟩, if_pos ⟨hu, le_rfl, ha, hval⟩, Nat.sub_self,
        Nat.mul_zero, Nat.add_zero, mkLeaf_self hval (h.leaf_valid hk (hck _) hval).1]
    · rw [if_neg (fun hh => hu hh.1), if_neg (fun hh => hu hh.1)]
  · have hout : ¬(r' = u ∧ a ≤ w ∧ w < a+1) := by omega
    rw [if_neg hout]
    by_cases hin : r' = u ∧ a ≤ w ∧ w < b
    · have hkw : leaf s₁.mem k w = leaf s.mem k w := by
        rw [m.leaves hk (hck _) hw, if_neg (by omega)]
      have hl : (r' = u ∧ a+1 ≤ w ∧ w < b ∧ Valid (leaf s.mem k w)) ↔
          (r' = u ∧ a ≤ w ∧ w < b ∧ Valid (leaf s.mem k w)) :=
        ⟨fun hh => ⟨hh.1, by omega, hh.2.2⟩, fun hh => ⟨hh.1, by omega, hh.2.2⟩⟩
      rw [hkw, if_congr hl rfl rfl]
    · rw [if_neg (fun hh => hin ⟨hh.1, by omega, hh.2.2.1⟩),
        if_neg (fun hh => hin ⟨hh.1, hh.2.1, hh.2.2.1⟩)]

theorem CopyOut.stay (h : Typed s τ sm l) (k u a : ℕ) : CopyOut sm s τ l k u a a s τ l := by
  refine ⟨h, Grows.refl s τ, List.suffix_rfl, ?_⟩
  intro r' w _ _ _
  rw [if_neg (by omega)]

theorem Typed.kvmCopy_turn (h : Typed s τ sm l) {k u v : ℕ} (hk : τ k = .table 2 none)
    (hck : Clear sm k 2 (vpnIndex 2 v)) (hv : v < 2^26) :
    kvmCopyLoop s k u (v*4096) =
      if Valid (leaf s.mem k v) then
        mappages s u (v*4096) PAGE_SIZE (PTE2PA (leaf s.mem k v))
            (PTE_FLAGS (leaf s.mem k v)) >>= fun y =>
          if y.1 ≠ 0 then uvmunmap y.2 u 0x80000000 v false >>= fun z => .ok (-1, z.2)
          else kvmCopyLoop y.2 k u ((v+1)*4096)
      else kvmCopyLoop s k u ((v+1)*4096) := by
  have hmax := page_lt_MAXVA hv
  have hnext : v*4096+PAGE_SIZE = (v+1)*4096 := by
    simp only [PAGE_SIZE]
    omega
  have hdiv : v*4096/PAGE_SIZE = v := by
    simp only [PAGE_SIZE]
    omega
  rw [kvmCopyLoop_eq, if_pos hmax, hnext, hdiv]
  rcases h.walk_cases hk hck hv with ⟨hw, h0⟩ | ⟨q, par, hw, _, _, hne, hload⟩
  · rw [hw, ok_bind, if_pos rfl, h0, if_neg not_Valid_zero]
  · rw [hw, ok_bind]
    dsimp only
    rw [if_neg hne, hload, ite_not]

theorem PTE2PA_lt (pte : ℕ) : PTE2PA pte < 2^64 := Nat.mod_lt _ (by decide)

theorem PTE_FLAGS_lt (pte : ℕ) : PTE_FLAGS pte < 1024 := by
  rw [PTE_FLAGS_eq]
  omega

/-- The loop returns only when it has copied every kernel page: where it runs out
of memory, its clean-up panics. -/
theorem Typed.kvmCopyLoop_ok {k u : ℕ} (hck : ∀ i, Clear sm k 2 i)
    (hcu : ∀ i, Clear sm u 2 i) (n : ℕ) :
    ∀ {s : Phys} {τ : Typing} {l : List ℕ} {v : ℕ} {res : ℤ} {s' : Phys},
    Typed s τ sm l → v+n = 2^26 → 2^19 ≤ v → τ k = .table 2 none → τ u = .table 2 none →
    kvmCopyLoop s k u (v*4096) = .ok (res, s') →
    ∃ τ' l', res = 0 ∧ CopyOut sm s τ l k u v (2^26) s' τ' l' := by
  induction n with
  | zero =>
    intro s τ l v res s' h hn _ hk hu hrun
    have hv : v = 2^26 := by omega
    have hmax : ¬v*4096 < MAXVA := by
      rw [hv]
      decide
    rw [kvmCopyLoop_eq, if_neg hmax] at hrun
    cases hrun
    rw [hv]
    exact ⟨τ, l, rfl, CopyOut.stay h k u _⟩
  | succ n ih =>
    intro s τ l v res s' h hn hlow hk hu hrun
    rw [h.kvmCopy_turn hk (hck _) (by omega)] at hrun
    by_cases hval : Valid (leaf s.mem k v)
    case neg =>
      rw [if_neg hval] at hrun
      obtain ⟨τ', l', hres, c⟩ := ih h (by omega) (by omega) hk hu hrun
      exact ⟨τ', l', hres, c.skip hval⟩
    rw [if_pos hval] at hrun
    obtain ⟨⟨r, s₁⟩, hmap, hrun⟩ := bind_eq_ok.mp hrun
    obtain ⟨hlt, hrwx⟩ := h.leaf_valid hk (hck _) hval
    obtain ⟨τ₁, l₁, _, ⟨hr, _, m⟩ | ⟨hr, m⟩⟩ := h.mappages_page_ok hu (hcu _) (by omega)
      (PTE2PA_lt _) (PTE_FLAGS_lt _) (HasRWX_flags hrwx) hmap
    · rw [if_neg (by simp [hr])] at hrun
      obtain ⟨τ', l', hres, c⟩ := ih m.typed (by omega) (by omega) (m.grows.table hk)
        (m.grows.table hu) hrun
      exact ⟨τ', l', hres, c.cons h hk hck (by omega) hval m⟩
    · rw [if_pos (by simp [hr])] at hrun
      obtain ⟨⟨x, s₂⟩, hun, _⟩ := bind_eq_ok.mp hrun
      have hbase : (0x80000000 : ℕ) = 2^19*4096 := by decide
      rw [hbase] at hun
      rcases m.typed.uvmunmap_ok (m.grows.table hu) (hcu _) (by decide) (by simp) hun with
        ⟨h1, _⟩ | ⟨_, h2, _⟩
      · omega
      · omega

theorem page_top {v : ℕ} (hv : v < 2^26) : v*4096+4096 ≤ 2^64 := by omega

theorem Typed.kvmCopyLoop_map {k u N : ℕ} {G : Finset ℕ} (hck : ∀ i, Clear sm k 2 i)
    (hcu : ∀ i, Clear sm u 2 i) (hku : k ≠ u) (hN : 2*G.card < N) (n : ℕ) :
    ∀ {s : Phys} {τ : Typing} {l : List ℕ} {v : ℕ},
    Typed s τ sm l → v+n = 2^26 → τ k = .table 2 none → τ u = .table 2 none →
    (∀ w, v ≤ w → w < 2^26 → Valid (leaf s.mem k w) → w/512 ∈ G) →
    (∀ w, v ≤ w → w < 2^26 → ¬Valid (leaf s.mem u w)) → Budget s.mem u l N G →
    ∃ s' τ' l', kvmCopyLoop s k u (v*4096) = .ok (0, s') ∧
      CopyOut sm s τ l k u v (2^26) s' τ' l' ∧ Budget s'.mem u l' N G := by
  induction n with
  | zero =>
    intro s τ l v h hn _ _ _ _ hb
    have hv : v = 2^26 := by omega
    have hmax : ¬v*4096 < MAXVA := by
      rw [hv]
      decide
    refine ⟨s, τ, l, ?_, ?_, hb⟩
    · rw [kvmCopyLoop_eq, if_neg hmax]
    · rw [hv]
      exact CopyOut.stay h k u _
  | succ n ih =>
    intro s τ l v h hn hk hu hreg hun hb
    have hv : v < 2^26 := by omega
    rw [h.kvmCopy_turn hk (hck _) hv]
    by_cases hval : Valid (leaf s.mem k v)
    case neg =>
      rw [if_neg hval]
      -- the kernel's table has no leaf here
      obtain ⟨s', τ', l', hrun, c, hb'⟩ := ih (v := v+1) h (by omega) hk hu
        (fun w h1 h2 => hreg w (by omega) h2) (fun w h1 h2 => hun w (by omega) h2) hb
      exact ⟨s', τ', l', hrun, c.skip hval, hb'⟩
    have hrwx := (h.leaf_valid hk (hck _) hval).2
    have hone {w : ℕ} (h1 : v ≤ w) (h2 : w ≤ v) : w = v := Nat.le_antisymm h2 h1
    obtain ⟨s₁, τ₁, l₁, hmap, m, hb₁⟩ := Typed.mappagesLoop_map (PTE_FLAGS_lt _)
      (HasRWX_flags hrwx) hv hN (fun x _ => hcu _) 0 rfl h hu (PTE2PA_lt (leaf s.mem k v))
      (fun w h1 h2 => by rw [hone h1 h2]; exact hreg v le_rfl hv hval)
      (fun w h1 h2 => by rw [hone h1 h2]; exact hun v le_rfl hv) hb
    -- the kernel's leaves and the empty rest of the user table are as before
    have hkl (w : ℕ) (hw : w < 2^26) : leaf s₁.mem k w = leaf s.mem k w := by
      rw [m.leaves hk (hck _) (by omega), if_neg (fun hh => hku hh.1)]
    have hul (w : ℕ) (h1 : v+1 ≤ w) (hw : w < 2^26) : leaf s₁.mem u w = leaf s.mem u w := by
      rw [m.leaves hu (hcu _) (by omega), if_neg (by omega)]
    obtain ⟨s', τ', l', hrun, c, hb'⟩ := ih (v := v+1) m.typed (by omega) (m.grows.table hk)
      (m.grows.table hu) (fun w h1 h2 => by rw [hkl w h2]; exact hreg w (by omega) h2)
      (fun w h1 h2 => by rw [hul w h1 h2]; exact hun w (by omega) h2) hb₁
    refine ⟨s', τ', l', ?_, c.cons h hk hck hv hval m, hb'⟩
    rw [if_pos hval, mappages_page_eq (page_top hv), hmap, ok_bind, if_neg (fun hne => hne rfl)]
    exact hrun

end RiscvMos
