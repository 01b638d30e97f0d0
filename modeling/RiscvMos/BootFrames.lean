import RiscvMos.BootSpaces

/-! The pages that boot takes: the tables of the kernel and a frame for each env, and no others. -/
namespace RiscvMos
open ByteMem LinkChain Function

theorem Grows.frame_eq_iff {s s' : Phys} {τ τ' : Typing} (g : Grows s τ s' τ') (p : ℕ)
    (o : Option (ℕ × ℕ)) : τ' p = .frame o ↔ τ p = .frame o := by
  by_cases hf : τ p = .free
  · rcases g.fresh p hf with h' | ⟨ℓ, pi, h'⟩
    · rw [hf, h']
    · rw [hf, h']
      exact iff_of_false PageKind.noConfusion PageKind.noConfusion
  · rw [g.kinds p hf]

section
variable {s s' : Phys} {τ : Typing} {l : List ℕ} {k : ℕ}

theorem Typed.kvmmap_ok (h : Typed s τ noSelfMap l) (hk : τ k = .table 2 none)
    {va pa size perm : ℕ} (h0 : 0 < size) (hlt : va+size ≤ 2^64) (hpa : pa < 2^64)
    (hf : perm < 1024) (hx : HasRWX perm) (hrun : kvmmap s k va pa size perm = .ok s') :
    ∃ τ' l' n, MapOut noSelfMap s τ l k (va/4096) n pa perm s' τ' l' ∧
      va/4096+n = (va+size-1)/4096+1 := by
  rw [kvmmap, mappages_eq h0 hlt] at hrun
  obtain ⟨⟨res, s₁⟩, hmap, hres⟩ := bind_eq_ok.mp hrun
  dsimp only at hres
  obtain ⟨j, hj⟩ : ∃ j, 2^26 ≤ va/4096+j := ⟨2^26, Nat.le_add_left _ _⟩
  obtain ⟨τ', l', n, m, _, _, hcase⟩ :=
    h.mappagesLoop_ok hf hx j hj hk hpa (fun w _ _ => clear_noSelfMap k 2 _) hmap
  -- Any other result is a panic.
  by_cases hr : res = 0
  · rw [if_neg (not_not.mpr hr)] at hres
    cases hres
    rcases hcase with ⟨_, hend, _⟩ | ⟨h1, _⟩
    · exact ⟨τ', l', n, m, hend⟩
    · rw [hr] at h1
      cases h1
  · rw [if_pos hr] at hres
    cases hres

/-- What `env_create_envs` has done from env `e` on. -/
structure EnvsMapped (s : Phys) (τ : Typing) (k e : ℕ) (s' : Phys) (τ' : Typing) (l' : List ℕ) :
    Prop where
  typed : Typed s' τ' noSelfMap l'
  roots : ∀ p, τ' p = .table 2 none ↔ τ p = .table 2 none
  leaves : ∀ w < 2^26, envsTop-e < w → leaf s'.mem k w = leaf s.mem k w
  frames : ∀ p o, τ' p = .frame o ↔ τ p = .frame o ∨
    o = none ∧ ∃ j, e ≤ j ∧ j < NENV ∧ PTE2PA (leaf s'.mem k (envsTop-j)) = p

theorem EnvsMapped.cons {e c : ℕ} {s₁ s₂ : Phys} {τ₂ τ' : Typing} {l₁ l₂ l' : List ℕ}
    (he : e < NENV) (hc : IsPage c) (hfree : τ c = .free)
    (htable : ∀ ℓ par, τ c ≠ .table ℓ par) (hk : τ k = .table 2 none)
    (hleaf : ∀ w, leaf s₁.mem k w = leaf s.mem k w)
    (m : MapOut noSelfMap s₁ (update τ c (.frame none)) l₁ k (envsTop-e) 1 c (PTE_R ||| PTE_W)
      s₂ τ₂ l₂) (h : EnvsMapped s₂ τ₂ k (e+1) s' τ' l') : EnvsMapped s τ k e s' τ' l' := by
  have htop : envsTop = 66846718 := rfl
  have hn : NENV = 1024 := by decide
  have hb := hc.bounds
  have hk₁ : update τ c (.frame none) k = .table 2 none := by
    rw [update_other_kind τ _ (Typed.ne_of_free hfree hk), hk]
  have hmap (w : ℕ) (hw : w < 2^26) := m.leaves hk₁ (clear_noSelfMap k 2 _) (w := w) (by omega)
  -- The leaf of env `e` is not written again.
  have hown : PTE2PA (leaf s'.mem k (envsTop-e)) = c := by
    rw [h.leaves _ (by omega) (by omega), hmap _ (by omega), if_pos (by omega), Nat.sub_self,
      Nat.mul_zero, Nat.add_zero, PTE2PA_mkLeaf (Nat.mod_lt _ (by decide)) (by decide)]
    omega
  constructor
  case typed => exact h.typed
  case roots =>
    intro p
    rw [h.roots, m.grows.root_iff]
    exact Typed.update_table_iff htable (by simp) p 2 none
  case leaves =>
    intro w hw hew
    rw [h.leaves w hw (by omega), hmap w hw, if_neg (by omega), hleaf]
  case frames =>
    intro p o
    -- The one new frame before the others is `c`.
    have hold : update τ c (.frame none) p = .frame o ↔ τ p = .frame o ∨ o = none ∧ p = c := by
      by_cases hpc : p = c
      · rw [hpc, update_same_kind, hfree]
        constructor
        · intro ho
          exact Or.inr ⟨(PageKind.frame.inj ho).symm, rfl⟩
        · rintro (ho | ⟨rfl, _⟩)
          · cases ho
          · rfl
      · rw [update_other_kind τ _ hpc]
        exact (or_iff_left fun hh => hpc hh.2).symm
    rw [h.frames, m.grows.frame_eq_iff, hold, or_assoc, ← and_or_left]
    apply or_congr_right (and_congr_right fun _ => ?_)
    constructor
    · rintro (rfl | ⟨j, hj, hlt, hp⟩)
      · exact ⟨e, le_rfl, he, hown⟩
      · exact ⟨j, by omega, hlt, hp⟩
    · rintro ⟨j, hj, hlt, hp⟩
      by_cases hje : j = e
      · rw [hje, hown] at hp
        exact Or.inl hp.symm
      · exact Or.inr ⟨j, by omega, hlt, hp⟩

/-- The tables of `k` and free pages. -/
structure TablesOnly (s : Phys) (k : ℕ) (τ : Typing) (l : List ℕ) : Prop where
  typed : Typed s τ noSelfMap l
  roots : ∀ p, τ p = .table 2 none ↔ p = k
  frames : ∀ p o, τ p ≠ .frame o

theorem TablesOnly.kvmmap (h : TablesOnly s k τ l) {va pa size perm : ℕ} (h0 : 0 < size)
    (hlt : va+size ≤ 2^64) (hpa : pa < 2^64) (hf : perm < 1024) (hx : HasRWX perm)
    (hrun : kvmmap s k va pa size perm = .ok s') : ∃ τ' l', TablesOnly s' k τ' l' := by
  obtain ⟨τ', l', _, m, _⟩ := h.typed.kvmmap_ok ((h.roots k).mpr rfl) h0 hlt hpa hf hx hrun
  refine ⟨τ', l', m.typed, fun p => ?_, fun p o ho => ?_⟩
  · rw [m.grows.root_iff, h.roots]
  · exact h.frames p o ((m.grows.frame_eq_iff p o).mp ho)

end

end RiscvMos
