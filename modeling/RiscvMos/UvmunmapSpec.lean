import RiscvMos.MappagesSpec

/-! What `uvmunmap` has done on typed memory when it returns. -/
namespace RiscvMos
open ByteMem LinkChain Function

variable {s : Phys} {τ : Typing} {sm : ℕ → Prop} {l : List ℕ}

theorem walk_noalloc_eq (s : Phys) (r : ℕ) {va : ℕ} (hva : va < MAXVA) :
    walk s r va false =
      .ok ((descend s.mem 2 r (va/4096)).elim 0 (fun q => q+8*vpnIndex 0 (va/4096)), s) :=
  walk_eq_ok.mpr ⟨hva, walkLoop_noalloc s va 2 r⟩

theorem page_lt_MAXVA {v : ℕ} (hv : v < 2^26) : v*4096 < MAXVA := by
  have hmax : MAXVA = 2^38 := by decide
  omega

theorem Typed.walk_cases (h : Typed s τ sm l) {r v : ℕ} (hr : τ r = .table 2 none)
    (hc : Clear sm r 2 (vpnIndex 2 v)) (hv : v < 2^26) :
    (walk s r (v*4096) false = .ok (0, s) ∧ leaf s.mem r v = 0) ∨
    ∃ q par, walk s r (v*4096) false = .ok (q+8*vpnIndex 0 v, s) ∧
      descend s.mem 2 r v = some q ∧ τ q = .table 0 par ∧ q+8*vpnIndex 0 v ≠ 0 ∧
      load64 s.mem (q+8*vpnIndex 0 v) = leaf s.mem r v := by
  rw [walk_noalloc_eq s r (page_lt_MAXVA hv), Nat.mul_div_cancel v (by decide)]
  cases hd : descend s.mem 2 r v with
  | none => exact Or.inl ⟨rfl, by rw [leaf, leafFrom, hd]⟩
  | some q =>
    obtain ⟨par, hq⟩ := h.descend_typed hr hc hd
    have hb := (h.page hq).bounds
    refine Or.inr ⟨q, par, rfl, rfl, hq, by omega, ?_⟩
    rw [leaf, leafFrom, hd]
    rfl

/-- The valid leaf that `walk(pagetable, va, 0)` finds. -/
def leafAt (s : Phys) (pagetable va : ℕ) : Option ℕ :=
  match walk s pagetable va false with
  | .ok (pte, s) =>
    if pte ≠ 0 ∧ Valid (load64 s.mem pte) then some (load64 s.mem pte) else none
  | .error _ => none

theorem leafAt_of_ge {r va : ℕ} (hva : MAXVA ≤ va) : leafAt s r va = none := by
  rw [leafAt, walk, if_pos hva]

theorem Typed.leafAt_eq (h : Typed s τ sm l) {r va : ℕ} (hr : τ r = .table 2 none)
    (hc : Clear sm r 2 (vpnIndex 2 (va/4096))) (hva : va < MAXVA) :
    leafAt s r va = if Valid (leaf s.mem r (va/4096)) then some (leaf s.mem r (va/4096))
      else none := by
  rw [leafAt, walk_noalloc_eq s r hva, leaf, leafFrom]
  cases hd : descend s.mem 2 r (va/4096) with
  | none => simp
  | some q =>
    obtain ⟨par, hq⟩ := h.descend_typed hr hc hd
    have hb := (h.page hq).bounds
    have hne : q+8*vpnIndex 0 (va/4096) ≠ 0 := by omega
    simp only [Option.elim_some, hne, ne_eq, not_false_eq_true, true_and]
    rfl

theorem Typed.leaf_valid (h : Typed s τ sm l) {r v : ℕ} (hr : τ r = .table 2 none)
    (hc : Clear sm r 2 (vpnIndex 2 v)) (hval : Valid (leaf s.mem r v)) :
    leaf s.mem r v < 2^62 ∧ HasRWX (leaf s.mem r v) := by
  unfold leaf leafFrom at hval ⊢
  cases hd : descend s.mem 2 r v with
  | none =>
    rw [hd] at hval
    exact absurd hval not_Valid_zero
  | some q =>
    rw [hd] at hval
    obtain ⟨par, hq⟩ := h.descend_typed hr hc hd
    exact h.leafOk hq (vpnIndex_lt 0 v) hval

theorem uvmunmapLoop_eq (s : Phys) (r va : ℕ) (do_free : Bool) (a stop : ℕ) :
    uvmunmapLoop s r va do_free a stop =
      if a < stop then walk s r va false >>= fun x =>
        if x.1 = 0 ∨ ¬Valid (load64 x.2.mem x.1) then .error (.panic "uvmunmap: not mapped")
        else if PTE_FLAGS (load64 x.2.mem x.1) = PTE_V then
          .error (.panic "uvmunmap: not leaf")
        else (if do_free then kfree x.2 (PTE2PA (load64 x.2.mem x.1)) else .ok x.2) >>=
          fun s => uvmunmapLoop ⟨store64 s.mem x.1 0, s.freelist⟩ r va do_free
            (a+PAGE_SIZE) stop
      else .ok s := by
  rw [uvmunmapLoop]

theorem Typed.uvmunmapLoop_unmapped (h : Typed s τ sm l) (do_free : Bool) {r v a stop : ℕ}
    (hr : τ r = .table 2 none) (hc : Clear sm r 2 (vpnIndex 2 v)) (hv : v < 2^26)
    (hu : ¬Valid (leaf s.mem r v)) (ha : a < stop) :
    uvmunmapLoop s r (v*4096) do_free a stop = .error (.panic "uvmunmap: not mapped") := by
  rw [uvmunmapLoop_eq, if_pos ha]
  rcases h.walk_cases hr hc hv with ⟨hw, _⟩ | ⟨q, par, hw, _, _, _, hload⟩
  · rw [hw, ok_bind, if_pos (Or.inl rfl)]
  · rw [hw, ok_bind, if_pos (Or.inr (by rwa [hload]))]

/-- The kinds after the leaf frame `p` was freed or not. -/
def freedTyping (τ : Typing) (do_free : Bool) (p : ℕ) : Typing :=
  if do_free then update τ p .free else τ

theorem freedTyping_table {do_free : Bool} {p : ℕ}
    (hp : do_free = true → ∃ o, τ p = .frame o) (q ℓ : ℕ) (par : Option (ℕ × ℕ)) :
    freedTyping τ do_free p q = .table ℓ par ↔ τ q = .table ℓ par := by
  cases do_free with
  | false => exact Iff.rfl
  | true =>
    obtain ⟨o, ho⟩ := hp rfl
    exact Typed.update_table_iff (fun _ _ => by simp [ho]) (by simp) q ℓ par

/-- The optional `kfree` of `uvmunmap`. -/
theorem Typed.free_frame (h : Typed s τ sm l) {do_free : Bool} {p : ℕ} {s₁ : Phys}
    (hp : do_free = true → IsPage p ∧ ∃ o, τ p = .frame o)
    (hk : (if do_free then kfree s p else .ok s) = .ok s₁) :
    ∃ l', Typed s₁ (freedTyping τ do_free p) sm l' ∧
      ∀ {q ℓ par}, τ q = .table ℓ par → AgreeOn s₁.mem s.mem q 4096 := by
  cases do_free with
  | false =>
    cases hk
    exact ⟨l, h, fun _ _ _ _ => rfl⟩
  | true =>
    obtain ⟨hpage, o, ho⟩ := hp rfl
    obtain ⟨s', hk', h', hm⟩ := h.kfree_frame hpage ho
    have he : s₁ = s' := by
      rw [if_pos rfl, hk'] at hk
      exact (Except.ok.inj hk).symm
    rw [he]
    exact ⟨p :: l, h', fun hq => h.table_agree hpage (fun _ _ => by simp [ho]) hm hq⟩

theorem Typed.unmap_leaf (h : Typed s τ sm l) {r v q : ℕ} {par : Option (ℕ × ℕ)}
    {do_free : Bool} {p : ℕ} {s₁ : Phys} (hr : τ r = .table 2 none)
    (hc : Clear sm r 2 (vpnIndex 2 v)) (hv : v < 2^27) (hd : descend s.mem 2 r v = some q)
    (hq : τ q = .table 0 par) (hp : do_free = true → IsPage p ∧ ∃ o, τ p = .frame o)
    (hk : (if do_free then kfree s p else .ok s) = .ok s₁) :
    (∃ l', Typed ⟨store64 s₁.mem (q+8*vpnIndex 0 v) 0, s₁.freelist⟩
      (freedTyping τ do_free p) sm l') ∧
    ∀ {r' w}, τ r' = .table 2 none → Clear sm r' 2 (vpnIndex 2 w) → w < 2^27 →
      leaf (store64 s₁.mem (q+8*vpnIndex 0 v) 0) r' w =
        if r' = r ∧ w = v then 0 else leaf s.mem r' w := by
  obtain ⟨l', h₁, hm⟩ := h.free_frame hp hk
  have hkind (x ℓ : ℕ) (par : Option (ℕ × ℕ)) :=
    freedTyping_table (fun hf => (hp hf).2) x ℓ par
  refine ⟨⟨l', h₁.store_leaf ((hkind _ _ _).mpr hq) (vpnIndex_lt 0 v) (by decide) ?_⟩, ?_⟩
  · exact fun hval => absurd hval not_Valid_zero
  · intro r' w hr' hc' hw
    have hd₁ : descend s₁.mem 2 r v = some q := by
      rw [h.descend_agree hm v hr hc, hd]
    rw [h₁.store_leaf_leaf ((hkind _ _ _).mpr hr) hc hv (by decide) hd₁
      ((hkind _ _ _).mpr hr') hc' hw]
    by_cases hrw : r' = r ∧ w = v
    · rw [if_pos hrw, if_pos hrw]
    · rw [if_neg hrw, if_neg hrw]
      exact h.leafFrom_agree hm w hr' hc'

theorem Typed.uvmunmap_turn (h : Typed s τ sm l) (do_free : Bool) {r v a stop : ℕ}
    (hr : τ r = .table 2 none) (hc : Clear sm r 2 (vpnIndex 2 v)) (hv : v < 2^26)
    (hval : Valid (leaf s.mem r v)) (ha : a < stop)
    (hp : do_free = true → IsPage (PTE2PA (leaf s.mem r v)) ∧
      ∃ o, τ (PTE2PA (leaf s.mem r v)) = .frame o) :
    ∃ s' l', uvmunmapLoop s r (v*4096) do_free a stop =
        uvmunmapLoop s' r (v*4096) do_free (a+PAGE_SIZE) stop ∧
      Typed s' (freedTyping τ do_free (PTE2PA (leaf s.mem r v))) sm l' ∧
      ∀ {r' w}, τ r' = .table 2 none → Clear sm r' 2 (vpnIndex 2 w) → w < 2^27 →
        leaf s'.mem r' w = if r' = r ∧ w = v then 0 else leaf s.mem r' w := by
  rcases h.walk_cases hr hc hv with ⟨_, hzero⟩ | ⟨q, par, hw, hd, hq, hne, hload⟩
  · rw [hzero] at hval
    exact absurd hval not_Valid_zero
  have hflags : PTE_FLAGS (leaf s.mem r v) ≠ PTE_V := by
    intro hf
    have hx := (h.leaf_valid hr hc hval).2
    rw [HasRWX, and_flags _ _ (by decide), hf] at hx
    exact hx (by decide)
  obtain ⟨s₁, hk⟩ : ∃ s₁, (if do_free then kfree s (PTE2PA (leaf s.mem r v)) else .ok s) = .ok s₁ := by
    cases do_free with
    | false => exact ⟨s, rfl⟩
    | true =>
      obtain ⟨hpage, o, ho⟩ := hp rfl
      obtain ⟨s₁, hk, _⟩ := h.kfree_frame hpage ho
      exact ⟨s₁, (if_pos rfl).trans hk⟩
  obtain ⟨⟨l', h'⟩, hleaves⟩ := h.unmap_leaf hr hc (by omega) hd hq hp hk
  refine ⟨_, l', ?_, h', hleaves⟩
  rw [uvmunmapLoop_eq, if_pos ha, hw, ok_bind]
  dsimp only
  rw [hload, if_neg (not_or.mpr ⟨hne, not_not.mpr hval⟩), if_neg hflags, hk, ok_bind]

/-- The loop on a mapped page: a second turn would walk to it again and find it unmapped. -/
theorem Typed.uvmunmap_first (h : Typed s τ sm l) (do_free : Bool) {r v stop : ℕ}
    (hr : τ r = .table 2 none) (hc : Clear sm r 2 (vpnIndex 2 v)) (hv : v < 2^26)
    (hval : Valid (leaf s.mem r v)) (hstop : v*4096 < stop)
    (hp : do_free = true → IsPage (PTE2PA (leaf s.mem r v)) ∧
      ∃ o, τ (PTE2PA (leaf s.mem r v)) = .frame o) :
    ∃ s' l', uvmunmapLoop s r (v*4096) do_free (v*4096) stop =
        (if v*4096+PAGE_SIZE < stop then .error (.panic "uvmunmap: not mapped") else .ok s') ∧
      Typed s' (freedTyping τ do_free (PTE2PA (leaf s.mem r v))) sm l' ∧
      ∀ {r' w}, τ r' = .table 2 none → Clear sm r' 2 (vpnIndex 2 w) → w < 2^27 →
        leaf s'.mem r' w = if r' = r ∧ w = v then 0 else leaf s.mem r' w := by
  obtain ⟨s', l', hturn, h', hleaves⟩ := h.uvmunmap_turn do_free hr hc hv hval hstop hp
  have hr' := (freedTyping_table (fun hf => (hp hf).2) r 2 none).mpr hr
  have hgone : ¬Valid (leaf s'.mem r v) := by
    rw [hleaves hr hc (by omega), if_pos ⟨rfl, rfl⟩]
    exact not_Valid_zero
  refine ⟨s', l', ?_, h', hleaves⟩
  rw [hturn]
  by_cases hmore : v*4096+PAGE_SIZE < stop
  · rw [if_pos hmore, h'.uvmunmapLoop_unmapped do_free hr' hc hv hgone hmore]
  · rw [if_neg hmore, uvmunmapLoop_eq, if_neg hmore]

/-- `uvmunmap` returns only when it has at most one page to go through: it walks
to the same page again. -/
theorem Typed.uvmunmap_ok (h : Typed s τ sm l) {r v npages : ℕ} {do_free : Bool} {res : ℤ}
    {s' : Phys} (hr : τ r = .table 2 none) (hc : Clear sm r 2 (vpnIndex 2 v)) (hv : v < 2^26)
    (hp : do_free = true → v*4096 < (v*4096+npages*4096)%2^64 →
      IsPage (PTE2PA (leaf s.mem r v)) ∧ ∃ o, τ (PTE2PA (leaf s.mem r v)) = .frame o)
    (hrun : uvmunmap s r (v*4096) npages do_free = .ok (res, s')) :
    (v*4096+npages*4096)%2^64 ≤ v*4096 ∧ s' = s ∨
    v*4096 < (v*4096+npages*4096)%2^64 ∧ (v*4096+npages*4096)%2^64 ≤ v*4096+4096 ∧
      Valid (leaf s.mem r v) ∧
      (∃ l', Typed s' (freedTyping τ do_free (PTE2PA (leaf s.mem r v))) sm l') ∧
      ∀ {r' w}, τ r' = .table 2 none → Clear sm r' 2 (vpnIndex 2 w) → w < 2^27 →
        leaf s'.mem r' w = if r' = r ∧ w = v then 0 else leaf s.mem r' w := by
  have hal : ¬v*4096%PAGE_SIZE ≠ 0 := by
    simp only [PAGE_SIZE]
    omega
  rw [uvmunmap, if_neg hal] at hrun
  obtain ⟨s₂, hloop, hrun⟩ := bind_eq_ok.mp hrun
  cases hrun
  simp only [PAGE_SIZE] at hloop
  generalize hstop : (v*4096+npages*4096)%2^64 = stop at hloop hp
  by_cases hlt : v*4096 < stop
  case neg =>
    rw [uvmunmapLoop_eq, if_neg hlt] at hloop
    cases hloop
    exact Or.inl ⟨by omega, rfl⟩
  by_cases hval : Valid (leaf s.mem r v)
  case neg =>
    rw [h.uvmunmapLoop_unmapped do_free hr hc hv hval hlt] at hloop
    cases hloop
  obtain ⟨s₁, l', hfirst, h', hleaves⟩ :=
    h.uvmunmap_first do_free hr hc hv hval hlt (fun hf => hp hf hlt)
  rw [hfirst] at hloop
  split_ifs at hloop with hmore
  cases hloop
  simp only [PAGE_SIZE] at hmore
  exact Or.inr ⟨hlt, by omega, hval, ⟨l', h'⟩, hleaves⟩

end RiscvMos
