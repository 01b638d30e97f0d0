import RiscvMos.Vm

/-! A typing of the heap pages: free, handed out as a frame, or a page table of
some level with its one parent entry. It is what keeps the trees apart. -/
namespace RiscvMos
open ByteMem LinkChain

/-- The root slot that `env_setup_vm` overwrites with the self-map. -/
def selfSlot : ℕ := VPN_L 2 UVPT

inductive PageKind
  /-- On the free list. -/
  | free
  /-- Handed out by `kalloc`, possibly for the virtual page of a root table. -/
  | frame (owner : Option (ℕ × ℕ))
  /-- A page table; a root has no parent, any other has a page and an index. -/
  | table (level : ℕ) (parent : Option (ℕ × ℕ))
  deriving DecidableEq

abbrev Typing := ℕ → PageKind

/-- The entry of the self-map of the root `p`. -/
def selfPte (p : ℕ) : ℕ := PA2PTE p ||| PTE_V ||| PTE_R ||| PTE_U

/-- `*pte & (PTE_R | PTE_W | PTE_X)` is not zero. -/
def HasRWX (pte : ℕ) : Prop := pte &&& (PTE_R ||| PTE_W ||| PTE_X) ≠ 0

instance (pte : ℕ) : Decidable (HasRWX pte) := inferInstanceAs (Decidable (_ ≠ _))

/-- Where `walk` must not go in a table that maps itself. -/
def Clear (sm : ℕ → Prop) (p level i : ℕ) : Prop := ¬(sm p ∧ level = 2 ∧ i = selfSlot)

/-- No table maps itself. -/
abbrev noSelfMap : ℕ → Prop := fun _ => False

theorem clear_noSelfMap (p level i : ℕ) : Clear noSelfMap p level i := fun h => h.1

structure Typed (s : Phys) (τ : Typing) (sm : ℕ → Prop) (l : List ℕ) : Prop where
  free : FreeList s l
  mem_free : ∀ p, p ∈ l ↔ IsPage p ∧ τ p = .free
  page : ∀ {p ℓ par}, τ p = .table ℓ par → IsPage p
  level : ∀ {p ℓ par}, τ p = .table ℓ par → ℓ ≤ 2 ∧ (ℓ = 2 ↔ par = none)
  parent : ∀ {c ℓ p i}, τ c = .table ℓ (some (p,i)) → i < 512 ∧ Clear sm p (ℓ+1) i ∧
    (∃ par, τ p = .table (ℓ+1) par) ∧ entry s.mem p i = PA2PTE c ||| PTE_V
  child : ∀ {p ℓ par i}, τ p = .table (ℓ+1) par → i < 512 → Clear sm p (ℓ+1) i →
    Valid (entry s.mem p i) → ∃ c, τ c = .table ℓ (some (p,i))
  leafOk : ∀ {p par i}, τ p = .table 0 par → i < 512 → Valid (entry s.mem p i) →
    entry s.mem p i < 2^62 ∧ HasRWX (entry s.mem p i)
  selfMap : ∀ {p}, sm p → τ p = .table 2 none ∧ entry s.mem p selfSlot = selfPte p

theorem typed_of_heap {s : Phys} (hfree : FreeList s (heapPages heapCount)) :
    Typed s (fun _ => .free) noSelfMap (heapPages heapCount) := by
  refine ⟨hfree, ?_, ?_, ?_, ?_, ?_, ?_, fun hf => hf.elim⟩
  · intro p
    simp [mem_heapPages_iff_isPage]
  all_goals intros; simp_all

/-! ### Descending to a level-0 table -/

/-- The level-0 table for page number `v`, from the table `p` at a level. -/
def descend (m : Mem) : ℕ → ℕ → ℕ → Option ℕ
  | 0, p, _ => some p
  | ℓ+1, p, v =>
    let pte := entry m p (vpnIndex (ℓ+1) v)
    if Valid pte then descend m ℓ (PTE2PA pte) v else none

/-- The level-0 entry for page number `v`, or 0 where there is no table for it. -/
def leafFrom (m : Mem) (ℓ p v : ℕ) : ℕ :=
  match descend m ℓ p v with
  | some q => entry m q (vpnIndex 0 v)
  | none => 0

def leaf (m : Mem) (root v : ℕ) : ℕ := leafFrom m 2 root v

theorem descend_succ_of_valid {m : Mem} {ℓ p v : ℕ}
    (h : Valid (entry m p (vpnIndex (ℓ+1) v))) :
    descend m (ℓ+1) p v = descend m ℓ (PTE2PA (entry m p (vpnIndex (ℓ+1) v))) v := by
  rw [descend, if_pos h]

theorem descend_succ_of_not_valid {m : Mem} {ℓ p v : ℕ}
    (h : ¬Valid (entry m p (vpnIndex (ℓ+1) v))) : descend m (ℓ+1) p v = none := by
  rw [descend, if_neg h]

theorem leafFrom_zero (m : Mem) (p v : ℕ) : leafFrom m 0 p v = entry m p (vpnIndex 0 v) := rfl

theorem leafFrom_succ_of_valid {m : Mem} {ℓ p v : ℕ}
    (h : Valid (entry m p (vpnIndex (ℓ+1) v))) :
    leafFrom m (ℓ+1) p v = leafFrom m ℓ (PTE2PA (entry m p (vpnIndex (ℓ+1) v))) v := by
  rw [leafFrom, descend_succ_of_valid h, leafFrom]

theorem leafFrom_succ_of_not_valid {m : Mem} {ℓ p v : ℕ}
    (h : ¬Valid (entry m p (vpnIndex (ℓ+1) v))) : leafFrom m (ℓ+1) p v = 0 := by
  rw [leafFrom, descend_succ_of_not_valid h]

theorem descend_region (m : Mem) (ℓ p : ℕ) {v w : ℕ} (h : v/512 = w/512) :
    descend m ℓ p v = descend m ℓ p w := by
  induction ℓ generalizing p with
  | zero => rfl
  | succ ℓ ih =>
    have hi : vpnIndex (ℓ+1) v = vpnIndex (ℓ+1) w := by
      simp only [vpnIndex, Nat.pow_succ', ← Nat.div_div_eq_div_mul, h]
    simp only [descend, hi, ih]

/-- The software walk without allocation is the descent. -/
theorem walkLoop_noalloc (s : Phys) (va ℓ p : ℕ) :
    walkLoop s p va false ℓ =
      ((descend s.mem ℓ p (va/4096)).elim 0 (fun q => q+8*vpnIndex 0 (va/4096)), s) := by
  induction ℓ generalizing p with
  | zero => simp [walkLoop, descend, VPN_L_eq]
  | succ ℓ ih =>
    simp only [walkLoop, VPN_L_eq, Bool.false_eq_true, if_false]
    split_ifs with hv
    · rw [ih, descend_succ_of_valid hv]
      rfl
    · rw [descend_succ_of_not_valid hv]
      rfl

/-! ### Entries of pages -/

theorem entry_agree {m m' : Mem} {p : ℕ} (h : AgreeOn m' m p 4096) {i : ℕ} (hi : i < 512) :
    entry m' p i = entry m p i :=
  load_congr (h.mono (by omega) (by omega))

theorem entry_zeroPage {m : Mem} {p : ℕ} (h : ZeroPage m p) {i : ℕ} (hi : i < 512) :
    entry m p i = 0 :=
  load_zero_bytes (fun b hl hu => h b (by omega) (by omega))

theorem entry_store_same (m : Mem) (p i v : ℕ) (hv : v < 2^64) :
    entry (store64 m (p+8*i) v) p i = v := load64_store64_same m _ v hv

theorem entry_store_ne {p q i j : ℕ} (m : Mem) (v : ℕ) (hp : IsPage p) (hq : IsPage q)
    (hi : i < 512) (hj : j < 512) (hne : ¬(q = p ∧ j = i)) :
    entry (store64 m (p+8*i) v) q j = entry m q j := by
  apply load64_sameOutside (store_sameOutside m (p+8*i) 8 v)
  by_cases hqp : q = p
  · have hji : j ≠ i := fun he => hne ⟨hqp, he⟩
    omega
  · have hd := hp.disjoint hq (Ne.symm hqp)
    omega

theorem PTE2PA_table {c : ℕ} (hc : IsPage c) : PTE2PA (PA2PTE c ||| PTE_V) = c := by
  have hb := hc.bounds
  rw [PTE2PA_mkPte c PTE_V (by omega) (by decide)]
  omega

theorem Valid_table (c : ℕ) : Valid (PA2PTE c ||| PTE_V) := by
  rw [Valid_mkPte c PTE_V (by decide)]
  decide

theorem tablePte_lt {c : ℕ} (hc : IsPage c) : PA2PTE c ||| PTE_V < 2^64 := by
  have hb := hc.bounds
  rw [mkPte_eq c PTE_V (by decide)]
  have hf : PTE_V < 1024 := by decide
  omega

namespace Typed

variable {s : Phys} {τ : Typing} {sm : ℕ → Prop} {l : List ℕ}

theorem root (h : Typed s τ sm l) {p : ℕ} {par : Option (ℕ × ℕ)}
    (hp : τ p = .table 2 par) : τ p = .table 2 none := by
  rw [hp, (h.level hp).2.mp rfl]

theorem next (h : Typed s τ sm l) {p ℓ i : ℕ} {par : Option (ℕ × ℕ)}
    (hp : τ p = .table (ℓ+1) par) (hi : i < 512) (hc : Clear sm p (ℓ+1) i)
    (hv : Valid (entry s.mem p i)) :
    τ (PTE2PA (entry s.mem p i)) = .table ℓ (some (p,i)) := by
  obtain ⟨c, hτ⟩ := h.child hp hi hc hv
  rw [(h.parent hτ).2.2.2, PTE2PA_table (h.page hτ)]
  exact hτ

theorem clear_of_lt (sm : ℕ → Prop) (p i : ℕ) {ℓ : ℕ} (hℓ : ℓ < 2) : Clear sm p ℓ i := by
  rintro ⟨_, h2, _⟩
  omega

theorem descend_typed (h : Typed s τ sm l) {ℓ p v q : ℕ} {par : Option (ℕ × ℕ)}
    (hp : τ p = .table ℓ par) (hc : Clear sm p ℓ (vpnIndex ℓ v))
    (hd : descend s.mem ℓ p v = some q) : ∃ par', τ q = .table 0 par' := by
  induction ℓ generalizing p par with
  | zero =>
    cases hd
    exact ⟨par, hp⟩
  | succ ℓ ih =>
    by_cases hv : Valid (entry s.mem p (vpnIndex (ℓ+1) v))
    · rw [descend_succ_of_valid hv] at hd
      have hn := h.next hp (vpnIndex_lt _ _) hc hv
      have hℓ := (h.level hp).1
      exact ih hn (clear_of_lt sm _ _ (by omega)) hd
    · rw [descend_succ_of_not_valid hv] at hd
      cases hd

/-- Two descents that meet in one level-0 table are the same descent: going back
up, every table has a single parent entry. -/
theorem descend_unique (h : Typed s τ sm l) {ℓ p p' v v' q : ℕ}
    {par par' : Option (ℕ × ℕ)} (hp : τ p = .table ℓ par) (hp' : τ p' = .table ℓ par')
    (hc : Clear sm p ℓ (vpnIndex ℓ v)) (hc' : Clear sm p' ℓ (vpnIndex ℓ v'))
    (hd : descend s.mem ℓ p v = some q) (hd' : descend s.mem ℓ p' v' = some q) :
    p = p' ∧ ∀ k, 1 ≤ k → k ≤ ℓ → vpnIndex k v = vpnIndex k v' := by
  induction ℓ generalizing p p' par par' with
  | zero =>
    cases hd
    cases hd'
    exact ⟨rfl, fun k h1 h0 => by omega⟩
  | succ ℓ ih =>
    by_cases hv : Valid (entry s.mem p (vpnIndex (ℓ+1) v))
    case neg =>
      rw [descend_succ_of_not_valid hv] at hd
      cases hd
    by_cases hv' : Valid (entry s.mem p' (vpnIndex (ℓ+1) v'))
    case neg =>
      rw [descend_succ_of_not_valid hv'] at hd'
      cases hd'
    rw [descend_succ_of_valid hv] at hd
    rw [descend_succ_of_valid hv'] at hd'
    have hℓ := (h.level hp).1
    have hn := h.next hp (vpnIndex_lt _ _) hc hv
    have hn' := h.next hp' (vpnIndex_lt _ _) hc' hv'
    obtain ⟨heq, hidx⟩ := ih hn hn' (clear_of_lt sm _ _ (by omega))
      (clear_of_lt sm _ _ (by omega)) hd hd'
    rw [heq, hn'] at hn
    injection hn with _ hpar
    obtain ⟨hpp, hii⟩ := Prod.mk.inj (Option.some.inj hpar)
    refine ⟨hpp.symm, fun k h1 hk => ?_⟩
    rcases Nat.lt_or_eq_of_le hk with hlt | rfl
    · exact hidx k h1 (by omega)
    · exact hii.symm

theorem descend_agree (h : Typed s τ sm l) {m' : Mem}
    (hm : ∀ {p ℓ par}, τ p = .table ℓ par → AgreeOn m' s.mem p 4096) {ℓ p : ℕ} (v : ℕ)
    {par : Option (ℕ × ℕ)} (hp : τ p = .table ℓ par)
    (hc : Clear sm p ℓ (vpnIndex ℓ v)) :
    descend m' ℓ p v = descend s.mem ℓ p v := by
  induction ℓ generalizing p par with
  | zero => rfl
  | succ ℓ ih =>
    have he : entry m' p (vpnIndex (ℓ+1) v) = entry s.mem p (vpnIndex (ℓ+1) v) :=
      entry_agree (hm hp) (vpnIndex_lt _ _)
    simp only [descend, he]
    split_ifs with hv
    · have hℓ := (h.level hp).1
      exact ih (h.next hp (vpnIndex_lt _ _) hc hv) (clear_of_lt sm _ _ (by omega))
    · rfl

theorem leafFrom_agree (h : Typed s τ sm l) {m' : Mem}
    (hm : ∀ {p ℓ par}, τ p = .table ℓ par → AgreeOn m' s.mem p 4096) {ℓ p : ℕ} (v : ℕ)
    {par : Option (ℕ × ℕ)} (hp : τ p = .table ℓ par)
    (hc : Clear sm p ℓ (vpnIndex ℓ v)) :
    leafFrom m' ℓ p v = leafFrom s.mem ℓ p v := by
  unfold leafFrom
  rw [h.descend_agree hm v hp hc]
  cases hd : descend s.mem ℓ p v with
  | none => rfl
  | some q =>
    obtain ⟨par', hq⟩ := h.descend_typed hp hc hd
    exact entry_agree (hm hq) (vpnIndex_lt _ _)

end Typed

end RiscvMos
