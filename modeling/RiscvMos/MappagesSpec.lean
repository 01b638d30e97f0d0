import Mathlib.Data.Finset.Card
import RiscvMos.WalkSpec

/-! What `mappages` does on typed memory: which leaves it writes, when it fails,
and how many table pages it takes. -/
namespace RiscvMos
open ByteMem LinkChain Function

/-- The entry `mappages` stores. -/
def mkLeaf (pa perm : ℕ) : ℕ := PA2PTE pa ||| perm ||| PTE_V

theorem perm_or_lt {perm : ℕ} (h : perm < 1024) : perm ||| PTE_V < 1024 :=
  Nat.or_lt_two_pow (n := 10) h (by decide)

theorem mkLeaf_eq (pa perm : ℕ) : mkLeaf pa perm = PA2PTE pa ||| (perm ||| PTE_V) :=
  Nat.or_assoc _ _ _

theorem PTE2PA_mkLeaf {pa perm : ℕ} (hp : pa < 2^64) (hf : perm < 1024) :
    PTE2PA (mkLeaf pa perm) = pa/4096*4096 := by
  rw [mkLeaf_eq, PTE2PA_mkPte pa _ hp (perm_or_lt hf)]

theorem PTE_FLAGS_mkLeaf (pa : ℕ) {perm : ℕ} (hf : perm < 1024) :
    PTE_FLAGS (mkLeaf pa perm) = perm ||| PTE_V := by
  rw [mkLeaf_eq, PTE_FLAGS_mkPte pa _ (perm_or_lt hf)]

theorem mkLeaf_and (pa : ℕ) {perm k : ℕ} (hf : perm < 1024) (hk : k &&& 0x3FF = k)
    (hv : k &&& PTE_V = 0) : mkLeaf pa perm &&& k = perm &&& k := by
  rw [and_flags _ k hk, PTE_FLAGS_mkLeaf pa hf, Nat.and_comm, Nat.and_or_distrib_left, hv,
    Nat.or_zero, Nat.and_comm]

theorem Valid_mkLeaf (pa : ℕ) {perm : ℕ} (hf : perm < 1024) : Valid (mkLeaf pa perm) := by
  rw [mkLeaf_eq, Valid_mkPte pa _ (perm_or_lt hf), Valid, Nat.and_comm,
    Nat.and_or_distrib_left, Nat.and_self]
  intro h
  have h1 := Nat.or_eq_zero_iff.mp h
  exact absurd h1.2 (by decide)

theorem HasRWX_mkLeaf (pa : ℕ) {perm : ℕ} (hf : perm < 1024) :
    HasRWX (mkLeaf pa perm) ↔ HasRWX perm := by
  rw [HasRWX, HasRWX, mkLeaf_and pa hf (by decide) (by decide)]

theorem mkLeaf_lt {pa perm : ℕ} (hp : pa < 2^64) (hf : perm < 1024) :
    mkLeaf pa perm < 2^62 := by
  have hlt := perm_or_lt hf
  rw [mkLeaf_eq, mkPte_eq pa _ hlt]
  omega

/-! ### One page -/

variable {s : Phys} {τ : Typing} {sm : ℕ → Prop} {l : List ℕ}

/-- Two page numbers of two roots that share a level-0 entry are the same. -/
theorem Typed.slot_unique (h : Typed s τ sm l) {r r' v v' q : ℕ} (hr : τ r = .table 2 none)
    (hr' : τ r' = .table 2 none) (hc : Clear sm r 2 (vpnIndex 2 v))
    (hc' : Clear sm r' 2 (vpnIndex 2 v')) (hv : v < 2^27) (hv' : v' < 2^27)
    (hd : descend s.mem 2 r v = some q) (hd' : descend s.mem 2 r' v' = some q)
    (h0 : vpnIndex 0 v = vpnIndex 0 v') : r = r' ∧ v = v' := by
  obtain ⟨hrr, hidx⟩ := h.descend_unique hr hr' hc hc' hd hd'
  exact ⟨hrr, vpn_ext hv hv' h0 (hidx 1 le_rfl (by omega)) (hidx 2 (by omega) le_rfl)⟩

/-- A leaf write at the entry of page `v` of the root `r` changes that leaf only. -/
theorem Typed.store_leaf_leaf (h : Typed s τ sm l) {r v q e : ℕ} (hr : τ r = .table 2 none)
    (hc : Clear sm r 2 (vpnIndex 2 v)) (hv : v < 2^27) (he : e < 2^64)
    (hd : descend s.mem 2 r v = some q) {r' w : ℕ} (hr' : τ r' = .table 2 none)
    (hc' : Clear sm r' 2 (vpnIndex 2 w)) (hw : w < 2^27) :
    leaf (store64 s.mem (q+8*vpnIndex 0 v) e) r' w =
      if r' = r ∧ w = v then e else leaf s.mem r' w := by
  obtain ⟨par, hq⟩ := h.descend_typed hr hc hd
  rw [leaf, h.store_leaf_leafFrom hq (vpnIndex_lt 0 v) he w hr' hc']
  by_cases hw' : r' = r ∧ w = v
  · obtain ⟨rfl, rfl⟩ := hw'
    simp [hd]
  · have hne : ¬(descend s.mem 2 r' w = some q ∧ vpnIndex 0 w = vpnIndex 0 v) := by
      rintro ⟨hd', h0⟩
      exact hw' (h.slot_unique hr' hr hc' hc hw hv hd' hd h0)
    rw [if_neg hw', if_neg hne, leaf]

/-- A level-0 table exists for the 512 pages of region `g`. -/
def Populated (m : Mem) (r g : ℕ) : Prop := ∃ q, descend m 2 r (512*g) = some q

theorem Populated_of_descend {m : Mem} {r v q : ℕ} (h : descend m 2 r v = some q) :
    Populated m r (v/512) := by
  refine ⟨q, ?_⟩
  rw [descend_region m 2 r (v := 512*(v/512)) (w := v) (by omega), h]

theorem Populated.descend {m : Mem} {r v : ℕ} (h : Populated m r (v/512)) :
    ∃ q, descend m 2 r v = some q := by
  obtain ⟨q, hq⟩ := h
  refine ⟨q, ?_⟩
  rw [descend_region m 2 r (v := v) (w := 512*(v/512)) (by omega), hq]

theorem Grows.descend (h : Typed s τ sm l) {s' : Phys} {τ' : Typing} (g : Grows s τ s' τ')
    {k p v q : ℕ} {par : Option (ℕ × ℕ)} (hp : τ p = .table k par)
    (hc : Clear sm p k (vpnIndex k v)) (hd : descend s.mem k p v = some q) :
    descend s'.mem k p v = some q := by
  induction k generalizing p par with
  | zero => exact hd
  | succ k ih =>
    by_cases hv : Valid (entry s.mem p (vpnIndex (k+1) v))
    · rw [descend_succ_of_valid hv] at hd
      have he := g.entries hp (vpnIndex_lt _ _) hv
      have hk := (h.level hp).1
      rw [descend_succ_of_valid (by rwa [he]), he]
      exact ih (h.next hp (vpnIndex_lt _ _) hc hv) (Typed.clear_of_lt sm _ _ (by omega)) hd
    · rw [descend_succ_of_not_valid hv] at hd
      cases hd

/-! ### Accounting of table pages -/

/-- Of `N` pages at most two went to each populated region of `G`. -/
def Budget (m : Mem) (r : ℕ) (l : List ℕ) (N : ℕ) (G : Finset ℕ) : Prop :=
  ∃ P ⊆ G, (∀ g ∈ P, Populated m r g) ∧ N ≤ l.length+2*P.card

theorem Budget.start (m : Mem) (r : ℕ) (l : List ℕ) (G : Finset ℕ) :
    Budget m r l l.length G :=
  ⟨∅, Finset.empty_subset G, by simp, by simp⟩

/-- A budget survives when regions stay populated and `k` more pages are gone. -/
theorem Budget.spend {m m' : Mem} {r N : ℕ} {l l' : List ℕ} {G : Finset ℕ}
    (h : Budget m r l N G) (k : ℕ) (hl : l.length ≤ l'.length+k)
    (hp : ∀ g ∈ G, Populated m r g → Populated m' r g) : Budget m' r l' (N-k) G := by
  obtain ⟨P, hPG, hpop, hN⟩ := h
  exact ⟨P, hPG, fun g hg => hp g (hPG hg) (hpop g hg), by omega⟩

theorem Typed.populated_grows (h : Typed s τ sm l) {s' : Phys} {τ' : Typing}
    (g : Grows s τ s' τ') {r a : ℕ} (hr : τ r = .table 2 none)
    (hc : Clear sm r 2 (vpnIndex 2 (512*a))) (hp : Populated s.mem r a) :
    Populated s'.mem r a := by
  obtain ⟨q, hq⟩ := hp
  exact ⟨q, g.descend h hr hc hq⟩

theorem vpnIndex_region (v : ℕ) : vpnIndex 2 (512*(v/512)) = vpnIndex 2 v := by
  simp only [vpnIndex]
  omega

theorem WalkOut.budget {r v a N : ℕ} {s' : Phys} {τ' : Typing} {l' : List ℕ} {G : Finset ℕ}
    (w : WalkOut sm s τ l 2 r v a s' τ' l') (h : Typed s τ sm l)
    (hr : τ r = .table 2 none) (hG : ∀ g ∈ G, Clear sm r 2 (vpnIndex 2 (512*g)))
    (hv : v/512 ∈ G) (hb : Budget s.mem r l N G) (hN : 2*G.card < N) :
    (∃ q, descend s'.mem 2 r v = some q ∧ a = q+8*vpnIndex 0 v) ∧ Budget s'.mem r l' N G := by
  obtain ⟨P, hPG, hpop, hle⟩ := hb
  have hcard := Finset.card_le_card hPG
  have hkeep : ∀ g ∈ P, Populated s'.mem r g := fun g hg =>
    h.populated_grows w.grows hr (hG g (hPG hg)) (hpop g hg)
  obtain ⟨u, hu, hlen⟩ := w.used
  have hll : l.length = u.length+l'.length := by rw [hu, List.length_append]
  by_cases hin : v/512 ∈ P
  · obtain ⟨q, hq⟩ := (hpop _ hin).descend
    have hl' := w.hit q hq
    have hc : Clear sm r 2 (vpnIndex 2 v) := by
      rw [← vpnIndex_region v]
      exact hG _ hv
    have hq' := w.grows.descend h hr hc hq
    rcases w.found with ⟨_, _, hnone⟩ | hfound
    · rw [hq'] at hnone
      cases hnone
    · exact ⟨hfound, P, hPG, hkeep, by rw [hl']; exact hle⟩
  · have hsub : insert (v/512) P ⊆ G := Finset.insert_subset hv hPG
    have hcard' : P.card+1 ≤ G.card := by
      rw [← Finset.card_insert_of_notMem hin]
      exact Finset.card_le_card hsub
    rcases w.found with ⟨_, hnil, _⟩ | ⟨q, hq, ha⟩
    · rw [hnil] at hll
      simp only [List.length_nil, Nat.add_zero] at hll
      omega
    · refine ⟨⟨q, hq, ha⟩, insert (v/512) P, hsub, ?_, ?_⟩
      · intro g hg
        rcases Finset.mem_insert.mp hg with rfl | hg
        · exact Populated_of_descend hq
        · exact hkeep g hg
      · rw [Finset.card_insert_of_notMem hin]
        omega

/-! ### The loop over pages -/

/-- The `n` pages from `v` on of the root `r` were mapped to consecutive frames
from `pa` on, and no other leaf changed. -/
structure MapOut (sm : ℕ → Prop) (s : Phys) (τ : Typing) (l : List ℕ) (r v n pa perm : ℕ)
    (s' : Phys) (τ' : Typing) (l' : List ℕ) : Prop where
  typed : Typed s' τ' sm l'
  grows : Grows s τ s' τ'
  suffix : l' <:+ l
  leaves : ∀ {r' w}, τ r' = .table 2 none → Clear sm r' 2 (vpnIndex 2 w) → w < 2^27 →
    leaf s'.mem r' w = if r' = r ∧ v ≤ w ∧ w < v+n
      then mkLeaf ((pa+4096*(w-v))%2^64) perm else leaf s.mem r' w

theorem WalkOut.mapOut {r v a : ℕ} {s' : Phys} {τ' : Typing} {l' : List ℕ}
    (w : WalkOut sm s τ l 2 r v a s' τ' l') (pa perm : ℕ) : MapOut sm s τ l r v 0 pa perm s' τ' l' := by
  refine ⟨w.typed, w.grows, ?_, ?_⟩
  · obtain ⟨u, hu, _⟩ := w.used
    exact ⟨u, hu.symm⟩
  · intro r' x hr' hc _
    have hout : ¬(r' = r ∧ v ≤ x ∧ x < v+0) := by omega
    rw [if_neg hout]
    exact w.leaves x hr' hc

theorem Typed.store_leaf_grows (h : Typed s τ sm l) {q i : ℕ} (e : ℕ) {par : Option (ℕ × ℕ)}
    (hq : τ q = .table 0 par) (hi : i < 512) :
    Grows s τ ⟨store64 s.mem (q+8*i) e, s.freelist⟩ τ := by
  have hsame {p ℓ j : ℕ} {par' : Option (ℕ × ℕ)} (hp : τ p = .table (ℓ+1) par')
      (hj : j < 512) : entry (store64 s.mem (q+8*i) e) p j = entry s.mem p j := by
    apply entry_store_ne _ _ (h.page hq) (h.page hp) hi hj
    rintro ⟨rfl, _⟩
    rw [hq] at hp
    cases hp
  refine ⟨fun _ _ => rfl, fun _ hf => Or.inl hf, fun hp hj _ => hsame hp hj,
    fun hp _ hj => hsame hp hj, ?_⟩
  · intro b hb
    apply store_sameOutside s.mem (q+8*i) 8 e b
    by_contra hin
    obtain ⟨o, ho⟩ := hb q (h.page hq) (by omega) (by omega)
    rw [hq] at ho
    cases ho

theorem WalkOut.store {r v q pa perm : ℕ} {s' : Phys} {τ' : Typing} {l' : List ℕ}
    (w : WalkOut sm s τ l 2 r v (q+8*vpnIndex 0 v) s' τ' l') (hr : τ r = .table 2 none)
    (hc : Clear sm r 2 (vpnIndex 2 v)) (hv : v < 2^27)
    (hd : descend s'.mem 2 r v = some q) (hpa : pa < 2^64) (hf : perm < 1024)
    (hx : HasRWX perm) :
    MapOut sm s τ l r v 1 pa perm
      ⟨store64 s'.mem (q+8*vpnIndex 0 v) (mkLeaf pa perm), s'.freelist⟩ τ' l' := by
  have hr' := w.grows.table hr
  have he := mkLeaf_lt hpa hf
  obtain ⟨par, hq⟩ := w.typed.descend_typed hr' hc hd
  have h0 := w.mapOut pa perm
  have hi := vpnIndex_lt 0 v
  refine ⟨?_, w.grows.trans (w.typed.store_leaf_grows _ hq hi), h0.suffix, ?_⟩
  · exact w.typed.store_leaf hq hi he (fun _ => (HasRWX_mkLeaf pa hf).mpr hx)
  · intro r' x hr'' hc' hx'
    have hleaf := w.typed.store_leaf_leaf hr' hc hv (e := mkLeaf pa perm) (by omega) hd
      (w.grows.table hr'') hc' hx'
    have hold : leaf s'.mem r' x = leaf s.mem r' x := w.leaves x hr'' hc'
    rw [hleaf, hold]
    by_cases hxv : r' = r ∧ x = v
    · have hin : r' = r ∧ v ≤ x ∧ x < v+1 := ⟨hxv.1, by omega⟩
      have hoff : (pa+4096*(x-v))%2^64 = pa := by
        rw [hxv.2]
        omega
      rw [if_pos hxv, if_pos hin, hoff]
    · have hne : ¬(r' = r ∧ v ≤ x ∧ x < v+1) := fun hh => hxv ⟨hh.1, by omega⟩
      rw [if_neg hxv, if_neg hne]

theorem MapOut.cons {r v n pa perm : ℕ} {s₁ s₂ : Phys} {τ₁ τ₂ : Typing} {l₁ l₂ : List ℕ}
    (h₁ : MapOut sm s τ l r v 1 pa perm s₁ τ₁ l₁)
    (h₂ : MapOut sm s₁ τ₁ l₁ r (v+1) n ((pa+4096)%2^64) perm s₂ τ₂ l₂) :
    MapOut sm s τ l r v (1+n) pa perm s₂ τ₂ l₂ := by
  refine ⟨h₂.typed, h₁.grows.trans h₂.grows, h₂.suffix.trans h₁.suffix, ?_⟩
  intro r' w hr' hc hw
  rw [h₂.leaves (h₁.grows.table hr') hc hw, h₁.leaves hr' hc hw]
  by_cases hrr : r' = r
  case neg => simp [hrr]
  by_cases h1 : w = v
  · have ha : ¬(r' = r ∧ v+1 ≤ w ∧ w < v+1+n) := by omega
    have hb : r' = r ∧ v ≤ w ∧ w < v+1 := ⟨hrr, by omega⟩
    have hc : r' = r ∧ v ≤ w ∧ w < v+(1+n) := ⟨hrr, by omega⟩
    rw [if_neg ha, if_pos hb, if_pos hc]
  · have hb : ¬(r' = r ∧ v ≤ w ∧ w < v+1) := by omega
    rw [if_neg hb]
    by_cases h2 : v+1 ≤ w ∧ w < v+1+n
    · have hc : r' = r ∧ v ≤ w ∧ w < v+(1+n) := ⟨hrr, by omega⟩
      have hpa : ((pa+4096)%2^64+4096*(w-(v+1)))%2^64 = (pa+4096*(w-v))%2^64 := by
        have hwv : w-v = w-(v+1)+1 := by omega
        rw [hwv, Nat.mod_add_mod]
        congr 1
        omega
      rw [if_pos ⟨hrr, h2⟩, if_pos hc, hpa]
    · have ha : ¬(r' = r ∧ v+1 ≤ w ∧ w < v+1+n) := fun hh => h2 hh.2
      have hc : ¬(r' = r ∧ v ≤ w ∧ w < v+(1+n)) := by omega
      rw [if_neg ha, if_neg hc]

theorem mappagesLoop_eq (s : Phys) (r start last pa perm : ℕ) :
    mappagesLoop s r start last pa perm = (walk s r start true >>= fun x =>
      if x.1 = 0 then .ok (-1, x.2)
      else if Valid (load64 x.2.mem x.1) then
        .error (.panic "mappages: remap; use 'uvmunmap' first")
      else if start = last then
        .ok (0, ⟨store64 x.2.mem x.1 (mkLeaf pa perm), x.2.freelist⟩)
      else mappagesLoop ⟨store64 x.2.mem x.1 (mkLeaf pa perm), x.2.freelist⟩ r
        (start+PAGE_SIZE) last ((pa+PAGE_SIZE)%2^64) perm) := by
  rw [mappagesLoop]
  split
  · next e he => rw [he, error_bind]
  · next pte s₁ he => rw [he, ok_bind]; rfl

theorem WalkOut.load_leaf {r v a q : ℕ} {s₁ : Phys} {τ₁ : Typing} {l₁ : List ℕ}
    (w : WalkOut sm s τ l 2 r v a s₁ τ₁ l₁) (hr : τ r = .table 2 none)
    (hc : Clear sm r 2 (vpnIndex 2 v)) (hq : descend s₁.mem 2 r v = some q)
    (ha : a = q+8*vpnIndex 0 v) : load64 s₁.mem a = leaf s.mem r v := by
  have hsame : leaf s₁.mem r v = leaf s.mem r v := w.leaves v hr hc
  rw [← hsame, leaf, leafFrom, hq, ha]
  rfl

/-- What a turn does after its walk: the walk failed, the page is mapped already, or the
page gets its leaf and the loop goes on. -/
theorem WalkOut.mappages_turn (vl : ℕ) {r v pa perm : ℕ} {τ₁ : Typing} {l₁ : List ℕ}
    (w : WalkOut sm s τ l 2 r v (walkLoop s r (v*4096) true 2).1 (walkLoop s r (v*4096) true 2).2
      τ₁ l₁) (hr : τ r = .table 2 none) (hc : Clear sm r 2 (vpnIndex 2 v)) (hv : v < 2^26)
    (hpa : pa < 2^64) (hf : perm < 1024) (hx : HasRWX perm) :
    ((walkLoop s r (v*4096) true 2).1 = 0 ∧ l₁ = [] ∧ mappagesLoop s r (v*4096) (vl*4096) pa perm =
        .ok (-1, (walkLoop s r (v*4096) true 2).2)) ∨
      (Valid (leaf s.mem r v) ∧ mappagesLoop s r (v*4096) (vl*4096) pa perm =
        .error (.panic "mappages: remap; use 'uvmunmap' first")) ∨
      (¬Valid (leaf s.mem r v) ∧ ∃ s', MapOut sm s τ l r v 1 pa perm s' τ₁ l₁ ∧
        Grows (walkLoop s r (v*4096) true 2).2 τ₁ s' τ₁ ∧
        mappagesLoop s r (v*4096) (vl*4096) pa perm =
          if v = vl then .ok (0, s')
          else mappagesLoop s' r ((v+1)*4096) (vl*4096) ((pa+4096)%2^64) perm) := by
  have hwalk : walk s r (v*4096) true = .ok (walkLoop s r (v*4096) true 2) := by
    apply walk_eq_ok.mpr
    have hmax : MAXVA = 2^38 := by decide
    exact ⟨by omega, rfl⟩
  rw [mappagesLoop_eq, hwalk, ok_bind]
  generalize walkLoop s r (v*4096) true 2 = x at w ⊢
  rcases w.found with ⟨h0, hnil, _⟩ | ⟨q, hq, ha⟩
  · exact Or.inl ⟨h0, hnil, by rw [if_pos h0]⟩
  have hr₁ := w.grows.table hr
  obtain ⟨par, hτq⟩ := w.typed.descend_typed hr₁ hc hq
  -- the entry lies in a page, so not at 0
  have ha0 : x.1 ≠ 0 := by
    have := (w.typed.page hτq).bounds
    omega
  rw [if_neg ha0, w.load_leaf hr hc hq ha]
  by_cases hval : Valid (leaf s.mem r v)
  · exact Or.inr (Or.inl ⟨hval, by rw [if_pos hval]⟩)
  rw [if_neg hval]
  rw [ha] at w ⊢
  refine Or.inr (Or.inr ⟨hval, _, w.store hr hc (by omega) hq hpa hf hx,
    w.typed.store_leaf_grows _ hτq (vpnIndex_lt 0 v), ?_⟩)
  have hnext : v*4096+PAGE_SIZE = (v+1)*4096 := by
    simp only [PAGE_SIZE]
    omega
  have hlast : v*4096 = vl*4096 ↔ v = vl := by omega
  rw [hnext]
  simp only [hlast, PAGE_SIZE]

theorem Typed.walk_page (h : Typed s τ sm l) {r v : ℕ} (hr : τ r = .table 2 none)
    (hc : Clear sm r 2 (vpnIndex 2 v)) (hv : v < 2^26) :
    ∃ τ₁ l₁, WalkOut sm s τ l 2 r v (walkLoop s r (v*4096) true 2).1
      (walkLoop s r (v*4096) true 2).2 τ₁ l₁ := by
  have hpage : v*4096/4096 = v := by omega
  have halloc := walkLoop_alloc (v*4096) (by rwa [hpage]) 2 h hr (by rwa [hpage])
  rwa [hpage] at halloc

theorem Typed.mappages_turn (h : Typed s τ sm l) (vl : ℕ) {r v pa perm : ℕ}
    (hr : τ r = .table 2 none) (hc : Clear sm r 2 (vpnIndex 2 v)) (hv : v < 2^26)
    (hpa : pa < 2^64) (hf : perm < 1024) (hx : HasRWX perm) :
    ∃ a s₁ τ₁ l₁, WalkOut sm s τ l 2 r v a s₁ τ₁ l₁ ∧
      ((a = 0 ∧ l₁ = [] ∧
          mappagesLoop s r (v*4096) (vl*4096) pa perm = .ok (-1, s₁)) ∨
        (Valid (leaf s.mem r v) ∧ mappagesLoop s r (v*4096) (vl*4096) pa perm =
          .error (.panic "mappages: remap; use 'uvmunmap' first")) ∨
        (¬Valid (leaf s.mem r v) ∧ ∃ s', MapOut sm s τ l r v 1 pa perm s' τ₁ l₁ ∧
          Grows s₁ τ₁ s' τ₁ ∧ mappagesLoop s r (v*4096) (vl*4096) pa perm =
            if v = vl then .ok (0, s')
            else mappagesLoop s' r ((v+1)*4096) (vl*4096) ((pa+4096)%2^64) perm)) := by
  obtain ⟨τ₁, l₁, w⟩ := h.walk_page hr hc hv
  exact ⟨_, _, τ₁, l₁, w, w.mappages_turn vl hr hc hv hpa hf hx⟩

theorem mappagesLoop_panics (s : Phys) {r start last pa perm : ℕ} (h : MAXVA ≤ start) :
    mappagesLoop s r start last pa perm = .error (.panic "walk\n") := by
  rw [mappagesLoop_eq, walk, if_pos h]
  rfl

theorem MAXVA_le {v : ℕ} (h : ¬v < 2^26) : MAXVA ≤ v*4096 := by
  have hmax : MAXVA = 2^38 := by decide
  omega

theorem mappagesLoop_lt {s : Phys} {r v last pa perm : ℕ} {x : ℤ × Phys}
    (hrun : mappagesLoop s r (v*4096) last pa perm = .ok x) : v < 2^26 := by
  by_contra hge
  rw [mappagesLoop_panics s (MAXVA_le hge)] at hrun
  cases hrun

theorem Typed.mappagesLoop_ok {r vl perm : ℕ} (hf : perm < 1024) (hx : HasRWX perm) (k : ℕ) :
    ∀ {s : Phys} {τ : Typing} {l : List ℕ} {v pa : ℕ} {res : ℤ} {s' : Phys},
    Typed s τ sm l → 2^26 ≤ v+k → τ r = .table 2 none → pa < 2^64 →
    (∀ w, v ≤ w → (v ≤ vl → w ≤ vl) → Clear sm r 2 (vpnIndex 2 w)) →
    mappagesLoop s r (v*4096) (vl*4096) pa perm = .ok (res, s') →
    ∃ τ' l' n, MapOut sm s τ l r v n pa perm s' τ' l' ∧ v+n ≤ 2^26 ∧
      (∀ w, v ≤ w → w < v+n → ¬Valid (leaf s.mem r w)) ∧
      (res = 0 ∧ v+n = vl+1 ∧ 0 < n ∨ res = -1 ∧ l' = [] ∧ (v ≤ vl → v+n ≤ vl)) := by
  induction k with
  | zero =>
    intro s τ l v pa res s' _ hk _ _ _ hrun
    have hlt := mappagesLoop_lt hrun
    omega
  | succ k ih =>
    intro s τ l v pa res s' h hk hr hpa hc hrun
    have hv := mappagesLoop_lt hrun
    obtain ⟨a, s₁, τ₁, l₁, w, hcase⟩ :=
      h.mappages_turn vl hr (hc v le_rfl id) hv hpa hf hx
    rcases hcase with ⟨_, hnil, he⟩ | ⟨_, he⟩ | ⟨hval, s₂, m, g, he⟩
    · rw [he] at hrun
      cases hrun
      refine ⟨τ₁, l₁, 0, w.mapOut _ _, by omega, fun w h1 h2 => by omega, ?_⟩
      exact Or.inr ⟨rfl, hnil, fun hle => by omega⟩
    · rw [he] at hrun
      cases hrun
    · rw [he] at hrun
      by_cases hvl : v = vl
      · rw [if_pos hvl] at hrun
        cases hrun
        refine ⟨τ₁, l₁, 1, m, by omega, ?_, Or.inl ⟨rfl, by omega, by omega⟩⟩
        intro x h1 h2
        have hxv : x = v := by omega
        rwa [hxv]
      · rw [if_neg hvl] at hrun
        obtain ⟨τ', l', n, m', hn, hun, hres⟩ := ih m.typed (by omega) (m.grows.table hr)
          (Nat.mod_lt _ (by decide)) (fun x h1 h2 => hc x (by omega) (fun _ => by omega)) hrun
        refine ⟨τ', l', 1+n, m.cons m', by omega, ?_, ?_⟩
        · intro x h1 h2
          by_cases hxv : x = v
          · rwa [hxv]
          · have hx' := hun x (by omega) (by omega)
            rw [m.leaves hr (hc x (by omega) (fun _ => by omega)) (by omega)] at hx'
            have hout : ¬(r = r ∧ v ≤ x ∧ x < v+1) := by omega
            rwa [if_neg hout] at hx'
        · rcases hres with ⟨hr0, hend, hpos⟩ | ⟨hr1, hnil, hle⟩
          · exact Or.inl ⟨hr0, by omega, by omega⟩
          · exact Or.inr ⟨hr1, hnil, fun _ => by omega⟩

theorem Budget.grows {r N : ℕ} {G : Finset ℕ} {s' : Phys} {τ' : Typing}
    (h : Budget s.mem r l N G) (ht : Typed s τ sm l) (g : Grows s τ s' τ')
    (hr : τ r = .table 2 none) (hG : ∀ x ∈ G, Clear sm r 2 (vpnIndex 2 (512*x))) :
    Budget s'.mem r l N G :=
  h.spend 0 (by omega) (fun x hx hp => ht.populated_grows g hr (hG x hx) hp)

theorem Typed.mappages_turn_map (h : Typed s τ sm l) (vl : ℕ) {r v pa perm N : ℕ} {G : Finset ℕ}
    (hr : τ r = .table 2 none) (hv : v < 2^26) (hpa : pa < 2^64) (hf : perm < 1024)
    (hx : HasRWX perm) (hN : 2*G.card < N)
    (hG : ∀ x ∈ G, Clear sm r 2 (vpnIndex 2 (512*x))) (hreg : v/512 ∈ G)
    (hun : ¬Valid (leaf s.mem r v)) (hb : Budget s.mem r l N G) :
    ∃ s' τ' l', MapOut sm s τ l r v 1 pa perm s' τ' l' ∧ Budget s'.mem r l' N G ∧
      mappagesLoop s r (v*4096) (vl*4096) pa perm =
        if v = vl then .ok (0, s')
        else mappagesLoop s' r ((v+1)*4096) (vl*4096) ((pa+4096)%2^64) perm := by
  have hc : Clear sm r 2 (vpnIndex 2 v) := by
    rw [← vpnIndex_region v]
    exact hG _ hreg
  obtain ⟨a, s₁, τ₁, l₁, w, hcase⟩ := h.mappages_turn vl hr hc hv hpa hf hx
  obtain ⟨⟨q, hq, ha⟩, hb₁⟩ := w.budget h hr hG hreg hb hN
  have hr₁ := w.grows.table hr
  rcases hcase with ⟨h0, _, _⟩ | ⟨hval, _⟩ | ⟨_, s₂, m, g, he⟩
  · -- the walk found its table, so it did not fail
    obtain ⟨_, hτq⟩ := w.typed.descend_typed hr₁ hc hq
    have := (w.typed.page hτq).bounds
    omega
  · exact absurd hval hun
  · exact ⟨s₂, τ₁, l₁, m, hb₁.grows w.typed g hr₁ hG, he⟩

/-- Where the pages are unmapped and their regions are within the budget, the loop
maps them all. -/
theorem Typed.mappagesLoop_map {r vl perm N : ℕ} {G : Finset ℕ} (hf : perm < 1024)
    (hx : HasRWX perm) (hvl : vl < 2^26) (hN : 2*G.card < N)
    (hG : ∀ x ∈ G, Clear sm r 2 (vpnIndex 2 (512*x))) (n : ℕ) :
    ∀ {s : Phys} {τ : Typing} {l : List ℕ} {v pa : ℕ}, v+n = vl → Typed s τ sm l →
    τ r = .table 2 none → pa < 2^64 → (∀ w, v ≤ w → w ≤ vl → w/512 ∈ G) →
    (∀ w, v ≤ w → w ≤ vl → ¬Valid (leaf s.mem r w)) → Budget s.mem r l N G →
    ∃ s' τ' l', mappagesLoop s r (v*4096) (vl*4096) pa perm = .ok (0, s') ∧
      MapOut sm s τ l r v (n+1) pa perm s' τ' l' ∧ Budget s'.mem r l' N G := by
  induction n with
  | zero =>
    intro s τ l v pa hn h hr hpa hreg hun hb
    obtain ⟨s₂, τ₂, l₂, m, hb₂, he⟩ := h.mappages_turn_map vl hr (by omega) hpa hf hx
      hN hG (hreg v le_rfl (by omega)) (hun v le_rfl (by omega)) hb
    rw [if_pos (by omega)] at he
    exact ⟨s₂, τ₂, l₂, he, m, hb₂⟩
  | succ n ih =>
    intro s τ l v pa hn h hr hpa hreg hun hb
    obtain ⟨s₂, τ₂, l₂, m, hb₂, he⟩ := h.mappages_turn_map vl hr (by omega) hpa hf hx
      hN hG (hreg v le_rfl (by omega)) (hun v le_rfl (by omega)) hb
    rw [if_neg (by omega)] at he
    have hun' (x : ℕ) (h1 : v+1 ≤ x) (h2 : x ≤ vl) : ¬Valid (leaf s₂.mem r x) := by
      have hc : Clear sm r 2 (vpnIndex 2 x) := by
        rw [← vpnIndex_region x]
        exact hG _ (hreg x (by omega) h2)
      have hout : ¬(r = r ∧ v ≤ x ∧ x < v+1) := by omega
      rw [m.leaves hr hc (by omega), if_neg hout]
      exact hun x (by omega) h2
    obtain ⟨s', τ', l', hrun, m', hb'⟩ := ih (by omega) m.typed (m.grows.table hr)
      (Nat.mod_lt _ (by decide)) (fun x h1 h2 => hreg x (by omega) h2) hun' hb₂
    refine ⟨s', τ', l', he.trans hrun, ?_, hb'⟩
    have hm := m.cons m'
    rwa [Nat.add_comm 1] at hm

/-! ### mappages on page numbers -/

theorem mappages_eq {s : Phys} {r va size pa perm : ℕ} (h0 : 0 < size)
    (hlt : va+size ≤ 2^64) : mappages s r va size pa perm =
      mappagesLoop s r (va/4096*4096) ((va+size-1)/4096*4096) pa perm := by
  have hlast : (va+size-1)%2^64 = va+size-1 := Nat.mod_eq_of_lt (by omega)
  rw [mappages, if_neg (by omega), hlast]
  simp only [ROUNDDOWN_page va (by omega), ROUNDDOWN_page (va+size-1) (by omega)]

theorem page_last (v : ℕ) : (v*4096+4096-1)/4096*4096 = v*4096 := by omega

theorem mappages_page_eq {s : Phys} {r v pa perm : ℕ} (hv : v*4096+4096 ≤ 2^64) :
    mappages s r (v*4096) PAGE_SIZE pa perm =
      mappagesLoop s r (v*4096) (v*4096) pa perm := by
  have hsize : PAGE_SIZE = 4096 := rfl
  rw [hsize, mappages_eq (by decide) hv, page_last, Nat.mul_div_cancel v (by decide)]

theorem Typed.mappages_page_ok (h : Typed s τ sm l) {r v pa perm : ℕ} {res : ℤ} {s' : Phys}
    (hr : τ r = .table 2 none) (hc : Clear sm r 2 (vpnIndex 2 v)) (hv : v*4096+4096 ≤ 2^64)
    (hpa : pa < 2^64) (hf : perm < 1024) (hx : HasRWX perm)
    (hrun : mappages s r (v*4096) PAGE_SIZE pa perm = .ok (res, s')) :
    ∃ τ' l', v < 2^26 ∧
      (res = 0 ∧ ¬Valid (leaf s.mem r v) ∧ MapOut sm s τ l r v 1 pa perm s' τ' l' ∨
        res = -1 ∧ MapOut sm s τ l r v 0 pa perm s' τ' l') := by
  rw [mappages_page_eq hv] at hrun
  have hclear (w : ℕ) (h1 : v ≤ w) (h2 : v ≤ v → w ≤ v) : Clear sm r 2 (vpnIndex 2 w) := by
    have hwv : w = v := by omega
    rwa [hwv]
  obtain ⟨k, hk⟩ : ∃ k, 2^26 ≤ v+k := ⟨2^26, Nat.le_add_left _ _⟩
  obtain ⟨τ', l', n, m, hn, hun, hres⟩ := h.mappagesLoop_ok hf hx k hk hr hpa hclear hrun
  refine ⟨τ', l', mappagesLoop_lt hrun, ?_⟩
  rcases hres with ⟨h0, hend, _⟩ | ⟨h1, _, hle⟩
  · have hn1 : n = 1 := by omega
    subst hn1
    exact Or.inl ⟨h0, hun v le_rfl (by omega), m⟩
  · have hn0 : n = 0 := by
      have := hle le_rfl
      omega
    subst hn0
    exact Or.inr ⟨h1, m⟩

end RiscvMos
