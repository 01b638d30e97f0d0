import Mathlib.Data.List.Perm.Basic
import RiscvMos.PageTyping

/-! Well-formed page tables, by what the entries reachable from the root say, and the
typing of the heap that such a table has. -/
namespace RiscvMos
open ByteMem LinkChain

/-- The table pages of a tree, found from its root by the valid entries above
level 0. -/
inductive TableAt (m : Mem) (r : ℕ) : ℕ → ℕ → Prop
  | root : TableAt m r 2 r
  | next {level p i : ℕ} (hp : TableAt m r (level+1) p) (hi : i < 512)
    (hv : Valid (entry m p i)) : TableAt m r level (PTE2PA (entry m p i))

theorem TableAt.level_le {m : Mem} {r level p : ℕ} (h : TableAt m r level p) : level ≤ 2 := by
  induction h with
  | root => exact le_rfl
  | next _ _ _ ih => exact Nat.le_of_succ_le ih

/-- A three-level tree below `r` on heap pages that no free page belongs to, in which
no table has two entries that point to it; `l` is the free list. -/
structure WellFormed (s : Phys) (r : ℕ) (l : List ℕ) : Prop where
  free : FreeList s l
  page : ∀ {level p}, TableAt s.mem r level p → IsPage p ∧ p ∉ l
  inner : ∀ {level p i}, TableAt s.mem r (level+1) p → i < 512 → Valid (entry s.mem p i) →
    entry s.mem p i = PA2PTE (PTE2PA (entry s.mem p i)) ||| PTE_V
  leafOk : ∀ {p i}, TableAt s.mem r 0 p → i < 512 → Valid (entry s.mem p i) →
    entry s.mem p i < 2^62 ∧ HasRWX (entry s.mem p i)
  root : ∀ {level p i}, TableAt s.mem r (level+1) p → i < 512 → Valid (entry s.mem p i) →
    PTE2PA (entry s.mem p i) ≠ r
  once : ∀ {level p i level' p' i'}, TableAt s.mem r (level+1) p → TableAt s.mem r (level'+1) p' →
    i < 512 → i' < 512 → Valid (entry s.mem p i) → Valid (entry s.mem p' i') →
    PTE2PA (entry s.mem p i) = PTE2PA (entry s.mem p' i') → level = level' ∧ p = p' ∧ i = i'

theorem tableAt_agree {m m' : Mem} {r : ℕ}
    (hm : ∀ level p, TableAt m r level p → AgreeOn m' m p 4096) (level p : ℕ) :
    TableAt m' r level p ↔ TableAt m r level p := by
  constructor
  · intro hp
    induction hp with
    | root => exact .root
    | next _ hi hv ih =>
      rw [entry_agree (hm _ _ ih) hi] at hv ⊢
      exact ih.next hi hv
  · intro hp
    induction hp with
    | root => exact .root
    | @next level p i hp hi hv ih =>
      have he := entry_agree (hm _ _ hp) hi
      rw [← he] at hv ⊢
      exact ih.next hi hv

/-! ### From the tree to a typing -/

/-- The level and the parent entry of the table `p`. -/
inductive TableNode (m : Mem) (r : ℕ) : ℕ → ℕ → Option (ℕ × ℕ) → Prop
  | root : TableNode m r r 2 none
  | next {level p i : ℕ} (hp : TableAt m r (level+1) p) (hi : i < 512)
    (hv : Valid (entry m p i)) : TableNode m r (PTE2PA (entry m p i)) level (some (p,i))

theorem TableNode.tableAt {m : Mem} {r p level : ℕ} {par : Option (ℕ × ℕ)}
    (h : TableNode m r p level par) : TableAt m r level p := by
  cases h with
  | root => exact .root
  | next hp hi hv => exact .next hp hi hv

theorem TableAt.node {m : Mem} {r level p : ℕ} (h : TableAt m r level p) :
    ∃ par, TableNode m r p level par := by
  cases h with
  | root => exact ⟨none, .root⟩
  | next hp hi hv => exact ⟨_, .next hp hi hv⟩

variable {s : Phys} {r : ℕ} {l : List ℕ}

theorem WellFormed.node_unique (h : WellFormed s r l) {p level level' : ℕ}
    {par par' : Option (ℕ × ℕ)} (hn : TableNode s.mem r p level par)
    (hn' : TableNode s.mem r p level' par') : level = level' ∧ par = par' := by
  -- `p` is kept apart from the two indices to compare its two parent entries
  generalize hq : p = q at hn'
  cases hn with
  | root =>
    cases hn' with
    | root => exact ⟨rfl, rfl⟩
    | next hp hi hv => exact absurd hq.symm (h.root hp hi hv)
  | next hp hi hv =>
    cases hn' with
    | root => exact absurd hq (h.root hp hi hv)
    | next hp' hi' hv' =>
      obtain ⟨rfl, rfl, rfl⟩ := h.once hp hp' hi hi' hv hv' hq
      exact ⟨rfl, rfl⟩

open Classical in
/-- Free pages are on the list, tables in the tree, and all others are frames. -/
noncomputable def treeTyping (s : Phys) (r : ℕ) (l : List ℕ) : Typing := fun p =>
  if p ∈ l then .free
  else if h : ∃ x : ℕ × Option (ℕ × ℕ), TableNode s.mem r p x.1 x.2 then
    .table h.choose.1 h.choose.2
  else .frame none

theorem treeTyping_free (s : Phys) (r : ℕ) (l : List ℕ) (p : ℕ) :
    treeTyping s r l p = .free ↔ p ∈ l := by
  rw [treeTyping]
  split_ifs with h1 h2 <;> simp [h1]

theorem WellFormed.treeTyping_table (h : WellFormed s r l) (p level : ℕ) (par : Option (ℕ × ℕ)) :
    treeTyping s r l p = .table level par ↔ TableNode s.mem r p level par := by
  rw [treeTyping]
  constructor
  · intro he
    split_ifs at he with h1 h2
    obtain ⟨rfl, rfl⟩ := PageKind.table.inj he
    exact h2.choose_spec
  · intro hn
    have hex : ∃ x : ℕ × Option (ℕ × ℕ), TableNode s.mem r p x.1 x.2 := ⟨(level, par), hn⟩
    rw [if_neg (h.page hn.tableAt).2, dif_pos hex]
    obtain ⟨h1, h2⟩ := h.node_unique hex.choose_spec hn
    rw [h1, h2]

theorem WellFormed.treeTyping_frame (h : WellFormed s r l) {p : ℕ} (hl : p ∉ l)
    (ht : ∀ level, ¬TableAt s.mem r level p) : treeTyping s r l p = .frame none := by
  cases hp : treeTyping s r l p with
  | free => exact absurd ((treeTyping_free s r l p).mp hp) hl
  | table level par => exact absurd ((h.treeTyping_table p level par).mp hp).tableAt (ht level)
  | frame o =>
    rw [treeTyping, if_neg hl] at hp
    split_ifs at hp
    exact hp.symm

theorem WellFormed.treeTyping_root (h : WellFormed s r l) {p : ℕ}
    (hp : treeTyping s r l p = .table 2 none) : p = r := by
  generalize hpar : (none : Option (ℕ × ℕ)) = par at hp
  cases (h.treeTyping_table p 2 par).mp hp with
  | root => rfl
  | next _ _ _ => cases hpar

theorem WellFormed.typed (h : WellFormed s r l) :
    Typed s (treeTyping s r l) noSelfMap l ∧ treeTyping s r l r = .table 2 none := by
  have htab := h.treeTyping_table
  refine ⟨?_, (htab _ _ _).mpr .root⟩
  constructor
  case free => exact h.free
  case mem_free =>
    intro p
    rw [treeTyping_free]
    exact ⟨fun hp => ⟨h.free.pages p hp, hp⟩, fun hp => hp.2⟩
  case page => exact fun hp => (h.page ((htab _ _ _).mp hp).tableAt).1
  case level =>
    intro p level par hp
    have hn := (htab _ _ _).mp hp
    refine ⟨hn.tableAt.level_le, ?_⟩
    cases hn with
    | root => simp
    | next hq _ _ =>
      have := hq.level_le
      simp only [reduceCtorEq, iff_false]
      omega
  case parent =>
    intro c level p i hc
    generalize hpar : some (p,i) = par at hc
    cases (htab _ _ _).mp hc with
    | root => cases hpar
    | next hp hi hv =>
      cases hpar
      obtain ⟨par, hn⟩ := hp.node
      exact ⟨hi, clear_noSelfMap _ _ _, ⟨par, (htab _ _ _).mpr hn⟩, h.inner hp hi hv⟩
  case child =>
    intro p level par i hp hi _ hv
    have hn := (htab _ _ _).mp hp
    exact ⟨_, (htab _ _ _).mpr (.next hn.tableAt hi hv)⟩
  case leafOk => exact fun hp hi hv => h.leafOk ((htab _ _ _).mp hp).tableAt hi hv
  case selfMap => exact fun hp => hp.elim

theorem WellFormed.leaf_agree (h : WellFormed s r l) {s' : Phys}
    (hm : ∀ level p, TableAt s.mem r level p → AgreeOn s'.mem s.mem p 4096) (v : ℕ) :
    leaf s'.mem r v = leaf s.mem r v := by
  obtain ⟨ht, hr⟩ := h.typed
  exact ht.leafFrom_agree (fun hp => hm _ _ ((h.treeTyping_table _ _ _).mp hp).tableAt) v hr
    (clear_noSelfMap _ _ _)

/-! ### From a typing to the tree -/

section
variable {τ : Typing}

/-- The tree of a root without self map stays among the tables, and none of its pages is a
root with a self map. -/
theorem Typed.tableAt_clear {sm : ℕ → Prop} (h : Typed s τ sm l) (hr : τ r = .table 2 none)
    (hsm : ¬sm r) {level p : ℕ} (hp : TableAt s.mem r level p) :
    (∃ par, τ p = .table level par) ∧ ∀ i, Clear sm p level i := by
  induction hp with
  | root => exact ⟨⟨none, hr⟩, fun i hh => hsm hh.1⟩
  | next hp hi hv ih =>
    obtain ⟨⟨par, hpar⟩, hclear⟩ := ih
    have hlevel := hp.level_le
    exact ⟨⟨_, h.next hpar hi (hclear _) hv⟩, fun i => Typed.clear_of_lt _ _ _ (by omega)⟩

theorem Typed.tableAt (h : Typed s τ noSelfMap l) (hr : τ r = .table 2 none) {level p : ℕ}
    (hp : TableAt s.mem r level p) : ∃ par, τ p = .table level par :=
  (h.tableAt_clear hr (fun hh => hh) hp).1

/-- A table page belongs to one tree: its parents lead back to one root. -/
theorem Typed.tableAt_apart (h : Typed s τ noSelfMap l) (hr : τ r = .table 2 none) {r' : ℕ}
    (hr' : τ r' = .table 2 none) {level level' p : ℕ} (hp : TableAt s.mem r level p)
    (hp' : TableAt s.mem r' level' p) : r = r' ∧ level = level' := by
  have hnext {r level q i : ℕ} (hr : τ r = .table 2 none) (hq : TableAt s.mem r (level+1) q)
      (hi : i < 512) (hv : Valid (entry s.mem q i)) :
      τ (PTE2PA (entry s.mem q i)) = .table level (some (q,i)) := by
    obtain ⟨par, hpar⟩ := h.tableAt hr hq
    exact h.next hpar hi (clear_noSelfMap _ _ _) hv
  induction hp generalizing level' with
  | root =>
    cases hp' with
    | root => exact ⟨rfl, rfl⟩
    | next hq hi hv =>
      rw [hnext hr' hq hi hv] at hr
      cases hr
  | @next level q i hq hi hv ih =>
    have hτ := hnext hr hq hi hv
    generalize hc : PTE2PA (entry s.mem q i) = c at hτ hp'
    cases hp' with
    | root =>
      rw [hr'] at hτ
      cases hτ
    | @next _ q' i' hq' hi' hv' =>
      rw [hnext hr' hq' hi' hv'] at hτ
      cases hτ
      obtain ⟨hrr, _⟩ := ih hq'
      exact ⟨hrr, rfl⟩

theorem Typed.exists_tableAt {sm : ℕ → Prop} (h : Typed s τ sm l) {level p : ℕ}
    {par : Option (ℕ × ℕ)} (hp : τ p = .table level par) :
    ∃ r, τ r = .table 2 none ∧ TableAt s.mem r level p := by
  obtain ⟨k, hk⟩ : ∃ k, level+k = 2 := ⟨2-level, by have := (h.level hp).1; omega⟩
  -- up from the table to the root
  induction k generalizing level p par with
  | zero =>
    obtain rfl : level = 2 := by omega
    exact ⟨p, h.root hp, .root⟩
  | succ k ih =>
    cases par with
    | none =>
      have h2 := (h.level hp).2.mpr rfl
      omega
    | some pi =>
      obtain ⟨hi, _, ⟨par', hq⟩, he⟩ := h.parent hp
      obtain ⟨r, hr, hat⟩ := ih hq (by omega)
      have hnext := TableAt.next hat hi (by rw [he]; exact Valid_table p)
      rw [he, PTE2PA_table (h.page hp)] at hnext
      exact ⟨r, hr, hnext⟩

theorem Typed.tableAt_of_root (h : Typed s τ noSelfMap l) (honly : ∀ p, τ p = .table 2 none → p = r)
    {level p : ℕ} {par : Option (ℕ × ℕ)} (hp : τ p = .table level par) : TableAt s.mem r level p := by
  obtain ⟨r', hr', hat⟩ := h.exists_tableAt hp
  rwa [← honly r' hr']

theorem Typed.wellFormed_clear {sm : ℕ → Prop} (h : Typed s τ sm l) (hr : τ r = .table 2 none)
    (hsm : ¬sm r) : WellFormed s r l := by
  have hnext {level p i : ℕ} (hp : TableAt s.mem r (level+1) p) (hi : i < 512)
      (hv : Valid (entry s.mem p i)) : τ (PTE2PA (entry s.mem p i)) = .table level (some (p,i)) := by
    obtain ⟨⟨par, hpar⟩, hclear⟩ := h.tableAt_clear hr hsm hp
    exact h.next hpar hi (hclear i) hv
  constructor
  case free => exact h.free
  case page =>
    intro level p hp
    obtain ⟨⟨par, hpar⟩, _⟩ := h.tableAt_clear hr hsm hp
    refine ⟨h.page hpar, fun hl => ?_⟩
    rw [((h.mem_free p).mp hl).2] at hpar
    cases hpar
  case inner => exact fun hp hi hv => (h.parent (hnext hp hi hv)).2.2.2
  case leafOk =>
    intro p i hp hi hv
    obtain ⟨⟨par, hpar⟩, _⟩ := h.tableAt_clear hr hsm hp
    exact h.leafOk hpar hi hv
  case root =>
    intro level p i hp hi hv he
    have hn := hnext hp hi hv
    rw [he, hr] at hn
    cases hn
  case once =>
    intro level p i level' p' i' hp hp' hi hi' hv hv' he
    have hn := hnext hp hi hv
    rw [he, hnext hp' hi' hv'] at hn
    cases hn
    exact ⟨rfl, rfl, rfl⟩

theorem Typed.wellFormed (h : Typed s τ noSelfMap l) (hr : τ r = .table 2 none) :
    WellFormed s r l :=
  h.wellFormed_clear hr (fun hh => hh)

end

end RiscvMos
