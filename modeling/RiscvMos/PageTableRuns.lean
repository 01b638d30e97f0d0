import RiscvMos.AllocatorRuns
import RiscvMos.KvmCopySpec
import RiscvMos.PageTable
import RiscvMos.UvmallocSpec

/-! Runs of the page-table code of vm.c over any number of page tables, next to
other holders of pages. -/
namespace RiscvMos
open ByteMem LinkChain Function

/-- The allocator, the frames that are held, and the roots of the page tables. -/
structure VmState extends AllocState where
  roots : Set ℕ

namespace VmState

/-- The memory changed, and nobody got or lost a page for their own use. -/
def put (a : VmState) (s : Phys) : VmState := ⟨⟨s, a.held⟩, a.roots⟩

end VmState

open Classical in
/-- The frames held after `uvmalloc` returned `x`. -/
noncomputable def heldGrown (held : Set ℕ) (m : Mem) (r old_size new_size x : ℕ) : Set ℕ :=
  if x = new_size then
    held ∪ {p | ∃ w, GrownPages old_size new_size w ∧ p = PTE2PA (leaf m r w)}
  else held

/-- `uvmunmap` has a page to go through. -/
def UnmapsPage (va npages : ℕ) : Prop := va < (va+npages*PAGE_SIZE)%2^64

open Classical in
/-- The frames held after `uvmunmap` took away the leaf frame `p`. -/
noncomputable def heldUnmapped (held : Set ℕ) (va npages : ℕ) (do_free : Bool) (p : ℕ) :
    Set ℕ :=
  if do_free ∧ UnmapsPage va npages then held \ {p} else held

/-- One call that returns, or a write of code that leaves the table pages alone. -/
inductive VmStep : VmState → VmState → Prop
  | client (a : VmState) (b : AllocState) (h : AllocStep a.toAllocState b) :
    VmStep a ⟨b, a.roots⟩
  | outside (a : VmState) (m' : Mem)
    (hm : ∀ b, KERNEND ≤ b → b < PHYEND → m' b = a.phys.mem b) :
    VmStep a (a.put ⟨m', a.phys.freelist⟩)
  | uvmcreate (a : VmState) :
    VmStep a ⟨⟨(uvmcreate a.phys).2, a.held⟩, heldAfter a.roots (uvmcreate a.phys).1⟩
  | walk (a : VmState) (r va pte : ℕ) (s' : Phys) (hr : r ∈ a.roots)
    (hk : walk a.phys r va true = .ok (pte, s')) : VmStep a (a.put s')
  | mappages (a : VmState) (r va size pa perm : ℕ) (res : ℤ) (s' : Phys) (hr : r ∈ a.roots)
    (hva : va < MAXVA) (hpa : pa < 2^64) (hf : perm < 1024) (hx : HasRWX perm)
    (hk : mappages a.phys r va size pa perm = .ok (res, s')) : VmStep a (a.put s')
  | uvmalloc (a : VmState) (r old_size new_size perm x : ℕ) (s' : Phys) (hr : r ∈ a.roots)
    (hn : new_size < 2^64) (hf : perm < 1024)
    (hk : uvmalloc a.phys r old_size new_size perm = .ok (x, s')) :
    VmStep a ⟨⟨s', heldGrown a.held s'.mem r old_size new_size x⟩, a.roots⟩
  | kvmCopy (a : VmState) (k u : ℕ) (res : ℤ) (s' : Phys) (hk : k ∈ a.roots) (hu : u ∈ a.roots)
    (hc : kvmCopyToUserPagetable a.phys k u = .ok (res, s')) : VmStep a (a.put s')
  | uvmunmap (a : VmState) (r va npages : ℕ) (do_free : Bool) (res : ℤ) (s' : Phys)
    (hr : r ∈ a.roots) (hva : va < MAXVA)
    (hfree : do_free → UnmapsPage va npages →
      PTE2PA (leaf a.phys.mem r (va/4096)) ∈ a.held)
    (hk : uvmunmap a.phys r va npages do_free = .ok (res, s')) :
    VmStep a ⟨⟨s', heldUnmapped a.held va npages do_free
      (PTE2PA (leaf a.phys.mem r (va/4096)))⟩, a.roots⟩

/-! ### The invariant of the runs -/

/-- The typing that explains the heap: roots and held frames are what it says. -/
structure VmInv (a : VmState) (τ : Typing) (l : List ℕ) : Prop where
  typed : Typed a.phys τ noSelfMap l
  roots_iff : ∀ p, p ∈ a.roots ↔ τ p = .table 2 none
  held_iff : ∀ p, p ∈ a.held ↔ IsPage p ∧ ∃ o, τ p = .frame o

namespace VmInv

variable {a : VmState} {τ : Typing} {l : List ℕ}

theorem grows (h : VmInv a τ l) {s' : Phys} {τ' : Typing} {l' : List ℕ}
    (ht : Typed s' τ' noSelfMap l') (g : Grows a.phys τ s' τ') : VmInv (a.put s') τ' l' :=
  ⟨ht, fun p => (h.roots_iff p).trans (g.root_iff p).symm,
    fun p => (h.held_iff p).trans (and_congr Iff.rfl (g.frame_iff p).symm)⟩

theorem kalloc_client (h : VmInv a τ l) :
    ∃ τ' l', VmInv ⟨⟨(kalloc a.phys).2, heldAfter a.held (kalloc a.phys).1⟩, a.roots⟩ τ' l' := by
  cases l with
  | nil =>
    rw [kalloc_nil h.typed.free]
    have hheld : heldAfter a.held 0 = a.held := if_pos rfl
    exact ⟨τ, [], h.typed, h.roots_iff, by rw [hheld]; exact h.held_iff⟩
  | cons c l =>
    obtain ⟨s', hk, h', _, _⟩ := h.typed.kalloc_frame none
    have hpage := h.typed.free.pages c List.mem_cons_self
    have hfree := h.typed.free_kind List.mem_cons_self
    have hb := hpage.bounds
    rw [hk]
    refine ⟨_, l, h', ?_, ?_⟩
    · intro p
      rw [h.roots_iff p]
      exact (Typed.update_table_iff (Typed.not_table_of_free hfree) (by simp) p 2 none).symm
    · intro p
      rw [heldAfter_of_ne (by omega), Set.mem_insert_iff, h.held_iff p]
      by_cases hpc : p = c
      · rw [hpc, update_same_kind]
        simp [hpage]
      · rw [update_other_kind _ _ hpc]
        simp [hpc]

theorem kfree_client (h : VmInv a τ l) {p : ℕ} (hp : p ∈ a.held) {s' : Phys}
    (hk : kfree a.phys p = .ok s') :
    ∃ τ' l', VmInv ⟨⟨s', a.held \ {p}⟩, a.roots⟩ τ' l' := by
  obtain ⟨hpage, o, ho⟩ := (h.held_iff p).mp hp
  obtain ⟨s₁, hk', h', _⟩ := h.typed.kfree_frame hpage ho
  rw [hk] at hk'
  cases hk'
  refine ⟨_, _, h', ?_, ?_⟩
  · intro q
    rw [h.roots_iff q]
    exact (Typed.update_table_iff (fun _ _ => by simp [ho]) (by simp) q 2 none).symm
  · intro q
    by_cases hqp : q = p
    · rw [hqp, update_same_kind]
      simp
    · rw [update_other_kind _ _ hqp, ← h.held_iff q]
      simp [hqp]

theorem write (h : VmInv a τ l) {m' : Mem}
    (hm : ∀ p, IsPage p → p ∉ a.held → AgreeOn m' a.phys.mem p 4096) :
    VmInv (a.put ⟨m', a.phys.freelist⟩) τ l := by
  refine ⟨h.typed.write_frames ?_, h.roots_iff, h.held_iff⟩
  intro p hp ho
  apply hm p hp
  intro hh
  obtain ⟨_, o, hpo⟩ := (h.held_iff p).mp hh
  exact ho o hpo

theorem client (h : VmInv a τ l) {b : AllocState} (hs : AllocStep a.toAllocState b) :
    ∃ τ' l', VmInv ⟨b, a.roots⟩ τ' l' := by
  cases hs with
  | kalloc => exact h.kalloc_client
  | kfree p s' hp hk => exact h.kfree_client hp hk
  | write m' hm =>
    refine ⟨τ, l, h.write ?_⟩
    intro p hp hno b hl hu
    apply hm
    rintro ⟨q, hq, hql, hqu⟩
    have hqp := ((h.held_iff q).mp hq).1
    have hne : p ≠ q := fun he => hno (he ▸ hq)
    have hd := hp.disjoint hqp hne
    simp only [PAGE_SIZE] at hqu
    omega

theorem uvmcreate (h : VmInv a τ l) :
    ∃ τ' l', VmInv ⟨⟨(uvmcreate a.phys).2, a.held⟩,
      heldAfter a.roots (RiscvMos.uvmcreate a.phys).1⟩ τ' l' := by
  cases l with
  | nil =>
    have hnone : RiscvMos.uvmcreate a.phys = (0, a.phys) := by
      simp [RiscvMos.uvmcreate, kalloc_nil h.typed.free]
    have hroots : heldAfter a.roots 0 = a.roots := if_pos rfl
    rw [hnone]
    exact ⟨τ, [], h.typed, by rw [hroots]; exact h.roots_iff, h.held_iff⟩
  | cons c l =>
    obtain ⟨s₁, hk, h', _, _⟩ := h.typed.kalloc_root
    have hpage := h.typed.free.pages c List.mem_cons_self
    have hfree := h.typed.free_kind List.mem_cons_self
    have hb := hpage.bounds
    have hsome : RiscvMos.uvmcreate a.phys =
        (c, ⟨(memset s₁.mem c 0 PAGE_SIZE).2, s₁.freelist⟩) := by
      simp only [RiscvMos.uvmcreate, hk]
      rw [if_neg (by omega)]
    rw [hsome]
    refine ⟨_, l, h', ?_, ?_⟩
    · intro p
      rw [heldAfter_of_ne (by omega), Set.mem_insert_iff, h.roots_iff p]
      by_cases hpc : p = c
      · rw [hpc, update_same_kind]
        simp
      · rw [update_other_kind _ _ hpc]
        simp [hpc]
    · intro p
      rw [h.held_iff p]
      by_cases hpc : p = c
      · rw [hpc, update_same_kind, hfree]
        simp
      · rw [update_other_kind _ _ hpc]

theorem walk (h : VmInv a τ l) {r va pte : ℕ} {s' : Phys} (hr : r ∈ a.roots)
    (hk : walk a.phys r va true = .ok (pte, s')) : ∃ τ' l', VmInv (a.put s') τ' l' := by
  have hlt := (walk_eq_ok.mp hk).1
  have hmax : MAXVA = 2^38 := by decide
  obtain ⟨τ', l', w⟩ := walkLoop_alloc va (by omega) 2 h.typed ((h.roots_iff r).mp hr)
    (clear_noSelfMap _ _ _)
  rw [(walk_eq_ok.mp hk).2] at w
  exact ⟨τ', l', h.grows w.typed w.grows⟩

theorem mappages (h : VmInv a τ l) {r va size pa perm : ℕ} {res : ℤ} {s' : Phys}
    (hr : r ∈ a.roots) (hva : va < MAXVA) (hpa : pa < 2^64) (hf : perm < 1024)
    (hx : HasRWX perm) (hk : mappages a.phys r va size pa perm = .ok (res, s')) :
    ∃ τ' l', VmInv (a.put s') τ' l' := by
  have hmax : MAXVA = 2^38 := by decide
  have hlast : (va+size-1)%2^64 < 2^64 := Nat.mod_lt _ (by decide)
  obtain ⟨k, hfuel⟩ : ∃ k, 2^26 ≤ va/4096+k := ⟨2^26, Nat.le_add_left _ _⟩
  rw [RiscvMos.mappages] at hk
  split_ifs at hk with h0
  simp only [ROUNDDOWN_page va (by omega), ROUNDDOWN_page _ hlast] at hk
  obtain ⟨τ', l', n, m, _⟩ := h.typed.mappagesLoop_ok hf hx k hfuel ((h.roots_iff r).mp hr)
    hpa (fun w _ _ => clear_noSelfMap _ _ _) hk
  exact ⟨τ', l', h.grows m.typed m.grows⟩

theorem kvmCopy (h : VmInv a τ l) {k u : ℕ} {res : ℤ} {s' : Phys} (hk : k ∈ a.roots)
    (hu : u ∈ a.roots) (hc : kvmCopyToUserPagetable a.phys k u = .ok (res, s')) :
    ∃ τ' l', VmInv (a.put s') τ' l' := by
  have hbase : (0x80000000 : ℕ) = 2^19*4096 := by decide
  obtain ⟨n, hn⟩ : ∃ n, 2^19+n = 2^26 := ⟨2^26-2^19, by decide⟩
  rw [kvmCopyToUserPagetable, hbase] at hc
  obtain ⟨τ', l', _, c⟩ := Typed.kvmCopyLoop_ok (clear_noSelfMap k 2) (clear_noSelfMap u 2) n
    h.typed hn le_rfl ((h.roots_iff k).mp hk) ((h.roots_iff u).mp hu) hc
  exact ⟨τ', l', h.grows c.typed c.grows⟩

theorem uvmalloc (h : VmInv a τ l) {r old_size new_size perm x : ℕ} {s' : Phys}
    (hr : r ∈ a.roots) (hn : new_size < 2^64) (hf : perm < 1024)
    (hk : uvmalloc a.phys r old_size new_size perm = .ok (x, s')) :
    ∃ τ' l', VmInv ⟨⟨s', heldGrown a.held s'.mem r old_size new_size x⟩, a.roots⟩ τ' l' := by
  have hf' : PTE_R ||| PTE_U ||| perm < 1024 :=
    Nat.or_lt_two_pow (n := 10) (by decide) hf
  have hx : HasRWX (PTE_R ||| PTE_U ||| perm) := by
    rw [HasRWX, Nat.or_assoc, Nat.and_comm, Nat.and_or_distrib_left]
    intro h0
    exact absurd (Nat.or_eq_zero_iff.mp h0).1 (by decide)
  obtain ⟨τ', l', ht, hroots, hframes, hpages⟩ := h.typed.uvmalloc_ok ((h.roots_iff r).mp hr)
    (clear_noSelfMap r 2) hf' hx hn hk
  refine ⟨τ', l', ht, fun p => (h.roots_iff p).trans (hroots p).symm, ?_⟩
  intro p
  have hmem : p ∈ heldGrown a.held s'.mem r old_size new_size x ↔ p ∈ a.held ∨
      x = new_size ∧ ∃ w, GrownPages old_size new_size w ∧ p = PTE2PA (leaf s'.mem r w) := by
    rw [heldGrown]
    split_ifs with hxn <;> simp [hxn]
  rw [hmem, h.held_iff p, hframes p]
  constructor
  · rintro (⟨hpage, ho⟩ | ⟨hxn, w, hg, rfl⟩)
    · exact ⟨hpage, Or.inl ho⟩
    · exact ⟨hpages hxn w hg, Or.inr ⟨hxn, w, hg, rfl⟩⟩
  · rintro ⟨hpage, ho | hnew⟩
    · exact Or.inl ⟨hpage, ho⟩
    · exact Or.inr hnew

theorem uvmunmap (h : VmInv a τ l) {r va npages : ℕ} {do_free : Bool} {res : ℤ} {s' : Phys}
    (hr : r ∈ a.roots) (hva : va < MAXVA)
    (hfree : do_free → UnmapsPage va npages → PTE2PA (leaf a.phys.mem r (va/4096)) ∈ a.held)
    (hk : uvmunmap a.phys r va npages do_free = .ok (res, s')) :
    ∃ τ' l', VmInv ⟨⟨s', heldUnmapped a.held va npages do_free
      (PTE2PA (leaf a.phys.mem r (va/4096)))⟩, a.roots⟩ τ' l' := by
  have hmax : MAXVA = 2^38 := by decide
  have hal : va/4096*4096 = va := by
    by_contra hne
    rw [RiscvMos.uvmunmap, if_pos (by simp only [PAGE_SIZE]; omega)] at hk
    cases hk
  have hr₁ := (h.roots_iff r).mp hr
  have hp (hf : do_free = true) (hu : UnmapsPage va npages) :=
    (h.held_iff _).mp (hfree hf hu)
  rw [← hal] at hk
  rcases h.typed.uvmunmap_ok hr₁ (clear_noSelfMap _ _ _) (by omega)
    (fun hf hu => hp hf (by rwa [hal] at hu)) hk with ⟨h1, rfl⟩ | ⟨h1, _, _, ⟨l', h'⟩, _⟩
  · -- no page in the range
    have hno : ¬UnmapsPage va npages := by
      rw [hal] at h1
      exact Nat.not_lt.mpr h1
    refine ⟨τ, l, h.typed, h.roots_iff, ?_⟩
    rw [heldUnmapped, if_neg (fun hh => hno hh.2)]
    exact h.held_iff
  -- one page in the range, and its frame is not held any more
  have hu : UnmapsPage va npages := by
    rw [hal] at h1
    exact h1
  refine ⟨_, l', h', ?_, ?_⟩
  · intro p
    rw [h.roots_iff p]
    exact (freedTyping_table (fun hf => (hp hf hu).2) p 2 none).symm
  · intro p
    cases do_free with
    | false =>
      rw [heldUnmapped, if_neg (by simp)]
      exact h.held_iff p
    | true =>
      rw [heldUnmapped, if_pos ⟨rfl, hu⟩, freedTyping, if_pos rfl]
      by_cases hpc : p = PTE2PA (leaf a.phys.mem r (va/4096))
      · rw [hpc, update_same_kind]
        simp
      · rw [update_other_kind _ _ hpc, ← h.held_iff p]
        simp [hpc]

theorem step (h : VmInv a τ l) {b : VmState} (hs : VmStep a b) : ∃ τ' l', VmInv b τ' l' := by
  cases hs with
  | client b hb => exact h.client hb
  | outside m' hm =>
    refine ⟨τ, l, h.write ?_⟩
    intro p hp _ b hl hu
    have hb := hp.bounds
    apply hm b
    · simp only [KERNEND]
      omega
    · simp only [PHYEND]
      omega
  | uvmcreate => exact h.uvmcreate
  | walk r va pte s' hr hk => exact h.walk hr hk
  | mappages r va size pa perm res s' hr hva hpa hf hx hk =>
    exact h.mappages hr hva hpa hf hx hk
  | uvmalloc r old_size new_size perm x s' hr hn hf hk => exact h.uvmalloc hr hn hf hk
  | kvmCopy k u res s' hk hu hc => exact h.kvmCopy hk hu hc
  | uvmunmap r va npages do_free res s' hr hva hfree hk => exact h.uvmunmap hr hva hfree hk

theorem run (h : VmInv a τ l) {b : VmState} (hr : Relation.ReflTransGen VmStep a b) :
    ∃ τ' l', VmInv b τ' l' := by
  induction hr with
  | refl => exact ⟨τ, l, h⟩
  | tail _ hs ih =>
    obtain ⟨τ', l', h'⟩ := ih
    exact h'.step hs

end VmInv

/-! ### What the runs promise -/

/-- Entry `i` of the table `p` of some tree points to the table `c`. -/
def PointsTo (a : VmState) (p i c : ℕ) : Prop :=
  ∃ r ∈ a.roots, ∃ level, TableAt a.phys.mem r (level+1) p ∧ i < 512 ∧
    Valid (entry a.phys.mem p i) ∧ PTE2PA (entry a.phys.mem p i) = c

/-- The trees below the roots are three-level trees that share nothing. -/
structure TreesOk (a : VmState) : Prop where
  apart : ∀ r ∈ a.roots, ∀ r' ∈ a.roots, ∀ level level' p, TableAt a.phys.mem r level p →
    TableAt a.phys.mem r' level' p → r = r' ∧ level = level'
  depth : ∀ r ∈ a.roots, ∀ level p, TableAt a.phys.mem r level p → level ≤ 2 ∧
    (level = 2 ↔ p = r)
  one_parent : ∀ r ∈ a.roots, ∀ level c, TableAt a.phys.mem r level c → c ≠ r →
    ∃! pi : ℕ × ℕ, PointsTo a pi.1 pi.2 c
  root_parent : ∀ r ∈ a.roots, ∀ p i, ¬PointsTo a p i r
  not_free : ∃ l, Chain (load64 a.phys.mem) 0 a.phys.freelist l ∧
    ∀ r ∈ a.roots, ∀ level p, TableAt a.phys.mem r level p → p ∉ l
  inner_flags : ∀ r ∈ a.roots, ∀ level p i, TableAt a.phys.mem r (level+1) p → i < 512 →
    Valid (entry a.phys.mem p i) → PTE_FLAGS (entry a.phys.mem p i) = PTE_V
  leaf_flags : ∀ r ∈ a.roots, ∀ p i, TableAt a.phys.mem r 0 p → i < 512 →
    Valid (entry a.phys.mem p i) → HasRWX (entry a.phys.mem p i)

namespace VmInv

variable {a : VmState} {τ : Typing} {l : List ℕ}

theorem tableAt_typed (h : VmInv a τ l) {r level p : ℕ} (hr : r ∈ a.roots)
    (hp : TableAt a.phys.mem r level p) : ∃ par, τ p = .table level par :=
  h.typed.tableAt ((h.roots_iff r).mp hr) hp

theorem tableAt_next (h : VmInv a τ l) {r level p i : ℕ} (hr : r ∈ a.roots)
    (hp : TableAt a.phys.mem r (level+1) p) (hi : i < 512) (hv : Valid (entry a.phys.mem p i)) :
    τ (PTE2PA (entry a.phys.mem p i)) = .table level (some (p,i)) := by
  obtain ⟨par, hpar⟩ := h.tableAt_typed hr hp
  exact h.typed.next hpar hi (clear_noSelfMap _ _ _) hv

theorem tableAt_apart (h : VmInv a τ l) {r r' level level' p : ℕ} (hr : r ∈ a.roots)
    (hr' : r' ∈ a.roots) (hp : TableAt a.phys.mem r level p)
    (hp' : TableAt a.phys.mem r' level' p) : r = r' ∧ level = level' :=
  h.typed.tableAt_apart ((h.roots_iff r).mp hr) ((h.roots_iff r').mp hr') hp hp'

theorem pointsTo_typed (h : VmInv a τ l) {p i c : ℕ} (hp : PointsTo a p i c) :
    ∃ level, τ c = .table level (some (p,i)) := by
  obtain ⟨r, hr, level, ht, hi, hv, rfl⟩ := hp
  exact ⟨level, h.tableAt_next hr ht hi hv⟩

theorem treesOk (h : VmInv a τ l) : TreesOk a := by
  constructor
  case apart => exact fun r hr r' hr' level level' p hp hp' => h.tableAt_apart hr hr' hp hp'
  case depth =>
    intro r hr level p hp
    obtain ⟨par, hpar⟩ := h.tableAt_typed hr hp
    refine ⟨(h.typed.level hpar).1, ?_⟩
    constructor
    · rintro rfl
      cases hp with
      | root => rfl
      | next hq hi hv =>
        have hτ := h.tableAt_next hr hq hi hv
        have := (h.typed.level hτ).2.mp rfl
        cases this
    · rintro rfl
      exact (h.tableAt_apart hr hr hp TableAt.root).2
  case one_parent =>
    intro r hr level c hc hne
    cases hc with
    | root => exact absurd rfl hne
    | @next _ p i hp hi hv =>
      refine ⟨(p,i), ⟨r, hr, level, hp, hi, hv, rfl⟩, ?_⟩
      rintro ⟨p', i'⟩ hpi'
      obtain ⟨level', hτ'⟩ := h.pointsTo_typed hpi'
      -- the kind of a table page holds the one entry that leads to it
      rw [h.tableAt_next hr hp hi hv] at hτ'
      cases hτ'
      rfl
  case root_parent =>
    intro r hr p i hp
    obtain ⟨level, hτ⟩ := h.pointsTo_typed hp
    rw [(h.roots_iff r).mp hr] at hτ
    cases hτ
  case not_free =>
    refine ⟨l, h.typed.free.chain, ?_⟩
    intro r hr level p hp hl
    obtain ⟨par, hpar⟩ := h.tableAt_typed hr hp
    rw [h.typed.free_kind hl] at hpar
    cases hpar
  case inner_flags =>
    intro r hr level p i hp hi hv
    have hτ := h.tableAt_next hr hp hi hv
    rw [(h.typed.parent hτ).2.2.2]
    exact PTE_FLAGS_mkPte _ _ (by decide)
  case leaf_flags =>
    intro r hr p i hp hi hv
    obtain ⟨par, hpar⟩ := h.tableAt_typed hr hp
    exact (h.typed.leafOk hpar hi hv).2

end VmInv

/-- After `kinit`, every run of the page-table code keeps the trees apart. -/
theorem page_table_trees (m : Mem) :
    ∃ s₀, kinit ⟨m, 0⟩ = .ok s₀ ∧
      ∀ a, Relation.ReflTransGen VmStep ⟨⟨s₀, ∅⟩, ∅⟩ a → TreesOk a := by
  obtain ⟨s₀, hk, hfree⟩ := kinit_heap m
  have h₀ : VmInv ⟨⟨s₀, ∅⟩, ∅⟩ (fun _ => .free) (heapPages heapCount) :=
    ⟨typed_of_heap hfree, by simp, by simp⟩
  refine ⟨s₀, hk, fun a ha => ?_⟩
  obtain ⟨τ, l, h⟩ := h₀.run ha
  exact h.treesOk

end RiscvMos
