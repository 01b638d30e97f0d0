import Mathlib.Data.List.Perm.Basic
import RiscvMos.UnmapPages

/-! `freewalk` on three-level trees: it takes the tree apart while it walks it, and gives every
table page back once. -/
namespace RiscvMos
open ByteMem LinkChain

/-! ### The pages of a tree -/

/-- What hangs at entry `i` of the table `p`. -/
def childPages (pages : ℕ → List ℕ) (m : Mem) (p i : ℕ) : List ℕ :=
  if Valid (entry m p i) then pages (PTE2PA (entry m p i)) else []

/-- The table pages from the table `p` of a level down to level 0, in the order in which
`freewalk` comes to them. -/
def tablePages (m : Mem) : ℕ → ℕ → List ℕ
  | 0, p => [p]
  | level+1, p => p :: (List.range' 0 512).flatMap (childPages (tablePages m level) m p)

/-- The table pages below `p` are distinct pages of the heap, and none of them is free. -/
structure TreeOf (s : Phys) (level p : ℕ) (l : List ℕ) : Prop where
  free : FreeList s l
  page : ∀ q ∈ tablePages s.mem level p, IsPage q ∧ q ∉ l
  distinct : (tablePages s.mem level p).Nodup

/-- No level-0 entry below `p` is valid, and the valid entries above are pointers. -/
def Hollow (m : Mem) : ℕ → ℕ → Prop
  | 0, p => ∀ i < 512, ¬Valid (entry m p i)
  | level+1, p => ∀ i < 512, Valid (entry m p i) →
      ¬HasRWX (entry m p i) ∧ Hollow m level (PTE2PA (entry m p i))

/-- Every valid level-0 entry below `p` is a leaf. -/
def EndsInLeaves (m : Mem) : ℕ → ℕ → Prop
  | 0, p => ∀ i < 512, Valid (entry m p i) → HasRWX (entry m p i)
  | level+1, p => ∀ i < 512, Valid (entry m p i) → EndsInLeaves m level (PTE2PA (entry m p i))

theorem head_mem_tablePages (m : Mem) (level p : ℕ) : p ∈ tablePages m level p := by
  cases level with
  | zero => exact List.mem_singleton_self p
  | succ level => exact List.mem_cons_self

theorem mem_childPages {pages : ℕ → List ℕ} {m : Mem} {p i q : ℕ} :
    q ∈ childPages pages m p i ↔ Valid (entry m p i) ∧ q ∈ pages (PTE2PA (entry m p i)) := by
  rw [childPages]
  split_ifs with hv
  · exact (and_iff_right hv).symm
  · exact ⟨fun h => absurd h List.not_mem_nil, fun h => absurd h.1 hv⟩

theorem mem_tablePages_succ {m : Mem} {level p q : ℕ} : q ∈ tablePages m (level+1) p ↔
    q = p ∨ ∃ i < 512, Valid (entry m p i) ∧ q ∈ tablePages m level (PTE2PA (entry m p i)) := by
  simp only [tablePages, List.mem_cons, List.mem_flatMap, List.mem_range'_1, mem_childPages,
    Nat.zero_le, Nat.zero_add, true_and]

theorem mem_tablePages {m : Mem} {r q : ℕ} : q ∈ tablePages m 2 r ↔ ∃ level, TableAt m r level q := by
  have hdown (level : ℕ) : ∀ {p}, TableAt m r level p → q ∈ tablePages m level p →
      ∃ level, TableAt m r level q := by
    induction level with
    | zero =>
      intro p hp hq
      rw [List.mem_singleton.mp hq]
      exact ⟨0, hp⟩
    | succ level ih =>
      intro p hp hq
      rcases mem_tablePages_succ.mp hq with rfl | ⟨i, hi, hv, hq⟩
      · exact ⟨level+1, hp⟩
      · exact ih (hp.next hi hv) hq
  have hup {level p : ℕ} (hp : TableAt m r level p) :
      ∀ q ∈ tablePages m level p, q ∈ tablePages m 2 r := by
    induction hp with
    | root => exact fun q hq => hq
    | next hp hi hv ih => exact fun q hq => ih q (mem_tablePages_succ.mpr (.inr ⟨_, hi, hv, hq⟩))
  exact ⟨hdown 2 .root, fun ⟨level, hq⟩ => hup hq q (head_mem_tablePages m level q)⟩

/-- The tree depends on the bytes of its pages only. -/
theorem tablePages_congr {m m' : Mem} (level : ℕ) : ∀ {p : ℕ},
    (∀ q ∈ tablePages m level p, AgreeOn m' m q 4096) →
    tablePages m' level p = tablePages m level p := by
  induction level with
  | zero => exact fun _ => rfl
  | succ level ih =>
    intro p h
    have hp := h p (head_mem_tablePages m _ p)
    rw [tablePages, tablePages]
    apply congrArg (List.cons p)
    apply List.flatMap_congr
    intro i hi
    have hi' : i < 512 := by simpa using (List.mem_range'_1.mp hi).2
    rw [childPages, childPages, entry_agree hp hi']
    split_ifs with hv
    · exact ih fun q hq => h q (mem_tablePages_succ.mpr (.inr ⟨i, hi', hv, hq⟩))
    · rfl

theorem Hollow.congr {m m' : Mem} {level : ℕ} : ∀ {p : ℕ}, Hollow m level p →
    (∀ q ∈ tablePages m level p, AgreeOn m' m q 4096) → Hollow m' level p := by
  induction level with
  | zero =>
    intro p h hm i hi
    rw [entry_agree (hm p (head_mem_tablePages m 0 p)) hi]
    exact h i hi
  | succ level ih =>
    intro p h hm i hi
    rw [entry_agree (hm p (head_mem_tablePages m _ p)) hi]
    intro hv
    obtain ⟨hx, hc⟩ := h i hi hv
    exact ⟨hx, ih hc fun q hq => hm q (mem_tablePages_succ.mpr (.inr ⟨i, hi, hv, hq⟩))⟩

theorem EndsInLeaves.congr {m m' : Mem} {level : ℕ} : ∀ {p : ℕ}, EndsInLeaves m level p →
    (∀ q ∈ tablePages m level p, AgreeOn m' m q 4096) → EndsInLeaves m' level p := by
  induction level with
  | zero =>
    intro p h hm i hi
    rw [entry_agree (hm p (head_mem_tablePages m 0 p)) hi]
    exact h i hi
  | succ level ih =>
    intro p h hm i hi
    rw [entry_agree (hm p (head_mem_tablePages m _ p)) hi]
    intro hv
    exact ih (h i hi hv) fun q hq => hm q (mem_tablePages_succ.mpr (.inr ⟨i, hi, hv, hq⟩))

/-! ### Freeing a tree without leaves -/

/-- The pages `ps` went back to the free list, each once, and no other memory changed. -/
structure Freed (s : Phys) (ps l : List ℕ) (s' : Phys) (l' : List ℕ) : Prop where
  free : FreeList s' l'
  perm : l'.Perm (ps ++ l)
  kept : ∀ b, (∀ q ∈ ps, b < q ∨ q+4096 ≤ b) → s'.mem b = s.mem b

theorem Freed.agree {s s' : Phys} {ps l l' : List ℕ} (f : Freed s ps l s' l') {p : ℕ} (hp : IsPage p)
    (hps : ∀ q ∈ ps, IsPage q) (hn : p ∉ ps) : AgreeOn s'.mem s.mem p 4096 := by
  intro b hl hu
  apply f.kept
  intro q hq
  have hd := hp.disjoint (hps q hq) (fun he => hn (he ▸ hq))
  omega

/-- The loop over the table `p` did so with the pages `ps` below it, and cleared entries of `p`. -/
structure Walked (s : Phys) (p : ℕ) (ps l : List ℕ) (s' : Phys) (l' : List ℕ) : Prop where
  free : FreeList s' l'
  perm : l'.Perm (ps ++ l)
  kept : ∀ b, (∀ q ∈ p :: ps, b < q ∨ q+4096 ≤ b) → s'.mem b = s.mem b

theorem Walked.kfree {s s' : Phys} {p : ℕ} {ps l l' : List ℕ} (w : Walked s p ps l s' l')
    (hp : IsPage p) (hn : p ∉ ps ++ l) :
    ∃ s'' l'', RiscvMos.kfree s' p = .ok s'' ∧ Freed s (p :: ps) l s'' l'' := by
  have hnew : p ∉ l' := fun hm => hn (w.perm.mem_iff.mp hm)
  obtain ⟨s'', hk, hfree, hm⟩ := kfree_page w.free hp hnew
  refine ⟨s'', p :: l', hk, hfree, w.perm.cons p, fun b hb => ?_⟩
  rw [hm b (hb p List.mem_cons_self), w.kept b hb]

section
variable {s : Phys} {l : List ℕ} {level p i : ℕ} {walkChild : Phys → ℕ → Result Phys}

theorem freewalkLoop_done (hi : 512 ≤ i) : freewalkLoop walkChild s p i = .ok s := by
  rw [freewalkLoop, if_neg (Nat.not_lt.mpr hi)]

theorem freewalkLoop_skip (hi : i < 512) (hv : ¬Valid (entry s.mem p i)) :
    freewalkLoop walkChild s p i = freewalkLoop walkChild s p (i+1) := by
  rw [freewalkLoop, if_pos hi]
  dsimp only
  rw [if_neg (fun h => hv h.1), if_neg hv]

theorem freewalkLoop_leaf (hi : i < 512) (hv : Valid (entry s.mem p i)) (hx : HasRWX (entry s.mem p i)) :
    freewalkLoop walkChild s p i = .error (.panic "freewalk: leaf still mapped") := by
  rw [freewalkLoop, if_pos hi]
  dsimp only
  rw [if_neg (fun h => hx h.2), if_pos hv]

theorem freewalkLoop_child (hi : i < 512) (hv : Valid (entry s.mem p i))
    (hx : ¬HasRWX (entry s.mem p i)) : freewalkLoop walkChild s p i =
      walkChild s (PTE2PA (entry s.mem p i)) >>= fun s =>
        freewalkLoop walkChild ⟨store64 s.mem (p+8*i) 0, s.freelist⟩ p (i+1) := by
  rw [freewalkLoop, if_pos hi]
  dsimp only
  rw [if_pos ⟨hv, not_not.mp hx⟩]

/-- The pages below the entries of `p` from `i` on. -/
def pagesFrom (m : Mem) (level p i : ℕ) : List ℕ :=
  (List.range' i (512-i)).flatMap (childPages (tablePages m level) m p)

theorem pagesFrom_succ (m : Mem) (level p : ℕ) (hi : i < 512) : pagesFrom m level p i =
    childPages (tablePages m level) m p i ++ pagesFrom m level p (i+1) := by
  have hn : 512-i = 512-(i+1)+1 := by omega
  rw [pagesFrom, hn, List.range'_succ, List.flatMap_cons, pagesFrom]

theorem mem_pagesFrom {m : Mem} {q : ℕ} : q ∈ pagesFrom m level p i ↔
    ∃ j, i ≤ j ∧ j < 512 ∧ Valid (entry m p j) ∧ q ∈ tablePages m level (PTE2PA (entry m p j)) := by
  simp only [pagesFrom, List.mem_flatMap, List.mem_range'_1, mem_childPages]
  constructor
  · rintro ⟨j, hj, h⟩
    exact ⟨j, hj.1, by omega, h⟩
  · rintro ⟨j, h1, h2, h⟩
    exact ⟨j, by omega, h⟩

/-- The loop is at entry `i` of `p`: the trees at the entries from `i` on are still there. -/
structure Walking (s : Phys) (level p i : ℕ) (l : List ℕ) : Prop where
  free : FreeList s l
  table : IsPage p ∧ p ∉ l ∧ p ∉ pagesFrom s.mem level p i
  page : ∀ q ∈ pagesFrom s.mem level p i, IsPage q ∧ q ∉ l
  distinct : (pagesFrom s.mem level p i).Nodup

theorem TreeOf.walking (h : TreeOf s (level+1) p l) : Walking s level p 0 l := by
  have hd : (p :: pagesFrom s.mem level p 0).Nodup := h.distinct
  obtain ⟨hp, hd⟩ := List.nodup_cons.mp hd
  obtain ⟨hpage, hfree⟩ := h.page p (head_mem_tablePages s.mem _ p)
  exact ⟨h.free, ⟨hpage, hfree, hp⟩, fun q hq => h.page q (List.mem_cons_of_mem p hq), hd⟩

theorem Walking.skip (h : Walking s level p i l) (hi : i < 512) (hv : ¬Valid (entry s.mem p i)) :
    Walking s level p (i+1) l ∧ pagesFrom s.mem level p i = pagesFrom s.mem level p (i+1) := by
  have he : pagesFrom s.mem level p i = pagesFrom s.mem level p (i+1) := by
    rw [pagesFrom_succ _ _ _ hi, childPages, if_neg hv, List.nil_append]
  have h' := h
  obtain ⟨hf, ht, hp, hd⟩ := h'
  rw [he] at ht hp hd
  exact ⟨⟨hf, ht, hp, hd⟩, he⟩

theorem Walking.child (h : Walking s level p i l) (hi : i < 512) (hv : Valid (entry s.mem p i)) :
    TreeOf s level (PTE2PA (entry s.mem p i)) l := by
  have he := pagesFrom_succ s.mem level p hi
  rw [childPages, if_pos hv] at he
  have hd := h.distinct
  rw [he] at hd
  refine ⟨h.free, fun q hq => h.page q ?_, (List.nodup_append.mp hd).1⟩
  rw [he]
  exact List.mem_append_left _ hq

theorem Walking.next (h : Walking s level p i l) (hi : i < 512) (hv : Valid (entry s.mem p i))
    {s' : Phys} {l' : List ℕ}
    (f : Freed s (tablePages s.mem level (PTE2PA (entry s.mem p i))) l s' l') :
    Walking ⟨store64 s'.mem (p+8*i) 0, s'.freelist⟩ level p (i+1) l' ∧
      (∀ q ∈ pagesFrom s.mem level p (i+1), AgreeOn (store64 s'.mem (p+8*i) 0) s.mem q 4096) ∧
      (∀ j, i < j → j < 512 → entry (store64 s'.mem (p+8*i) 0) p j = entry s.mem p j) ∧
      pagesFrom (store64 s'.mem (p+8*i) 0) level p (i+1) = pagesFrom s.mem level p (i+1) := by
  have he := pagesFrom_succ s.mem level p hi
  rw [childPages, if_pos hv] at he
  obtain ⟨hp, hpl, hpn⟩ := h.table
  have hd := h.distinct
  rw [he] at hd hpn
  obtain ⟨_, hd', hapart⟩ := List.nodup_append.mp hd
  rw [List.mem_append, not_or] at hpn
  have hold : ∀ q ∈ tablePages s.mem level (PTE2PA (entry s.mem p i)), IsPage q :=
    fun q hq => (h.page q (by rw [he]; exact List.mem_append_left _ hq)).1
  have hnew : ∀ q ∈ pagesFrom s.mem level p (i+1), IsPage q ∧ q ∉ l :=
    fun q hq => h.page q (by rw [he]; exact List.mem_append_right _ hq)
  have hstore : SameOutside s'.mem (store64 s'.mem (p+8*i) 0) (p+8*i) 8 := store_sameOutside _ _ 8 0
  -- the trees behind entry `i` share no page with `p` and with what was freed
  have hagree : ∀ q ∈ pagesFrom s.mem level p (i+1),
      AgreeOn (store64 s'.mem (p+8*i) 0) s.mem q 4096 := by
    intro q hq
    have hpq : p ≠ q := fun hpq => by
      rw [← hpq] at hq
      exact hpn.2 hq
    have hqp := hp.disjoint (hnew q hq).1 hpq
    have hqs : q ∉ tablePages s.mem level (PTE2PA (entry s.mem p i)) :=
      fun hm => hapart q hm q hq rfl
    exact (hstore.agreeOn (by omega)).trans (f.agree (hnew q hq).1 hold hqs)
  have hentry (j : ℕ) (hij : i < j) (hj : j < 512) :
      entry (store64 s'.mem (p+8*i) 0) p j = entry s.mem p j := by
    rw [entry_store_ne s'.mem 0 hp hp hi hj (by omega)]
    exact entry_agree (f.agree hp hold hpn.1) hj
  -- so the rest of the loop meets the same tables
  have hpages : pagesFrom (store64 s'.mem (p+8*i) 0) level p (i+1) =
      pagesFrom s.mem level p (i+1) := by
    apply List.flatMap_congr
    intro j hj
    have hj' : i+1 ≤ j ∧ j < 512 := by
      rw [List.mem_range'_1] at hj
      omega
    rw [childPages, childPages, hentry j hj'.1 hj'.2]
    split_ifs with hvj
    · exact tablePages_congr level fun q hq =>
        hagree q (mem_pagesFrom.mpr ⟨j, hj'.1, hj'.2, hvj, hq⟩)
    · rfl
  have hfree : ∀ q, q ∈ l' ↔ q ∈ tablePages s.mem level (PTE2PA (entry s.mem p i)) ∨ q ∈ l := by
    intro q
    rw [f.perm.mem_iff, List.mem_append]
  refine ⟨⟨?_, ⟨hp, ?_, ?_⟩, ?_, ?_⟩, hagree, hentry, hpages⟩
  · apply f.free.write
    intro q hq
    have hqp : p ≠ q := by
      rintro rfl
      exact ((hfree p).mp hq).elim hpn.1 hpl
    have hdis := hp.disjoint (f.free.pages q hq) hqp
    exact hstore.agreeOn (by omega)
  · exact fun hm => ((hfree p).mp hm).elim hpn.1 hpl
  · rw [hpages]
    exact hpn.2
  · rw [hpages]
    intro q hq
    exact ⟨(hnew q hq).1, fun hm => ((hfree q).mp hm).elim (fun hm => hapart q hm q hq rfl) (hnew q hq).2⟩
  · rw [hpages]
    exact hd'

/-- The loop frees what hangs at the entries from `i` on, where the recursive call does so
for the trees of the next level. -/
theorem freewalkLoop_frees (walkChild : Phys → ℕ → Result Phys)
    (hchild : ∀ {s : Phys} {c : ℕ} {l : List ℕ}, TreeOf s level c l →
      Hollow s.mem level c → ∃ s' l', walkChild s c = .ok s' ∧
        Freed s (tablePages s.mem level c) l s' l') (n : ℕ) :
    ∀ {s : Phys} {i : ℕ} {l : List ℕ}, i+n = 512 → Walking s level p i l →
      (∀ j, i ≤ j → j < 512 → Valid (entry s.mem p j) →
        ¬HasRWX (entry s.mem p j) ∧ Hollow s.mem level (PTE2PA (entry s.mem p j))) →
      ∃ s' l', freewalkLoop walkChild s p i = .ok s' ∧
        Walked s p (pagesFrom s.mem level p i) l s' l' := by
  induction n with
  | zero =>
    intro s i l hi h _
    have hnil : pagesFrom s.mem level p i = [] := by
      have h0 : 512-i = 0 := by omega
      rw [pagesFrom, h0]
      rfl
    rw [hnil]
    exact ⟨s, l, freewalkLoop_done (by omega), ⟨h.free, List.Perm.refl l, fun _ _ => rfl⟩⟩
  | succ n ih =>
    intro s i l hn h hhollow
    have hi : i < 512 := by omega
    by_cases hv : Valid (entry s.mem p i)
    case neg =>
      -- an invalid entry leads nowhere
      obtain ⟨h', he⟩ := h.skip hi hv
      rw [freewalkLoop_skip hi hv, he]
      exact ih (by omega) h' (fun j hj => hhollow j (by omega))
    -- the recursive call frees the tree of this entry, then the entry is cleared
    obtain ⟨hx, hhc⟩ := hhollow i le_rfl hi hv
    obtain ⟨s₁, l₁, hcall, f⟩ := hchild (h.child hi hv) hhc
    obtain ⟨h₁, hagree, hentry, hpages⟩ := h.next hi hv f
    rw [freewalkLoop_child hi hv hx, hcall, ok_bind]
    obtain ⟨s', l', hrun, w⟩ := ih (by omega) h₁ (fun j hij hj => by
      dsimp only
      rw [hentry j hij hj]
      intro hvj
      obtain ⟨hxj, hhj⟩ := hhollow j (by omega) hj hvj
      exact ⟨hxj, hhj.congr fun q hq => hagree q (mem_pagesFrom.mpr ⟨j, hij, hj, hvj, hq⟩)⟩)
    rw [hpages] at w
    rw [pagesFrom_succ _ _ _ hi, childPages, if_pos hv]
    refine ⟨s', l', hrun, w.free, ?_, fun b hb => ?_⟩
    · have hmid := w.perm.trans (f.perm.append_left _)
      rw [← List.append_assoc] at hmid
      exact hmid.trans (List.perm_append_comm.append_right l)
    · have hout := hb p List.mem_cons_self
      have hstore : store64 s₁.mem (p+8*i) 0 b = s₁.mem b :=
        store_sameOutside s₁.mem (p+8*i) 8 0 b (by omega)
      rw [w.kept b (fun q hq => ?_)]
      · dsimp only
        rw [hstore]
        exact f.kept b (fun q hq => hb q (List.mem_cons_of_mem p (List.mem_append_left _ hq)))
      · rcases List.mem_cons.mp hq with rfl | hq
        · exact hout
        · exact hb q (List.mem_cons_of_mem p (List.mem_append_right _ hq))

theorem freewalk_frees (level : ℕ) : ∀ {stack : ℕ} {s : Phys} {p : ℕ} {l : List ℕ}, level < stack →
    TreeOf s level p l → Hollow s.mem level p →
    ∃ s' l', freewalk stack s p = .ok s' ∧ Freed s (tablePages s.mem level p) l s' l' := by
  induction level with
  | zero =>
    intro stack s p l hstack h hhollow
    obtain ⟨stack, rfl⟩ := Nat.exists_eq_succ_of_ne_zero (Nat.ne_zero_of_lt hstack)
    have hloop (n : ℕ) : ∀ i, i+n = 512 → freewalkLoop (freewalk stack) s p i = .ok s := by
      induction n with
      | zero => exact fun i hi => freewalkLoop_done (by omega)
      | succ n ih =>
        intro i hi
        rw [freewalkLoop_skip (by omega) (hhollow i (by omega))]
        exact ih (i+1) (by omega)
    obtain ⟨hpage, hnew⟩ := h.page p (head_mem_tablePages s.mem 0 p)
    have w : Walked s p [] l s l := ⟨h.free, List.Perm.refl l, fun _ _ => rfl⟩
    rw [freewalk, hloop 512 0 rfl, ok_bind]
    exact w.kfree hpage hnew
  | succ level ih =>
    intro stack s p l hstack h hhollow
    obtain ⟨stack, rfl⟩ := Nat.exists_eq_succ_of_ne_zero (Nat.ne_zero_of_lt hstack)
    have hwalk := h.walking
    obtain ⟨s₁, l₁, hrun, w⟩ := freewalkLoop_frees (freewalk stack)
      (fun h hhollow => ih (by omega) h hhollow) 512 (by omega) hwalk (fun j _ hj => hhollow j hj)
    obtain ⟨hp, hpl, hpn⟩ := hwalk.table
    rw [freewalk, hrun, ok_bind]
    exact w.kfree hp (fun hm => (List.mem_append.mp hm).elim hpn hpl)

/-! ### Leaves stop the walk -/

/-- Some entry of `p` from `i` on is a leaf or leads to one. -/
def LeafAhead (m : Mem) (level p i : ℕ) : Prop := ∃ j, i ≤ j ∧ j < 512 ∧ Valid (entry m p j) ∧
  (HasRWX (entry m p j) ∨ ¬Hollow m level (PTE2PA (entry m p j)))

theorem leafAhead_of_not_hollow {m : Mem} (h : ¬Hollow m (level+1) p) : LeafAhead m level p 0 := by
  simp only [Hollow, not_forall] at h
  obtain ⟨j, hj, hv, hn⟩ := h
  refine ⟨j, Nat.zero_le j, hj, hv, ?_⟩
  by_cases hx : HasRWX (entry m p j)
  · exact .inl hx
  · exact .inr (fun hh => hn ⟨hx, hh⟩)

theorem freewalkLoop_panics (walkChild : Phys → ℕ → Result Phys)
    (hchild : ∀ {s : Phys} {c : ℕ} {l : List ℕ}, TreeOf s level c l → Hollow s.mem level c →
      ∃ s' l', walkChild s c = .ok s' ∧ Freed s (tablePages s.mem level c) l s' l')
    (hstop : ∀ {s : Phys} {c : ℕ} {l : List ℕ}, TreeOf s level c l → EndsInLeaves s.mem level c →
      ¬Hollow s.mem level c → walkChild s c = .error (.panic "freewalk: leaf still mapped"))
    (n : ℕ) : ∀ {s : Phys} {i : ℕ} {l : List ℕ}, i+n = 512 → Walking s level p i l →
      (∀ j, i ≤ j → j < 512 → Valid (entry s.mem p j) →
        EndsInLeaves s.mem level (PTE2PA (entry s.mem p j))) → LeafAhead s.mem level p i →
      freewalkLoop walkChild s p i = .error (.panic "freewalk: leaf still mapped") := by
  induction n with
  | zero =>
    rintro s i l hi _ _ ⟨j, hij, hj, _⟩
    omega
  | succ n ih =>
    rintro s i l hn h hends ⟨j, hij, hj, hvj, hleaf⟩
    have hi : i < 512 := by omega
    have hlater (hne : i ≠ j) : i+1 ≤ j := by omega
    by_cases hv : Valid (entry s.mem p i)
    case neg =>
      have hne : i ≠ j := fun he => hv (he ▸ hvj)
      rw [freewalkLoop_skip hi hv]
      exact ih (by omega) (h.skip hi hv).1 (fun k hk => hends k (by omega))
        ⟨j, hlater hne, hj, hvj, hleaf⟩
    by_cases hx : HasRWX (entry s.mem p i)
    case pos => exact freewalkLoop_leaf hi hv hx
    rw [freewalkLoop_child hi hv hx]
    by_cases hhc : Hollow s.mem level (PTE2PA (entry s.mem p i))
    case neg =>
      rw [hstop (h.child hi hv) (hends i le_rfl hi hv) hhc]
      rfl
    -- the tree at this entry goes away, the leaf is at a later one
    have hne : i ≠ j := by
      rintro rfl
      exact hleaf.elim hx (fun hn => hn hhc)
    obtain ⟨s₁, l₁, hcall, f⟩ := hchild (h.child hi hv) hhc
    obtain ⟨h₁, hagree, hentry, _⟩ := h.next hi hv f
    have hback {k q : ℕ} (hk : i < k) (hk' : k < 512) (hvk : Valid (entry s.mem p k))
        (hq : q ∈ tablePages s.mem level (PTE2PA (entry s.mem p k))) :
        AgreeOn (store64 s₁.mem (p+8*i) 0) s.mem q 4096 :=
      hagree q (mem_pagesFrom.mpr ⟨k, hk, hk', hvk, hq⟩)
    rw [hcall, ok_bind]
    refine ih (by omega) h₁ (fun k hik hk => ?_) ⟨j, hlater hne, hj, ?_⟩
    · dsimp only
      rw [hentry k hik hk]
      exact fun hvk => (hends k (by omega) hk hvk).congr fun q hq => hback hik hk hvk hq
    · dsimp only
      rw [hentry j (hlater hne) hj]
      refine ⟨hvj, hleaf.imp_right fun hn hh => hn (hh.congr fun q hq => ?_)⟩
      have hpages : tablePages (store64 s₁.mem (p+8*i) 0) level (PTE2PA (entry s.mem p j)) =
          tablePages s.mem level (PTE2PA (entry s.mem p j)) :=
        tablePages_congr level fun q hq => hback (hlater hne) hj hvj hq
      rw [hpages] at hq
      exact (hback (hlater hne) hj hvj hq).symm

/-- A tree with a leaf stops the walk with a panic. -/
theorem freewalk_panics (level : ℕ) : ∀ {stack : ℕ} {s : Phys} {p : ℕ} {l : List ℕ}, level < stack →
    TreeOf s level p l → EndsInLeaves s.mem level p → ¬Hollow s.mem level p →
    freewalk stack s p = .error (.panic "freewalk: leaf still mapped") := by
  induction level with
  | zero =>
    intro stack s p l hstack _ hends hleaf
    obtain ⟨stack, rfl⟩ := Nat.exists_eq_succ_of_ne_zero (Nat.ne_zero_of_lt hstack)
    simp only [Hollow, not_forall, not_not] at hleaf
    obtain ⟨j, hj, hvj⟩ := hleaf
    have hloop (n : ℕ) : ∀ i, i+n = j → freewalkLoop (freewalk stack) s p i =
        .error (.panic "freewalk: leaf still mapped") := by
      induction n with
      | zero =>
        rintro i rfl
        exact freewalkLoop_leaf hj hvj (hends _ hj hvj)
      | succ n ih =>
        intro i hi
        by_cases hv : Valid (entry s.mem p i)
        · exact freewalkLoop_leaf (by omega) hv (hends i (by omega) hv)
        · rw [freewalkLoop_skip (by omega) hv]
          exact ih (i+1) (by omega)
    rw [freewalk, hloop j 0 (Nat.zero_add j)]
    rfl
  | succ level ih =>
    intro stack s p l hstack h hends hleaf
    obtain ⟨stack, rfl⟩ := Nat.exists_eq_succ_of_ne_zero (Nat.ne_zero_of_lt hstack)
    have hrun := freewalkLoop_panics (freewalk stack) (fun h hhollow => freewalk_frees level (by omega) h hhollow)
      (fun h hends hleaf => ih (by omega) h hends hleaf) 512 (by omega) h.walking
      (fun j _ hj => hends j hj) (leafAhead_of_not_hollow hleaf)
    rw [freewalk, hrun]
    rfl

end

/-! ### Whatever else the tree has, a leaf keeps the walk from completing -/

/-- Each entry of `P` is a leaf, or it leads to a page that has an entry in `P`. -/
def LeadsToLeaf (m : Mem) (P : ℕ → ℕ → Prop) : Prop := ∀ p i, P p i → p%4096 = 0 ∧ i < 512 ∧
  Valid (entry m p i) ∧ (HasRWX (entry m p i) ∨ ∃ j, P (PTE2PA (entry m p i)) j)

section
variable {P : ℕ → ℕ → Prop} {s s' : Phys} {p i : ℕ}

theorem LeadsToLeaf.congr {m m' : Mem} (h : LeadsToLeaf m P)
    (he : ∀ q j, P q j → entry m' q j = entry m q j) : LeadsToLeaf m' P := by
  intro q j hq
  rw [he q j hq]
  exact h q j hq

theorem LeadsToLeaf.write_page {m m' : Mem} (h : LeadsToLeaf m P) (hp : p%4096 = 0)
    (hn : ∀ j, ¬P p j) (hm : SameOutside m m' p 4096) : LeadsToLeaf m' P := by
  apply h.congr
  intro q j hq
  obtain ⟨hal, hj, _⟩ := h q j hq
  have hne : q ≠ p := fun he => hn j (he ▸ hq)
  exact load_sameOutside hm (by omega)

theorem LeadsToLeaf.clear {m : Mem} (h : LeadsToLeaf m P) (hp : p%4096 = 0) (hi : i < 512)
    (hn : ¬P p i) : LeadsToLeaf (store64 m (p+8*i) 0) P := by
  apply h.congr
  intro q j hq
  obtain ⟨hal, hj, _⟩ := h q j hq
  have hne : ¬(q = p ∧ j = i) := by
    rintro ⟨rfl, rfl⟩
    exact hn hq
  apply load64_sameOutside (store_sameOutside m (p+8*i) 8 0)
  omega

theorem freewalkLoop_avoids (walkChild : Phys → ℕ → Result Phys)
    (hchild : ∀ {s s' : Phys} {c : ℕ}, LeadsToLeaf s.mem P → c%4096 = 0 → walkChild s c = .ok s' →
      (∀ j, ¬P c j) ∧ LeadsToLeaf s'.mem P) (hp : p%4096 = 0) (n : ℕ) :
    ∀ {s : Phys} {i : ℕ}, i+n = 512 → LeadsToLeaf s.mem P → freewalkLoop walkChild s p i = .ok s' →
      (∀ j, i ≤ j → j < 512 → ¬P p j) ∧ LeadsToLeaf s'.mem P := by
  induction n with
  | zero =>
    intro s i hi h hrun
    rw [freewalkLoop_done (by omega)] at hrun
    cases hrun
    exact ⟨fun j hij hj => by omega, h⟩
  | succ n ih =>
    intro s i hn h hrun
    have hi : i < 512 := by omega
    have hrest {s : Phys} (h : LeadsToLeaf s.mem P) (hpi : ¬P p i)
        (hrun : freewalkLoop walkChild s p (i+1) = .ok s') :
        (∀ j, i ≤ j → j < 512 → ¬P p j) ∧ LeadsToLeaf s'.mem P := by
      obtain ⟨hpass, h'⟩ := ih (by omega) h hrun
      refine ⟨fun j hij hj => ?_, h'⟩
      rcases Nat.eq_or_lt_of_le hij with rfl | hlt
      · exact hpi
      · exact hpass j hlt hj
    by_cases hv : Valid (entry s.mem p i)
    case neg =>
      rw [freewalkLoop_skip hi hv] at hrun
      exact hrest h (fun hpi => hv (h p i hpi).2.2.1) hrun
    by_cases hx : HasRWX (entry s.mem p i)
    case pos =>
      rw [freewalkLoop_leaf hi hv hx] at hrun
      cases hrun
    rw [freewalkLoop_child hi hv hx] at hrun
    obtain ⟨s₁, hcall, hrun⟩ := bind_eq_ok.mp hrun
    obtain ⟨hc, h₁⟩ := hchild h (PTE2PA_mod _) hcall
    have hpi : ¬P p i := by
      intro hpi
      obtain ⟨j, hj⟩ := (h p i hpi).2.2.2.resolve_left hx
      exact hc j hj
    refine hrest ?_ hpi hrun
    exact h₁.clear hp hi hpi

/-- No nesting of calls completes for a page with an entry in `P`. -/
theorem freewalk_avoids (stack : ℕ) : ∀ {s s' : Phys} {p : ℕ}, LeadsToLeaf s.mem P → p%4096 = 0 →
    freewalk stack s p = .ok s' → (∀ j, ¬P p j) ∧ LeadsToLeaf s'.mem P := by
  induction stack with
  | zero =>
    intro s s' p _ _ hrun
    rw [freewalk] at hrun
    cases hrun
  | succ stack ih =>
    intro s s' p h hp hrun
    rw [freewalk] at hrun
    obtain ⟨s₁, hloop, hk⟩ := bind_eq_ok.mp hrun
    obtain ⟨hpass, h₁⟩ := freewalkLoop_avoids (freewalk stack) ih hp 512 (Nat.zero_add 512) h hloop
    have hn (j : ℕ) : ¬P p j := fun hpj => hpass j (Nat.zero_le j) (h p j hpj).2.1 hpj
    refine ⟨hn, h₁.write_page hp hn ?_⟩
    rw [kfree, memset_eq_fill] at hk
    split_ifs at hk with hbad
    cases hk
    exact (fill_sameOutside s₁.mem p 4096 0).trans ((store_sameOutside _ p 8 s₁.freelist).mono le_rfl (by omega))

/-- The entries that lead to a leaf. -/
inductive Leads (m : Mem) : ℕ → ℕ → Prop
  | leaf {p i : ℕ} (hp : p%4096 = 0) (hi : i < 512) (hv : Valid (entry m p i))
    (hx : HasRWX (entry m p i)) : Leads m p i
  | next {p i j : ℕ} (hp : p%4096 = 0) (hi : i < 512) (hv : Valid (entry m p i))
    (hc : Leads m (PTE2PA (entry m p i)) j) : Leads m p i

theorem leads_leadsToLeaf (m : Mem) : LeadsToLeaf m (Leads m) := by
  intro p i h
  cases h with
  | leaf hp hi hv hx => exact ⟨hp, hi, hv, .inl hx⟩
  | next hp hi hv hc => exact ⟨hp, hi, hv, .inr ⟨_, hc⟩⟩

theorem TableAt.leads {m : Mem} {r level q : ℕ} (hr : r%4096 = 0) (hq : TableAt m r level q) :
    ∀ {j}, Leads m q j → ∃ i, Leads m r i := by
  induction hq with
  | root => exact fun hj => ⟨_, hj⟩
  | @next level p i hp hi hv ih =>
    intro j hj
    have hmod : p%4096 = 0 := by
      cases hp with
      | root => exact hr
      | next _ _ _ => exact PTE2PA_mod _
    exact ih (.next hmod hi hv hj)

end

/-! ### The whole call -/

section
variable {s : Phys} {r : ℕ} {l : List ℕ}

theorem TableAt.hollow {m : Mem}
    (hleaf : ∀ p i, TableAt m r 0 p → i < 512 → ¬Valid (entry m p i))
    (hinner : ∀ level p i, TableAt m r (level+1) p → i < 512 → Valid (entry m p i) →
      PTE_FLAGS (entry m p i) = PTE_V) {level : ℕ} : ∀ {p}, TableAt m r level p → Hollow m level p := by
  induction level with
  | zero => exact fun hp i hi => hleaf _ i hp hi
  | succ level ih =>
    intro p hp i hi hv
    refine ⟨?_, ih (hp.next hi hv)⟩
    rw [HasRWX, and_flags _ _ (by decide), hinner level p i hp hi hv]
    decide

theorem TableAt.endsInLeaves {m : Mem}
    (hleaf : ∀ p i, TableAt m r 0 p → i < 512 → Valid (entry m p i) → HasRWX (entry m p i))
    {level : ℕ} : ∀ {p}, TableAt m r level p → EndsInLeaves m level p := by
  induction level with
  | zero => exact fun hp i hi => hleaf _ i hp hi
  | succ level ih => exact fun hp i hi hv => ih (hp.next hi hv)

theorem Hollow.tableAt {m : Mem} (h : Hollow m 2 r) {level p : ℕ} (hp : TableAt m r level p) :
    Hollow m level p := by
  induction hp with
  | root => exact h
  | next _ hi hv ih => exact (ih _ hi hv).2

/-- A tree without leaves is freed, every table page once. A tree with a leaf is never freed
to its end, and where nothing hangs below level 0 the call panics. -/
theorem freewalk_tree {stack : ℕ} (h : TreeOf s 2 r l) (hstack : 2 < stack) :
    ((∀ p i, TableAt s.mem r 0 p → i < 512 → ¬Valid (entry s.mem p i)) →
      (∀ level p i, TableAt s.mem r (level+1) p → i < 512 → Valid (entry s.mem p i) →
        PTE_FLAGS (entry s.mem p i) = PTE_V) →
      ∃ s' l', freewalk stack s r = .ok s' ∧ FreeList s' l' ∧
        l'.Perm (tablePages s.mem 2 r ++ l) ∧
        ∀ q, q ∈ l' ↔ (∃ level, TableAt s.mem r level q) ∨ q ∈ l) ∧
    ((∃ p i, TableAt s.mem r 0 p ∧ i < 512 ∧ Valid (entry s.mem p i) ∧ HasRWX (entry s.mem p i)) →
      (∀ s', freewalk stack s r ≠ .ok s') ∧
      ((∀ p i, TableAt s.mem r 0 p → i < 512 → Valid (entry s.mem p i) → HasRWX (entry s.mem p i)) →
        freewalk stack s r = .error (.panic "freewalk: leaf still mapped"))) := by
  refine ⟨fun hleaf hinner => ?_, ?_⟩
  · obtain ⟨s', l', hrun, f⟩ := freewalk_frees 2 hstack h (TableAt.hollow hleaf hinner .root)
    refine ⟨s', l', hrun, f.free, f.perm, fun q => ?_⟩
    rw [f.perm.mem_iff, List.mem_append, mem_tablePages]
  · rintro ⟨p, i, hp, hi, hv, hx⟩
    have hmod (q : ℕ) (hq : q ∈ tablePages s.mem 2 r) : q%4096 = 0 := (h.page q hq).1.bounds.2.2
    have hr := hmod r (head_mem_tablePages s.mem 2 r)
    refine ⟨fun s' hrun => ?_, fun hleaf => ?_⟩
    · obtain ⟨j, hj⟩ := hp.leads hr (.leaf (hmod p (mem_tablePages.mpr ⟨0, hp⟩)) hi hv hx)
      exact (freewalk_avoids stack (leads_leadsToLeaf s.mem) hr hrun).1 j hj
    · exact freewalk_panics 2 hstack h (TableAt.endsInLeaves hleaf .root)
        (fun hh => hh.tableAt hp i hi hv)

/-! ### Well-formed tables are such trees -/

variable {τ : Typing}

theorem Typed.tablePages_typed (h : Typed s τ noSelfMap l) (level : ℕ) : ∀ {p q par},
    τ p = .table level par → q ∈ tablePages s.mem level p → ∃ k ≤ level, ∃ par', τ q = .table k par' := by
  induction level with
  | zero =>
    intro p q par hp hq
    rw [List.mem_singleton.mp hq]
    exact ⟨0, le_rfl, par, hp⟩
  | succ level ih =>
    intro p q par hp hq
    rcases mem_tablePages_succ.mp hq with rfl | ⟨i, hi, hv, hq⟩
    · exact ⟨level+1, le_rfl, par, hp⟩
    · obtain ⟨k, hk, hkind⟩ := ih (h.next hp hi (clear_noSelfMap _ _ _) hv) hq
      exact ⟨k, by omega, hkind⟩

theorem Typed.tablePages_root (h : Typed s τ noSelfMap l) (level : ℕ) : ∀ {c c' q par par'},
    τ c = .table level par → τ c' = .table level par' → q ∈ tablePages s.mem level c →
    q ∈ tablePages s.mem level c' → c = c' := by
  induction level with
  | zero =>
    intro c c' q par par' _ _ hq hq'
    rw [← List.mem_singleton.mp hq, List.mem_singleton.mp hq']
  | succ level ih =>
    have htop {c q i : ℕ} {par : Option (ℕ × ℕ)} {k : ℕ} {par' : Option (ℕ × ℕ)}
        (hc : τ c = .table (level+1) par) (hi : i < 512) (hv : Valid (entry s.mem c i))
        (hq : q ∈ tablePages s.mem level (PTE2PA (entry s.mem c i))) (hk : τ q = .table k par') :
        k ≤ level := by
      obtain ⟨k', hk', _, hkind⟩ := h.tablePages_typed level (h.next hc hi (clear_noSelfMap _ _ _) hv) hq
      rw [hk] at hkind
      cases hkind
      exact hk'
    intro c c' q par par' hc hc' hq hq'
    rcases mem_tablePages_succ.mp hq with rfl | ⟨i, hi, hv, hq⟩ <;>
      rcases mem_tablePages_succ.mp hq' with heq | ⟨i', hi', hv', hq'⟩
    · exact heq
    · exact absurd (htop hc' hi' hv' hq' hc) (by omega)
    · subst heq
      exact absurd (htop hc hi hv hq hc') (by omega)
    · have hn := h.next hc hi (clear_noSelfMap _ _ _) hv
      have hn' := h.next hc' hi' (clear_noSelfMap _ _ _) hv'
      rw [ih hn hn' hq hq', hn'] at hn
      cases hn
      rfl

theorem Typed.tablePages_nodup (h : Typed s τ noSelfMap l) (level : ℕ) : ∀ {p par},
    τ p = .table level par → (tablePages s.mem level p).Nodup := by
  induction level with
  | zero => exact fun _ => List.nodup_singleton _
  | succ level ih =>
    intro p par hp
    have hnext {i : ℕ} (hi : i < 512) (hv : Valid (entry s.mem p i)) :=
      h.next hp hi (clear_noSelfMap _ _ _) hv
    rw [tablePages, List.nodup_cons, List.nodup_flatMap]
    refine ⟨fun hm => ?_, fun i hi => ?_, ?_⟩
    · obtain ⟨i, hi, hq⟩ := List.mem_flatMap.mp hm
      obtain ⟨hv, hq⟩ := mem_childPages.mp hq
      have hi' : i < 512 := by simpa using (List.mem_range'_1.mp hi).2
      obtain ⟨k, hk, _, hkind⟩ := h.tablePages_typed level (hnext hi' hv) hq
      rw [hp] at hkind
      cases hkind
      omega
    · have hi' : i < 512 := by simpa using (List.mem_range'_1.mp hi).2
      rw [childPages]
      split_ifs with hv
      · exact ih (hnext hi' hv)
      · exact List.nodup_nil
    · have hindex : (List.range' 0 512).Nodup := List.nodup_range'
      refine List.Pairwise.imp_of_mem ?_ hindex
      intro i j hi hj hij q hqi hqj
      obtain ⟨hv, hqi⟩ := mem_childPages.mp hqi
      obtain ⟨hv', hqj⟩ := mem_childPages.mp hqj
      have hi' : i < 512 := by simpa using (List.mem_range'_1.mp hi).2
      have hj' : j < 512 := by simpa using (List.mem_range'_1.mp hj).2
      have hn := hnext hi' hv
      rw [h.tablePages_root level hn (hnext hj' hv') hqi hqj, hnext hj' hv'] at hn
      cases hn
      exact hij rfl

theorem WellFormed.treeOf (h : WellFormed s r l) : TreeOf s 2 r l := by
  obtain ⟨ht, hr⟩ := h.typed
  refine ⟨h.free, fun q hq => ?_, ht.tablePages_nodup 2 hr⟩
  obtain ⟨level, hq⟩ := mem_tablePages.mp hq
  exact h.page hq

end

theorem TableAt.descend {m : Mem} {r q : ℕ} (level : ℕ) : ∀ {p v}, TableAt m r level p →
    descend m level p v = some q → TableAt m r 0 q := by
  induction level with
  | zero =>
    intro p v hp hd
    cases hd
    exact hp
  | succ level ih =>
    intro p v hp hd
    by_cases hv : Valid (entry m p (vpnIndex (level+1) v))
    · rw [descend_succ_of_valid hv] at hd
      exact ih (hp.next (vpnIndex_lt _ _) hv) hd
    · rw [descend_succ_of_not_valid hv] at hd
      cases hd

theorem TableAt.leaf_entry {m : Mem} {r p i : ℕ} (hp : TableAt m r 0 p) (hi : i < 512) :
    ∃ v, leaf m r v = entry m p i := by
  cases hp with
  | @next _ q j hq hj hv =>
    cases hq with
    | @next _ t k ht hk hv' =>
      obtain rfl : t = r := by
        cases ht with
        | root => rfl
        | next htop _ _ => exact absurd htop.level_le (by decide)
      have h2 : vpnIndex 2 (k*2^18+j*2^9+i) = k := by
        simp only [vpnIndex]
        omega
      have h1 : vpnIndex 1 (k*2^18+j*2^9+i) = j := by
        simp only [vpnIndex]
        omega
      have h0 : vpnIndex 0 (k*2^18+j*2^9+i) = i := by
        simp only [vpnIndex]
        omega
      refine ⟨k*2^18+j*2^9+i, ?_⟩
      rw [leaf, leafFrom_succ_of_valid (by rwa [h2]), h2, leafFrom_succ_of_valid (by rwa [h1]), h1,
        leafFrom_zero, h0]

theorem WellFormed.pointer_flags {s : Phys} {r level p i : ℕ} {l : List ℕ} (h : WellFormed s r l)
    (hp : TableAt s.mem r (level+1) p) (hi : i < 512) (hv : Valid (entry s.mem p i)) :
    PTE_FLAGS (entry s.mem p i) = PTE_V := by
  have hleaf : entry s.mem p i = mkLeaf (PTE2PA (entry s.mem p i)) 0 := by
    rw [mkLeaf, Nat.or_zero]
    exact h.inner hp hi hv
  rw [hleaf, PTE_FLAGS_mkLeaf _ (by decide), Nat.zero_or]

/-- A table of each level, without a leaf: what `walk` leaves in an empty table. -/
theorem exists_hollowTree : ∃ s r l, WellFormed s r l ∧ (∀ v, leaf s.mem r v = 0) ∧
    ∃ q, TableAt s.mem r 0 q := by
  obtain ⟨s, h, he, _⟩ := exists_emptyTable (by decide : 4 < heapCount)
  obtain ⟨ht, hr⟩ := h.typed
  obtain ⟨τ', l', w⟩ := ht.walk_page hr (clear_noSelfMap _ 2 (vpnIndex 2 0)) (by decide)
  obtain ⟨u, hu, hlen⟩ := w.used
  have hlist : (heapPages 4).length = u.length+l'.length := by rw [hu, List.length_append]
  rw [heapPages_length] at hlist
  refine ⟨_, _, l', w.typed.wellFormed (w.grows.table hr), fun v => ?_, ?_⟩
  · exact (w.leaves v hr (clear_noSelfMap _ _ _)).trans (he v)
  · rcases w.found with ⟨_, rfl, _⟩ | ⟨q, hq, _⟩
    · rw [List.length_nil] at hlist
      omega
    · exact ⟨q, TableAt.descend 2 .root hq⟩

/-- A table of each level without a leaf goes away, and one with two mapped pages stops the walk. -/
theorem freewalk_tree_two :
    (∃ s r l, TreeOf s 2 r l ∧ (∃ q, TableAt s.mem r 0 q) ∧ ∃ s' l', freewalk 3 s r = .ok s' ∧
      FreeList s' l' ∧ l'.Perm (tablePages s.mem 2 r ++ l)) ∧
    ∃ s r l, TreeOf s 2 r l ∧
      freewalk 3 s r = .error (.panic "freewalk: leaf still mapped") := by
  refine ⟨?_, ?_⟩
  · obtain ⟨s, r, l, h, he, hq⟩ := exists_hollowTree
    have hnone (p i : ℕ) (hp : TableAt s.mem r 0 p) (hi : i < 512) : ¬Valid (entry s.mem p i) := by
      obtain ⟨v, hv⟩ := hp.leaf_entry hi
      rw [← hv, he]
      exact not_Valid_zero
    obtain ⟨s', l', hrun, hf, hperm, _⟩ := (freewalk_tree h.treeOf (by decide : 2 < 3)).1 hnone
      (fun level p i hp hi hv => h.pointer_flags hp hi hv)
    exact ⟨s, r, l, h.treeOf, hq, s', l', hrun, hf, hperm⟩
  · obtain ⟨s, r, l, h, hmapped, _⟩ := exists_twoPages
    obtain ⟨ht, hr⟩ := h.typed
    have hval : Valid (leaf s.mem r 0) := by
      by_contra hn
      exact hmapped 0 (by decide) ((ht.leafAt_none hr (by decide)).mpr hn)
    obtain ⟨q, hq⟩ : ∃ q, descend s.mem 2 r 0 = some q := by
      cases hd : descend s.mem 2 r 0 with
      | none =>
        rw [leaf, leafFrom, hd] at hval
        exact absurd hval not_Valid_zero
      | some q => exact ⟨q, rfl⟩
    have hentry : leaf s.mem r 0 = entry s.mem q 0 := by
      rw [leaf, leafFrom, hq]
      rfl
    rw [hentry] at hval
    have htab : TableAt s.mem r 0 q := TableAt.descend 2 .root hq
    exact ⟨s, r, l, h.treeOf, ((freewalk_tree h.treeOf (by decide : 2 < 3)).2
      ⟨q, 0, htab, by decide, hval, (h.leafOk htab (by decide) hval).2⟩).2
      (fun p i hp hi hv => (h.leafOk hp hi hv).2)⟩

end RiscvMos
