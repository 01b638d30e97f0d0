import RiscvMos.TableCount
import RiscvMos.UnmapPages
import RiscvMos.UvmallocSpec

/-! `uvmalloc` on any well-formed table: with enough free pages it grows the range, and
otherwise it undoes what it did, as far as `uvmunmap` lets it. -/
namespace RiscvMos
open ByteMem LinkChain Function

section
variable {s : Phys} {τ : Typing} {l : List ℕ} {r : ℕ}

/-! ### One page with its tables -/

theorem Typed.store_leaf_covers (h : Typed s τ noSelfMap l) (hr : τ r = .table 2 none) {q i : ℕ} (e : ℕ)
    {par : Option (ℕ × ℕ)} (hq : τ q = .table 0 par) (hi : i < 512) :
    Covers s.mem (store64 s.mem (q+8*i) e) r ∅ := by
  constructor
  · intro g _
    rw [Populated, Populated, h.store_leaf_descend e hq hi (512*g) hr (clear_noSelfMap _ _ _)]
    simp
  · intro a ha
    rw [entry_store_ne _ _ (h.page hq) (h.page hr) hi (by omega)]
    · simp
    · rintro ⟨rfl, _⟩
      rw [hr] at hq
      cases hq

theorem Covers.trans_empty {m m' m'' : Mem} {W : Finset ℕ} (h : Covers m m' r W)
    (h' : Covers m' m'' r ∅) : Covers m m'' r W := by
  constructor
  · intro g hg
    rw [h'.regions g hg, h.regions g hg]
    simp
  · intro a ha
    rw [h'.groups a ha, h.groups a ha]
    simp

theorem Typed.mappages_page_exact (h : Typed s τ noSelfMap l) (hr : τ r = .table 2 none)
    {v pa perm : ℕ} (hv : v < 2^26) (hpa : pa < 2^64) (hf : perm < 1024) (hx : HasRWX perm)
    (hun : ¬Valid (leaf s.mem r v)) :
    (tablesNeeded s.mem r {v} ≤ l.length ∧ ∃ s' τ' l',
      mappages s r (v*4096) PAGE_SIZE pa perm = .ok (0, s') ∧
      MapOut noSelfMap s τ l r v 1 pa perm s' τ' l' ∧
      l.length = l'.length+tablesNeeded s.mem r {v} ∧ Covers s.mem s'.mem r {v}) ∨
    (l.length < tablesNeeded s.mem r {v} ∧ ∃ s' τ',
      mappages s r (v*4096) PAGE_SIZE pa perm = .ok (-1, s') ∧
      MapOut noSelfMap s τ l r v 0 pa perm s' τ' []) := by
  have hdiv : v*4096/4096 = v := Nat.mul_div_cancel v (by decide)
  have hc := clear_noSelfMap r 2 (vpnIndex 2 v)
  have hwalk : walk s r (v*4096) true = .ok (walkLoop s r (v*4096) true 2) :=
    walk_eq_ok.mpr ⟨page_lt_MAXVA hv, rfl⟩
  have halloc := walkLoop_alloc (v*4096) (by rwa [hdiv]) 2 h hr (by rwa [hdiv])
  have htables := h.walk_tables hr (by rwa [hdiv] : v*4096/4096 < 2^26)
  rw [hdiv] at halloc htables
  obtain ⟨τ₁, l₁, w⟩ := halloc
  rw [mappages_page_eq (by omega), mappagesLoop_eq, hwalk, ok_bind]
  generalize walkLoop s r (v*4096) true 2 = x at w htables ⊢
  rcases htables with ⟨hle, hx0, l₂, hf₂, hlen, hcov⟩ | ⟨hlt, hx0⟩
  · obtain rfl : l₂ = l₁ := chain_unique hf₂.chain w.typed.free.chain
    rcases w.found with ⟨h0, _⟩ | ⟨q, hq, ha⟩
    · exact absurd h0 hx0
    have hr₁ := w.grows.table hr
    obtain ⟨par, hτq⟩ := w.typed.descend_typed hr₁ hc hq
    rw [if_neg hx0, w.load_leaf hr hc hq ha, if_neg hun, if_pos rfl]
    rw [ha] at w ⊢
    exact .inl ⟨hle, _, τ₁, l₂, rfl, w.store hr hc (by omega) hq hpa hf hx, hlen,
      hcov.trans_empty (w.typed.store_leaf_covers hr₁ _ hτq (vpnIndex_lt 0 v))⟩
  · rcases w.found with ⟨_, hnil, _⟩ | ⟨q, hq, ha⟩
    · subst hnil
      rw [if_pos hx0]
      exact .inr ⟨hlt, x.2, τ₁, rfl, w.mapOut _ _⟩
    · obtain ⟨par, hτq⟩ := w.typed.descend_typed (w.grows.table hr) hc hq
      have hb := (w.typed.page hτq).bounds
      omega

/-! ### The pages so far -/

theorem Grows.zeroPage {s' : Phys} {τ' : Typing} (g : Grows s τ s' τ') {p : ℕ} {o : Option (ℕ × ℕ)}
    (hp : IsPage p) (ho : τ p = .frame o) (hz : ZeroPage s.mem p) : ZeroPage s'.mem p := by
  intro b hl hu
  rw [g.frame_agree hp ho b hl hu, hz b hl hu]

/-- The pages from `v` on were mapped to the zeroed frames `cs` from the free list `l`; of
its other pages only new tables are gone. -/
structure Grown (s : Phys) (τ : Typing) (l : List ℕ) (r v perm : ℕ) (cs : List ℕ) (s' : Phys)
    (τ' : Typing) (l' : List ℕ) : Prop where
  typed : Typed s' τ' noSelfMap l'
  roots : ∀ p, τ' p = .table 2 none ↔ τ p = .table 2 none
  leaves : ∀ w < 2^26, leaf s'.mem r w = if v ≤ w ∧ w < v+cs.length
    then mkLeaf (cs.getD (w-v) 0) perm else leaf s.mem r w
  distinct : cs.Nodup
  taken : ∀ c ∈ cs, c ∈ l ∧ τ' c = .frame none ∧ ZeroPage s'.mem c
  sub : l' ⊆ l
  account : ∀ p ∈ l, p ∈ l' ∨ p ∈ cs ∨ ∃ level pi, τ' p = .table level (some pi)

theorem Grown.start (h : Typed s τ noSelfMap l) (r v perm : ℕ) : Grown s τ l r v perm [] s τ l where
  typed := h
  roots _ := Iff.rfl
  leaves w _ := by
    rw [if_neg]
    simp only [List.length_nil]
    omega
  distinct := List.nodup_nil
  taken c hc := absurd hc List.not_mem_nil
  sub := List.Subset.refl l
  account p hp := .inl hp

section
variable {v perm c n : ℕ} {cs l₁ l₃ : List ℕ} {s₁ s₂ s₃ : Phys} {τ₁ τ₃ : Typing}

/-- What a turn does between its `kalloc` and the end of `mappages`. -/
structure Turn (s₁ : Phys) (τ₁ : Typing) (c : ℕ) (l₁ : List ℕ) (r v n perm : ℕ) (s₂ s₃ : Phys)
    (τ₃ : Typing) (l₃ : List ℕ) : Prop where
  free : τ₁ c = .free
  page : IsPage c
  same : SameOutside s₁.mem s₂.mem c 4096
  zero : ZeroPage s₂.mem c
  map : MapOut noSelfMap s₂ (update τ₁ c (.frame none)) l₁ r v n c perm s₃ τ₃ l₃

theorem Grown.turn_taken (o : Grown s τ l r v perm cs s₁ τ₁ (c :: l₁)) (hl : ∀ p ∈ l, IsPage p)
    (t : Turn s₁ τ₁ c l₁ r (v+cs.length) n perm s₂ s₃ τ₃ l₃) :
    c ∉ cs ∧ ∀ p ∈ cs ++ [c], p ∈ l ∧ τ₃ p = .frame none ∧ ZeroPage s₃.mem p := by
  have hcs : c ∉ cs := by
    intro hc
    have hk := (o.taken c hc).2.1
    rw [t.free] at hk
    cases hk
  refine ⟨hcs, fun p hp => ?_⟩
  have hframe (p : ℕ) (hpage : IsPage p) (hk : update τ₁ c (.frame none) p = .frame none)
      (hz : ZeroPage s₂.mem p) : τ₃ p = .frame none ∧ ZeroPage s₃.mem p :=
    ⟨by rw [t.map.grows.kinds p (by simp [hk]), hk], t.map.grows.zeroPage hpage hk hz⟩
  rcases List.mem_append.mp hp with hp | hp
  · obtain ⟨hpl, hk, hz⟩ := o.taken p hp
    have hpc : p ≠ c := fun he => hcs (he ▸ hp)
    have hpage := hl p hpl
    refine ⟨hpl, hframe p hpage (by rw [update_other_kind _ _ hpc, hk]) ?_⟩
    intro b hlo hhi
    have hd := hpage.disjoint t.page hpc
    rw [t.same b (by omega)]
    exact hz b hlo hhi
  · rw [List.mem_singleton.mp hp]
    exact ⟨o.sub List.mem_cons_self, hframe c t.page (update_same_kind _ _ _) t.zero⟩

/-- What the turn did with the pages that the calls before it left. -/
theorem Grown.turn_account (o : Grown s τ l r v perm cs s₁ τ₁ (c :: l₁))
    (t : Turn s₁ τ₁ c l₁ r (v+cs.length) n perm s₂ s₃ τ₃ l₃) {p : ℕ} (hp : p ∈ l) (hpage : IsPage p) :
    p = c ∨ p ∈ l₃ ∨ p ∈ cs ∨ ∃ level pi, τ₃ p = .table level (some pi) := by
  by_cases hpc : p = c
  · exact .inl hpc
  refine .inr ?_
  have hkind : update τ₁ c (.frame none) p = τ₁ p := update_other_kind _ _ hpc
  rcases o.account p hp with hp₁ | hp₁ | ⟨level, pi, ht⟩
  · have hfree : update τ₁ c (.frame none) p = .free := by rw [hkind, o.typed.free_kind hp₁]
    rcases t.map.grows.fresh p hfree with h₃ | h₃
    · exact .inl ((t.map.typed.mem_free p).mpr ⟨hpage, h₃⟩)
    · exact .inr (.inr h₃)
  · exact .inr (.inl hp₁)
  · exact .inr (.inr ⟨level, pi, t.map.grows.table (by rw [hkind, ht])⟩)

theorem Grown.turn_root (o : Grown s τ l r v perm cs s₁ τ₁ (c :: l₁)) (hr : τ r = .table 2 none)
    (t : Turn s₁ τ₁ c l₁ r (v+cs.length) n perm s₂ s₃ τ₃ l₃) :
    update τ₁ c (.frame none) r = .table 2 none ∧ ∀ p, τ₃ p = .table 2 none ↔ τ p = .table 2 none := by
  have hroot (p : ℕ) : update τ₁ c (.frame none) p = .table 2 none ↔ τ p = .table 2 none := by
    rw [← o.roots p]
    exact Typed.update_table_iff (Typed.not_table_of_free t.free) (by simp) p 2 none
  refine ⟨(hroot r).mpr hr, fun p => ?_⟩
  rw [t.map.grows.root_iff, hroot]

theorem Grown.turn_leaves (o : Grown s τ l r v perm cs s₁ τ₁ (c :: l₁)) (hr : τ r = .table 2 none)
    (t : Turn s₁ τ₁ c l₁ r (v+cs.length) n perm s₂ s₃ τ₃ l₃) {w : ℕ} (hw : w < 2^26) :
    leaf s₃.mem r w = if v+cs.length ≤ w ∧ w < v+cs.length+n
      then mkLeaf ((c+4096*(w-(v+cs.length)))%2^64) perm
      else if v ≤ w ∧ w < v+cs.length then mkLeaf (cs.getD (w-v) 0) perm else leaf s.mem r w := by
  have hback : leaf s₂.mem r w = leaf s₁.mem r w :=
    o.typed.leafFrom_agree (fun hq => o.typed.table_agree t.page
      (Typed.not_table_of_free t.free) t.same hq) w ((o.roots r).mpr hr) (clear_noSelfMap _ _ _)
  rw [t.map.leaves (o.turn_root hr t).1 (clear_noSelfMap _ _ _) (by omega), hback, o.leaves w hw]
  simp only [true_and]

theorem Grown.map (o : Grown s τ l r v perm cs s₁ τ₁ (c :: l₁)) (h : Typed s τ noSelfMap l)
    (hr : τ r = .table 2 none) (t : Turn s₁ τ₁ c l₁ r (v+cs.length) 1 perm s₂ s₃ τ₃ l₃) :
    Grown s τ l r v perm (cs ++ [c]) s₃ τ₃ l₃ := by
  have hb := t.page.bounds
  obtain ⟨hcs, htaken⟩ := o.turn_taken h.free.pages t
  constructor
  case typed => exact t.map.typed
  case roots => exact (o.turn_root hr t).2
  case leaves =>
    intro w hw
    have hlen : (cs ++ [c]).length = cs.length+1 := by simp
    rw [o.turn_leaves hr t hw, hlen]
    by_cases hnew : w = v+cs.length
    · have hidx : w-v = cs.length := by omega
      rw [if_pos (by omega), if_pos (by omega), hidx, List.getD_append_right _ _ _ _ le_rfl,
        Nat.sub_self, List.getD_cons_zero, hnew, Nat.sub_self, Nat.mul_zero, Nat.add_zero,
        Nat.mod_eq_of_lt (by omega)]
    · rw [if_neg (by omega)]
      by_cases hold : v ≤ w ∧ w < v+cs.length
      · rw [if_pos hold, if_pos (by omega), List.getD_append _ _ _ _ (by omega)]
      · rw [if_neg hold, if_neg (by omega)]
  case distinct =>
    rw [List.nodup_append_comm]
    exact List.nodup_cons.mpr ⟨hcs, o.distinct⟩
  case taken => exact htaken
  case sub => exact fun p hp => o.sub (List.mem_cons_of_mem c (t.map.suffix.subset hp))
  case account =>
    intro p hp
    rcases o.turn_account t hp (h.free.pages p hp) with rfl | hp₃ | hp₃ | hp₃
    · exact .inr (.inl (by simp))
    · exact .inl hp₃
    · exact .inr (.inl (List.mem_append_left _ hp₃))
    · exact .inr (.inr hp₃)

theorem Grown.drop (o : Grown s τ l r v perm cs s₁ τ₁ (c :: l₁)) (h : Typed s τ noSelfMap l)
    (hr : τ r = .table 2 none) (t : Turn s₁ τ₁ c l₁ r (v+cs.length) 0 perm s₂ s₃ τ₃ l₃) :
    ∃ s₄ τ₄, kfree s₃ c = .ok s₄ ∧ Grown s τ l r v perm cs s₄ τ₄ (c :: l₃) := by
  obtain ⟨hcs, htaken⟩ := o.turn_taken h.free.pages t
  have hframe := (htaken c (by simp)).2.1
  -- `c` is a frame again, so freeing it touches no table
  have hct (level : ℕ) (par : Option (ℕ × ℕ)) : τ₃ c ≠ .table level par := by simp [hframe]
  obtain ⟨s₄, hk, h₄, hsame⟩ := t.map.typed.kfree_frame t.page hframe
  have hroot := (o.turn_root hr t).2
  have hkind {p : ℕ} (hpc : p ≠ c) : update τ₃ c .free p = τ₃ p := update_other_kind _ _ hpc
  refine ⟨s₄, update τ₃ c .free, hk, ?_⟩
  constructor
  case typed => exact h₄
  case roots =>
    intro p
    rw [← hroot p]
    exact Typed.update_table_iff hct (by simp) p 2 none
  case leaves =>
    intro w hw
    have hback : leaf s₄.mem r w = leaf s₃.mem r w :=
      t.map.typed.leafFrom_agree (fun hq => t.map.typed.table_agree t.page hct hsame hq) w
        ((hroot r).mpr hr) (clear_noSelfMap _ _ _)
    rw [hback, o.turn_leaves hr t hw, if_neg (by omega)]
  case distinct => exact o.distinct
  case taken =>
    intro p hp
    have hpc : p ≠ c := fun he => hcs (he ▸ hp)
    obtain ⟨hpl, hk₃, hz⟩ := htaken p (List.mem_append_left _ hp)
    refine ⟨hpl, by rw [hkind hpc, hk₃], fun b hlo hhi => ?_⟩
    have hd := (h.free.pages p hpl).disjoint t.page hpc
    rw [hsame b (by omega)]
    exact hz b hlo hhi
  case sub =>
    intro p hp
    rcases List.mem_cons.mp hp with rfl | hp
    · exact o.sub List.mem_cons_self
    · exact o.sub (List.mem_cons_of_mem c (t.map.suffix.subset hp))
  case account =>
    intro p hp
    rcases o.turn_account t hp (h.free.pages p hp) with rfl | hp₃ | hp₃ | ⟨level, pi, hp₃⟩
    · exact .inl List.mem_cons_self
    · exact .inl (List.mem_cons_of_mem c hp₃)
    · exact .inr (.inl hp₃)
    · have hpc : p ≠ c := fun he => hct level (some pi) (he ▸ hp₃)
      exact .inr (.inr ⟨level, pi, by rw [hkind hpc, hp₃]⟩)

end

/-! ### The whole loop -/

/-- The pages that `k` new pages from `v` on take from the free list: a frame each, and the
tables that they need. -/
def pagesNeeded (m : Mem) (r v k : ℕ) : ℕ := k+tablesNeeded m r (Finset.Ico v (v+k))

theorem pagesNeeded_zero (m : Mem) (r v : ℕ) : pagesNeeded m r v 0 = 0 := by
  simp [pagesNeeded, tablesNeeded]

theorem pagesNeeded_mono (m : Mem) (r v : ℕ) {j k : ℕ} (h : j ≤ k) :
    pagesNeeded m r v j ≤ pagesNeeded m r v k :=
  Nat.add_le_add h (tablesNeeded_mono m r (Finset.Ico_subset_Ico_right (by omega)))

/-- One more page takes its frame and the tables that are not there yet. -/
theorem pagesNeeded_succ {m m' : Mem} {v k : ℕ} (h : Covers m m' r (Finset.Ico v (v+k)))
    (hv : v+k < 2^26) : pagesNeeded m r v (k+1) = pagesNeeded m r v k+1+tablesNeeded m' r {v+k} := by
  have hset : Finset.Ico v (v+(k+1)) = insert (v+k) (Finset.Ico v (v+k)) := by
    ext w
    simp only [Finset.mem_Ico, Finset.mem_insert]
    omega
  rw [pagesNeeded, hset, h.tablesNeeded_insert hv, pagesNeeded]
  omega

theorem Typed.covers_agree (h : Typed s τ noSelfMap l) (hr : τ r = .table 2 none) {m' : Mem}
    (hm : ∀ {p level par}, τ p = .table level par → AgreeOn m' s.mem p 4096) :
    Covers s.mem m' r ∅ := by
  constructor
  · intro g _
    rw [Populated, Populated, h.descend_agree hm (512*g) hr (clear_noSelfMap _ _ _)]
    simp
  · intro a ha
    rw [entry_agree (hm hr) (by omega)]
    simp

/-- A turn of the loop on a frame: it maps the frame and the loop goes on, or it frees the
frame and cleans up. -/
theorem uvmallocLoop_turn {s s₁ s₃ : Phys} {r old_size new_size perm a c : ℕ} {res : ℤ}
    (ha : a < new_size) (hk : kalloc s = (c, s₁)) (hc : c ≠ 0)
    (hm : mappages ⟨(memset s₁.mem c 0 PAGE_SIZE).2, s₁.freelist⟩ r a PAGE_SIZE c
      (PTE_R ||| PTE_U ||| perm) = .ok (res, s₃)) :
    uvmallocLoop s r old_size new_size perm a = if res ≠ 0 then kfree s₃ c >>= fun s =>
        uvmdealloc s r a old_size >>= fun y => .ok (0, y.2)
      else uvmallocLoop s₃ r old_size new_size perm (a+PAGE_SIZE) := by
  rw [uvmallocLoop_eq, if_pos ha, hk]
  dsimp only
  rw [if_neg hc, hm, ok_bind]

/-- The loop ran to its end. -/
def GrowsAll (s : Phys) (τ : Typing) (l : List ℕ) (r v N new_size perm : ℕ)
    (run : Result (ℕ × Phys)) : Prop :=
  pagesNeeded s.mem r v N ≤ l.length ∧ ∃ cs s' τ' l', run = .ok (new_size, s') ∧ cs.length = N ∧
    Grown s τ l r v (PTE_R ||| PTE_U ||| perm) cs s' τ' l'

/-- The free list ran out before the last page, and the clean-up goes on with the pages
before it. -/
def GrowsShort (s : Phys) (τ : Typing) (l : List ℕ) (r v N perm : ℕ)
    (run : Result (ℕ × Phys)) : Prop :=
  ∃ cs s' τ' l', cs.length < N ∧ pagesNeeded s.mem r v cs.length ≤ l.length ∧
    l.length < pagesNeeded s.mem r v (cs.length+1) ∧
    Grown s τ l r v (PTE_R ||| PTE_U ||| perm) cs s' τ' l' ∧
    run = uvmdealloc s' r ((v+cs.length)*4096) (v*4096) >>= fun y => .ok (0, y.2)

theorem Grown.loop {v N new_size perm : ℕ} (h : Typed s τ noSelfMap l) (hr : τ r = .table 2 none)
    (hf : PTE_R ||| PTE_U ||| perm < 1024) (hx : HasRWX (PTE_R ||| PTE_U ||| perm))
    (hN : ∀ k, (v+k)*4096 < new_size ↔ k < N) (hv : 0 < N → v+N ≤ 2^26)
    (hun : ∀ w, v ≤ w → w < v+N → ¬Valid (leaf s.mem r w)) (n : ℕ) :
    ∀ {cs : List ℕ} {s₁ : Phys} {τ₁ : Typing} {l₁ : List ℕ}, cs.length+n = N →
      Grown s τ l r v (PTE_R ||| PTE_U ||| perm) cs s₁ τ₁ l₁ →
      Covers s.mem s₁.mem r (Finset.Ico v (v+cs.length)) →
      l.length = l₁.length+pagesNeeded s.mem r v cs.length →
      GrowsAll s τ l r v N new_size perm
          (uvmallocLoop s₁ r (v*4096) new_size perm ((v+cs.length)*4096)) ∨
        GrowsShort s τ l r v N perm
          (uvmallocLoop s₁ r (v*4096) new_size perm ((v+cs.length)*4096)) := by
  induction n with
  | zero =>
    intro cs s₁ τ₁ l₁ hn o hcov hlen
    have hdone : ¬(v+cs.length)*4096 < new_size := by
      rw [hN]
      omega
    rw [uvmallocLoop_eq, if_neg hdone]
    exact .inl ⟨by rw [← hn, Nat.add_zero]; omega, cs, s₁, τ₁, l₁, rfl, hn, o⟩
  | succ n ih =>
    intro cs s₁ τ₁ l₁ hn o hcov hlen
    have hgo : (v+cs.length)*4096 < new_size := (hN _).mpr (by omega)
    have hv' := hv (by omega)
    cases l₁ with
    | nil =>
      -- no frame is left
      have hsucc := pagesNeeded_succ hcov (by omega)
      simp only [List.length_nil] at hlen
      refine .inr ⟨cs, s₁, τ₁, [], by omega, by omega, by omega, o, ?_⟩
      rw [uvmallocLoop_eq, if_pos hgo, kalloc_nil o.typed.free, if_pos rfl]
    | cons c l₁ =>
      obtain ⟨s₂, hk, h₂, hsame, hz⟩ := o.typed.kalloc_memset
      have hpage := o.typed.free.pages c List.mem_cons_self
      have hfree := o.typed.free_kind List.mem_cons_self
      have hr₁ := (o.roots r).mpr hr
      have hr₂ : update τ₁ c (.frame none) r = .table 2 none := by
        rw [update_other_kind _ _ (Typed.ne_of_free hfree hr₁), hr₁]
      have hb := hpage.bounds
      have hagree {q level : ℕ} {par : Option (ℕ × ℕ)} (hq : τ₁ q = .table level par) :=
        o.typed.table_agree hpage (Typed.not_table_of_free hfree) hsame hq
      have hcov₂ := hcov.trans_empty (o.typed.covers_agree hr₁ hagree)
      have hsucc := pagesNeeded_succ hcov₂ (by omega)
      have hun₂ : ¬Valid (leaf (memset s₂.mem c 0 PAGE_SIZE).2 r (v+cs.length)) := by
        have hback := o.typed.leafFrom_agree hagree (v+cs.length) hr₁ (clear_noSelfMap _ _ _)
        rw [leaf, hback, ← leaf, o.leaves _ (by omega), if_neg (by omega)]
        exact hun _ (by omega) (by omega)
      simp only [List.length_cons] at hlen
      rcases h₂.mappages_page_exact hr₂ (by omega) (by omega : c < 2^64) hf hx hun₂ with
        ⟨hle, s₃, τ₃, l₃, hmap, hout, hlen₃, hcov₃⟩ | ⟨hlt, s₃, τ₃, hmap, hout⟩
      · -- the page is mapped, and the loop goes on
        have o₃ := o.map h hr ⟨hfree, hpage, hsame, hz, hout⟩
        have hlen' : (cs ++ [c]).length = cs.length+1 := by simp
        have hnext : (v+cs.length)*4096+PAGE_SIZE = (v+(cs ++ [c]).length)*4096 := by
          rw [hlen', PAGE_SIZE]
          omega
        have hset : Finset.Ico v (v+(cs ++ [c]).length) =
            insert (v+cs.length) (Finset.Ico v (v+cs.length)) := by
          ext w
          simp only [hlen', Finset.mem_Ico, Finset.mem_insert]
          omega
        dsimp only at hle hlen₃
        rw [uvmallocLoop_turn hgo hk (by omega) hmap, if_neg (fun h0 => h0 rfl), hnext]
        refine ih (by omega) o₃ ?_ ?_
        · rw [hset]
          exact hcov₂.insert hcov₃
        · rw [hlen', hsucc]
          omega
      · -- no table page is left
        obtain ⟨s₄, τ₄, hk₄, o₄⟩ := o.drop h hr ⟨hfree, hpage, hsame, hz, hout⟩
        dsimp only at hlt
        refine .inr ⟨cs, s₄, τ₄, [c], by omega, by omega, by omega, o₄, ?_⟩
        rw [uvmallocLoop_turn hgo hk (by omega) hmap, if_pos (by decide), hk₄, ok_bind]

end

end RiscvMos
