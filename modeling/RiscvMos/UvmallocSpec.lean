import RiscvMos.UvmunmapSpec

/-! What `uvmalloc` and its clean-up `uvmdealloc` have done on typed memory when they
return. -/
namespace RiscvMos
open ByteMem LinkChain Function

variable {s : Phys} {τ : Typing} {sm : ℕ → Prop} {l : List ℕ}

theorem uvmallocLoop_eq (s : Phys) (r old_size new_size perm a : ℕ) :
    uvmallocLoop s r old_size new_size perm a =
      if a < new_size then
        if (kalloc s).1 = 0 then
          uvmdealloc (kalloc s).2 r a old_size >>= fun x => .ok (0, x.2)
        else mappages ⟨(memset (kalloc s).2.mem (kalloc s).1 0 PAGE_SIZE).2,
            (kalloc s).2.freelist⟩ r a PAGE_SIZE (kalloc s).1 (PTE_R ||| PTE_U ||| perm) >>=
          fun x => if x.1 ≠ 0 then kfree x.2 (kalloc s).1 >>= fun s =>
              uvmdealloc s r a old_size >>= fun y => .ok (0, y.2)
            else uvmallocLoop x.2 r old_size new_size perm (a+PAGE_SIZE)
      else .ok (new_size, s) := by
  rw [uvmallocLoop]

/-- `k` pages of the root `r` from page `v` on got frames of their own. -/
structure AllocOut (sm : ℕ → Prop) (s : Phys) (τ : Typing) (r v k : ℕ) (s' : Phys)
    (τ' : Typing) (l' : List ℕ) : Prop where
  typed : Typed s' τ' sm l'
  roots : ∀ p, τ' p = .table 2 none ↔ τ p = .table 2 none
  kinds : ∀ p, τ p ≠ .free → τ' p = τ p
  frames : ∀ p, (∃ o, τ' p = .frame o) ↔
    (∃ o, τ p = .frame o) ∨ ∃ w, v ≤ w ∧ w < v+k ∧ p = PTE2PA (leaf s'.mem r w)
  fresh : ∀ w, v ≤ w → w < v+k → IsPage (PTE2PA (leaf s'.mem r w)) ∧
    τ (PTE2PA (leaf s'.mem r w)) = .free

theorem AllocOut.start (h : Typed s τ sm l) (r v : ℕ) : AllocOut sm s τ r v 0 s τ l :=
  ⟨h, fun _ => Iff.rfl, fun _ _ => rfl,
    fun p => ⟨Or.inl, fun hp => hp.elim id (fun ⟨w, h1, h2, _⟩ => by omega)⟩,
    fun w h1 h2 => by omega⟩

theorem Typed.kalloc_memset {c : ℕ} (h : Typed s τ sm (c :: l)) :
    ∃ s₁, kalloc s = (c, s₁) ∧
      Typed ⟨(memset s₁.mem c 0 PAGE_SIZE).2, s₁.freelist⟩ (update τ c (.frame none)) sm l ∧
      SameOutside s.mem (memset s₁.mem c 0 PAGE_SIZE).2 c 4096 ∧
      ZeroPage (memset s₁.mem c 0 PAGE_SIZE).2 c := by
  obtain ⟨s₁, hk, h₁, hz, hm⟩ := h.kalloc_frame none
  have hpage := h.free.pages c List.mem_cons_self
  have hset : SameOutside s₁.mem (memset s₁.mem c 0 PAGE_SIZE).2 c 4096 :=
    memset_sameOutside _ _ _ _
  refine ⟨s₁, hk, ?_, hm.trans hset, zeroPage_memset _ _⟩
  apply h₁.write_frames
  intro p hp ho
  have hpc : p ≠ c := fun he => ho none (by rw [he, update_same_kind])
  exact hset.agreeOn (hp.disjoint hpage hpc)

theorem Typed.kalloc_zeroed {c : ℕ} (h : Typed s τ sm (c :: l)) :
    ∃ s₁, kalloc s = (c, s₁) ∧ IsPage c ∧ τ c = .free ∧
      Typed ⟨(memset s₁.mem c 0 PAGE_SIZE).2, s₁.freelist⟩ (update τ c (.frame none)) sm l ∧
      ∀ {q ℓ par}, τ q = .table ℓ par →
        AgreeOn (memset s₁.mem c 0 PAGE_SIZE).2 s.mem q 4096 := by
  obtain ⟨s₁, hk, h₁, hm, _⟩ := h.kalloc_memset
  have hpage := h.free.pages c List.mem_cons_self
  have hfree := h.free_kind List.mem_cons_self
  refine ⟨s₁, hk, hpage, hfree, h₁, fun {q ℓ par} hq => ?_⟩
  exact h.table_agree hpage (Typed.not_table_of_free hfree) hm hq

theorem AllocOut.carry {r v k : ℕ} {s₁ s₂ : Phys} {τ₁ τ₂ : Typing} {l₁ l₂ : List ℕ}
    (o : AllocOut sm s τ r v k s₁ τ₁ l₁) (h₂ : Typed s₂ τ₂ sm l₂)
    (hr : ∀ p, τ₂ p = .table 2 none ↔ τ₁ p = .table 2 none)
    (hk : ∀ p, τ p ≠ .free → τ₂ p = τ₁ p)
    (hf : ∀ p, (∃ o, τ₂ p = .frame o) ↔ ∃ o, τ₁ p = .frame o)
    (hl : ∀ w, v ≤ w → w < v+k → leaf s₂.mem r w = leaf s₁.mem r w) :
    AllocOut sm s τ r v k s₂ τ₂ l₂ := by
  refine ⟨h₂, fun p => (hr p).trans (o.roots p), ?_, ?_, ?_⟩
  · intro p hp
    rw [hk p hp, o.kinds p hp]
  · intro p
    rw [hf p, o.frames p]
    have hw (w : ℕ) : (v ≤ w ∧ w < v+k ∧ p = PTE2PA (leaf s₁.mem r w)) ↔
        (v ≤ w ∧ w < v+k ∧ p = PTE2PA (leaf s₂.mem r w)) := by
      constructor
      · rintro ⟨h1, h2, he⟩
        exact ⟨h1, h2, by rw [hl w h1 h2, he]⟩
      · rintro ⟨h1, h2, he⟩
        exact ⟨h1, h2, by rw [he, hl w h1 h2]⟩
    simp only [hw]
  · intro w h1 h2
    rw [hl w h1 h2]
    exact o.fresh w h1 h2

theorem AllocOut.free_before {r v k c : ℕ} {s₁ : Phys} {τ₁ : Typing} {l₁ : List ℕ}
    (o : AllocOut sm s τ r v k s₁ τ₁ l₁) (hc : τ₁ c = .free) : τ c = .free := by
  by_contra hne
  rw [o.kinds c hne] at hc
  exact hne hc

theorem AllocOut.step {r v k c perm : ℕ} {s₁ s₂ s₃ : Phys} {τ₁ τ₃ : Typing}
    {l₁ l₃ : List ℕ} (o : AllocOut sm s τ r v k s₁ τ₁ (c :: l₁))
    (hr : τ r = .table 2 none) (hc : ∀ i, Clear sm r 2 i) (hf : perm < 1024)
    (hv : v+k < 2^26) (hpage : IsPage c) (hfree : τ₁ c = .free)
    (hm : ∀ {q ℓ par}, τ₁ q = .table ℓ par → AgreeOn s₂.mem s₁.mem q 4096)
    (m : MapOut sm s₂ (update τ₁ c (.frame none)) l₁ r (v+k) 1 c perm s₃ τ₃ l₃) :
    AllocOut sm s τ r v (k+1) s₃ τ₃ l₃ := by
  have hc0 := o.free_before hfree
  have hb := hpage.bounds
  have hr₁ := (o.roots r).mpr hr
  have htable {q ℓ : ℕ} {par : Option (ℕ × ℕ)} :=
    Typed.update_table_iff (k := .frame none) (Typed.not_table_of_free hfree) (by simp)
      q ℓ par
  -- the new leaf points to `c`, the old ones to the old frames
  have hnew : PTE2PA (leaf s₃.mem r (v+k)) = c := by
    rw [m.leaves (htable.mpr hr₁) (hc _) (by omega), if_pos ⟨rfl, le_rfl, by omega⟩,
      PTE2PA_mkLeaf (Nat.mod_lt _ (by decide)) hf]
    omega
  have hold (w : ℕ) (h1 : v ≤ w) (h2 : w < v+k) :
      leaf s₃.mem r w = leaf s₁.mem r w := by
    rw [m.leaves (htable.mpr hr₁) (hc _) (by omega), if_neg (by omega)]
    exact o.typed.leafFrom_agree hm w hr₁ (hc _)
  have hframe (p : ℕ) : (∃ o, update τ₁ c (.frame none) p = .frame o) ↔
      (∃ o, τ₁ p = .frame o) ∨ p = c := by
    by_cases hpc : p = c
    · rw [hpc, update_same_kind]
      simp
    · rw [update_other_kind _ _ hpc]
      simp [hpc]
  refine ⟨m.typed, ?_, ?_, ?_, ?_⟩
  · intro p
    rw [m.grows.root_iff, htable, o.roots]
  · intro p hp
    have hpc : p ≠ c := fun he => hp (he ▸ hc0)
    have hp₁ := o.kinds p hp
    rw [m.grows.kinds p (by rwa [update_other_kind _ _ hpc, hp₁]), update_other_kind _ _ hpc,
      hp₁]
  · intro p
    rw [m.grows.frame_iff, hframe, o.frames, or_assoc]
    apply or_congr Iff.rfl
    constructor
    · rintro (⟨w, h1, h2, he⟩ | rfl)
      · exact ⟨w, h1, by omega, by rw [hold w h1 h2, he]⟩
      · exact ⟨v+k, by omega, by omega, hnew.symm⟩
    · rintro ⟨w, h1, h2, he⟩
      by_cases hwk : w = v+k
      · rw [hwk, hnew] at he
        exact Or.inr he
      · rw [hold w h1 (by omega)] at he
        exact Or.inl ⟨w, h1, by omega, he⟩
  · intro w h1 h2
    by_cases hwk : w = v+k
    · rw [hwk, hnew]
      exact ⟨hpage, hc0⟩
    · rw [hold w h1 (by omega)]
      exact o.fresh w h1 (by omega)

theorem AllocOut.drop {r v k c perm : ℕ} {s₁ s₂ s₃ s₄ : Phys} {τ₁ τ₃ : Typing}
    {l₁ l₃ : List ℕ} (o : AllocOut sm s τ r v k s₁ τ₁ (c :: l₁))
    (hr : τ r = .table 2 none) (hc : ∀ i, Clear sm r 2 i) (hv : v+k < 2^27)
    (hpage : IsPage c) (hfree : τ₁ c = .free)
    (hm : ∀ {q ℓ par}, τ₁ q = .table ℓ par → AgreeOn s₂.mem s₁.mem q 4096)
    (m : MapOut sm s₂ (update τ₁ c (.frame none)) l₁ r (v+k) 0 c perm s₃ τ₃ l₃)
    (hk : kfree s₃ c = .ok s₄) :
    ∃ τ₄ l₄, AllocOut sm s τ r v k s₄ τ₄ l₄ := by
  have hr₁ := (o.roots r).mpr hr
  have hc0 := o.free_before hfree
  have hframe : τ₃ c = .frame none := by
    rw [m.grows.kinds c (by rw [update_same_kind]; simp), update_same_kind]
  obtain ⟨s', hk', h', hsame⟩ := m.typed.kfree_frame hpage hframe
  have hs : s₄ = s' := by
    rw [hk'] at hk
    exact (Except.ok.inj hk).symm
  subst hs
  have hct (ℓ : ℕ) (par : Option (ℕ × ℕ)) : τ₃ c ≠ .table ℓ par := by simp [hframe]
  have hr₂ : update τ₁ c (.frame none) r = .table 2 none := by
    rw [update_other_kind _ _ (Typed.ne_of_free hfree hr₁), hr₁]
  refine ⟨_, _, o.carry h' ?_ ?_ ?_ ?_⟩
  · intro p
    by_cases hpc : p = c
    · rw [hpc, update_same_kind, hfree]
    · rw [update_other_kind _ _ hpc, m.grows.root_iff, update_other_kind _ _ hpc]
  · intro p hp
    have hpc : p ≠ c := fun he => hp (he ▸ hc0)
    have hp₁ : update τ₁ c (.frame none) p = τ₁ p := update_other_kind _ _ hpc
    rw [update_other_kind _ _ hpc, m.grows.kinds p (by rwa [hp₁, o.kinds p hp]), hp₁]
  · intro p
    by_cases hpc : p = c
    · rw [hpc, update_same_kind, hfree]
    · rw [update_other_kind _ _ hpc, m.grows.frame_iff, update_other_kind _ _ hpc]
  · intro w h1 h2
    have hback : leaf s₄.mem r w = leaf s₃.mem r w :=
      m.typed.leafFrom_agree (fun hq => m.typed.table_agree hpage hct hsame hq) w
        (m.grows.table hr₂) (hc _)
    rw [hback, m.leaves hr₂ (hc _) (by omega), if_neg (by omega)]
    exact o.typed.leafFrom_agree hm w hr₁ (hc _)

theorem ROUND_mul_page {v : ℕ} (hv : v < 2^40) : ROUND (v*4096) PAGE_SIZE = v*4096 := by
  rw [ROUND_page _ (by omega)]
  omega

/-- What the clean-up after a failed turn leaves when it returns: the frames and the
roots from before. -/
theorem AllocOut.dealloc {r v k x : ℕ} {s₁ s' : Phys} {τ₁ : Typing} {l₁ : List ℕ}
    (o : AllocOut sm s τ r v k s₁ τ₁ l₁) (hr : τ r = .table 2 none)
    (hc : ∀ i, Clear sm r 2 i) (hv : 0 < k → v+k ≤ 2^26)
    (hrun : uvmdealloc s₁ r ((v+k)*4096) (v*4096) = .ok (x, s')) :
    ∃ τ' l', AllocOut sm s τ r v 0 s' τ' l' := by
  by_cases hk : k = 0
  · rw [uvmdealloc, if_pos (by omega)] at hrun
    cases hrun
    subst hk
    exact ⟨τ₁, l₁, o⟩
  have hv := hv (by omega)
  have hr₁ := (o.roots r).mpr hr
  have hpages : ((v+k)*4096-v*4096)/PAGE_SIZE = k := by
    simp only [PAGE_SIZE]
    omega
  have hnarrow : narrowInt k = k := by
    rw [narrowInt, if_pos (by omega)]
    omega
  rw [uvmdealloc, if_neg (by omega)] at hrun
  simp only [ROUND_mul_page (show v < 2^40 by omega),
    ROUND_mul_page (show v+k < 2^40 by omega), hpages, hnarrow] at hrun
  rw [if_pos (by omega)] at hrun
  obtain ⟨⟨res, s₂⟩, hun, hrun⟩ := bind_eq_ok.mp hrun
  cases hrun
  obtain ⟨hpage, hp0⟩ := o.fresh v le_rfl (by omega)
  have hframe : ∃ o, τ₁ (PTE2PA (leaf s₁.mem r v)) = .frame o :=
    (o.frames _).mpr (Or.inr ⟨v, le_rfl, by omega, rfl⟩)
  rcases o.typed.uvmunmap_ok hr₁ (hc _) (by omega) (fun _ _ => ⟨hpage, hframe⟩) hun with
    ⟨h1, _⟩ | ⟨_, h2, _, ⟨l', h'⟩, _⟩
  · omega
  -- only one page was mapped before the failure
  have hk1 : k = 1 := by omega
  subst hk1
  rw [freedTyping, if_pos rfl] at h'
  generalize hleaf : PTE2PA (leaf s₁.mem r v) = c at hpage hp0 hframe h'
  obtain ⟨own, hown⟩ := hframe
  refine ⟨_, l', h', ?_, ?_, ?_, fun w h1 h2 => by omega⟩
  · intro p
    rw [← o.roots p]
    exact Typed.update_table_iff (fun _ _ => by simp [hown]) (by simp) p 2 none
  · intro p hp
    have hpc : p ≠ c := fun he => hp (he ▸ hp0)
    rw [update_other_kind _ _ hpc, o.kinds p hp]
  · intro p
    have hnone : ¬∃ w, v ≤ w ∧ w < v+0 ∧ p = PTE2PA (leaf s₂.mem r w) := by
      rintro ⟨w, h1, h3, _⟩
      omega
    by_cases hpc : p = c
    · have hno : ¬∃ o, PageKind.free = .frame o := by simp
      rw [hpc] at hnone ⊢
      rw [update_same_kind, hp0]
      exact ⟨fun hh => absurd hh hno, fun hh => absurd hh (not_or.mpr ⟨hno, hnone⟩)⟩
    · rw [update_other_kind _ _ hpc, o.frames p]
      apply or_congr Iff.rfl
      constructor
      · rintro ⟨w, h1, h3, he⟩
        have hwv : w = v := by omega
        rw [hwv, hleaf] at he
        exact absurd he hpc
      · exact fun hw => absurd hw hnone

/-- The loop of `uvmalloc`, when it returns: either every page got a frame, or
the clean-up took them all back. -/
theorem AllocOut.loop {r v new_size perm : ℕ} (hr : τ r = .table 2 none)
    (hc : ∀ i, Clear sm r 2 i) (hf : PTE_R ||| PTE_U ||| perm < 1024)
    (hx : HasRWX (PTE_R ||| PTE_U ||| perm))
    (hnew : ∀ w, w*4096 < new_size → w*4096+4096 ≤ 2^64) (n : ℕ) :
    ∀ {k : ℕ} {s₁ : Phys} {τ₁ : Typing} {l₁ : List ℕ} {x : ℕ} {s' : Phys},
    new_size ≤ 4096*n+(v+k)*4096 → (0 < k → v+k ≤ 2^26 ∧ (v+k)*4096 < new_size+4096) →
    AllocOut sm s τ r v k s₁ τ₁ l₁ →
    uvmallocLoop s₁ r (v*4096) new_size perm ((v+k)*4096) = .ok (x, s') →
    ∃ k' τ' l', AllocOut sm s τ r v k' s' τ' l' ∧
      (x = new_size ∧ new_size ≤ (v+k')*4096 ∧ (0 < k' → (v+k')*4096 < new_size+4096) ∨
        x = 0 ∧ new_size ≠ 0 ∧ k' = 0) := by
  induction n with
  | zero =>
    intro k s₁ τ₁ l₁ x s' hn hk o hrun
    rw [uvmallocLoop_eq, if_neg (by omega)] at hrun
    cases hrun
    exact ⟨k, τ₁, l₁, o, Or.inl ⟨rfl, by omega, fun hpos => (hk hpos).2⟩⟩
  | succ n ih =>
    intro k s₁ τ₁ l₁ x s' hn hk o hrun
    rw [uvmallocLoop_eq] at hrun
    by_cases hgo : (v+k)*4096 < new_size
    case neg =>
      rw [if_neg hgo] at hrun
      cases hrun
      exact ⟨k, τ₁, l₁, o, Or.inl ⟨rfl, by omega, fun hpos => (hk hpos).2⟩⟩
    rw [if_pos hgo] at hrun
    cases l₁ with
    | nil =>
      -- no frame is left
      rw [kalloc_nil o.typed.free, if_pos rfl] at hrun
      obtain ⟨⟨y, s₂⟩, hde, hrun⟩ := bind_eq_ok.mp hrun
      cases hrun
      obtain ⟨τ', l', o'⟩ := o.dealloc hr hc (fun hpos => (hk hpos).1) hde
      exact ⟨0, τ', l', o', Or.inr ⟨rfl, by omega, rfl⟩⟩
    | cons c l₁ =>
      obtain ⟨s₂, hka, hpage, hfree, h₂, hm⟩ := o.typed.kalloc_zeroed
      have hb := hpage.bounds
      rw [hka] at hrun
      dsimp only at hrun
      rw [if_neg (by omega)] at hrun
      obtain ⟨⟨res, s₃⟩, hmap, hrun⟩ := bind_eq_ok.mp hrun
      have hr₂ : update τ₁ c (.frame none) r = .table 2 none := by
        have hr₁ := (o.roots r).mpr hr
        rw [update_other_kind _ _ (Typed.ne_of_free hfree hr₁), hr₁]
      obtain ⟨τ₃, l₃, hv, ⟨hres, _, m⟩ | ⟨hres, m⟩⟩ :=
        h₂.mappages_page_ok hr₂ (hc _) (hnew _ hgo) (by omega) hf hx hmap
      · -- the page is mapped, and the loop goes on
        rw [if_neg (by simp [hres])] at hrun
        have o₃ := o.step hr hc hf hv hpage hfree hm m
        have hnext : (v+k)*4096+PAGE_SIZE = (v+(k+1))*4096 := by
          simp only [PAGE_SIZE]
          omega
        have hlt := Nat.add_lt_add_right hgo PAGE_SIZE
        rw [hnext] at hrun hlt
        exact ih (by omega) (fun _ => ⟨by omega, hlt⟩) o₃ hrun
      · -- no table page was left
        rw [if_pos (by simp [hres])] at hrun
        obtain ⟨s₄, hfreed, hrun⟩ := bind_eq_ok.mp hrun
        obtain ⟨⟨y, s₅⟩, hde, hrun⟩ := bind_eq_ok.mp hrun
        cases hrun
        obtain ⟨τ₄, l₄, o₄⟩ := o.drop hr hc (by omega) hpage hfree hm m hfreed
        obtain ⟨τ', l', o'⟩ := o₄.dealloc hr hc (fun hpos => (hk hpos).1) hde
        exact ⟨0, τ', l', o', Or.inr ⟨rfl, by omega, rfl⟩⟩

/-- The virtual pages that `uvmalloc` gives frames to. -/
def GrownPages (old_size new_size w : ℕ) : Prop :=
  ROUND old_size PAGE_SIZE ≤ w*4096 ∧ w*4096 < new_size

theorem Typed.uvmalloc_ok (h : Typed s τ sm l) {r old_size new_size perm x : ℕ} {s' : Phys}
    (hr : τ r = .table 2 none) (hc : ∀ i, Clear sm r 2 i)
    (hf : PTE_R ||| PTE_U ||| perm < 1024) (hx : HasRWX (PTE_R ||| PTE_U ||| perm))
    (hnew : new_size < 2^64)
    (hrun : uvmalloc s r old_size new_size perm = .ok (x, s')) :
    ∃ τ' l', Typed s' τ' sm l' ∧
      (∀ p, τ' p = .table 2 none ↔ τ p = .table 2 none) ∧
      (∀ p, (∃ o, τ' p = .frame o) ↔ (∃ o, τ p = .frame o) ∨
        x = new_size ∧ ∃ w, GrownPages old_size new_size w ∧ p = PTE2PA (leaf s'.mem r w)) ∧
      (x = new_size → ∀ w, GrownPages old_size new_size w →
        IsPage (PTE2PA (leaf s'.mem r w))) := by
  by_cases hlt : new_size < old_size
  · rw [uvmalloc, if_pos hlt] at hrun
    cases hrun
    have hne : ¬old_size = new_size := by omega
    exact ⟨τ, l, h, fun _ => Iff.rfl, fun p => by simp [hne], fun hx => absurd hx hne⟩
  rw [uvmalloc, if_neg hlt] at hrun
  obtain ⟨v, hv⟩ : ∃ v, ROUND old_size PAGE_SIZE = v*4096 := by
    refine ⟨(old_size+PAGE_SIZE-1)%2^64/4096, ?_⟩
    exact and_page_mask _ (Nat.mod_lt _ (by decide))
  have hpage (w : ℕ) (hw : w*4096 < new_size) : w*4096+4096 ≤ 2^64 := by omega
  simp only [hv] at hrun
  obtain ⟨k', τ', l', o, hres⟩ := AllocOut.loop (k := 0) hr hc hf hx hpage new_size
    (by omega) (fun hpos => absurd hpos (by decide)) (AllocOut.start h r v) hrun
  rcases hres with ⟨hxn, hge, hle⟩ | ⟨hx0, hne, hk⟩
  · -- the pages of the loop are those that the call reports
    have hw (w : ℕ) : (v ≤ w ∧ w < v+k') ↔ GrownPages old_size new_size w := by
      rw [GrownPages, hv]
      constructor
      · rintro ⟨h1, h2⟩
        have := hle (by omega)
        omega
      · rintro ⟨h1, h2⟩
        omega
    refine ⟨τ', l', o.typed, o.roots, ?_, ?_⟩
    · intro p
      rw [o.frames p]
      simp only [hxn, true_and, ← hw, and_assoc]
    · intro _ w hg
      obtain ⟨h1, h2⟩ := (hw w).mpr hg
      exact (o.fresh w h1 h2).1
  · -- a failed call has given its frames back
    have hne' : ¬x = new_size := by omega
    refine ⟨τ', l', o.typed, o.roots, ?_, fun hxn => absurd hxn hne'⟩
    intro p
    rw [o.frames p]
    simp only [hne', false_and, or_false, hk]
    exact or_iff_left (fun ⟨w, h1, h2, _⟩ => by omega)

end RiscvMos
