import RiscvMos.FreeSlots
import RiscvMos.Isolation

/-! A page-table teardown that succeeds: the tables of an env and the frames that its user
leaves map go back to the free list, and no other env notices. -/
namespace RiscvMos
open ByteMem IntrusiveQueue LinkChain Function

/-! ### Taking whole trees away -/

open Classical in
/-- The pages `F` are free again. -/
noncomputable def releaseTyping (τ : Typing) (F : ℕ → Prop) : Typing := fun p =>
  if F p then .free else τ p

/-- The pages `F` of `s` went back to the free list `l`, and no other memory changed. -/
structure Released (s : Phys) (F : ℕ → Prop) (l : List ℕ) (s' : Phys) (l' : List ℕ) : Prop where
  free : FreeList s' l'
  mem_free : ∀ p, p ∈ l' ↔ p ∈ l ∨ F p
  kept : ∀ b, (∀ p, F p → b < p ∨ p+4096 ≤ b) → s'.mem b = s.mem b

/-- `F` has only frames and whole trees. -/
structure Closed (τ : Typing) (F : ℕ → Prop) : Prop where
  page : ∀ p, F p → IsPage p ∧ τ p ≠ .free
  tree : ∀ {c ℓ p i}, τ c = .table ℓ (some (p,i)) → (F c ↔ F p)

section
variable {k : ℕ} {f : ℕ → ℕ} {s s' : Phys} {τ : Typing} {sm : ℕ → Prop} {l l' : List ℕ} {F : ℕ → Prop}

theorem releaseTyping_of {p : ℕ} (h : F p) : releaseTyping τ F p = .free := if_pos h

theorem releaseTyping_of_not {p : ℕ} (h : ¬F p) : releaseTyping τ F p = τ p := if_neg h

theorem releaseTyping_iff {p : ℕ} {x : PageKind} (hx : x ≠ .free) :
    releaseTyping τ F p = x ↔ τ p = x ∧ ¬F p := by
  by_cases h : F p
  · rw [releaseTyping_of h]
    exact ⟨fun hh => absurd hh.symm hx, fun hh => absurd h hh.2⟩
  · rw [releaseTyping_of_not h]
    exact ⟨fun hh => ⟨hh, h⟩, fun hh => hh.1⟩

theorem Released.agree (o : Released s F l s' l') (hF : Closed τ F) {p : ℕ} (hp : IsPage p)
    (hn : ¬F p) : AgreeOn s'.mem s.mem p 4096 := by
  intro b hlo hhi
  apply o.kept
  intro q hq
  have hne : p ≠ q := by
    rintro rfl
    exact hn hq
  have hd := hp.disjoint (hF.page q hq).1 hne
  omega

theorem Released.typed (o : Released s F l s' l') (h : Typed s τ sm l) (hF : Closed τ F) :
    Typed s' (releaseTyping τ F) (fun r => sm r ∧ ¬F r) l' := by
  have hkind {p ℓ : ℕ} {par : Option (ℕ × ℕ)} (hp : releaseTyping τ F p = .table ℓ par) :
      τ p = .table ℓ par ∧ ¬F p := (releaseTyping_iff (by simp)).mp hp
  have hentry {p ℓ i : ℕ} {par : Option (ℕ × ℕ)} (hp : τ p = .table ℓ par) (hn : ¬F p) (hi : i < 512) :
      entry s'.mem p i = entry s.mem p i := entry_agree (o.agree hF (h.page hp) hn) hi
  -- a slot that is clear without the freed roots was clear before
  have hclear {p ℓ i : ℕ} (hn : ¬F p) (hc : Clear (fun r => sm r ∧ ¬F r) p ℓ i) : Clear sm p ℓ i :=
    fun hh => hc ⟨⟨hh.1, hn⟩, hh.2⟩
  refine ⟨o.free, fun p => ?_, fun hp => h.page (hkind hp).1, fun hp => h.level (hkind hp).1, ?_, ?_,
    ?_, ?_⟩
  · by_cases hp : F p
    · rw [releaseTyping_of hp, o.mem_free]
      exact ⟨fun _ => ⟨(hF.page p hp).1, rfl⟩, fun _ => Or.inr hp⟩
    · rw [releaseTyping_of_not hp, o.mem_free, ← h.mem_free]
      exact or_iff_left hp
  · intro c ℓ p i hc
    obtain ⟨hτ, hn⟩ := hkind hc
    obtain ⟨hi, hcl, ⟨par, hp⟩, he⟩ := h.parent hτ
    have hnp : ¬F p := fun hh => hn ((hF.tree hτ).mpr hh)
    refine ⟨hi, fun hh => hcl ⟨hh.1.1, hh.2⟩, ⟨par, ?_⟩, ?_⟩
    · exact (releaseTyping_iff (by simp)).mpr ⟨hp, hnp⟩
    · rw [hentry hp hnp hi, he]
  · intro p ℓ par i hp hi hc hv
    obtain ⟨hτ, hn⟩ := hkind hp
    rw [hentry hτ hn hi] at hv
    obtain ⟨c, hcτ⟩ := h.child hτ hi (hclear hn hc) hv
    exact ⟨c, (releaseTyping_iff (by simp)).mpr ⟨hcτ, fun hh => hn ((hF.tree hcτ).mp hh)⟩⟩
  · intro p par i hp hi hv
    obtain ⟨hτ, hn⟩ := hkind hp
    rw [hentry hτ hn hi] at hv ⊢
    exact h.leafOk hτ hi hv
  · rintro p ⟨hsm, hn⟩
    obtain ⟨hτ, he⟩ := h.selfMap hsm
    have hs : selfSlot < 512 := by
      have := selfSlot_eq
      omega
    exact ⟨(releaseTyping_iff (by simp)).mpr ⟨hτ, hn⟩, by rw [hentry hτ hn hs, he]⟩

theorem Released.leaf (o : Released s F l s' l') (h : Typed s τ sm l) (hF : Closed τ F) {r v : ℕ}
    (hr : τ r = .table 2 none) (hn : ¬F r) (hc : Clear (fun r => sm r ∧ ¬F r) r 2 (vpnIndex 2 v)) :
    RiscvMos.leaf s'.mem r v = RiscvMos.leaf s.mem r v := by
  have hm {p ℓ : ℕ} {par : Option (ℕ × ℕ)} (hp : releaseTyping τ F p = .table ℓ par) :
      AgreeOn s.mem s'.mem p 4096 := by
    obtain ⟨hτ, hnp⟩ := (releaseTyping_iff (by simp)).mp hp
    exact (o.agree hF (h.page hτ) hnp).symm
  exact ((o.typed h hF).leafFrom_agree hm v ((releaseTyping_iff (by simp)).mpr ⟨hr, hn⟩) hc).symm

theorem Released.spaces (o : Released s F l s' l') (h : Spaces k f s τ sm l) (hF : Closed τ F)
    (hk : ¬F k) : Spaces k f s' (releaseTyping τ F) (fun r => sm r ∧ ¬F r) l' := by
  have ht := o.typed h.typed hF
  have hroot {r : ℕ} (hr : releaseTyping τ F r = .table 2 none) : τ r = .table 2 none ∧ ¬F r :=
    (releaseTyping_iff (by simp)).mp hr
  refine ⟨ht, (releaseTyping_iff (by simp)).mpr ⟨h.kernel, hk⟩, fun hh => h.kernel_clear hh.1, ?_, ?_,
    ?_, ?_⟩
  · intro r hr
    obtain ⟨hτ, hn⟩ := hroot hr
    exact (h.roots r hτ).imp_right (fun hsm => ⟨hsm, hn⟩)
  · intro r i hr hlo hhi
    obtain ⟨hτ, hn⟩ := hroot hr
    rw [entry_agree (o.agree hF (h.typed.page hτ) hn) hhi]
    exact h.high r i hτ hlo hhi
  · intro v hv
    rw [o.leaf h.typed hF h.kernel hk (fun hh => h.kernel_clear hh.1.1), h.kernel_leaves v hv]
  · rintro r v ⟨hr, hn⟩ hlo hhi hs
    rw [o.leaf h.typed hF (h.root_of_sm hr) hn (clear_of_index _ r hs), h.shared r v hr hlo hhi hs]

theorem Released.owned {hand : ℕ → ℕ → ℕ → Prop} (o : Released s F l s' l')
    (h : Owned k f s τ sm l hand) (hF : Closed τ F) (hk : ¬F k)
    (hown : ∀ p r v, F p → τ p = .frame (some (r,v)) → F r) :
    Owned k f s' (releaseTyping τ F) (fun r => sm r ∧ ¬F r) l' hand := by
  refine ⟨o.spaces h.spaces hF hk, ?_⟩
  rintro r v ⟨hr, hn⟩ hv hval
  have hleaf := o.leaf h.spaces.typed hF (h.spaces.root_of_sm hr) hn (clear_of_index _ r (user_index hv))
  rw [hleaf] at hval ⊢
  obtain ⟨hp, ht, hh⟩ := h.owned r v hr hv hval
  exact ⟨hp, (releaseTyping_iff (by simp)).mpr ⟨ht, fun hf => hn (hown _ r v hf ht)⟩, hh⟩

theorem Typed.tree_closed (h : Typed s τ sm l) {r c ℓ p i : ℕ} (hr : τ r = .table 2 none)
    (hc : τ c = .table ℓ (some (p,i))) :
    (∃ level, TableAt s.mem r level c) ↔ ∃ level, TableAt s.mem r level p := by
  obtain ⟨hi, _, ⟨par, hp⟩, he⟩ := h.parent hc
  constructor
  · rintro ⟨level, ht⟩
    obtain ⟨ℓ₁, par₁, _, hc₁, ht₁⟩ := h.tableAt_selfMap hr ht
    rw [hc] at hc₁
    obtain ⟨rfl, _⟩ := PageKind.table.inj hc₁
    cases ht₁ with
    | root =>
      rw [hr] at hc
      cases hc
    | @next _ p' i' hp' hi' hv' =>
      obtain ⟨ℓ₂, par₂, hle, hτ₂, _⟩ := h.tableAt_selfMap hr hp'
      by_cases hcl : Clear sm p' ℓ₂ i'
      · obtain ⟨ℓ₃, rfl⟩ : ∃ ℓ₃, ℓ₂ = ℓ₃+1 := ⟨ℓ₂-1, by omega⟩
        have hn := h.next hτ₂ hi' hcl hv'
        rw [hc] at hn
        obtain ⟨_, hpi⟩ := PageKind.table.inj hn
        obtain ⟨rfl, _⟩ := Prod.mk.inj (Option.some.inj hpi)
        exact ⟨_, hp'⟩
      · -- through the self map the walk comes back to a root, which has no parent
        obtain ⟨hsm, _, rfl⟩ := not_not.mp hcl
        obtain ⟨hroot, hen⟩ := h.selfMap hsm
        rw [hen, PTE2PA_selfPte (h.page hroot), hroot] at hc
        cases hc
  · rintro ⟨level, ht⟩
    obtain ⟨ℓ₁, par₁, _, hp₁, ht₁⟩ := h.tableAt_selfMap hr ht
    rw [hp] at hp₁
    obtain ⟨rfl, _⟩ := PageKind.table.inj hp₁
    have hnext := ht₁.next hi (by rw [he]; exact Valid_table c)
    rw [he, PTE2PA_table (h.page hc)] at hnext
    exact ⟨ℓ, hnext⟩

end

/-! ### The pages of an env -/

/-- A table of the env `e`, or a frame that one of its user leaves maps. -/
def EnvPage (K : Kernel) (e p : ℕ) : Prop :=
  (∃ level, TableAt K.phys.mem (K.envs e).env_pgtable level p) ∨
    ∃ v pte, UserLeaf K e v pte ∧ PTE2PA pte = p

/-- `s` is the memory after the pages of `e` went back to the free list. -/
def TornDown (K : Kernel) (e : ℕ) (s : Phys) : Prop :=
  ∃ l l', FreeList K.phys l ∧ Released K.phys (EnvPage K e) l s l'

section
variable {L : Layout} {K : Kernel} {calls : List (ℕ × ℕ × ℕ)} {fr : ℕ → ℕ} {τ : Typing}
  {sm : ℕ → Prop} {l ql fl : List ℕ} {e : ℕ}

theorem IsolationInv.root (h : IsolationInv L K calls fr τ sm l ql fl)
    (he : (K.envs e).env_status = .ENV_RUNNABLE) : τ (K.envs e).env_pgtable = .table 2 none :=
  h.owned.spaces.root_of_sm ((h.tables _).mpr ⟨e, he, rfl⟩)

theorem IsolationInv.envPage_table (h : IsolationInv L K calls fr τ sm l ql fl) {p ℓ : ℕ}
    {par : Option (ℕ × ℕ)} (hp : τ p = .table ℓ par) :
    EnvPage K e p ↔ ∃ level, TableAt K.phys.mem (K.envs e).env_pgtable level p := by
  refine or_iff_left ?_
  rintro ⟨v, pte, hu, rfl⟩
  obtain ⟨_, ht, _⟩ := h.userLeaf hu
  rw [hp] at ht
  cases ht

theorem IsolationInv.envPage_closed (h : IsolationInv L K calls fr τ sm l ql fl)
    (he : (K.envs e).env_status = .ENV_RUNNABLE) : Closed τ (EnvPage K e) := by
  have hroot := h.root he
  constructor
  · rintro p (⟨level, ht⟩ | ⟨v, pte, hu, rfl⟩)
    · obtain ⟨ℓ, par, _, hp, _⟩ := h.owned.spaces.typed.tableAt_selfMap hroot ht
      exact ⟨h.owned.spaces.typed.page hp, by rw [hp]; simp⟩
    · obtain ⟨hp, ht, _⟩ := h.userLeaf hu
      exact ⟨hp, by rw [ht]; simp⟩
  · intro c ℓ p i hc
    obtain ⟨_, _, ⟨par, hp⟩, _⟩ := h.owned.spaces.typed.parent hc
    rw [h.envPage_table hc, h.envPage_table hp]
    exact h.owned.spaces.typed.tree_closed hroot hc

/-- The only root among the pages of an env is its own. -/
theorem IsolationInv.envPage_root (h : IsolationInv L K calls fr τ sm l ql fl)
    (he : (K.envs e).env_status = .ENV_RUNNABLE) {r : ℕ} (hr : τ r = .table 2 none) :
    EnvPage K e r ↔ r = (K.envs e).env_pgtable := by
  rw [h.envPage_table hr]
  constructor
  · rintro ⟨level, ht⟩
    obtain ⟨ℓ, par, _, hp, ht'⟩ := h.owned.spaces.typed.tableAt_selfMap (h.root he) ht
    rw [hr] at hp
    obtain ⟨rfl, _⟩ := PageKind.table.inj hp
    cases ht' with
    | root => rfl
    | next hp' hi hv =>
      have := hp'.level_le
      omega
  · rintro rfl
    exact ⟨2, .root⟩

theorem IsolationInv.free (h : IsolationInv L K calls fr τ sm l ql fl) {s : Phys}
    (he : (K.envs e).env_status = .ENV_RUNNABLE) (torn : TornDown K e s) :
    ∃ τ' sm' l' ql', IsolationInv L (envRelease (K.setPhys s) e) calls fr τ' sm' l' ql' (e :: fl) := by
  obtain ⟨l₀, l', hfree, o⟩ := torn
  obtain rfl := hfree.unique h.owned.spaces.typed.free
  have hF := h.envPage_closed he
  have hnk : ¬EnvPage K e K.kernel_pagetable := by
    rw [h.envPage_root he h.owned.spaces.kernel]
    intro hk
    apply h.owned.spaces.kernel_clear
    exact (h.tables _).mpr ⟨e, he, hk.symm⟩
  have hown (p r v : ℕ) (hp : EnvPage K e p) (ht : τ p = .frame (some (r,v))) : EnvPage K e r := by
    rcases hp with ⟨level, hta⟩ | ⟨w, pte, hu, rfl⟩
    · obtain ⟨ℓ, par, _, hp, _⟩ := h.owned.spaces.typed.tableAt_selfMap (h.root he) hta
      rw [hp] at ht
      cases ht
    · obtain ⟨_, ht', _⟩ := h.userLeaf hu
      rw [ht'] at ht
      obtain ⟨rfl, _⟩ := Prod.mk.inj (Option.some.inj (PageKind.frame.inj ht))
      exact Or.inl ⟨2, .root⟩
  -- the env table of another env
  have hother {i : ℕ} (hi : (K.envs i).env_status = .ENV_RUNNABLE) :
      ¬EnvPage K e (K.envs i).env_pgtable ↔ i ≠ e := by
    rw [h.envPage_root he (h.root hi)]
    exact not_congr ⟨h.distinct i e hi he, fun hie => by rw [hie]⟩
  have hstatus (i : ℕ) : ((envRelease (K.setPhys s) e).envs i).env_status = .ENV_RUNNABLE ↔
      (K.envs i).env_status = .ENV_RUNNABLE ∧ i ≠ e := by
    by_cases hie : i = e
    · simp [hie, envRelease, Kernel.setEnv]
    · simp [hie, envRelease, Kernel.setEnv, Kernel.setPhys]
  have hroot (i : ℕ) : ((envRelease (K.setPhys s) e).envs i).env_pgtable = (K.envs i).env_pgtable := by
    by_cases hie : i = e
    · simp [hie, envRelease, Kernel.setEnv, Kernel.setPhys]
    · simp [hie, envRelease, Kernel.setEnv, Kernel.setPhys]
  obtain ⟨ql', hs⟩ := (h.sched.keeps (keepsEnvs_setPhys K s)).release he
  refine ⟨_, _, l', ql', (o.owned h.owned hF hnk hown).mono ?_, hs, fun r => ?_, ?_⟩
  · rintro r v p ⟨_, hn⟩ ⟨i, hi, rfl, hm⟩
    exact ⟨i, (hstatus i).mpr ⟨hi, (hother hi).mp hn⟩, hroot i, hm⟩
  · constructor
    · rintro ⟨hr, hn⟩
      obtain ⟨i, hi, rfl⟩ := (h.tables r).mp hr
      exact ⟨i, (hstatus i).mpr ⟨hi, (hother hi).mp hn⟩, hroot i⟩
    · rintro ⟨i, hi, hri⟩
      obtain ⟨hi, hie⟩ := (hstatus i).mp hi
      rw [hroot] at hri
      subst hri
      exact ⟨(h.tables _).mpr ⟨i, hi, rfl⟩, (hother hi).mpr hie⟩
  · intro i j hi hj hij
    rw [hroot, hroot] at hij
    exact h.distinct i j ((hstatus i).mp hi).1 ((hstatus j).mp hj).1 hij

end

/-! ### The teardown exists -/

theorem exists_released {s : Phys} {l : List ℕ} (hf : FreeList s l) (ps : List ℕ) (hnd : ps.Nodup)
    (hps : ∀ p ∈ ps, IsPage p ∧ p ∉ l) : ∃ s' l', Released s (· ∈ ps) l s' l' := by
  induction ps with
  | nil => exact ⟨s, l, hf, by simp, fun _ _ => rfl⟩
  | cons p ps ih =>
    obtain ⟨hp, hnd⟩ := List.nodup_cons.mp hnd
    obtain ⟨hpage, hpl⟩ := hps p List.mem_cons_self
    obtain ⟨s₁, l₁, o⟩ := ih hnd (fun q hq => hps q (List.mem_cons_of_mem p hq))
    have hpl₁ : p ∉ l₁ := by
      rw [o.mem_free]
      exact fun hh => hh.elim hpl hp
    obtain ⟨s', _, hf', hm⟩ := kfree_page o.free hpage hpl₁
    refine ⟨s', p :: l₁, hf', fun q => ?_, fun b hb => ?_⟩
    · rw [List.mem_cons, List.mem_cons, o.mem_free]
      tauto
    · have hbp := hb p List.mem_cons_self
      rw [hm b (by omega), o.kept b (fun q hq => hb q (List.mem_cons_of_mem p hq))]

/-- The state that a teardown should leave exists for every env. -/
theorem IsolationInv.exists_tornDown {L : Layout} {K : Kernel} {calls : List (ℕ × ℕ × ℕ)}
    {fr : ℕ → ℕ} {τ : Typing} {sm : ℕ → Prop} {l ql fl : List ℕ} {e : ℕ}
    (h : IsolationInv L K calls fr τ sm l ql fl) (he : (K.envs e).env_status = .ENV_RUNNABLE) :
    ∃ s, TornDown K e s := by
  classical
  have hF := h.envPage_closed he
  let ps := (heapPages heapCount).filter (fun p => EnvPage K e p)
  have hmem (p : ℕ) : p ∈ ps ↔ EnvPage K e p := by
    rw [List.mem_filter, mem_heapPages_iff_isPage, decide_eq_true_iff]
    exact and_iff_right_of_imp (fun hp => (hF.page p hp).1)
  have hnd : ps.Nodup := by
    refine List.Nodup.filter _ ?_
    rw [heapPages, List.nodup_reverse]
    exact List.nodup_range.map heapPage_injective
  obtain ⟨s', l', o⟩ := exists_released h.owned.spaces.typed.free ps hnd (fun p hp => by
    obtain ⟨hpage, hn⟩ := hF.page p ((hmem p).mp hp)
    exact ⟨hpage, fun hl => hn (h.owned.spaces.typed.free_kind hl)⟩)
  refine ⟨s', l, l', h.owned.spaces.typed.free, o.free, fun p => ?_, fun b hb => ?_⟩
  · rw [o.mem_free, hmem]
  · exact o.kept b (fun p hp => hb p ((hmem p).mp hp))

end RiscvMos
