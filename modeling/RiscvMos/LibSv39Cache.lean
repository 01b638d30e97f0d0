import RiscvMos.LibSv39Access

/-! Walks that may take entries of the page tables from an address-translation cache. The cache
keeps what was fetched for a virtual address at a level, until a fence empties it. -/
namespace Sv39

/-- The address without the offset that a leaf of the level leaves alone. -/
def upper (va level : ℕ) : ℕ := va/4096/512^level

/-- Entries by level and address. There may be several for one address. -/
abbrev Cache := ℕ → ℕ → ℕ → Prop

def noCache : Cache := fun _ _ _ => False

def Cache.add (cache : Cache) (level key pte : ℕ) : Cache := fun level' key' pte' =>
  cache level' key' pte' ∨ level' = level ∧ key' = key ∧ pte' = pte

/-- The hardware reads an entry from memory or has it in the cache. -/
def Found (read : ℕ → ℕ) (cache : Cache) (va level table pte : ℕ) : Prop :=
  pte = read (table+8*vpn va level) ∨ cache level (upper va level) pte

/-- From a table of a level the walk for `va` comes to the entry `p` of level `l`. -/
inductive Fetches (read : ℕ → ℕ) (cache : Cache) (va : ℕ) : ℕ → ℕ → ℕ → ℕ → Prop
  | here {level table pte : ℕ} (found : Found read cache va level table pte) :
      Fetches read cache va level table level pte
  | down {level table pte l p : ℕ} (found : Found read cache va (level+1) table pte)
      (valid : ¬Faults pte) (pointer : ¬IsLeaf pte)
      (next : Fetches read cache va level (ppn pte*4096) l p) :
      Fetches read cache va (level+1) table l p

/-- The physical address is one that a walk with the cache may find. -/
def Translates (read : ℕ → ℕ) (cache : Cache) (root : ℕ) (mode : Mode) (access : Access)
    (va pa : ℕ) : Prop :=
  Canonical va ∧ ∃ level pte, Fetches read cache va 2 root level pte ∧ ¬Faults pte ∧ IsLeaf pte ∧
    ppn pte%512^level = 0 ∧ Permits mode access pte ∧ pa = ppn pte*4096+va%(4096*512^level)

def TranslatesAt (read : ℕ → ℕ) (cache : Cache) (satp : ℕ) (mode : Mode) (access : Access)
    (va pa : ℕ) : Prop :=
  satp/2^60 = 8 ∧ Translates read cache (satp%2^44*4096) mode access va pa ∨
    satp/2^60 = 0 ∧ pa = va

/-- Every entry of the cache is what a walk of the tables in memory comes to. -/
def Coherent (read : ℕ → ℕ) (cache : Cache) (root : ℕ) : Prop :=
  ∀ level key pte, cache level key pte →
    ∀ va, upper va level = key → Fetches read noCache va 2 root level pte

section
variable {read : ℕ → ℕ} {cache : Cache} {root va level table l p : ℕ}

theorem Found.noCache {pte : ℕ} (h : Found read noCache va level table pte) :
    pte = read (table+8*vpn va level) := h.resolve_right id

theorem Fetches.le (h : Fetches read cache va level table l p) : l ≤ level := by
  induction h with
  | here => exact le_rfl
  | down _ _ _ _ ih => omega

theorem Fetches.unique (h : Fetches read noCache va level table l p) {p' : ℕ}
    (h' : Fetches read noCache va level table l p') : p = p' := by
  induction h with
  | here found =>
    cases h' with
    | here found' => rw [found.noCache, found'.noCache]
    | down _ _ _ next => exact absurd next.le (by omega)
  | down found _ _ next ih =>
    cases h' with
    | here => exact absurd next.le (by omega)
    | down found' _ _ next' =>
      apply ih
      rw [found.noCache, ← found'.noCache]
      exact next'

theorem Coherent.found (h : Coherent read cache root) {pte : ℕ}
    (hsub : ∀ l p, Fetches read noCache va level table l p → Fetches read noCache va 2 root l p)
    (found : Found read cache va level table pte) : Found read noCache va level table pte := by
  rcases found with hread | hcache
  · exact Or.inl hread
  · have hroot := hsub level _ (.here (Or.inl rfl))
    exact Or.inl ((h level _ pte hcache va rfl).unique hroot)

theorem Coherent.fetches_below (h : Coherent read cache root)
    (hsub : ∀ l p, Fetches read noCache va level table l p → Fetches read noCache va 2 root l p)
    (hp : Fetches read cache va level table l p) : Fetches read noCache va level table l p := by
  induction hp with
  | here found => exact .here (h.found hsub found)
  | down found valid pointer _ ih =>
    have hfound := h.found hsub found
    refine .down hfound valid pointer (ih (fun l p hnext => hsub l p ?_))
    exact .down hfound valid pointer hnext

/-- With coherent entries the cache makes no difference. -/
theorem Coherent.fetches (h : Coherent read cache root)
    (hp : Fetches read cache va 2 root l p) : Fetches read noCache va 2 root l p :=
  h.fetches_below (fun _ _ hroot => hroot) hp

theorem Fetches.of_noCache (cache : Cache) (h : Fetches read noCache va level table l p) :
    Fetches read cache va level table l p := by
  induction h with
  | here found => exact .here (Or.inl found.noCache)
  | down found valid pointer _ ih => exact .down (Or.inl found.noCache) valid pointer ih

theorem upper_of_le {level' : ℕ} (hl : level ≤ level') :
    upper va level' = upper va level/512^(level'-level) := by
  rw [upper, upper, Nat.div_div_eq_div_mul _ (512^level), ← Nat.pow_add, Nat.add_sub_cancel' hl]

theorem Fetches.of_upper (h : Fetches read noCache va level table l p) {va' : ℕ}
    (hva : upper va' l = upper va l) : Fetches read noCache va' level table l p := by
  have hvpn {level : ℕ} (hl : l ≤ level) : vpn va' level = vpn va level := by
    have hupper : upper va' level = upper va level := by
      rw [upper_of_le hl, upper_of_le hl, hva]
    exact congrArg (fun x => x%512) hupper
  induction h with
  | here found =>
    refine .here (Or.inl ?_)
    rw [hvpn le_rfl]
    exact found.noCache
  | down found valid pointer next ih =>
    refine .down (Or.inl ?_) valid pointer (ih hva hvpn)
    rw [hvpn (next.le.trans (Nat.le_succ _))]
    exact found.noCache

theorem coherent_noCache (read : ℕ → ℕ) (root : ℕ) : Coherent read noCache root := nofun

/-- What the hardware adds ahead of time is coherent, too. -/
theorem Coherent.fill (h : Coherent read cache root) (hp : Fetches read cache va 2 root l p) :
    Coherent read (cache.add l (upper va l) p) root := by
  rintro level key pte (hold | ⟨rfl, rfl, rfl⟩) va' hva
  · exact h level key pte hold va' hva
  · exact (h.fetches hp).of_upper hva

theorem Coherent.evict (h : Coherent read cache root) {cache' : Cache}
    (hsub : ∀ level key pte, cache' level key pte → cache level key pte) :
    Coherent read cache' root :=
  fun level key pte hc => h level key pte (hsub level key pte hc)

theorem Coherent.frame (h : Coherent read cache root) {read' : ℕ → ℕ}
    (hread : ∀ va l p, Fetches read noCache va 2 root l p → Fetches read' noCache va 2 root l p) :
    Coherent read' cache root :=
  fun level key pte hc va hva => hread va level pte (h level key pte hc va hva)

/-! ### Translations -/

theorem fetches_end
    (h : Faults (read (table+8*vpn va level)) ∨ IsLeaf (read (table+8*vpn va level))) :
    Fetches read noCache va level table l p ↔ l = level ∧ p = read (table+8*vpn va level) := by
  constructor
  · intro hp
    cases hp with
    | here found => exact ⟨rfl, found.noCache⟩
    | down found valid pointer _ =>
      rw [found.noCache] at valid pointer
      exact absurd h (not_or.mpr ⟨valid, pointer⟩)
  · rintro ⟨rfl, rfl⟩
    exact .here (Or.inl rfl)

theorem walk_iff {pte : ℕ} : walk read (vpn va) level table = some (l, pte) ↔
    Fetches read noCache va level table l pte ∧ ¬Faults pte ∧ IsLeaf pte ∧ ppn pte%512^l = 0 := by
  have hend {level table : ℕ} {next : Option (ℕ × ℕ)}
      (h : Faults (read (table+8*vpn va level)) ∨ IsLeaf (read (table+8*vpn va level))) :
      step level (read (table+8*vpn va level)) next = some (l, pte) ↔
        Fetches read noCache va level table l pte ∧ ¬Faults pte ∧ IsLeaf pte ∧
          ppn pte%512^l = 0 := by
    rw [fetches_end h]
    by_cases hf : Faults (read (table+8*vpn va level))
    · rw [step_fault hf]
      refine iff_of_false nofun ?_
      rintro ⟨⟨rfl, rfl⟩, hn, _⟩
      exact hn hf
    · have hl := h.resolve_left hf
      rw [step_leaf hf hl]
      constructor
      · intro hs
        split_ifs at hs with ha
        obtain ⟨rfl, rfl⟩ := Prod.mk.inj (Option.some.inj hs)
        exact ⟨⟨rfl, rfl⟩, hf, hl, ha⟩
      · rintro ⟨⟨rfl, rfl⟩, _, _, ha⟩
        rw [if_pos ha]
  induction level generalizing table with
  | zero =>
    by_cases h : Faults (read (table+8*vpn va 0)) ∨ IsLeaf (read (table+8*vpn va 0))
    · exact hend h
    · -- A pointer at the last level is a fault.
      obtain ⟨hf, hl⟩ := not_or.mp h
      rw [walk, step_pointer hf hl]
      refine iff_of_false nofun ?_
      rintro ⟨hp, _, hleaf, _⟩
      cases hp with
      | here found =>
        rw [found.noCache] at hleaf
        exact hl hleaf
  | succ level ih =>
    by_cases h : Faults (read (table+8*vpn va (level+1))) ∨ IsLeaf (read (table+8*vpn va (level+1)))
    · exact hend h
    · obtain ⟨hf, hl⟩ := not_or.mp h
      rw [walk, step_pointer hf hl]
      refine ih.trans (and_congr_left (fun hleaf => ?_))
      constructor
      · exact .down (Or.inl rfl) hf hl
      · intro hp
        cases hp with
        | here found =>
          rw [found.noCache] at hleaf
          exact absurd hleaf.2.1 hl
        | down found _ _ next => rwa [found.noCache] at next

theorem translates_noCache {mode : Mode} {access : Access} {pa : ℕ} :
    Translates read noCache root mode access va pa ↔
      translate read root mode access va = some pa := by
  unfold translate
  by_cases hva : Canonical va
  · rw [if_pos hva]
    constructor
    · rintro ⟨_, level, pte, hp, hf, hl, ha, hperm, rfl⟩
      rw [walk_iff.mpr ⟨hp, hf, hl, ha⟩]
      exact if_pos hperm
    · intro h
      cases hw : walk read (vpn va) 2 root with
      | none =>
        rw [hw] at h
        cases h
      | some x =>
        obtain ⟨level, pte⟩ := x
        rw [hw] at h
        dsimp only at h
        split_ifs at h with hperm
        obtain ⟨hp, hf, hl, ha⟩ := walk_iff.mp hw
        exact ⟨hva, level, pte, hp, hf, hl, ha, hperm, (Option.some.inj h).symm⟩
  · rw [if_neg hva]
    exact iff_of_false (fun h => hva h.1) nofun

theorem translatesAt_noCache {satp : ℕ} {mode : Mode} {access : Access} {pa : ℕ} :
    TranslatesAt read noCache satp mode access va pa ↔
      translateAt read satp mode access va = some pa := by
  rw [TranslatesAt, translates_noCache, translateAt]
  split_ifs with h8 h0
  · constructor
    · rintro (⟨_, h⟩ | ⟨h0, _⟩)
      · exact h
      · omega
    · exact fun h => Or.inl ⟨h8, h⟩
  · constructor
    · rintro (⟨h, _⟩ | ⟨_, rfl⟩)
      · exact absurd h h8
      · rfl
    · exact fun h => Or.inr ⟨h0, (Option.some.inj h).symm⟩
  · refine iff_of_false ?_ nofun
    rintro (⟨h, _⟩ | ⟨h, _⟩)
    · exact h8 h
    · exact h0 h

theorem TranslatesAt.of_noCache {satp : ℕ} {mode : Mode} {access : Access} {pa : ℕ}
    (h : TranslatesAt read noCache satp mode access va pa) (cache : Cache) :
    TranslatesAt read cache satp mode access va pa := by
  rcases h with ⟨hmode, hva, level, pte, hp, hleaf⟩ | hbare
  · exact Or.inl ⟨hmode, hva, level, pte, hp.of_noCache cache, hleaf⟩
  · exact Or.inr hbare

/-- Under coherent entries every translation is that of memory. -/
theorem Coherent.translateAt {satp : ℕ} {mode : Mode} {access : Access} {pa : ℕ}
    (h : Coherent read cache (satp%2^44*4096))
    (hit : TranslatesAt read cache satp mode access va pa) :
    translateAt read satp mode access va = some pa := by
  rw [← translatesAt_noCache]
  rcases hit with ⟨hmode, hva, level, pte, hp, hleaf⟩ | hbare
  · exact Or.inl ⟨hmode, hva, level, pte, h.fetches hp, hleaf⟩
  · exact Or.inr hbare

end

end Sv39
