import RiscvMos.Spaces
import RiscvMos.TableCount

/-! Free pages for all tables that a set of pages needs. While there are that many, `mappages`
maps pages of the set or panics, next to other tables that map themselves. -/
namespace RiscvMos
open ByteMem LinkChain Function

/-! ### What one walk takes -/

/-- The tables that are missing on the way from a table down to level 0. -/
def tablesMissing (m : Mem) : ℕ → ℕ → ℕ → ℕ
  | 0, _, _ => 0
  | ℓ+1, p, v =>
    let pte := entry m p (vpnIndex (ℓ+1) v)
    if Valid pte then tablesMissing m ℓ (PTE2PA pte) v else ℓ+1

theorem tablesMissing_zeroPage {m : Mem} {p : ℕ} (h : ZeroPage m p) (ℓ v : ℕ) :
    tablesMissing m ℓ p v = ℓ := by
  cases ℓ with
  | zero => rfl
  | succ ℓ =>
    rw [tablesMissing, entry_zeroPage h (vpnIndex_lt _ _)]
    exact if_neg not_Valid_zero

theorem tablesNeeded_eq_missing (m : Mem) (r : ℕ) {v : ℕ} (hv : v < 2^26) :
    tablesNeeded m r {v} = tablesMissing m 2 r v := by
  have htwo := vpnIndex_two hv
  obtain ⟨h2, h1⟩ := (vpnIndex_one_region hv (by omega : v/512 < 2^17)).mpr rfl
  simp only [tablesNeeded_single, populated_iff, h2, h1, tablesMissing, htwo]
  by_cases hgrp : Valid (entry m r (v/2^18))
  · simp only [hgrp, true_and, if_true, Nat.add_zero]
  · simp only [hgrp, false_and, if_false]

section
variable {sm : ℕ → Prop} {s : Phys} {τ : Typing} {l : List ℕ}

theorem Typed.walkLoop_takes (va ℓ : ℕ) :
    ∀ {s : Phys} {τ : Typing} {l : List ℕ} {p : ℕ} {par : Option (ℕ × ℕ)}, Typed s τ sm l →
    va/4096 < 2^26 → τ p = .table ℓ par → Clear sm p ℓ (vpnIndex ℓ (va/4096)) →
    tablesMissing s.mem ℓ p (va/4096) ≤ l.length →
    (walkLoop s p va true ℓ).1 ≠ 0 ∧ ∃ l', FreeList (walkLoop s p va true ℓ).2 l' ∧
      l.length = l'.length+tablesMissing s.mem ℓ p (va/4096) := by
  induction ℓ with
  | zero =>
    intro s τ l p par h _ hp _ _
    have hb := (h.page hp).bounds
    rw [walkLoop]
    exact ⟨by omega, l, h.free, rfl⟩
  | succ ℓ ih =>
    intro s τ l p par h hva hp hc hroom
    have hi := vpnIndex_lt (ℓ+1) (va/4096)
    have hℓ := (h.level hp).1
    have hclear (q : ℕ) : Clear sm q ℓ (vpnIndex ℓ (va/4096)) := Typed.clear_of_lt sm _ _ (by omega)
    rw [tablesMissing] at hroom ⊢
    by_cases hv : Valid (entry s.mem p (vpnIndex (ℓ+1) (va/4096)))
    · simp only [hv, if_true] at hroom ⊢
      rw [walkLoop_valid hv]
      exact ih h hva (h.next hp hi hc hv) (hclear _) hroom
    · simp only [hv, if_false] at hroom ⊢
      cases l with
      | nil =>
        rw [List.length_nil] at hroom
        omega
      | cons c l =>
        have hlow : ℓ = 1 → vpnIndex (ℓ+1) (va/4096) < 256 := by
          rintro rfl
          simp only [vpnIndex]
          omega
        obtain ⟨s₁, hk, hc0, hlink, h₂, _⟩ := h.link_walk hp hi hc hv hlow
        have hzero := tablesMissing_zeroPage hlink.zero ℓ (va/4096)
        rw [List.length_cons] at hroom ⊢
        rw [walkLoop_link hv hk hc0]
        obtain ⟨hne, l', hf, hlen⟩ := ih h₂ hva (update_same_kind τ c _) (hclear c) (by omega)
        exact ⟨hne, l', hf, by omega⟩

end

/-! ### A set of pages -/

/-- Elements with `p` among the values of a set, when all but the value of `w` keep `p` or
lose it. -/
theorem card_filter_spend (f : ℕ → ℕ) (p p' : ℕ → Prop) [DecidablePred p] [DecidablePred p']
    {W : Finset ℕ} {w : ℕ} (hw : w ∈ W) (hkeep : ∀ v ∈ W, p' (f v) → p (f v)) (hlost : ¬p' (f w)) :
    ((W.image f).filter p').card+((({w} : Finset ℕ).image f).filter p).card ≤
      ((W.image f).filter p).card := by
  have hsub : (W.image f).filter p' ⊆ ((W.image f).filter p).erase (f w) := by
    intro x hx
    obtain ⟨hx, hp⟩ := Finset.mem_filter.mp hx
    obtain ⟨v, hv, rfl⟩ := Finset.mem_image.mp hx
    refine Finset.mem_erase.mpr ⟨?_, Finset.mem_filter.mpr ⟨hx, hkeep v hv hp⟩⟩
    intro he
    rw [he] at hp
    exact hlost hp
  have hcard := Finset.card_le_card hsub
  rw [Finset.image_singleton, Finset.filter_singleton]
  split_ifs with hpw
  · have hmem : f w ∈ (W.image f).filter p :=
      Finset.mem_filter.mpr ⟨Finset.mem_image_of_mem f hw, hpw⟩
    have hpos := Finset.card_pos.mpr ⟨_, hmem⟩
    rw [Finset.card_erase_of_mem hmem] at hcard
    rw [Finset.card_singleton]
    omega
  · rw [Finset.card_empty, Nat.add_zero]
    exact hcard.trans (Finset.card_le_card (Finset.erase_subset _ _))

/-- No page lies beyond MAXVA or where a root may map itself. -/
def OffSlot (W : Finset ℕ) : Prop := ∀ v ∈ W, v < 2^26 ∧ vpnIndex 2 v ≠ selfSlot

section
variable {sm : ℕ → Prop} {s : Phys} {τ : Typing} {l : List ℕ} {r : ℕ} {W : Finset ℕ}

theorem region_clear (sm : ℕ → Prop) (r : ℕ) (hW : OffSlot W) {v : ℕ} (hv : v ∈ W) :
    Clear sm r 2 (vpnIndex 2 (512*(v/512))) := by
  rw [vpnIndex_region]
  exact clear_of_index sm r (hW v hv).2

theorem Typed.tablesNeeded_grows (h : Typed s τ sm l) {s' : Phys} {τ' : Typing}
    (g : Grows s τ s' τ') (hr : τ r = .table 2 none) (hW : OffSlot W) {v : ℕ} (hv : v ∈ W)
    (hpop : Populated s'.mem r (v/512)) :
    tablesNeeded s'.mem r W+tablesNeeded s.mem r {v} ≤ tablesNeeded s.mem r W := by
  have hlt := (hW v hv).1
  obtain ⟨h2, _⟩ := (vpnIndex_one_region hlt (by omega : v/512 < 2^17)).mpr rfl
  have hgrp := ((populated_iff _ _ _).mp hpop).1
  rw [h2] at hgrp
  have hkeep (w : ℕ) (hw : w ∈ W) (hp : Populated s.mem r (w/512)) : Populated s'.mem r (w/512) := by
    exact h.populated_grows g hr (region_clear sm r hW hw) hp
  have hkeep' (w : ℕ) (hw : w ∈ W) (hval : Valid (entry s.mem r (w/2^18))) :
      Valid (entry s'.mem r (w/2^18)) := by
    have hw26 := (hW w hw).1
    rwa [g.entries hr (by omega) hval]
  have hregions := card_filter_spend (fun v => v/512) (fun g => ¬Populated s.mem r g)
    (fun g => ¬Populated s'.mem r g) hv (fun w hw => mt (hkeep w hw)) (not_not.mpr hpop)
  have hgroups := card_filter_spend (fun v => v/2^18) (fun a => ¬Valid (entry s.mem r a))
    (fun a => ¬Valid (entry s'.mem r a)) hv (fun w hw => mt (hkeep' w hw)) (not_not.mpr hgrp)
  rw [tablesNeeded, tablesNeeded, tablesNeeded, Nat.add_add_add_comm]
  exact Nat.add_le_add hregions hgroups

theorem tablesNeeded_congr {m m' : Mem} (hpop : ∀ v ∈ W, Populated m' r (v/512) ↔ Populated m r (v/512))
    (hentry : ∀ v ∈ W, entry m' r (v/2^18) = entry m r (v/2^18)) :
    tablesNeeded m' r W = tablesNeeded m r W := by
  have hregions : (W.image (fun v => v/512)).filter (fun g => ¬Populated m' r g) =
      (W.image (fun v => v/512)).filter (fun g => ¬Populated m r g) := by
    refine Finset.filter_congr (fun g hg => ?_)
    obtain ⟨v, hv, rfl⟩ := Finset.mem_image.mp hg
    exact not_congr (hpop v hv)
  have hgroups : (W.image (fun v => v/2^18)).filter (fun a => ¬Valid (entry m' r a)) =
      (W.image (fun v => v/2^18)).filter (fun a => ¬Valid (entry m r a)) := by
    refine Finset.filter_congr (fun a ha => ?_)
    obtain ⟨v, hv, rfl⟩ := Finset.mem_image.mp ha
    rw [hentry v hv]
  rw [tablesNeeded, tablesNeeded, hregions, hgroups]

theorem Typed.tablesNeeded_agree (h : Typed s τ sm l) {m' : Mem}
    (hm : ∀ {p ℓ par}, τ p = .table ℓ par → AgreeOn m' s.mem p 4096) (hr : τ r = .table 2 none)
    (hW : OffSlot W) : tablesNeeded m' r W = tablesNeeded s.mem r W := by
  apply tablesNeeded_congr
  · intro v hv
    rw [Populated, Populated, h.descend_agree hm _ hr (region_clear sm r hW hv)]
  · intro v hv
    have hlt := (hW v hv).1
    exact entry_agree (hm hr) (by omega)

/-- Nor does the self map. -/
theorem Typed.tablesNeeded_selfMap (h : Typed s τ sm l) (hr : τ r = .table 2 none) (hW : OffSlot W) :
    tablesNeeded (RiscvMos.selfMap s.mem r) r W = tablesNeeded s.mem r W := by
  apply tablesNeeded_congr
  · intro v hv
    rw [Populated, Populated, h.selfMap_descend hr _ hr (region_clear _ r hW hv)]
  · intro v hv
    obtain ⟨hlt, hs⟩ := hW v hv
    rw [vpnIndex_two hlt] at hs
    exact h.selfMap_entry hr (h.page hr) (by omega) (fun hh => hs hh.2)

/-! ### Mapping pages of the set -/

theorem populated_of_leaf {m : Mem} {v : ℕ} (h : Valid (leaf m r v)) : Populated m r (v/512) := by
  cases hd : descend m 2 r v with
  | none =>
    rw [leaf, leafFrom, hd] at h
    exact absurd h not_Valid_zero
  | some q => exact Populated_of_descend hd

theorem Typed.mappages_turn_room (h : Typed s τ sm l) (vl : ℕ) {v pa perm n : ℕ}
    (hr : τ r = .table 2 none) (hW : OffSlot W) (hv : v ∈ W) (hpa : pa < 2^64) (hf : perm < 1024)
    (hx : HasRWX perm) (hroom : n+tablesNeeded s.mem r W ≤ l.length) :
    (Valid (leaf s.mem r v) ∧ mappagesLoop s r (v*4096) (vl*4096) pa perm =
      .error (.panic "mappages: remap; use 'uvmunmap' first")) ∨
    (¬Valid (leaf s.mem r v) ∧ ∃ s' τ' l', MapOut sm s τ l r v 1 pa perm s' τ' l' ∧
      n+tablesNeeded s'.mem r W ≤ l'.length ∧ mappagesLoop s r (v*4096) (vl*4096) pa perm =
        if v = vl then .ok (0, s')
        else mappagesLoop s' r ((v+1)*4096) (vl*4096) ((pa+4096)%2^64) perm) := by
  obtain ⟨hlt, hslot⟩ := hW v hv
  have hc := clear_of_index sm r hslot
  have hpage : v*4096/4096 = v := by omega
  have hone := tablesNeeded_mono s.mem r (Finset.singleton_subset_iff.mpr hv)
  have htakes := h.walkLoop_takes (v*4096) 2 (by rwa [hpage]) hr (by rwa [hpage])
  rw [hpage, ← tablesNeeded_eq_missing s.mem r hlt] at htakes
  obtain ⟨hne, l', hfree, hlen⟩ := htakes (by omega)
  obtain ⟨τ₁, l₁, w⟩ := h.walk_page hr hc hlt
  obtain rfl := w.typed.free.unique hfree
  rcases w.mappages_turn vl hr hc hlt hpa hf hx with ⟨h0, _⟩ | hremap | ⟨hval, s', m, _, hloop⟩
  · exact absurd h0 hne
  · exact .inl hremap
  · have hleaf : Valid (leaf s'.mem r v) := by
      rw [m.leaves hr hc (by omega), if_pos (by omega)]
      exact Valid_mkLeaf _ hf
    have hspent := h.tablesNeeded_grows m.grows hr hW hv (populated_of_leaf hleaf)
    exact .inr ⟨hval, s', τ₁, l₁, m, by omega, hloop⟩

theorem Typed.mappagesLoop_room {vl perm n : ℕ} (hW : OffSlot W) (hf : perm < 1024)
    (hx : HasRWX perm) (k : ℕ) :
    ∀ {s : Phys} {τ : Typing} {l : List ℕ} {v pa : ℕ}, v+k = vl → Typed s τ sm l →
    τ r = .table 2 none → pa < 2^64 → (∀ w, v ≤ w → w ≤ vl → w < 2^26 → w ∈ W) →
    n+tablesNeeded s.mem r W ≤ l.length →
    (∃ msg, mappagesLoop s r (v*4096) (vl*4096) pa perm = .error (.panic msg)) ∨
    ∃ s' τ' l', mappagesLoop s r (v*4096) (vl*4096) pa perm = .ok (0, s') ∧
      MapOut sm s τ l r v (k+1) pa perm s' τ' l' ∧ n+tablesNeeded s'.mem r W ≤ l'.length ∧
      vl < 2^26 ∧ ∀ w, v ≤ w → w ≤ vl → ¬Valid (leaf s.mem r w) := by
  induction k with
  | zero =>
    intro s τ l v pa hk h hr hpa hin hroom
    obtain rfl : v = vl := hk
    by_cases hlt : v < 2^26
    · rcases h.mappages_turn_room v hr hW (hin v le_rfl le_rfl hlt) hpa hf hx hroom with
        ⟨_, hremap⟩ | ⟨hval, s', τ', l', m, hroom', hloop⟩
      · exact .inl ⟨_, hremap⟩
      · rw [if_pos rfl] at hloop
        refine .inr ⟨s', τ', l', hloop, m, hroom', hlt, fun w h1 h2 => ?_⟩
        obtain rfl : w = v := by omega
        exact hval
    · exact .inl ⟨_, mappagesLoop_panics s (MAXVA_le hlt)⟩
  | succ k ih =>
    intro s τ l v pa hk h hr hpa hin hroom
    by_cases hlt : v < 2^26
    · rcases h.mappages_turn_room vl hr hW (hin v le_rfl (by omega) hlt) hpa hf hx hroom with
        ⟨_, hremap⟩ | ⟨hval, s₁, τ₁, l₁, m, hroom₁, hloop⟩
      · exact .inl ⟨_, hremap⟩
      rw [if_neg (by omega)] at hloop
      rw [hloop]
      -- the pages that are left are in the set too
      have hlater (w : ℕ) (h1 : v+1 ≤ w) (h2 : w ≤ vl) (h3 : w < 2^26) : w ∈ W :=
        hin w (by omega) h2 h3
      have hnext : v+1+k = vl := by omega
      rcases ih hnext m.typed (m.grows.table hr) (Nat.mod_lt (pa+4096) (by decide)) hlater hroom₁ with
        hpanic | ⟨s', τ', l', hrest, m', hroom', hvl, hnone⟩
      · exact .inl hpanic
      · have hall := m.cons m'
        rw [Nat.add_comm 1] at hall
        refine .inr ⟨s', τ', l', hrest, hall, hroom', hvl, fun w h1 h2 => ?_⟩
        by_cases hwv : w = v
        · rwa [hwv]
        · have hw := hnone w (by omega) h2
          have hslot := (hW w (hin w h1 h2 (by omega))).2
          rwa [m.leaves hr (clear_of_index sm r hslot) (by omega), if_neg (by omega)] at hw
    · exact .inl ⟨_, mappagesLoop_panics s (MAXVA_le hlt)⟩

end

/-! ### The pages that `mappages` maps -/

/-- `mappages` returns 0 and has mapped the whole range, or it returns -1, when no free page is
left, and has mapped a proper prefix of it. -/
theorem mappages_maps {s : Phys} {r va size pa perm : ℕ} {l : List ℕ} (h : WellFormed s r l)
    (hsize : 0 < size) (hva : va+size ≤ MAXVA) (hpa : pa%PAGE_SIZE = 0)
    (hwrap : pa+rangePages va size*PAGE_SIZE ≤ 2^64) (hf : perm < 1024) (hx : HasRWX perm)
    (hun : ∀ k < rangePages va size, leafAt s r (ROUNDDOWN va PAGE_SIZE+k*PAGE_SIZE) = none) :
    ∃ res s', mappages s r va size pa perm = .ok (res, s') ∧
      (res = 0 ∧ MapsPages s r va pa perm (rangePages va size) s' ∨
        res = -1 ∧ FreeList s' [] ∧ ∃ n < rangePages va size, MapsPages s r va pa perm n s') := by
  have hpage : PAGE_SIZE = 4096 := rfl
  have hmax : MAXVA = 2^38 := by decide
  obtain ⟨ht, hr⟩ := h.typed
  have hlt : pa < 2^64 := by
    rw [rangePages, hpage] at hwrap
    omega
  have hun' (w : ℕ) (h1 : va/4096 ≤ w) (h2 : w ≤ (va+size-1)/4096) : ¬Valid (leaf s.mem r w) := by
    have hw := hun (w-va/4096) (by rw [rangePages, hpage]; omega)
    have hround : ROUNDDOWN va PAGE_SIZE+(w-va/4096)*PAGE_SIZE = w*4096 := by
      rw [ROUNDDOWN_page _ (by omega), hpage]
      omega
    rw [hround, ht.leafAt_none hr (by omega)] at hw
    rwa [Nat.mul_div_cancel w (by decide)] at hw
  obtain ⟨res, s', hrun⟩ := ht.mappagesLoop_total hf hx (by omega)
    ((va+size-1)/4096-va/4096) (by omega) hr hlt hun'
  obtain ⟨k, hk⟩ : ∃ k, 2^26 ≤ va/4096+k := ⟨2^26, Nat.le_add_left _ _⟩
  obtain ⟨τ', l', n, m, hn, _, hres⟩ := ht.mappagesLoop_ok hf hx k hk hr hlt
    (fun _ _ _ => clear_noSelfMap _ _ _) hrun
  refine ⟨res, s', ?_, ?_⟩
  · rw [mappages_eq hsize (by omega)]
    exact hrun
  · rcases hres with ⟨h0, hend, _⟩ | ⟨h1, hempty, hle⟩
    · have hn' : n = rangePages va size := by
        rw [rangePages, hpage]
        omega
      rw [← hn']
      exact .inl ⟨h0, m.mapsPages ht hr hn hpa (by rw [hn']; exact hwrap) hf⟩
    · have hn' : n < rangePages va size := by
        have hle := hle (by omega)
        rw [rangePages, hpage]
        omega
      have hnil := m.typed.free
      rw [hempty] at hnil
      refine .inr ⟨h1, hnil, n, hn', m.mapsPages ht hr hn hpa ?_ hf⟩
      exact (Nat.add_le_add_left (Nat.mul_le_mul_right _ (Nat.le_of_lt hn')) pa).trans hwrap

/-- Two pages, of which the second one lies in the next region, take three tables. -/
theorem mappages_maps_two : ∃ s r s', WellFormed s r (heapPages 3) ∧
    mappages s r 0x1ff008 0x1000 0x40000000 (PTE_R ||| PTE_W) = .ok (0, s') ∧
    MapsPages s r 0x1ff008 0x40000000 (PTE_R ||| PTE_W) 2 s' := by
  obtain ⟨s, h, he, honly⟩ := exists_emptyTable (by decide : 3 < heapCount)
  obtain ⟨res, s', hrun, hres⟩ := mappages_maps h (by decide : 0 < 0x1000)
    (by decide : 0x1ff008+0x1000 ≤ MAXVA) (by decide : 0x40000000%PAGE_SIZE = 0) (by decide)
    (by decide : PTE_R ||| PTE_W < 1024) (by decide) (fun k _ => h.leafAt_empty he _)
  rcases hres with ⟨rfl, hmaps⟩ | ⟨rfl, _⟩
  · exact ⟨s, _, s', h, hrun, hmaps⟩
  -- the three pages are enough, so that it cannot fail
  exfalso
  obtain ⟨ht, hr⟩ := h.typed
  have hW : OffSlot {0x1ff, 0x200} := by
    unfold OffSlot
    decide
  have hneeded : tablesNeeded s.mem (heapPage 3) {0x1ff, 0x200} ≤ 3 := by
    rw [h.tablesNeeded_empty honly fun v hv => (hW v hv).1]
    decide
  have hin (w : ℕ) (h1 : 0x1ff ≤ w) (h2 : w ≤ 0x200) (_ : w < 2^26) :
      w ∈ ({0x1ff, 0x200} : Finset ℕ) := by
    simp only [Finset.mem_insert, Finset.mem_singleton]
    omega
  have hroom : 0+tablesNeeded s.mem (heapPage 3) {0x1ff, 0x200} ≤ (heapPages 3).length := by
    rw [heapPages_length]
    omega
  rw [mappages_eq (by decide) (by decide)] at hrun
  rcases Typed.mappagesLoop_room hW (by decide : PTE_R ||| PTE_W < 1024) (by decide) 1
    (rfl : 0x1ff+1 = 0x200) ht hr (by decide : 0x40000000 < 2^64) hin hroom with
    ⟨_, hpanic⟩ | ⟨_, _, _, hok, _⟩
  · rw [hpanic] at hrun
    cases hrun
  · rw [hok] at hrun
    cases hrun

end RiscvMos
