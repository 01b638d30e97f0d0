import Mathlib.Order.Interval.Finset.Nat
import RiscvMos.MapPages

/-! How many table pages `walk` takes: one for each region of 512 pages that has no level-0
table yet, and one for each group of 512 regions that has no level-1 table. -/
namespace RiscvMos
open ByteMem LinkChain Function

/-! ### Counting -/

theorem card_filter_union (f : ℕ → ℕ) (p p' : ℕ → Prop) [DecidablePred p] [DecidablePred p']
    (V W : Finset ℕ) (hp : ∀ w ∈ W, p' (f w) ↔ p (f w) ∧ f w ∉ V.image f) :
    (((V ∪ W).image f).filter p).card =
      ((V.image f).filter p).card+((W.image f).filter p').card := by
  have hdisjoint : Disjoint ((V.image f).filter p) ((W.image f).filter p') := by
    rw [Finset.disjoint_left]
    intro x hx hx'
    obtain ⟨himage, hpx⟩ := Finset.mem_filter.mp hx'
    obtain ⟨w, hw, rfl⟩ := Finset.mem_image.mp himage
    exact ((hp w hw).mp hpx).2 (Finset.mem_filter.mp hx).1
  rw [← Finset.card_union_of_disjoint hdisjoint]
  congr 1
  ext x
  rw [Finset.image_union, Finset.mem_union, Finset.mem_filter, Finset.mem_filter, Finset.mem_filter,
    Finset.mem_union]
  constructor
  · rintro ⟨hV | hW, hpx⟩
    · exact .inl ⟨hV, hpx⟩
    · by_cases hV : x ∈ V.image f
      · exact .inl ⟨hV, hpx⟩
      · obtain ⟨w, hw, rfl⟩ := Finset.mem_image.mp hW
        exact .inr ⟨hW, (hp w hw).mpr ⟨hpx, hV⟩⟩
  · rintro (⟨hV, hpx⟩ | ⟨hW, hpx⟩)
    · exact ⟨.inl hV, hpx⟩
    · obtain ⟨w, hw, rfl⟩ := Finset.mem_image.mp hW
      exact ⟨.inr hW, ((hp w hw).mp hpx).1⟩

instance (m : Mem) (r g : ℕ) : Decidable (Populated m r g) :=
  decidable_of_iff ((descend m 2 r (512*g)).isSome = true) Option.isSome_iff_exists

/-- The table pages that the pages of `W` need and do not have. -/
def tablesNeeded (m : Mem) (r : ℕ) (W : Finset ℕ) : ℕ :=
  ((W.image (fun v => v/512)).filter (fun g => ¬Populated m r g)).card+
    ((W.image (fun v => v/2^18)).filter (fun a => ¬Valid (entry m r a))).card

theorem tablesNeeded_mono (m : Mem) (r : ℕ) {V W : Finset ℕ} (h : V ⊆ W) :
    tablesNeeded m r V ≤ tablesNeeded m r W := by
  apply Nat.add_le_add
  · exact Finset.card_le_card (Finset.filter_subset_filter _ (Finset.image_subset_image h))
  · exact Finset.card_le_card (Finset.filter_subset_filter _ (Finset.image_subset_image h))

/-- The tables of `m'` are those of `m` and those for the pages of `W`. -/
structure Covers (m m' : Mem) (r : ℕ) (W : Finset ℕ) : Prop where
  regions : ∀ g < 2^17, Populated m' r g ↔ Populated m r g ∨ g ∈ W.image (fun v => v/512)
  groups : ∀ a < 2^8, Valid (entry m' r a) ↔ Valid (entry m r a) ∨ a ∈ W.image (fun v => v/2^18)

namespace Covers

variable {m m' m'' : Mem} {r : ℕ} {W : Finset ℕ}

theorem refl (m : Mem) (r : ℕ) : Covers m m r ∅ := ⟨by simp, by simp⟩

theorem insert (h : Covers m m' r W) {w : ℕ} (h' : Covers m' m'' r {w}) :
    Covers m m'' r (insert w W) := by
  constructor
  · intro g hg
    rw [h'.regions g hg, h.regions g hg]
    simp only [Finset.image_insert, Finset.mem_insert, Finset.image_singleton, Finset.mem_singleton]
    tauto
  · intro a ha
    rw [h'.groups a ha, h.groups a ha]
    simp only [Finset.image_insert, Finset.mem_insert, Finset.image_singleton, Finset.mem_singleton]
    tauto

theorem tablesNeeded_union (h : Covers m m' r W) {V : Finset ℕ} (hV : ∀ v ∈ V, v < 2^26) :
    tablesNeeded m r (W ∪ V) = tablesNeeded m r W+tablesNeeded m' r V := by
  have h0 := card_filter_union (fun v => v/512) (fun g => ¬Populated m r g)
    (fun g => ¬Populated m' r g) W V (fun v hv => by
      have hlt := hV v hv
      rw [h.regions _ (by omega), not_or])
  have h1 := card_filter_union (fun v => v/2^18) (fun a => ¬Valid (entry m r a))
    (fun a => ¬Valid (entry m' r a)) W V (fun v hv => by
      have hlt := hV v hv
      rw [h.groups _ (by omega), not_or])
  rw [tablesNeeded, tablesNeeded, tablesNeeded, h0, h1]
  omega

theorem tablesNeeded_insert (h : Covers m m' r W) {w : ℕ} (hw : w < 2^26) :
    tablesNeeded m r (Insert.insert w W) = tablesNeeded m r W+tablesNeeded m' r {w} := by
  have hset : Insert.insert w W = W ∪ {w} := by rw [Finset.union_comm, ← Finset.insert_eq]
  rw [hset, h.tablesNeeded_union (by simpa using hw)]

end Covers

/-! ### What one new table adds -/

theorem vpnIndex_two {v : ℕ} (hv : v < 2^26) : vpnIndex 2 v = v/2^18 := by
  simp only [vpnIndex]
  omega

theorem populated_iff (m : Mem) (r g : ℕ) : Populated m r g ↔
    Valid (entry m r (vpnIndex 2 (512*g))) ∧
      Valid (entry m (PTE2PA (entry m r (vpnIndex 2 (512*g)))) (vpnIndex 1 (512*g))) := by
  rw [Populated]
  by_cases h2 : Valid (entry m r (vpnIndex 2 (512*g)))
  · rw [descend_succ_of_valid h2]
    by_cases h1 : Valid (entry m (PTE2PA (entry m r (vpnIndex 2 (512*g)))) (vpnIndex 1 (512*g)))
    · rw [descend_succ_of_valid h1]
      exact ⟨fun _ => ⟨h2, h1⟩, fun _ => ⟨_, rfl⟩⟩
    · rw [descend_succ_of_not_valid h1]
      simp [h1]
  · rw [descend_succ_of_not_valid h2]
    simp [h2]

theorem tablesNeeded_no_entry {m : Mem} {r : ℕ} (h : ∀ i < 512, ¬Valid (entry m r i)) {W : Finset ℕ}
    (hW : ∀ v ∈ W, v < 2^26) :
    tablesNeeded m r W = (W.image (fun v => v/512)).card+(W.image (fun v => v/2^18)).card := by
  rw [tablesNeeded, Finset.filter_true_of_mem, Finset.filter_true_of_mem]
  · intro a ha
    obtain ⟨v, hv, rfl⟩ := Finset.mem_image.mp ha
    have hlt := hW v hv
    exact h _ (by omega)
  · intro g _ hg
    exact h _ (vpnIndex_lt _ _) ((populated_iff _ _ _).mp hg).1

theorem WellFormed.tablesNeeded_empty {s : Phys} {r : ℕ} {l : List ℕ} (h : WellFormed s r l)
    (honly : ∀ level p, TableAt s.mem r level p → p = r) {W : Finset ℕ} (hW : ∀ v ∈ W, v < 2^26) :
    tablesNeeded s.mem r W =
      (W.image (fun v => v/512)).card+(W.image (fun v => v/2^18)).card := by
  refine tablesNeeded_no_entry (fun i hi hv => ?_) hW
  exact h.root .root hi hv (honly 1 _ (.next .root hi hv))

section
variable {s : Phys} {τ : Typing} {l : List ℕ} {r c i : ℕ} {m' : Mem}

theorem Typed.link_group (h : Typed s τ noSelfMap (c :: l)) (hr : τ r = .table 2 none)
    (hv : ¬Valid (entry s.mem r i)) (hm : Typed.Linked s.mem m' c r i) :
    (∀ a < 512, Valid (entry m' r a) ↔ Valid (entry s.mem r a) ∨ a = i) ∧
      ∀ g, Populated m' r g ↔ Populated s.mem r g := by
  have hfree := h.free_kind List.mem_cons_self
  have hpage := h.free.pages c List.mem_cons_self
  have hrc := Typed.ne_of_free hfree hr
  have hsame {a : ℕ} (ha : a < 512) (hai : a ≠ i) : entry m' r a = entry s.mem r a :=
    hm.same r a (h.page hr) hrc ha (fun hh => hai hh.2)
  constructor
  · intro a ha
    by_cases hai : a = i
    · subst hai
      rw [hm.link]
      simp [Valid_table c]
    · rw [hsame ha hai]
      simp [hai]
  · intro g
    rw [populated_iff, populated_iff]
    have hi := vpnIndex_lt 2 (512*g)
    by_cases hgi : vpnIndex 2 (512*g) = i
    · rw [hgi, hm.link, PTE2PA_table hpage, entry_zeroPage hm.zero (vpnIndex_lt _ _)]
      simp [hv, not_Valid_zero]
    · rw [hsame hi hgi]
      apply and_congr_right
      intro h2
      have hq := h.next hr hi (clear_noSelfMap _ _ _) h2
      rw [hm.same _ _ (h.page hq) (Typed.ne_of_free hfree hq) (vpnIndex_lt _ _)]
      rintro ⟨he, _⟩
      rw [he, hr] at hq
      cases hq

theorem Typed.link_region {q j : ℕ} (h : Typed s τ noSelfMap (c :: l)) (hr : τ r = .table 2 none)
    (hq : τ q = .table 1 (some (r,j))) (hm : Typed.Linked s.mem m' c q i) :
    (∀ a < 512, entry m' r a = entry s.mem r a) ∧ ∀ g, Populated m' r g ↔
      Populated s.mem r g ∨ vpnIndex 2 (512*g) = j ∧ vpnIndex 1 (512*g) = i := by
  have hfree := h.free_kind List.mem_cons_self
  have hrq : r ≠ q := by
    rintro rfl
    rw [hr] at hq
    cases hq
  have hroot {a : ℕ} (ha : a < 512) : entry m' r a = entry s.mem r a :=
    hm.same r a (h.page hr) (Typed.ne_of_free hfree hr) ha (fun hh => hrq hh.1)
  refine ⟨fun a ha => hroot ha, fun g => ?_⟩
  have hi := vpnIndex_lt 2 (512*g)
  rw [populated_iff, populated_iff, hroot hi]
  by_cases h2 : Valid (entry s.mem r (vpnIndex 2 (512*g)))
  · have hq' := h.next hr hi (clear_noSelfMap _ _ _) h2
    by_cases hgi : vpnIndex 2 (512*g) = j ∧ vpnIndex 1 (512*g) = i
    · obtain ⟨rfl, rfl⟩ := hgi
      have hqq : PTE2PA (entry s.mem r (vpnIndex 2 (512*g))) = q := by
        obtain ⟨_, _, _, hentry⟩ := h.parent hq
        rw [hentry, PTE2PA_table (h.page hq)]
      rw [hqq, hm.link]
      simp [h2, Valid_table c]
    · rw [hm.same _ _ (h.page hq') (Typed.ne_of_free hfree hq') (vpnIndex_lt _ _)]
      · simp [hgi]
      · rintro ⟨he, hidx⟩
        rw [he, hq] at hq'
        injection hq' with _ hpar
        exact hgi ⟨(Prod.mk.inj (Option.some.inj hpar)).2.symm, hidx⟩
  · have hne : ¬(vpnIndex 2 (512*g) = j ∧ vpnIndex 1 (512*g) = i) := by
      rintro ⟨rfl, _⟩
      obtain ⟨_, _, _, hentry⟩ := h.parent hq
      rw [hentry] at h2
      exact h2 (Valid_table q)
    simp [h2, hne]

/-! ### What a walk adds -/

theorem tablesNeeded_single (m : Mem) (r v : ℕ) : tablesNeeded m r {v} =
    (if Populated m r (v/512) then 0 else 1)+(if Valid (entry m r (v/2^18)) then 0 else 1) := by
  simp only [tablesNeeded, Finset.image_singleton, Finset.filter_singleton]
  split_ifs <;> rfl

theorem vpnIndex_one_region {v g : ℕ} (hv : v < 2^26) (hg : g < 2^17) :
    vpnIndex 2 (512*g) = v/2^18 ∧ vpnIndex 1 (512*g) = vpnIndex 1 v ↔ g = v/512 := by
  simp only [vpnIndex]
  omega

theorem Typed.link_region_covers {q v : ℕ} (h : Typed s τ noSelfMap (c :: l))
    (hr : τ r = .table 2 none) (hv : v < 2^26) (hq : τ q = .table 1 (some (r,v/2^18)))
    (hval : Valid (entry s.mem r (v/2^18))) (hm : Typed.Linked s.mem m' c q (vpnIndex 1 v)) :
    Covers s.mem m' r {v} := by
  obtain ⟨hroot, hpop⟩ := h.link_region hr hq hm
  constructor
  · intro g hg
    rw [hpop g, vpnIndex_one_region hv hg, Finset.image_singleton, Finset.mem_singleton]
  · intro a ha
    rw [hroot a (by omega), Finset.image_singleton, Finset.mem_singleton]
    constructor
    · exact fun hav => .inl hav
    · rintro (hav | rfl)
      · exact hav
      · exact hval

/-- A walk took `k` pages of `l` and found an entry, or there were not that many. -/
def WalkTakes (m : Mem) (r v k : ℕ) (l : List ℕ) (x : ℕ × Phys) : Prop :=
  (k ≤ l.length ∧ x.1 ≠ 0 ∧ ∃ l', FreeList x.2 l' ∧ l.length = l'.length+k ∧ Covers m x.2.mem r {v}) ∨
    (l.length < k ∧ x.1 = 0)

theorem WalkTakes.found {v va q : ℕ} (hf : FreeList s l) (hq : IsPage q)
    (hreg : Populated s.mem r (v/512)) (hgrp : Valid (entry s.mem r (v/2^18))) :
    WalkTakes s.mem r v 0 l (walkLoop s q va true 0) := by
  have hb := hq.bounds
  refine .inl ⟨Nat.zero_le _, ?_, l, hf, rfl, ?_, ?_⟩
  · rw [walkLoop]
    omega
  · intro g _
    rw [walkLoop, Finset.image_singleton, Finset.mem_singleton]
    exact ⟨.inl, fun hg => hg.elim id (fun he => he ▸ hreg)⟩
  · intro a _
    rw [walkLoop, Finset.image_singleton, Finset.mem_singleton]
    exact ⟨.inl, fun hg => hg.elim id (fun he => he ▸ hgrp)⟩

theorem Typed.walk_region {va q : ℕ} (h : Typed s τ noSelfMap l) (hr : τ r = .table 2 none)
    (hva : va/4096 < 2^26) (hq : τ q = .table 1 (some (r,va/4096/2^18))) :
    WalkTakes s.mem r (va/4096) (if Populated s.mem r (va/4096/512) then 0 else 1) l
      (walkLoop s q va true 1) := by
  generalize hv : va/4096 = v at hva hq ⊢
  have hi := vpnIndex_lt 1 v
  obtain ⟨_, _, _, hentry⟩ := h.parent hq
  have hgrp : Valid (entry s.mem r (v/2^18)) := by
    rw [hentry]
    exact Valid_table q
  have hpop : Populated s.mem r (v/512) ↔ Valid (entry s.mem q (vpnIndex 1 v)) := by
    obtain ⟨h2, h1⟩ := (vpnIndex_one_region hva (by omega : v/512 < 2^17)).mpr rfl
    rw [populated_iff, h2, h1, hentry, PTE2PA_table (h.page hq)]
    simp [Valid_table q]
  by_cases hval : Valid (entry s.mem q (vpnIndex 1 v))
  · have hval' := hval
    rw [← hv] at hval'
    rw [walkLoop_valid hval', hv, if_pos (hpop.mpr hval)]
    exact .found h.free (h.page (h.next hq hi (clear_noSelfMap _ _ _) hval)) (hpop.mpr hval) hgrp
  · have hval' := hval
    rw [← hv] at hval'
    rw [if_neg (fun hp => hval (hpop.mp hp))]
    cases l with
    | nil =>
      rw [walkLoop_full hval' (kalloc_nil h.free)]
      exact .inr ⟨by decide, rfl⟩
    | cons c l =>
      obtain ⟨s₁, hk, hc0, hlink, h₂, _⟩ := h.link_walk hq hi (clear_noSelfMap _ _ _) hval
        (fun h01 => absurd h01 (by decide))
      have hc := h.link_region_covers hr hva hq hgrp hlink
      have hb := (h.free.pages c List.mem_cons_self).bounds
      rw [walkLoop_link hval' hk hc0, hv]
      refine .inl ⟨by simp, ?_, l, h₂.free, rfl, ?_⟩
      · rw [walkLoop]
        omega
      · rw [walkLoop]
        exact hc

/-- A walk takes exactly the table pages that its page needs. -/
theorem Typed.walk_tables {va : ℕ} (h : Typed s τ noSelfMap l) (hr : τ r = .table 2 none)
    (hva : va/4096 < 2^26) :
    WalkTakes s.mem r (va/4096) (tablesNeeded s.mem r {va/4096}) l (walkLoop s r va true 2) := by
  have hi := vpnIndex_lt 2 (va/4096)
  have htwo := vpnIndex_two hva
  have hlow : (1 : ℕ) = 1 → vpnIndex 2 (va/4096) < 256 := by omega
  by_cases hval : Valid (entry s.mem r (vpnIndex 2 (va/4096)))
  · have hq := h.next hr hi (clear_noSelfMap _ _ _) hval
    rw [walkLoop_valid hval, tablesNeeded_single, ← htwo, if_pos hval, Nat.add_zero]
    rw [htwo] at hq
    exact h.walk_region hr hva (by rw [htwo]; exact hq)
  · have hno : ¬Populated s.mem r (va/4096/512) := by
      intro hp
      obtain ⟨h2, _⟩ := (vpnIndex_one_region hva (by omega : va/4096/512 < 2^17)).mpr rfl
      rw [populated_iff, h2, ← htwo] at hp
      exact hval hp.1
    rw [tablesNeeded_single, ← htwo, if_neg hval, if_neg hno]
    cases l with
    | nil =>
      rw [walkLoop_full hval (kalloc_nil h.free)]
      exact .inr ⟨by decide, rfl⟩
    | cons c l =>
      obtain ⟨s₁, hk, hc0, hlink, h₂, g⟩ := h.link_walk hr hi (clear_noSelfMap _ _ _) hval hlow
      obtain ⟨hgroups, hregions⟩ := h.link_group hr hval hlink
      have hkind : update τ c (.table 1 (some (r,vpnIndex 2 (va/4096)))) c =
          .table 1 (some (r,va/4096/2^18)) := by rw [update_same_kind, htwo]
      have hw := h₂.walk_region (g.table hr) hva hkind
      rw [walkLoop_link hval hk hc0]
      rw [if_neg (fun hp => hno ((hregions _).mp hp))] at hw
      rcases hw with ⟨hle, hx, l', hf, hlen, hc⟩ | ⟨hlt, hx⟩
      · refine .inl ⟨by simp only [List.length_cons]; omega, hx, l', hf,
          by simp only [List.length_cons]; omega, ?_, ?_⟩
        · intro g hg
          rw [hc.regions g hg, hregions]
        · intro a ha
          rw [hc.groups a ha, hgroups a (by omega), htwo, Finset.image_singleton,
            Finset.mem_singleton, or_assoc, or_self]
      · exact .inr ⟨by simp only [List.length_cons]; omega, hx⟩

end

end RiscvMos
