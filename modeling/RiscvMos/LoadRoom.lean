import RiscvMos.FirstEnv
import RiscvMos.LoadCalls
import RiscvMos.TableRoom

/-! The load of any image with a page for each call of the mapper and for each table: it maps
every page of the segments, or it panics. -/
namespace RiscvMos
open ByteMem LinkChain Function

/-- The pages that `mappages` maps for the call. -/
def MapCall.pages (c : MapCall) : List ℕ := if c.va%4096 = 0 then [c.page] else [c.page, c.page+1]

theorem MapCall.mem_pages {c : MapCall} {v : ℕ} (h1 : c.va/4096 ≤ v) (h2 : v ≤ (c.va+4095)/4096) :
    v ∈ c.pages := by
  have hpage : c.page = c.va/4096 := rfl
  rw [MapCall.pages, hpage]
  split_ifs with h0
  · have hv : v = c.va/4096 := by omega
    simp [hv]
  · have hv : v = c.va/4096 ∨ v = c.va/4096+1 := by omega
    simpa using hv

/-- A user page that has a frame. -/
def UserFrame (pte : ℕ) : Prop := Valid pte ∧ pte &&& PTE_U ≠ 0 ∧ IsPage (PTE2PA pte)

theorem userFrame_mkLeaf {c : ℕ} (hc : IsPage c) (ph : Phdr) : UserFrame (mkLeaf c (segPerm ph)) := by
  have hb := hc.bounds
  have hf := segPerm_lt ph
  refine ⟨Valid_mkLeaf c hf, ?_, ?_⟩
  · rw [mkLeaf_and c hf (by decide) (by decide)]
    exact segPerm_and ph (.inr rfl)
  · have hpa : c/4096*4096 = c := by omega
    rw [PTE2PA_mkLeaf (by omega) hf, hpa]
    exact hc

/-- Valid leaves of the roots `sm` are as they were. -/
def LeavesKept (sm : ℕ → Prop) (s s' : Phys) : Prop := ∀ r v, sm r → v < 2^26 →
  vpnIndex 2 v ≠ selfSlot → Valid (leaf s.mem r v) → leaf s'.mem r v = leaf s.mem r v

theorem LeavesKept.refl (sm : ℕ → Prop) (s : Phys) : LeavesKept sm s s := fun _ _ _ _ _ _ => rfl

theorem LeavesKept.trans {sm : ℕ → Prop} {s s' s'' : Phys} (h : LeavesKept sm s s')
    (h' : LeavesKept sm s' s'') : LeavesKept sm s s'' := by
  intro r v hr hv hs hval
  have he := h r v hr hv hs hval
  rw [h' r v hr hv hs (by rwa [he]), he]

/-- A load for the root `u` has free pages for `n` more calls of the mapper and for the tables
of the pages `W`. -/
structure Loading (k u : ℕ) (W : Finset ℕ) (n : ℕ) (s : Phys) (τ : Typing) (sm : ℕ → Prop)
    (l : List ℕ) : Prop where
  rooted : Roots k s τ sm l
  root : sm u
  room : n+tablesNeeded s.mem u W ≤ l.length

section
variable {k u n : ℕ} {W : Finset ℕ} {s : Phys} {τ : Typing} {sm : ℕ → Prop} {l : List ℕ}

theorem Loading.mappages (h : Loading k u W n s τ sm l) (hW : OffSlot W) {c : MapCall} {pa : ℕ}
    {ph : Phdr} (hva : c.va < 2^64) (hpa : pa < 2^64) (hin : ∀ v ∈ c.pages, v < 2^26 → v ∈ W) :
    (∃ msg, mappages s u c.va PAGE_SIZE pa (segPerm ph) = .error (.panic msg)) ∨
    ∃ s' τ' l', mappages s u c.va PAGE_SIZE pa (segPerm ph) = .ok (0, s') ∧
      Loading k u W n s' τ' sm l' ∧ LeavesKept sm s s' ∧ c.va < 2^38 ∧
      ¬Valid (leaf s.mem u c.page) ∧ leaf s'.mem u c.page = mkLeaf pa (segPerm ph) := by
  have hmax : MAXVA = 2^38 := by decide
  have hr := (h.rooted.typed.selfMap h.root).1
  by_cases hlt : c.va < 2^38
  · rw [mappages_eq (by decide : 0 < PAGE_SIZE) (by rw [PAGE_SIZE]; omega : c.va+PAGE_SIZE ≤ 2^64)]
    have hvl : (c.va+PAGE_SIZE-1)/4096 = (c.va+4095)/4096 := rfl
    rw [hvl]
    have hle : c.va/4096 ≤ (c.va+4095)/4096 := by omega
    rcases Typed.mappagesLoop_room hW (segPerm_lt ph) (HasRWX_segPerm ph)
      ((c.va+4095)/4096-c.va/4096) (by omega) h.rooted.typed hr hpa
      (fun w h1 h2 => hin w (MapCall.mem_pages h1 h2)) h.room with
      hpanic | ⟨s', τ', l', hrun, m, hroom, hvl, hnone⟩
    · exact .inl hpanic
    · refine .inr ⟨s', τ', l', hrun, ⟨h.rooted.retype m.typed m.grows.root_iff, h.root, hroom⟩, ?_,
        hlt, hnone _ le_rfl hle, ?_⟩
      · intro r v hr' hv hs hval
        have hroot := (h.rooted.typed.selfMap hr').1
        rw [m.leaves hroot (clear_of_index sm r hs) (by omega)]
        by_cases hnew : r = u ∧ c.va/4096 ≤ v ∧ v < c.va/4096+((c.va+4095)/4096-c.va/4096+1)
        · rw [hnew.1] at hval
          exact absurd hval (hnone v hnew.2.1 (by omega))
        · rw [if_neg hnew]
      · have hslot := (hW _ (hin _ (MapCall.mem_pages le_rfl hle) (by omega))).2
        have hpage : c.page = c.va/4096 := rfl
        have hoff : (pa+4096*(c.va/4096-c.va/4096))%2^64 = pa := by
          rw [Nat.sub_self, Nat.mul_zero, Nat.add_zero, Nat.mod_eq_of_lt hpa]
        rw [hpage, m.leaves hr (clear_of_index sm u hslot) (by omega), if_pos (by omega), hoff]
  · refine .inl ⟨"walk\n", ?_⟩
    have hstart : MAXVA ≤ ROUNDDOWN c.va PAGE_SIZE := by
      rw [ROUNDDOWN_page _ hva]
      omega
    rw [RiscvMos.mappages, if_neg (by decide)]
    exact mappagesLoop_panics s hstart

theorem Loading.call (h : Loading k u W (n+1) s τ sm l) (hW : OffSlot W) (img : Image) {ph : Phdr}
    {c : MapCall} (hc : CallFor ph c) (hin : ∀ v ∈ c.pages, v < 2^26 → v ∈ W) :
    (∃ msg, loadIcodeMapper img u s c.va c.offset c.perm c.src c.len = .error (.panic msg)) ∨
    ∃ s' τ' l', loadIcodeMapper img u s c.va c.offset c.perm c.src c.len = .ok (0, s') ∧
      Loading k u W n s' τ' sm l' ∧ LeavesKept sm s s' ∧ c.va < 2^38 ∧
      ¬Valid (leaf s.mem u c.page) ∧ UserFrame (leaf s'.mem u c.page) := by
  have hroom := h.room
  cases l with
  | nil =>
    rw [List.length_nil] at hroom
    omega
  | cons p l =>
    rw [List.length_cons] at hroom
    have hp := h.rooted.typed.free.pages p List.mem_cons_self
    have hb := hp.bounds
    have hr := (h.rooted.typed.selfMap h.root).1
    obtain ⟨s₁, hmap, ht₁, hτ, hm, _⟩ := h.rooted.typed.loadIcodeMapper img c.src none hc.fit
    -- filling the page changes no table
    have hagree {q ℓ : ℕ} {par : Option (ℕ × ℕ)} (hq : τ q = .table ℓ par) :=
      h.rooted.typed.filled_agree hm hq
    have hleaf {r v : ℕ} (hr : sm r) (hs : vpnIndex 2 v ≠ selfSlot) :
        leaf s₁.mem r v = leaf s.mem r v :=
      h.rooted.typed.leafFrom_agree hagree v (h.rooted.typed.selfMap hr).1 (clear_of_index sm r hs)
    have h₁ : Loading k u W n s₁ (update τ p (.frame none)) sm l := by
      refine ⟨h.rooted.retype ht₁ (fun q => hτ q 2 none), h.root, ?_⟩
      rw [h.rooted.typed.tablesNeeded_agree hagree hr hW]
      omega
    have hkept : LeavesKept sm s s₁ := fun r v hr _ hs _ => hleaf hr hs
    rw [hmap, hc.perm]
    rcases h₁.mappages hW hc.va (by omega : p < 2^64) hin with
      hpanic | ⟨s', τ', l', hrun, h', hkept', hlt, hnone, hnew⟩
    · exact .inl hpanic
    · have hpage : c.page = c.va/4096 := rfl
      have hslot : vpnIndex 2 c.page ≠ selfSlot :=
        (hW _ (hin _ (MapCall.mem_pages le_rfl (by omega)) (by omega))).2
      rw [hleaf h.root hslot] at hnone
      refine .inr ⟨s', τ', l', hrun, h', hkept.trans hkept', hlt, hnone, ?_⟩
      rw [hnew]
      exact userFrame_mkLeaf hp ph

/-! ### The calls of the image -/

/-- The pages of the calls are in `W`. -/
def PagesIn (W : Finset ℕ) (calls : List MapCall) : Prop := ∀ c ∈ calls, ∀ v ∈ c.pages, v < 2^26 → v ∈ W

theorem PagesIn.page_slot {calls : List MapCall} {c : MapCall} (h : PagesIn W calls) (hW : OffSlot W)
    (hc : c ∈ calls) (hlt : c.va < 2^38) : c.page < 2^26 ∧ vpnIndex 2 c.page ≠ selfSlot := by
  have hpage : c.page = c.va/4096 := rfl
  have hlt' : c.page < 2^26 := by omega
  exact ⟨hlt', (hW _ (h c hc _ (MapCall.mem_pages le_rfl (by omega)) hlt')).2⟩

/-- What calls that return 0 have done: each has given a frame to a page that had none. -/
structure CallsMade (sm : ℕ → Prop) (u : ℕ) (s s' : Phys) (calls : List MapCall) : Prop where
  kept : LeavesKept sm s s'
  low : ∀ c ∈ calls, c.va < 2^38
  distinct : (calls.map MapCall.page).Nodup
  unmapped : ∀ c ∈ calls, ¬Valid (leaf s.mem u c.page)
  mapped : ∀ c ∈ calls, UserFrame (leaf s'.mem u c.page)

theorem CallsMade.cons {c : MapCall} {calls : List MapCall} {s₁ s' : Phys} (hW : OffSlot W)
    (hin : PagesIn W (c :: calls)) (hu : sm u) (hkept : LeavesKept sm s s₁) (hlt : c.va < 2^38)
    (hnone : ¬Valid (leaf s.mem u c.page)) (hnew : UserFrame (leaf s₁.mem u c.page))
    (h : CallsMade sm u s₁ s' calls) : CallsMade sm u s s' (c :: calls) := by
  obtain ⟨hc26, hcs⟩ := hin.page_slot hW List.mem_cons_self hlt
  constructor
  case kept => exact hkept.trans h.kept
  case low => exact List.forall_mem_cons.mpr ⟨hlt, h.low⟩
  case distinct =>
    rw [List.map_cons, List.nodup_cons]
    refine ⟨fun hmem => ?_, h.distinct⟩
    obtain ⟨c', hc', he⟩ := List.mem_map.mp hmem
    apply h.unmapped c' hc'
    rw [he]
    exact hnew.1
  case unmapped =>
    refine List.forall_mem_cons.mpr ⟨hnone, fun c' hc' hval => ?_⟩
    obtain ⟨hc26', hcs'⟩ := hin.page_slot hW (List.mem_cons_of_mem c hc') (h.low c' hc')
    apply h.unmapped c' hc'
    rwa [hkept u _ hu hc26' hcs' hval]
  case mapped =>
    refine List.forall_mem_cons.mpr ⟨?_, h.mapped⟩
    rw [h.kept u _ hu hc26 hcs hnew.1]
    exact hnew

theorem Loading.makeCalls (hW : OffSlot W) (img : Image) {ph : Phdr} (calls : List MapCall) :
    ∀ {s : Phys} {τ : Typing} {l : List ℕ}, Loading k u W (calls.length+n) s τ sm l →
    (∀ c ∈ calls, CallFor ph c) → PagesIn W calls →
    (∃ msg, makeCalls (loadIcodeMapper img u) s calls = .error (.panic msg)) ∨
    ∃ s' τ' l', makeCalls (loadIcodeMapper img u) s calls = .ok (0, s') ∧
      Loading k u W n s' τ' sm l' ∧ CallsMade sm u s s' calls := by
  induction calls with
  | nil =>
    intro s τ l h _ _
    rw [List.length_nil, Nat.zero_add] at h
    exact .inr ⟨s, τ, l, rfl, h, LeavesKept.refl sm s, by simp, by simp, by simp, by simp⟩
  | cons c calls ih =>
    intro s τ l h hfor hin
    obtain ⟨hc, hrest⟩ := List.forall_mem_cons.mp hfor
    rw [List.length_cons, Nat.add_right_comm] at h
    rw [makeCalls_cons]
    rcases h.call hW img hc (hin c List.mem_cons_self) with
      ⟨msg, hpanic⟩ | ⟨s₁, τ₁, l₁, hcall, h₁, hkept, hlt, hnone, hnew⟩
    · exact .inl ⟨msg, by rw [hpanic, error_bind]⟩
    rw [hcall, ok_bind]
    dsimp only
    rw [if_neg (fun hne => hne rfl)]
    rcases ih h₁ hrest (fun c' hc' => hin c' (List.mem_cons_of_mem c hc')) with
      hpanic | ⟨s', τ', l', hrun, h', made⟩
    · exact .inl hpanic
    · exact .inr ⟨s', τ', l', hrun, h', .cons hW hin h.root hkept hlt hnone hnew made⟩

/-- The calls for one segment after the other. -/
def callsFor (phs : List Phdr) : List MapCall := phs.flatMap (fun ph => segCalls ph ph.p_offset)

/-- Every page of the segment has a frame. -/
def SegmentMapped (u : ℕ) (s : Phys) (ph : Phdr) : Prop := ∀ i < ph.p_memsz,
  ph.p_vaddr+i < 2^38 ∧ vpnIndex 2 ((ph.p_vaddr+i)/4096) ≠ selfSlot ∧
    UserFrame (leaf s.mem u ((ph.p_vaddr+i)/4096))

theorem SegmentMapped.kept {ph : Phdr} {s' : Phys} (h : SegmentMapped u s ph) (hu : sm u)
    (hkept : LeavesKept sm s s') : SegmentMapped u s' ph := by
  intro i hi
  obtain ⟨hlt, hs, hframe⟩ := h i hi
  refine ⟨hlt, hs, ?_⟩
  rwa [hkept u _ hu (by omega) hs hframe.1]

theorem CallsMade.segment {ph : Phdr} {s' : Phys} (hW : OffSlot W) (hva : ph.p_vaddr < 2^64)
    (hin : PagesIn W (segCalls ph ph.p_offset))
    (h : CallsMade sm u s s' (segCalls ph ph.p_offset)) : SegmentMapped u s' ph := by
  intro i hi
  obtain ⟨hlt, c, hc, hpage⟩ := segCalls_cover hva h.low h.distinct hi
  have hpage' : c.page = (ph.p_vaddr+i)/4096 := hpage
  have hslot := (hin.page_slot hW hc (h.low c hc)).2
  have hframe := h.mapped c hc
  rw [hpage'] at hslot hframe
  exact ⟨hlt, hslot, hframe⟩

theorem Loading.loadAll (hW : OffSlot W) (img : Image) (phs : List Phdr) :
    ∀ {s : Phys} {τ : Typing} {l : List ℕ}, Loading k u W ((callsFor phs).length+n) s τ sm l →
    (∀ ph ∈ phs, ph.p_vaddr < 2^64) → PagesIn W (callsFor phs) →
    (∃ msg, phs.foldlM (fun s ph => elfLoadSeg (loadIcodeMapper img u) s ph ph.p_offset >>=
      fun x => Except.ok x.2) s = .error (.panic msg)) ∨
    ∃ s' τ' l', phs.foldlM (fun s ph => elfLoadSeg (loadIcodeMapper img u) s ph ph.p_offset >>=
        fun x => Except.ok x.2) s = .ok s' ∧
      Loading k u W n s' τ' sm l' ∧ LeavesKept sm s s' ∧ ∀ ph ∈ phs, SegmentMapped u s' ph := by
  induction phs with
  | nil =>
    intro s τ l h _ _
    have hlen : (callsFor []).length+n = n := by simp [callsFor]
    rw [hlen] at h
    exact .inr ⟨s, τ, l, rfl, h, LeavesKept.refl sm s, by simp⟩
  | cons ph phs ih =>
    intro s τ l h hva hin
    have hcalls : callsFor (ph :: phs) = segCalls ph ph.p_offset ++ callsFor phs := rfl
    obtain ⟨hva₀, hva₁⟩ := List.forall_mem_cons.mp hva
    rw [hcalls, List.length_append, Nat.add_assoc] at h
    rw [hcalls] at hin
    have hin₀ : PagesIn W (segCalls ph ph.p_offset) := fun c hc => hin c (List.mem_append_left _ hc)
    have hin₁ : PagesIn W (callsFor phs) := fun c hc => hin c (List.mem_append_right _ hc)
    rw [List.foldlM_cons, elfLoadSeg_eq_makeCalls _ hva₀]
    rcases h.makeCalls hW img _ (segCalls_callFor hva₀ _) hin₀ with
      ⟨msg, hpanic⟩ | ⟨s₁, τ₁, l₁, hrun, h₁, made⟩
    · refine .inl ⟨msg, ?_⟩
      rw [hpanic]
      rfl
    rw [hrun, ok_bind, ok_bind]
    rcases ih h₁ hva₁ hin₁ with hpanic | ⟨s', τ', l', hrest, h', hkept, hmapped⟩
    · exact .inl hpanic
    · refine .inr ⟨s', τ', l', hrest, h', made.kept.trans hkept, ?_⟩
      exact List.forall_mem_cons.mpr ⟨(made.segment hW hva₀ hin₀).kept h.root hkept, hmapped⟩

theorem Loading.loadSegments (hW : OffSlot W) {img : Image} {ehdr : Ehdr}
    (hel : elfFrom img = some ehdr) (hin : PagesIn W (callsFor (segments img ehdr)))
    (h : Loading k u W ((callsFor (segments img ehdr)).length+n) s τ sm l) :
    (∃ msg, RiscvMos.loadSegments (loadIcodeMapper img u) img ehdr s 0 ehdr.e_phoff =
      .error (.panic msg)) ∨
    ∃ s' τ' l', RiscvMos.loadSegments (loadIcodeMapper img u) img ehdr s 0 ehdr.e_phoff = .ok s' ∧
      Loading k u W n s' τ' sm l' ∧ LeavesKept sm s s' ∧
      ∀ ph, Segment img ehdr ph → SegmentMapped u s' ph := by
  have hfold := loadSegments_eq_foldlM (loadIcodeMapper img u) img ehdr ehdr.e_phnum s 0
    (Nat.zero_add _)
  rw [Nat.zero_mul, Nat.add_zero, Nat.mod_eq_of_lt (elfFrom_phoff hel)] at hfold
  rw [hfold]
  have hva (ph : Phdr) (hph : ph ∈ segments img ehdr) : ph.p_vaddr < 2^64 := by
    obtain ⟨idx, _, rfl, _⟩ := mem_segments.mp hph
    exact load_lt _ _ 8
  rcases h.loadAll hW img (segments img ehdr) hva hin with
    hpanic | ⟨s', τ', l', hrun, h', hkept, hmapped⟩
  · exact .inl hpanic
  · exact .inr ⟨s', τ', l', hrun, h', hkept, fun ph hs => hmapped ph (mem_segments.mpr hs)⟩

end

end RiscvMos
