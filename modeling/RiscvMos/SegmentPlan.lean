import RiscvMos.Loader

/-! The calls that `elf_load_seg` makes, for any mapper that returns 0: which pages they
map and where they put the bytes of the file. -/
namespace RiscvMos
open ByteMem

/-- The arguments of a call of the mapper. -/
structure MapCall where
  va : ℕ
  offset : ℕ
  perm : ℕ
  src : Option ℕ
  len : ℕ

namespace MapCall

/-- The virtual page of the call. -/
def page (c : MapCall) : ℕ := c.va/PAGE_SIZE

/-- Source and destination of each byte that the call copies. -/
def bytes (c : MapCall) : List (ℕ × ℕ) :=
  match c.src with
  | none => []
  | some src =>
    (List.range c.len).map fun j => ((src+j)%2^64, ROUNDDOWN c.va PAGE_SIZE+c.offset+j)

end MapCall

section
variable {σ : Type}

/-- A mapper that also records its calls. -/
def recordPlan (map_page : ElfMapper σ) : ElfMapper (σ × List MapCall) :=
  fun st va offset perm src len => do
    let (r, s) ← map_page st.1 va offset perm src len
    .ok (r, s, st.2 ++ [⟨va, offset, perm, src, len⟩])

theorem recordPlan_erases (map_page : ElfMapper σ) : Erases (recordPlan map_page) map_page := by
  intro st va offset perm src len
  rw [recordPlan]
  cases map_page st.1 va offset perm src len with
  | error e => rfl
  | ok x => rfl

/-- The callback always returns 0. -/
def ReturnsZero (map_page : ElfMapper σ) : Prop :=
  ∀ st va offset perm src len, ∃ st', map_page st va offset perm src len = .ok (0, st')

theorem ReturnsZero.record {map_page : ElfMapper σ} (h : ReturnsZero map_page) (st : σ)
    (calls : List MapCall) (c : MapCall) :
    ∃ st', recordPlan map_page (st, calls) c.va c.offset c.perm c.src c.len =
      .ok (0, st', calls ++ [c]) := by
  obtain ⟨st', hst⟩ := h st c.va c.offset c.perm c.src c.len
  refine ⟨st', ?_⟩
  rw [recordPlan, hst]
  rfl

/-! ### The calls of the loops -/

/-- The calls of the first loop from index `i` on. -/
def binCalls (ph : Phdr) (bin i : ℕ) : List MapCall :=
  if i < ph.p_filesz then
    ⟨(ph.p_vaddr+i)%2^64, 0, segPerm ph, some ((bin+i)%2^64), min (ph.p_filesz-i) PAGE_SIZE⟩ ::
      binCalls ph bin (i+PAGE_SIZE)
  else []
  termination_by ph.p_filesz-i
  decreasing_by simp only [PAGE_SIZE]; omega

/-- The calls of the second loop from index `i` on. -/
def zeroCalls (ph : Phdr) (i : ℕ) : List MapCall :=
  if i < ph.p_memsz then
    ⟨(ph.p_vaddr+i)%2^64, 0, segPerm ph, none, min (ph.p_memsz-i) PAGE_SIZE⟩ ::
      zeroCalls ph (i+PAGE_SIZE)
  else []
  termination_by ph.p_memsz-i
  decreasing_by simp only [PAGE_SIZE]; omega

/-- The number of pages that a loop from `i` to `n` takes. -/
def loopPages (n i : ℕ) : ℕ := (n-i+4095)/4096

theorem loopPages_next {n i : ℕ} (h : i < n) : loopPages n i = loopPages n (i+PAGE_SIZE)+1 := by
  have hpage : PAGE_SIZE = 4096 := rfl
  rw [loopPages, loopPages]
  omega

theorem loopPages_end {n i : ℕ} (h : n ≤ i) : loopPages n i = 0 := by
  rw [loopPages]
  omega

end

/-! ### Their pages and bytes -/

/-- Source and destination of byte `k` of the file. -/
def place (ph : Phdr) (bin k : ℕ) : ℕ × ℕ := ((bin+k)%2^64, ph.p_vaddr+k)

theorem MapCall.bytes_place {c : MapCall} {ph : Phdr} {bin src i : ℕ} (hsrc : c.src = some src)
    (hmod : src%2^64 = (bin+i)%2^64) (hva : ROUNDDOWN c.va PAGE_SIZE+c.offset = ph.p_vaddr+i) :
    c.bytes = (List.range' i c.len).map (place ph bin) := by
  rw [MapCall.bytes, hsrc, List.range'_eq_map_range, List.map_map]
  apply List.map_congr_left
  intro j _
  dsimp only [Function.comp, place]
  rw [hva, ← Nat.add_assoc, ← Nat.add_assoc, Nat.add_mod, hmod, ← Nat.add_mod]

section
variable {ph : Phdr} (hwrap : ph.p_vaddr+ph.p_memsz+PAGE_SIZE < 2^64)
include hwrap

theorem loop_page {i : ℕ} (hi : i < ph.p_memsz) :
    (ph.p_vaddr+i)%2^64 = ph.p_vaddr+i ∧
      (ph.p_vaddr+(i+PAGE_SIZE))/4096 = (ph.p_vaddr+i)/4096+1 := by
  have hpage : PAGE_SIZE = 4096 := rfl
  exact ⟨Nat.mod_eq_of_lt (by omega), by omega⟩

theorem binCalls_pages (hsize : ph.p_filesz ≤ ph.p_memsz) (bin i : ℕ) :
    (binCalls ph bin i).map MapCall.page =
      List.range' ((ph.p_vaddr+i)/4096) (loopPages ph.p_filesz i) := by
  fun_induction binCalls ph bin i with
  | case1 i hi ih =>
    obtain ⟨hva, hnext⟩ := loop_page hwrap (Nat.lt_of_lt_of_le hi hsize)
    rw [List.map_cons, ih, loopPages_next hi, hnext, List.range'_succ, MapCall.page, hva]
    rfl
  | case2 i hi =>
    rw [loopPages_end (by omega)]
    rfl

theorem zeroCalls_pages (i : ℕ) : (zeroCalls ph i).map MapCall.page =
    List.range' ((ph.p_vaddr+i)/4096) (loopPages ph.p_memsz i) := by
  fun_induction zeroCalls ph i with
  | case1 i hi ih =>
    obtain ⟨hva, hnext⟩ := loop_page hwrap hi
    rw [List.map_cons, ih, loopPages_next hi, hnext, List.range'_succ, MapCall.page, hva]
    rfl
  | case2 i hi =>
    rw [loopPages_end (by omega)]
    rfl

theorem binCalls_bytes (hsize : ph.p_filesz ≤ ph.p_memsz) (bin i : ℕ)
    (hi : (ph.p_vaddr+i)%4096 = 0) :
    (binCalls ph bin i).flatMap MapCall.bytes =
      (List.range' i (ph.p_filesz-i)).map (place ph bin) := by
  have hpage : PAGE_SIZE = 4096 := rfl
  fun_induction binCalls ph bin i with
  | case1 i hlt ih =>
    have hva : ROUNDDOWN ((ph.p_vaddr+i)%2^64) PAGE_SIZE+0 = ph.p_vaddr+i := by
      rw [(loop_page hwrap (Nat.lt_of_lt_of_le hlt hsize)).1, ROUNDDOWN_page _ (by omega)]
      omega
    have hcall : MapCall.bytes ⟨(ph.p_vaddr+i)%2^64, 0, segPerm ph, some ((bin+i)%2^64),
        min (ph.p_filesz-i) PAGE_SIZE⟩ =
        (List.range' i (min (ph.p_filesz-i) PAGE_SIZE)).map (place ph bin) :=
      MapCall.bytes_place rfl (Nat.mod_mod _ _) hva
    rw [List.flatMap_cons, ih (by omega), hcall, ← List.map_append]
    by_cases hlast : ph.p_filesz ≤ i+PAGE_SIZE
    · have h0 : ph.p_filesz-(i+PAGE_SIZE) = 0 := by omega
      have hmin : min (ph.p_filesz-i) PAGE_SIZE = ph.p_filesz-i := by omega
      rw [h0, List.range'_zero, List.append_nil, hmin]
    · have hmin : min (ph.p_filesz-i) PAGE_SIZE = PAGE_SIZE := by omega
      have hn : ph.p_filesz-i = PAGE_SIZE+(ph.p_filesz-(i+PAGE_SIZE)) := by omega
      rw [hmin, List.range'_append_1, ← hn]
  | case2 i hlt =>
    have hn : ph.p_filesz-i = 0 := by omega
    rw [hn]
    rfl

omit hwrap in
theorem zeroCalls_bytes (i : ℕ) : (zeroCalls ph i).flatMap MapCall.bytes = [] := by
  fun_induction zeroCalls ph i with
  | case1 i hi ih =>
    rw [List.flatMap_cons, ih]
    rfl
  | case2 i hi => rfl

end

/-! ### The whole segment -/

/-- The index at which the first loop starts. -/
def binStart (ph : Phdr) : ℕ :=
  if ph.p_vaddr%4096 ≠ 0 then min ph.p_filesz (PAGE_SIZE-ph.p_vaddr%4096) else 0

/-- The call for a partial first page. -/
def firstCalls (ph : Phdr) (bin : ℕ) : List MapCall :=
  if ph.p_vaddr%4096 ≠ 0 then
    [⟨ph.p_vaddr, ph.p_vaddr%4096, segPerm ph, some bin,
      min ph.p_filesz (PAGE_SIZE-ph.p_vaddr%4096)⟩]
  else []

def segCalls (ph : Phdr) (bin : ℕ) : List MapCall :=
  firstCalls ph bin ++ binCalls ph bin (binStart ph) ++
    zeroCalls ph (binStart ph+4096*loopPages ph.p_filesz (binStart ph))

/-! ### The run as its calls -/

section
variable {σ : Type} (map_page : ElfMapper σ)

/-- The calls in order, up to the first that does not return 0. -/
def makeCalls (st : σ) : List MapCall → Result (ℤ × σ)
  | [] => .ok (0, st)
  | c :: cs => do
    let (r, st) ← map_page st c.va c.offset c.perm c.src c.len
    if r ≠ 0 then .ok (r, st) else makeCalls st cs

theorem makeCalls_cons (st : σ) (c : MapCall) (cs : List MapCall) :
    makeCalls map_page st (c :: cs) = map_page st c.va c.offset c.perm c.src c.len >>= fun x =>
      if x.1 ≠ 0 then .ok x else makeCalls map_page x.2 cs := rfl

theorem elfZeroLoop_eq_makeCalls (ph : Phdr) (i : ℕ) : ∀ st,
    elfZeroLoop map_page st ph.p_vaddr (segPerm ph) ph.p_memsz i =
      makeCalls map_page st (zeroCalls ph i) := by
  fun_induction zeroCalls ph i with
  | case1 i hi ih =>
    intro st
    rw [elfZeroLoop_eq, if_pos hi, makeCalls_cons]
    simp only [ih]
  | case2 i hi =>
    intro st
    rw [elfZeroLoop_eq, if_neg hi]
    rfl

theorem elfLoops_eq_makeCalls (ph : Phdr) (bin i : ℕ) : ∀ st,
    (elfBinLoop map_page st ph.p_vaddr (segPerm ph) bin ph.p_filesz i >>= fun x =>
      if x.1 ≠ 0 then .ok (x.1, x.2.2)
      else elfZeroLoop map_page x.2.2 ph.p_vaddr (segPerm ph) ph.p_memsz x.2.1) =
      makeCalls map_page st (binCalls ph bin i ++ zeroCalls ph (i+4096*loopPages ph.p_filesz i)) := by
  have hpage : PAGE_SIZE = 4096 := rfl
  fun_induction binCalls ph bin i with
  | case1 i hi ih =>
    intro st
    have hend : i+4096*loopPages ph.p_filesz i =
        i+PAGE_SIZE+4096*loopPages ph.p_filesz (i+PAGE_SIZE) := by
      rw [loopPages_next hi]
      omega
    rw [elfBinLoop_eq, if_pos hi, hend, List.cons_append, makeCalls_cons]
    cases map_page st ((ph.p_vaddr+i)%2^64) 0 (segPerm ph) (some ((bin+i)%2^64))
        (min (ph.p_filesz-i) PAGE_SIZE) with
    | error e => rfl
    | ok x =>
      rw [ok_bind, ok_bind, ← ih]
      by_cases hr : x.1 = 0
      · simp only [hr, ne_eq, not_true_eq_false, if_false]
      · simp only [ne_eq, hr, not_false_eq_true, if_true, ok_bind]
  | case2 i hi =>
    intro st
    rw [elfBinLoop_eq, if_neg hi, ok_bind, loopPages_end (by omega)]
    dsimp only
    rw [if_neg (fun hne => hne rfl), elfZeroLoop_eq_makeCalls]
    rfl

theorem elfLoadSeg_eq_makeCalls {ph : Phdr} (hva : ph.p_vaddr < 2^64) (bin : ℕ) (st : σ) :
    elfLoadSeg map_page st ph bin = makeCalls map_page st (segCalls ph bin) := by
  have hoff : ph.p_vaddr-ROUNDDOWN ph.p_vaddr PAGE_SIZE = ph.p_vaddr%4096 := by
    rw [ROUNDDOWN_page _ hva]
    omega
  have hrest := elfLoops_eq_makeCalls map_page ph bin (binStart ph)
  simp only [elfLoadSeg, hoff]
  by_cases h0 : ph.p_vaddr%4096 = 0
  · simp only [segCalls, firstCalls, binStart, h0, ne_eq, not_true_eq_false, if_false] at hrest ⊢
    exact hrest st
  · simp only [segCalls, firstCalls, binStart, h0, ne_eq, not_false_eq_true, if_true] at hrest ⊢
    rw [List.append_assoc, List.singleton_append, makeCalls_cons]
    cases map_page st ph.p_vaddr (ph.p_vaddr%4096) (segPerm ph) (some bin)
        (min ph.p_filesz (PAGE_SIZE-ph.p_vaddr%4096)) with
    | error e => rfl
    | ok x =>
      rw [ok_bind, ok_bind, ← hrest]

end

section
variable {σ : Type} {map_page : ElfMapper σ}

theorem ReturnsZero.makeCalls_ok (h : ReturnsZero map_page) (cs : List MapCall) : ∀ st calls,
    ∃ st', makeCalls (recordPlan map_page) (st, calls) cs = .ok (0, st', calls ++ cs) := by
  induction cs with
  | nil => exact fun st calls => ⟨st, by rw [List.append_nil]; rfl⟩
  | cons c cs ih =>
    intro st calls
    obtain ⟨st₁, hcall⟩ := h.record st calls c
    obtain ⟨st₂, hrest⟩ := ih st₁ (calls ++ [c])
    refine ⟨st₂, ?_⟩
    rw [makeCalls_cons, hcall, ok_bind]
    dsimp only
    rw [if_neg (fun hne => hne rfl), hrest, List.append_assoc]
    rfl

theorem elfLoadSeg_calls (h : ReturnsZero map_page) (st : σ) {ph : Phdr}
    (hva : ph.p_vaddr < 2^64) (bin : ℕ) :
    ∃ st', elfLoadSeg (recordPlan map_page) (st, []) ph bin = .ok (0, st', segCalls ph bin) := by
  obtain ⟨st', hrun⟩ := h.makeCalls_ok (segCalls ph bin) st []
  exact ⟨st', (elfLoadSeg_eq_makeCalls _ hva bin _).trans hrun⟩

end

/-! ### Plans of a segment -/

/-- Each page of the segment is mapped by one call, and each byte of the file is put in its
place by one call. -/
structure SegmentPlan (ph : Phdr) (bin : ℕ) (calls : List MapCall) : Prop where
  distinct : (calls.map MapCall.page).Nodup
  pages : ∀ v, v ∈ calls.map MapCall.page ↔
    ∃ a, ph.p_vaddr ≤ a ∧ a < ph.p_vaddr+ph.p_memsz ∧ a/PAGE_SIZE = v
  fit : ∀ c ∈ calls, c.offset+c.len ≤ PAGE_SIZE
  bytes : (calls.flatMap MapCall.bytes).Perm ((List.range ph.p_filesz).map (place ph bin))

/-- The first page is whole, or the file fills it, or the segment ends with the file. -/
def FillsFirstPage (ph : Phdr) : Prop :=
  ph.p_vaddr%PAGE_SIZE = 0 ∨ PAGE_SIZE-ph.p_vaddr%PAGE_SIZE ≤ ph.p_filesz ∨
    ph.p_filesz = ph.p_memsz ∧ 0 < ph.p_memsz

instance (ph : Phdr) : Decidable (FillsFirstPage ph) := inferInstanceAs (Decidable (_ ∨ _ ∨ _))

/-- The arguments are those of a call for `ph`: the bytes stay in one page. -/
structure CallFor (ph : Phdr) (c : MapCall) : Prop where
  va : c.va < 2^64
  perm : c.perm = segPerm ph
  fit : c.offset+c.len ≤ PAGE_SIZE

theorem binCalls_callFor (ph : Phdr) (bin i : ℕ) : ∀ c ∈ binCalls ph bin i, CallFor ph c := by
  fun_induction binCalls ph bin i with
  | case1 i hi ih =>
    refine List.forall_mem_cons.mpr ⟨⟨Nat.mod_lt _ (by decide), rfl, ?_⟩, ih⟩
    dsimp only
    omega
  | case2 i hi => simp

theorem zeroCalls_callFor (ph : Phdr) (i : ℕ) : ∀ c ∈ zeroCalls ph i, CallFor ph c := by
  fun_induction zeroCalls ph i with
  | case1 i hi ih =>
    refine List.forall_mem_cons.mpr ⟨⟨Nat.mod_lt _ (by decide), rfl, ?_⟩, ih⟩
    dsimp only
    omega
  | case2 i hi => simp

theorem segCalls_callFor {ph : Phdr} (hva : ph.p_vaddr < 2^64) (bin : ℕ) :
    ∀ c ∈ segCalls ph bin, CallFor ph c := by
  have hpage : PAGE_SIZE = 4096 := rfl
  intro c hc
  rw [segCalls, List.mem_append, List.mem_append] at hc
  rcases hc with (hc | hc) | hc
  · rw [firstCalls] at hc
    split_ifs at hc with h0
    · obtain rfl := List.mem_singleton.mp hc
      refine ⟨hva, rfl, ?_⟩
      dsimp only
      omega
    · cases hc
  · exact binCalls_callFor ph bin _ c hc
  · exact zeroCalls_callFor ph _ c hc

section
variable {ph : Phdr} (hwrap : ph.p_vaddr+ph.p_memsz+PAGE_SIZE < 2^64)
  (hsize : ph.p_filesz ≤ ph.p_memsz)
include hwrap hsize

/-- Every byte of the file is copied once, and in order. -/
theorem segCalls_bytes (bin : ℕ) :
    (segCalls ph bin).flatMap MapCall.bytes = (List.range ph.p_filesz).map (place ph bin) := by
  have hpage : PAGE_SIZE = 4096 := rfl
  rw [segCalls, List.flatMap_append, List.flatMap_append, zeroCalls_bytes, List.append_nil,
    List.range_eq_range']
  by_cases h0 : ph.p_vaddr%4096 = 0
  · simp only [firstCalls, binStart, h0, ne_eq, not_true_eq_false, if_false]
    rw [binCalls_bytes hwrap hsize bin 0 (by omega)]
    rfl
  · have hbase : ROUNDDOWN ph.p_vaddr PAGE_SIZE+ph.p_vaddr%4096 = ph.p_vaddr+0 := by
      rw [ROUNDDOWN_page _ (by omega)]
      omega
    have hfirst : MapCall.bytes ⟨ph.p_vaddr, ph.p_vaddr%4096, segPerm ph, some bin,
        min ph.p_filesz (PAGE_SIZE-ph.p_vaddr%4096)⟩ =
        (List.range' 0 (min ph.p_filesz (PAGE_SIZE-ph.p_vaddr%4096))).map (place ph bin) :=
      MapCall.bytes_place rfl rfl hbase
    simp only [firstCalls, binStart, h0, ne_eq, not_false_eq_true, if_true, List.flatMap_singleton]
    rw [hfirst]
    by_cases hlast : ph.p_filesz ≤ PAGE_SIZE-ph.p_vaddr%4096
    · have hmin : min ph.p_filesz (PAGE_SIZE-ph.p_vaddr%4096) = ph.p_filesz := by omega
      rw [hmin, binCalls, if_neg (by omega)]
      simp
    · have hmin : min ph.p_filesz (PAGE_SIZE-ph.p_vaddr%4096) = PAGE_SIZE-ph.p_vaddr%4096 := by omega
      rw [hmin, binCalls_bytes hwrap hsize bin _ (by omega), ← List.map_append]
      generalize hn : PAGE_SIZE-ph.p_vaddr%4096 = n at hlast ⊢
      have happ := List.range'_append_1 (s := 0) (m := n) (n := ph.p_filesz-n)
      have hsum : n+(ph.p_filesz-n) = ph.p_filesz := by omega
      rw [Nat.zero_add, hsum] at happ
      rw [happ]

omit hwrap hsize in
theorem range'_join {p n q m k : ℕ} (hq : q = p+n) (hk : k = n+m) :
    List.range' p n ++ List.range' q m = List.range' p k := by
  rw [hq, hk, List.range'_append_1]

theorem segCalls_pages (bin : ℕ) (hfill : FillsFirstPage ph) :
    (segCalls ph bin).map MapCall.page = List.range' (ph.p_vaddr/4096)
      (if ph.p_memsz = 0 then 0 else (ph.p_vaddr%4096+ph.p_memsz+4095)/4096) := by
  have hpage : PAGE_SIZE = 4096 := rfl
  simp only [FillsFirstPage, hpage] at hfill
  rw [segCalls, List.map_append, List.map_append, binCalls_pages hwrap hsize, zeroCalls_pages hwrap]
  by_cases h0 : ph.p_vaddr%4096 = 0
  · simp only [firstCalls, binStart, h0, ne_eq, not_true_eq_false, if_false, loopPages]
    exact range'_join (by omega) (by split_ifs <;> omega)
  · simp only [firstCalls, binStart, h0, ne_eq, not_false_eq_true, if_true, loopPages,
      List.map_singleton, MapCall.page, hpage]
    have hfirst : [ph.p_vaddr/4096] = List.range' (ph.p_vaddr/4096) 1 := rfl
    rw [hfirst]
    by_cases hlast : 4096-ph.p_vaddr%4096 ≤ ph.p_filesz
    · have hmin : min ph.p_filesz (4096-ph.p_vaddr%4096) = 4096-ph.p_vaddr%4096 := by omega
      rw [hmin, range'_join (by omega) rfl]
      exact range'_join (by omega) (by split_ifs <;> omega)
    · -- the file and the segment end in the first page
      have hmin : min ph.p_filesz (4096-ph.p_vaddr%4096) = ph.p_filesz := by omega
      have hbin : (ph.p_filesz-ph.p_filesz+4095)/4096 = 0 := by omega
      have hzero : (ph.p_memsz-ph.p_filesz+4095)/4096 = 0 := by omega
      have hone : (ph.p_vaddr%4096+ph.p_memsz+4095)/4096 = 1 := by omega
      rw [hmin, hbin, Nat.mul_zero, Nat.add_zero, hzero, if_neg (by omega), hone]
      rfl

omit hwrap hsize in
theorem mem_segment_pages (v : ℕ) :
    v ∈ List.range' (ph.p_vaddr/4096)
      (if ph.p_memsz = 0 then 0 else (ph.p_vaddr%4096+ph.p_memsz+4095)/4096) ↔
      ∃ a, ph.p_vaddr ≤ a ∧ a < ph.p_vaddr+ph.p_memsz ∧ a/PAGE_SIZE = v := by
  have hpage : PAGE_SIZE = 4096 := rfl
  rw [List.mem_range'_1, hpage]
  constructor
  · rintro ⟨h1, h2⟩
    split_ifs at h2 with h0
    · omega
    · exact ⟨max ph.p_vaddr (4096*v), by omega, by omega, by omega⟩
  · rintro ⟨a, h1, h2, rfl⟩
    rw [if_neg (by omega)]
    omega

/-- Where the file ends before the first page does, the next index lies in it again. -/
theorem not_segmentPlan (bin : ℕ) (hfill : ¬FillsFirstPage ph) :
    ¬SegmentPlan ph bin (segCalls ph bin) := by
  have hpage : PAGE_SIZE = 4096 := rfl
  simp only [FillsFirstPage, hpage] at hfill
  intro plan
  have hmin : min ph.p_filesz (4096-ph.p_vaddr%4096) = ph.p_filesz := by omega
  have hbin : (ph.p_filesz-ph.p_filesz+4095)/4096 = 0 := by omega
  have h0 : ph.p_vaddr%4096 ≠ 0 := by omega
  have hmap : (segCalls ph bin).map MapCall.page = ph.p_vaddr/4096 ::
      List.range' ((ph.p_vaddr+ph.p_filesz)/4096) (loopPages ph.p_memsz ph.p_filesz) := by
    rw [segCalls, List.map_append, List.map_append, binCalls_pages hwrap hsize,
      zeroCalls_pages hwrap]
    simp only [firstCalls, binStart, h0, ne_eq, not_false_eq_true, if_true, loopPages,
      List.map_singleton, MapCall.page, hpage]
    rw [hmin, hbin]
    rfl
  by_cases hmem : ph.p_memsz = 0
  · obtain ⟨a, h1, h2, _⟩ := (plan.pages (ph.p_vaddr/4096)).mp (by
      rw [hmap]
      exact List.mem_cons_self)
    omega
  · have hd := plan.distinct
    rw [hmap] at hd
    apply (List.nodup_cons.mp hd).1
    rw [List.mem_range'_1, loopPages]
    omega

end

/-- The calls of `elf_load_seg` are a plan of the segment iff it fills its first page. -/
theorem elf_load_seg_plan {σ : Type} {map_page : ElfMapper σ} (hret : ReturnsZero map_page) (st : σ)
    {ph : Phdr} (hsize : ph.p_filesz ≤ ph.p_memsz)
    (hwrap : ph.p_vaddr+ph.p_memsz+PAGE_SIZE < 2^64) (bin : ℕ) :
    ∃ st' calls, elfLoadSeg map_page st ph bin = .ok (0, st') ∧
      elfLoadSeg (recordPlan map_page) (st, []) ph bin = .ok (0, st', calls) ∧
      (SegmentPlan ph bin calls ↔ FillsFirstPage ph) := by
  have hva : ph.p_vaddr < 2^64 := by omega
  obtain ⟨st', hrun⟩ := elfLoadSeg_calls hret st hva bin
  have herase := elfLoadSeg_erases (recordPlan_erases map_page) (st, []) ph bin
  rw [hrun] at herase
  refine ⟨st', _, herase.symm, hrun, ?_, ?_⟩
  · intro plan
    by_contra hfill
    exact not_segmentPlan hwrap hsize bin hfill plan
  · intro hfill
    have hpages := segCalls_pages hwrap hsize bin hfill
    refine ⟨?_, fun v => ?_, fun c hc => (segCalls_callFor hva bin c hc).fit, ?_⟩
    · rw [hpages]
      exact List.nodup_range'
    · rw [hpages]
      exact mem_segment_pages v
    · rw [segCalls_bytes hwrap hsize]

/-- A mapper that does nothing but return 0. -/
def nullMapper : ElfMapper Unit := fun st _ _ _ _ _ => .ok (0, st)

theorem nullMapper_returnsZero : ReturnsZero nullMapper := fun st _ _ _ _ _ => ⟨st, rfl⟩

/-- A segment of three and a half pages from the middle of a page on, with two in the file. -/
def bssPhdr : Phdr := ⟨PT_LOAD, 6, 0x78, 0x1800, 0x2000, 0x3800⟩

/-- 16 bytes of file and 256 of bss in the middle of a page. -/
def smallPhdr : Phdr := ⟨PT_LOAD, 6, 0x78, 0x1800, 0x10, 0x110⟩

theorem elf_load_seg_plan_bss : ∃ st' calls,
    elfLoadSeg nullMapper () bssPhdr 0x78 = .ok (0, st') ∧
    elfLoadSeg (recordPlan nullMapper) ((), []) bssPhdr 0x78 = .ok (0, st', calls) ∧
    (SegmentPlan bssPhdr 0x78 calls ↔ FillsFirstPage bssPhdr) ∧ FillsFirstPage bssPhdr := by
  obtain ⟨st', calls, h, hrun, hplan⟩ := elf_load_seg_plan nullMapper_returnsZero ()
    (by decide : bssPhdr.p_filesz ≤ bssPhdr.p_memsz) (by decide) 0x78
  exact ⟨st', calls, h, hrun, hplan, by decide⟩

/-- The page of the small segment is mapped twice. -/
theorem elf_load_seg_remaps : ∃ st' calls,
    elfLoadSeg (recordPlan nullMapper) ((), []) smallPhdr 0x78 = .ok (0, st', calls) ∧
      calls.map MapCall.page = [1, 1] ∧ ¬SegmentPlan smallPhdr 0x78 calls := by
  obtain ⟨st', hrun⟩ := elfLoadSeg_calls nullMapper_returnsZero ()
    (by decide : smallPhdr.p_vaddr < 2^64) 0x78
  refine ⟨st', _, hrun, ?_, not_segmentPlan (by decide) (by decide) 0x78 (by decide)⟩
  rw [segCalls, List.map_append, List.map_append, binCalls_pages (by decide) (by decide),
    zeroCalls_pages (by decide)]
  decide

end RiscvMos
