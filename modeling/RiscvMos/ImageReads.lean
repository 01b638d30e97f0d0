import RiscvMos.FirstEnv
import RiscvMos.LibReadLog

/-! `load_icode` over reads from the image that are logged: which of them lie inside. -/
namespace RiscvMos
open ByteMem ReadLog ReadLog.Logged Function

/-- Computations with the offset and the length of each read from the image. -/
abbrev Reading := Logged (ℕ × ℕ) Stop

/-- All bytes of a read are bytes of the image. -/
def Inside (img : Image) (r : ℕ × ℕ) : Prop := ∀ j < r.2, (r.1+j)%2^64 < img.size

/-! ### The loader, with its reads -/

/-- `&&` -/
def andThen (x y : Reading Bool) : Reading Bool := do
  if ← x then y else pure false

def byteIs (img : Image) (i : ℕ) (x : UInt8) : Reading Bool := read [(i, 1)] (img.bytes i == x)

/-- Whether `elf_from` returns the header. -/
def elfFromLog (img : Image) : Reading Bool :=
  andThen (pure (decide (img.size ≥ EHDR_SIZE))) <|
    andThen (byteIs img 0 0x7f) <| andThen (byteIs img 1 0x45) <| andThen (byteIs img 2 0x4c) <|
      andThen (byteIs img 3 0x46) <| read [(16, 2)] (load img.bytes 16 2 == 2)

section
variable {σ : Type} (map_page : ElfMapper σ)

/-- A call of the mapper, which copies `len` bytes from `src`. A copy whose first store traps
has read at most a word of them. -/
def callLog (st : σ) (va offset perm : ℕ) (src : Option ℕ) (len : ℕ) : Reading (ℤ × σ) where
  reads := match src with
    | some src => [(src, len)]
    | none => []
  result := map_page st va offset perm src len

def elfBinLoopLog (st : σ) (va perm bin bin_size i : ℕ) : Reading (ℤ × ℕ × σ) :=
  if i < bin_size then do
    let (r, st) ← callLog map_page st ((va+i)%2^64) 0 perm (some ((bin+i)%2^64))
      (min (bin_size-i) PAGE_SIZE)
    if r ≠ 0 then pure (r, i, st)
    else elfBinLoopLog st va perm bin bin_size (i+PAGE_SIZE)
  else pure (0, i, st)
  termination_by bin_size-i
  decreasing_by simp only [PAGE_SIZE]; omega

/-- `ph_off` is the offset of the program header. The second loop of `elf_load_seg` has no
source. -/
def elfLoadSegLog (img : Image) (st : σ) (ph_off bin : ℕ) : Reading (ℤ × σ) := do
  let ph ← read [(ph_off+16, 8), (ph_off+32, 8), (ph_off+40, 8), (ph_off+4, 4)]
    (readPhdr img.bytes ph_off)
  let va := ph.p_vaddr
  let bin_size := ph.p_filesz
  let sgsize := ph.p_memsz
  let perm := segPerm ph
  let offset := va-ROUNDDOWN va PAGE_SIZE
  let rest (st : σ) : Reading (ℤ × σ) := do
    let (r, i, st) ← elfBinLoopLog map_page st va perm bin bin_size
      (if offset ≠ 0 then min bin_size (PAGE_SIZE-offset) else 0)
    if r ≠ 0 then pure (r, st) else lift (elfZeroLoop map_page st va perm sgsize i)
  if offset ≠ 0 then do
    let (r, st) ← callLog map_page st va offset perm (some bin) (min bin_size (PAGE_SIZE-offset))
    if r ≠ 0 then pure (r, st) else rest st
  else rest st

/-- Each turn reads e_phnum and e_phentsize again. -/
def loadSegmentsLog (img : Image) (ehdr : Ehdr) (st : σ) (idx ph_off : ℕ) : Reading σ := do
  let e_phnum ← read [(56, 2)] ehdr.e_phnum
  if idx < ehdr.e_phnum then do
    let p_type ← read [(ph_off, 4)] (readPhdr img.bytes ph_off).p_type
    let st ← (if p_type = PT_LOAD then do
        let p_offset ← read [(ph_off+8, 8)] (readPhdr img.bytes ph_off).p_offset
        let (_, st) ← elfLoadSegLog map_page img st ph_off p_offset
        pure st
      else pure st)
    let e_phentsize ← read [(54, 2)] ehdr.e_phentsize
    loadSegmentsLog img ehdr st (idx+1) ((ph_off+e_phentsize)%2^64)
  else pure st
  termination_by ehdr.e_phnum-idx

end

def loadIcodeLog (L : Layout) (K : Kernel) (e : ℕ) (img : Image) : Reading Kernel := do
  if ← elfFromLog img then
    let e_phoff ← read [(32, 8)] (readEhdr img.bytes).e_phoff
    let s ← loadSegmentsLog (loadIcodeMapper img (K.envs e).env_pgtable) img (readEhdr img.bytes)
      K.phys 0 e_phoff
    let e_entry ← read [(24, 8)] (readEhdr img.bytes).e_entry
    pure (K.setPhys ⟨store64 s.mem (L.tf e+8*33) e_entry, s.freelist⟩)
  else lift (.error (.panic "load icode: bad elf"))

/-! ### The log changes no result -/

theorem result_andThen {x y : Reading Bool} {a b : Bool} (hx : x.result = .ok a)
    (hy : y.result = .ok b) : (andThen x y).result = .ok (a && b) := by
  rw [andThen, result_bind, hx, ok_bind]
  cases a with
  | false => rfl
  | true => exact hy

theorem elfFromLog_result (img : Image) : (elfFromLog img).result = .ok (elfFrom img).isSome := by
  have hlog : (elfFromLog img).result = .ok (decide (img.size ≥ EHDR_SIZE) && (img.bytes 0 == 0x7f &&
      (img.bytes 1 == 0x45 && (img.bytes 2 == 0x4c && (img.bytes 3 == 0x46 &&
        load img.bytes 16 2 == 2))))) :=
    result_andThen rfl (result_andThen rfl (result_andThen rfl (result_andThen rfl
      (result_andThen rfl rfl))))
  rw [hlog, elfFrom]
  split_ifs with h
  · simp [h]
  · have hfalse : ¬(decide (img.size ≥ EHDR_SIZE) && (img.bytes 0 == 0x7f && (img.bytes 1 == 0x45 &&
        (img.bytes 2 == 0x4c && (img.bytes 3 == 0x46 && load img.bytes 16 2 == 2))))) = true := by
      simpa using h
    rw [Bool.not_eq_true] at hfalse
    rw [hfalse]
    rfl

section
variable {σ : Type} (map_page : ElfMapper σ)

theorem elfBinLoopLog_result (st : σ) (va perm bin bin_size i : ℕ) :
    (elfBinLoopLog map_page st va perm bin bin_size i).result =
      elfBinLoop map_page st va perm bin bin_size i := by
  fun_induction elfBinLoopLog map_page st va perm bin bin_size i with
  | case1 st i hi ih =>
    rw [elfBinLoop, if_pos hi, result_bind]
    congr 1
    funext x
    obtain ⟨r, st'⟩ := x
    dsimp only
    split_ifs with hr
    · rfl
    · exact ih st'
  | case2 st i hi =>
    rw [elfBinLoop, if_neg hi]
    rfl

theorem elfLoadSegLog_result (img : Image) (st : σ) (ph_off bin : ℕ) :
    (elfLoadSegLog map_page img st ph_off bin).result =
      elfLoadSeg map_page st (readPhdr img.bytes ph_off) bin := by
  rw [elfLoadSegLog, elfLoadSeg, result_bind, result_read, ok_bind]
  -- the two loops
  have hrest (ph : Phdr) (st : σ) (i : ℕ) :
      (elfBinLoopLog map_page st ph.p_vaddr (segPerm ph) bin ph.p_filesz i >>= fun x =>
        if x.1 ≠ 0 then pure (x.1, x.2.2)
        else lift (elfZeroLoop map_page x.2.2 ph.p_vaddr (segPerm ph) ph.p_memsz x.2.1) :
          Reading (ℤ × σ)).result =
      elfBinLoop map_page st ph.p_vaddr (segPerm ph) bin ph.p_filesz i >>= fun x =>
        if x.1 ≠ 0 then .ok (x.1, x.2.2)
        else elfZeroLoop map_page x.2.2 ph.p_vaddr (segPerm ph) ph.p_memsz x.2.1 := by
    rw [result_bind, elfBinLoopLog_result]
    congr 1
    funext x
    split_ifs
    · rfl
    · rfl
  dsimp only
  split_ifs with hoff
  · rw [result_bind]
    congr 1
    funext x
    obtain ⟨r, st'⟩ := x
    dsimp only
    split_ifs with hr
    · rfl
    · exact hrest _ _ _
  · exact hrest _ _ _

theorem loadSegmentsLog_result (img : Image) (ehdr : Ehdr) (st : σ) (idx ph_off : ℕ) :
    (loadSegmentsLog map_page img ehdr st idx ph_off).result =
      loadSegments map_page img ehdr st idx ph_off := by
  induction st, idx, ph_off using loadSegmentsLog.induct ehdr with
  | case1 st idx ph_off ih =>
    rw [loadSegmentsLog, loadSegments, result_bind, result_read, ok_bind]
    split_ifs with hidx
    · rw [result_bind, result_read, ok_bind, result_bind]
      dsimp only
      split_ifs with hload
      · rw [result_bind, result_read, ok_bind, result_bind, elfLoadSegLog_result]
        cases elfLoadSeg map_page st (readPhdr img.bytes ph_off) (readPhdr img.bytes ph_off).p_offset with
        | error e => rfl
        | ok x =>
          obtain ⟨r, st'⟩ := x
          exact ih hidx st' ehdr.e_phentsize
      · exact ih hidx st ehdr.e_phentsize
    · rfl

end

theorem loadIcodeLog_result (L : Layout) (K : Kernel) (e : ℕ) (img : Image) :
    (loadIcodeLog L K e img).result = loadIcode L K e img := by
  rw [loadIcodeLog, loadIcode, result_bind, elfFromLog_result, ok_bind]
  cases hel : elfFrom img with
  | none => rfl
  | some ehdr =>
    obtain ⟨rfl, _⟩ := elfFrom_eq_some hel
    rw [Option.isSome_some, if_pos rfl, result_bind, result_read, ok_bind, result_bind,
      loadSegmentsLog_result]
    rfl

/-! ### Reads inside the image -/

theorem inside_zero (img : Image) (off : ℕ) : Inside img (off, 0) := fun j hj => absurd hj (Nat.not_lt_zero j)

theorem inside_mod (img : Image) (off len : ℕ) : Inside img (off%2^64, len) ↔ Inside img (off, len) := by
  have hmod (j : ℕ) : (off%2^64+j)%2^64 = (off+j)%2^64 := by omega
  simp only [Inside, hmod]

theorem inside_split (img : Image) (off : ℕ) {n len : ℕ} (h : n ≤ len) :
    Inside img (off, len) ↔ Inside img (off, n) ∧ Inside img (off+n, len-n) := by
  constructor
  · intro hin
    refine ⟨fun j hj => hin j (lt_of_lt_of_le hj h), fun j hj => ?_⟩
    dsimp only at hj ⊢
    rw [Nat.add_assoc]
    exact hin (n+j) (by omega)
  · rintro ⟨hfirst, hrest⟩ j hj
    by_cases hjn : j < n
    · exact hfirst j hjn
    · have hr := hrest (j-n) (by dsimp only at hj ⊢; omega)
      dsimp only at hr ⊢
      rwa [Nat.add_assoc, Nat.add_sub_cancel' (by omega)] at hr

/-- Below 2^64 a read that is not empty lies inside when its end does. -/
theorem inside_iff {img : Image} {off len : ℕ} (hoff : off < 2^64) (hsize : img.size < 2^64) :
    Inside img (off, len) ↔ len = 0 ∨ off+len ≤ img.size := by
  constructor
  · intro hin
    by_contra hnot
    -- the byte right behind the image, or the first one
    have hbyte := hin (max off img.size-off) (by dsimp only; omega)
    dsimp only at hbyte
    by_cases hle : off ≤ img.size
    · rw [Nat.max_eq_right hle, Nat.add_sub_cancel' hle, Nat.mod_eq_of_lt hsize] at hbyte
      exact Nat.lt_irrefl _ hbyte
    · rw [Nat.max_eq_left (by omega), Nat.sub_self, Nat.add_zero, Nat.mod_eq_of_lt hoff] at hbyte
      omega
  · rintro (rfl | hle) j hj
    · exact absurd hj (Nat.not_lt_zero j)
    · dsimp only at hj ⊢
      rw [Nat.mod_eq_of_lt (by omega)]
      omega

theorem all_andThen {P : ℕ × ℕ → Prop} (x y : Reading Bool) :
    All P (andThen x y) ↔ All P x ∧ (x.result = .ok true → All P y) := by
  rw [andThen, all_bind]
  refine and_congr_right fun _ => ⟨fun h ht => h true ht, fun h b hb => ?_⟩
  cases b with
  | false => exact all_pure _
  | true => exact h hb

theorem inside_head {img : Image} (hsize : EHDR_SIZE ≤ img.size) {off len : ℕ}
    (h : off+len ≤ EHDR_SIZE) : Inside img (off, len) := by
  have h64 : EHDR_SIZE = 64 := rfl
  intro j hj
  dsimp only at hj ⊢
  rw [Nat.mod_eq_of_lt (by omega)]
  omega

theorem elfFromLog_inside (img : Image) : All (Inside img) (elfFromLog img) := by
  refine (all_andThen _ _).mpr ⟨all_pure _, fun hsize => ?_⟩
  have hsize : EHDR_SIZE ≤ img.size := of_decide_eq_true (Except.ok.inj hsize)
  have hread {off len : ℕ} (h : off+len ≤ EHDR_SIZE) (b : Bool) :
      All (Inside img) (read [(off, len)] b : Reading Bool) := by
    rw [all_read, List.forall_mem_singleton]
    exact inside_head hsize h
  refine (all_andThen _ _).mpr ⟨hread (by decide) _, fun _ => ?_⟩
  refine (all_andThen _ _).mpr ⟨hread (by decide) _, fun _ => ?_⟩
  refine (all_andThen _ _).mpr ⟨hread (by decide) _, fun _ => ?_⟩
  exact (all_andThen _ _).mpr ⟨hread (by decide) _, fun _ => hread (by decide) _⟩

section
variable {σ : Type} (map_page : ElfMapper σ) {img : Image}

theorem callLog_inside (st : σ) (va offset perm src len : ℕ) :
    All (Inside img) (callLog map_page st va offset perm (some src) len) ↔ Inside img (src, len) :=
  List.forall_mem_singleton

/-- Where the bytes from index `i` on lie inside, so do the copies of the first loop. -/
theorem elfBinLoopLog_inside (st : σ) (va perm bin bin_size i : ℕ)
    (h : Inside img (bin+i, bin_size-i)) :
    All (Inside img) (elfBinLoopLog map_page st va perm bin bin_size i) := by
  fun_induction elfBinLoopLog map_page st va perm bin bin_size i with
  | case1 st i hi ih =>
    rw [inside_split img _ (Nat.min_le_left (bin_size-i) PAGE_SIZE)] at h
    obtain ⟨hpage, hrest⟩ := h
    rw [all_bind, callLog_inside, inside_mod]
    refine ⟨hpage, fun x _ => ?_⟩
    obtain ⟨r, st'⟩ := x
    dsimp only
    split_ifs with hr
    · exact all_pure _
    · apply ih
      have hp : PAGE_SIZE = 4096 := rfl
      by_cases hle : bin_size-i ≤ PAGE_SIZE
      · have h0 : bin_size-(i+PAGE_SIZE) = 0 := by omega
        rw [h0]
        exact inside_zero _ _
      · rw [Nat.min_eq_right (by omega)] at hrest
        rw [← Nat.add_assoc, ← Nat.sub_sub]
        exact hrest
  | case2 st i hi => exact all_pure _

theorem elfBinLoopLog_copies (st : σ) (va perm bin bin_size i : ℕ)
    (h : All (Inside img) (elfBinLoopLog map_page st va perm bin bin_size i)) {j : ℕ} {st' : σ}
    (hrun : elfBinLoop map_page st va perm bin bin_size i = .ok (0, j, st')) :
    Inside img (bin+i, bin_size-i) := by
  fun_induction elfBinLoopLog map_page st va perm bin bin_size i with
  | case1 st i hi ih =>
    rw [elfBinLoop, if_pos hi] at hrun
    obtain ⟨⟨r, st₁⟩, hcall, hrun⟩ := bind_eq_ok.mp hrun
    rw [all_bind, callLog_inside, inside_mod] at h
    obtain ⟨hpage, hrest⟩ := h
    have hrest := hrest (r, st₁) hcall
    dsimp only at hrest hrun
    by_cases hr : r = 0
    · rw [if_neg (fun hne => hne hr)] at hrest hrun
      rw [inside_split img _ (Nat.min_le_left (bin_size-i) PAGE_SIZE)]
      refine ⟨hpage, ?_⟩
      have hp : PAGE_SIZE = 4096 := rfl
      by_cases hle : bin_size-i ≤ PAGE_SIZE
      · rw [Nat.min_eq_left hle, Nat.sub_self]
        exact inside_zero _ _
      · rw [Nat.min_eq_right (by omega), Nat.add_assoc, Nat.sub_sub]
        exact ih st₁ hrest hrun
    · rw [if_pos hr] at hrun
      exact absurd (Prod.mk.inj (Except.ok.inj hrun)).1 hr
  | case2 st i hi =>
    have h0 : bin_size-i = 0 := by omega
    rw [h0]
    exact inside_zero _ _

/-- The fields of a program header that `elf_load_seg` reads. -/
def segFields (ph_off : ℕ) : List (ℕ × ℕ) := [(ph_off+16, 8), (ph_off+32, 8), (ph_off+40, 8), (ph_off+4, 4)]

/-- What `elf_load_seg` does behind the copy to the first page, from index `i` on. -/
def afterFirstPage (ph : Phdr) (bin i : ℕ) (st : σ) : Reading (ℤ × σ) := do
  let (r, i, st) ← elfBinLoopLog map_page st ph.p_vaddr (segPerm ph) bin ph.p_filesz i
  if r ≠ 0 then pure (r, st) else lift (elfZeroLoop map_page st ph.p_vaddr (segPerm ph) ph.p_memsz i)

theorem elfLoadSegLog_eq (st : σ) (ph_off bin : ℕ) {ph : Phdr} (hph : readPhdr img.bytes ph_off = ph) :
    elfLoadSegLog map_page img st ph_off bin = read (segFields ph_off) ph >>= fun ph =>
      let offset := ph.p_vaddr-ROUNDDOWN ph.p_vaddr PAGE_SIZE
      if offset ≠ 0 then
        callLog map_page st ph.p_vaddr offset (segPerm ph) (some bin) (min ph.p_filesz (PAGE_SIZE-offset))
          >>= fun x => if x.1 ≠ 0 then pure x
            else afterFirstPage map_page ph bin (min ph.p_filesz (PAGE_SIZE-offset)) x.2
      else afterFirstPage map_page ph bin 0 st := by
  subst hph
  rw [elfLoadSegLog, segFields]
  congr 1
  funext ph
  dsimp only
  split_ifs
  · rfl
  · rfl

theorem afterFirstPage_inside (ph : Phdr) (bin i : ℕ) (st : σ)
    (h : Inside img (bin+i, ph.p_filesz-i)) : All (Inside img) (afterFirstPage map_page ph bin i st) := by
  rw [afterFirstPage, all_bind]
  refine ⟨elfBinLoopLog_inside map_page st _ _ _ _ _ h, fun x _ => ?_⟩
  obtain ⟨r, j, st₁⟩ := x
  dsimp only
  split_ifs
  · exact all_pure _
  · exact all_lift _

theorem afterFirstPage_copies (ph : Phdr) (bin i : ℕ) (st : σ) {st' : σ}
    (h : All (Inside img) (afterFirstPage map_page ph bin i st))
    (hrun : (afterFirstPage map_page ph bin i st).result = .ok (0, st')) :
    Inside img (bin+i, ph.p_filesz-i) := by
  rw [afterFirstPage, result_bind, elfBinLoopLog_result] at hrun
  obtain ⟨⟨r, j, st₁⟩, hloop, hrun⟩ := bind_eq_ok.mp hrun
  rw [afterFirstPage, all_bind] at h
  dsimp only at hrun
  by_cases hr : r = 0
  · subst hr
    exact elfBinLoopLog_copies map_page st _ _ _ _ _ h.1 hloop
  · rw [if_pos hr] at hrun
    exact absurd (Prod.mk.inj (Except.ok.inj hrun)).1 hr

/-- With the header and the bytes of the segment inside, so are all reads of `elf_load_seg`. -/
theorem elfLoadSegLog_inside (st : σ) (ph_off bin : ℕ) (hfields : ∀ r ∈ segFields ph_off, Inside img r)
    (hbytes : Inside img (bin, (readPhdr img.bytes ph_off).p_filesz)) :
    All (Inside img) (elfLoadSegLog map_page img st ph_off bin) := by
  rw [elfLoadSegLog_eq map_page st ph_off bin rfl, all_bind]
  refine ⟨hfields, fun ph hph => ?_⟩
  obtain rfl := Except.ok.inj hph
  dsimp only
  split_ifs with hoff
  · rw [inside_split img bin (Nat.min_le_left _ (PAGE_SIZE-((readPhdr img.bytes ph_off).p_vaddr-
      ROUNDDOWN (readPhdr img.bytes ph_off).p_vaddr PAGE_SIZE)))] at hbytes
    rw [all_bind, callLog_inside]
    refine ⟨hbytes.1, fun x _ => ?_⟩
    split_ifs
    · exact all_pure _
    · exact afterFirstPage_inside map_page _ bin _ _ hbytes.2
  · apply afterFirstPage_inside map_page (readPhdr img.bytes ph_off) bin 0 st
    rwa [Nat.add_zero, Nat.sub_zero]

theorem elfLoadSegLog_copies (st : σ) (ph_off bin : ℕ) {st' : σ}
    (h : All (Inside img) (elfLoadSegLog map_page img st ph_off bin))
    (hrun : elfLoadSeg map_page st (readPhdr img.bytes ph_off) bin = .ok (0, st')) :
    (∀ r ∈ segFields ph_off, Inside img r) ∧
      Inside img (bin, (readPhdr img.bytes ph_off).p_filesz) := by
  rw [← elfLoadSegLog_result, elfLoadSegLog_eq map_page st ph_off bin rfl, result_bind, result_read,
    ok_bind] at hrun
  rw [elfLoadSegLog_eq map_page st ph_off bin rfl, all_bind] at h
  obtain ⟨hfields, h⟩ := h
  have h := h (readPhdr img.bytes ph_off) (result_read _ _)
  refine ⟨hfields, ?_⟩
  dsimp only at h hrun
  split_ifs at h hrun with hoff
  · rw [all_bind, callLog_inside] at h
    rw [result_bind] at hrun
    obtain ⟨x, hcall, hrun⟩ := bind_eq_ok.mp hrun
    have hrest := h.2 x hcall
    split_ifs at hrest hrun with hr
    · have hx : x = (0, st') := Except.ok.inj hrun
      exact absurd (congrArg Prod.fst hx) hr
    · rw [inside_split img bin (Nat.min_le_left _ (PAGE_SIZE-((readPhdr img.bytes ph_off).p_vaddr-
        ROUNDDOWN (readPhdr img.bytes ph_off).p_vaddr PAGE_SIZE)))]
      exact ⟨h.1, afterFirstPage_copies map_page _ bin _ _ hrest hrun⟩
  · have hcopied := afterFirstPage_copies map_page (readPhdr img.bytes ph_off) bin 0 st h hrun
    rwa [Nat.add_zero, Nat.sub_zero] at hcopied

/-! ### Headers -/

/-- The type of the header lies inside, and, where it says PT_LOAD, the fields that get read and
the bytes of the segment. -/
def HeaderInside (img : Image) (ph_off : ℕ) : Prop :=
  Inside img (ph_off, 4) ∧ ((readPhdr img.bytes ph_off).p_type = PT_LOAD →
    Inside img (ph_off+8, 8) ∧ (∀ r ∈ segFields ph_off, Inside img r) ∧
      Inside img ((readPhdr img.bytes ph_off).p_offset, (readPhdr img.bytes ph_off).p_filesz))

/-- All program headers lie inside, with the bytes of their segments. -/
def InBounds (img : Image) : Prop := ∀ ehdr, elfFrom img = some ehdr → ∀ k < ehdr.e_phnum,
  HeaderInside img ((ehdr.e_phoff+k*ehdr.e_phentsize)%2^64)

/-- From the header at `ph_off` on, every call of `elf_load_seg` returns 0. -/
inductive Completes (img : Image) (ehdr : Ehdr) : σ → ℕ → ℕ → Prop
  | done {st : σ} {idx ph_off : ℕ} (h : ehdr.e_phnum ≤ idx) : Completes img ehdr st idx ph_off
  | skip {st : σ} {idx ph_off : ℕ} (h : idx < ehdr.e_phnum)
      (type : (readPhdr img.bytes ph_off).p_type ≠ PT_LOAD)
      (rest : Completes img ehdr st (idx+1) ((ph_off+ehdr.e_phentsize)%2^64)) :
      Completes img ehdr st idx ph_off
  | load {st st' : σ} {idx ph_off : ℕ} (h : idx < ehdr.e_phnum)
      (type : (readPhdr img.bytes ph_off).p_type = PT_LOAD)
      (seg : elfLoadSeg map_page st (readPhdr img.bytes ph_off)
        (readPhdr img.bytes ph_off).p_offset = .ok (0, st'))
      (rest : Completes img ehdr st' (idx+1) ((ph_off+ehdr.e_phentsize)%2^64)) :
      Completes img ehdr st idx ph_off

theorem header_offset (ehdr : Ehdr) (ph_off j : ℕ) :
    ((ph_off+ehdr.e_phentsize)%2^64+j*ehdr.e_phentsize)%2^64 =
      (ph_off+(j+1)*ehdr.e_phentsize)%2^64 := by
  rw [Nat.succ_mul]
  omega

section
variable {P : ℕ × ℕ → Prop} {ehdr : Ehdr} {st : σ} {idx ph_off : ℕ}

theorem all_loadSegmentsLog_done (hidx : ehdr.e_phnum ≤ idx) :
    All P (loadSegmentsLog map_page img ehdr st idx ph_off) ↔ P (56, 2) := by
  rw [loadSegmentsLog, all_read_bind, if_neg (by omega), List.forall_mem_singleton]
  exact and_iff_left (all_pure _)

theorem all_loadSegmentsLog_skip (hidx : idx < ehdr.e_phnum)
    (htype : (readPhdr img.bytes ph_off).p_type ≠ PT_LOAD) :
    All P (loadSegmentsLog map_page img ehdr st idx ph_off) ↔ P (56, 2) ∧ P (ph_off, 4) ∧ P (54, 2) ∧
      All P (loadSegmentsLog map_page img ehdr st (idx+1) ((ph_off+ehdr.e_phentsize)%2^64)) := by
  have hpure {β : Type} (f : σ → Reading β) : (pure st >>= f : Reading β) = f st := rfl
  rw [loadSegmentsLog, all_read_bind, if_pos hidx, all_read_bind, if_neg htype, hpure, all_read_bind]
  simp only [List.forall_mem_singleton]

theorem all_loadSegmentsLog_load (hidx : idx < ehdr.e_phnum)
    (htype : (readPhdr img.bytes ph_off).p_type = PT_LOAD) :
    All P (loadSegmentsLog map_page img ehdr st idx ph_off) ↔ P (56, 2) ∧ P (ph_off, 4) ∧
      P (ph_off+8, 8) ∧
      All P (elfLoadSegLog map_page img st ph_off (readPhdr img.bytes ph_off).p_offset) ∧
      ∀ r st', elfLoadSeg map_page st (readPhdr img.bytes ph_off)
          (readPhdr img.bytes ph_off).p_offset = .ok (r, st') → P (54, 2) ∧
        All P (loadSegmentsLog map_page img ehdr st' (idx+1) ((ph_off+ehdr.e_phentsize)%2^64)) := by
  have hreturns (st' : σ) : (read [(ph_off+8, 8)] (readPhdr img.bytes ph_off).p_offset >>=
      fun p_offset => elfLoadSegLog map_page img st ph_off p_offset >>= fun x => pure x.2 :
        Reading σ).result = .ok st' ↔ ∃ r, elfLoadSeg map_page st (readPhdr img.bytes ph_off)
          (readPhdr img.bytes ph_off).p_offset = .ok (r, st') := by
    rw [result_bind, result_read, ok_bind, result_bind, elfLoadSegLog_result, bind_eq_ok]
    constructor
    · rintro ⟨⟨r, st₁⟩, hrun, hst⟩
      obtain rfl : st₁ = st' := Except.ok.inj hst
      exact ⟨r, hrun⟩
    · rintro ⟨r, hrun⟩
      exact ⟨(r, st'), hrun, rfl⟩
  rw [loadSegmentsLog, all_read_bind, if_pos hidx, all_read_bind, if_pos htype, all_bind,
    all_read_bind, all_bind]
  simp only [List.forall_mem_singleton, all_read_bind]
  constructor
  · rintro ⟨hphnum, htype, ⟨hoffset, hseg, _⟩, hrest⟩
    exact ⟨hphnum, htype, hoffset, hseg, fun r st' hrun => hrest st' ((hreturns st').mpr ⟨r, hrun⟩)⟩
  · rintro ⟨hphnum, htype, hoffset, hseg, hrest⟩
    refine ⟨hphnum, htype, ⟨hoffset, hseg, fun _ _ => all_pure _⟩, fun st' hst => ?_⟩
    obtain ⟨r, hrun⟩ := (hreturns st').mp hst
    exact hrest r st' hrun

end

theorem loadSegmentsLog_inside {ehdr : Ehdr} (hsize : EHDR_SIZE ≤ img.size) (st : σ) (idx ph_off : ℕ)
    (hoff : ph_off < 2^64)
    (h : ∀ j < ehdr.e_phnum-idx, HeaderInside img ((ph_off+j*ehdr.e_phentsize)%2^64)) :
    All (Inside img) (loadSegmentsLog map_page img ehdr st idx ph_off) := by
  have hphnum : Inside img (56, 2) := inside_head hsize (by decide)
  have hphentsize : Inside img (54, 2) := inside_head hsize (by decide)
  induction st, idx, ph_off using loadSegmentsLog.induct ehdr with
  | case1 st idx ph_off ih =>
    by_cases hidx : idx < ehdr.e_phnum
    case neg => exact (all_loadSegmentsLog_done map_page (by omega)).mpr hphnum
    have hhead := h 0 (by omega)
    rw [Nat.zero_mul, Nat.add_zero, Nat.mod_eq_of_lt hoff] at hhead
    obtain ⟨htype, hload⟩ := hhead
    have hnext (st' : σ) : All (Inside img) (loadSegmentsLog map_page img ehdr st' (idx+1)
        ((ph_off+ehdr.e_phentsize)%2^64)) := by
      refine ih hidx st' ehdr.e_phentsize (Nat.mod_lt _ (by decide)) fun j hj => ?_
      rw [header_offset]
      exact h (j+1) (by omega)
    by_cases hpt : (readPhdr img.bytes ph_off).p_type = PT_LOAD
    · obtain ⟨hoffset, hfields, hbytes⟩ := hload hpt
      rw [all_loadSegmentsLog_load map_page hidx hpt]
      exact ⟨hphnum, htype, hoffset, elfLoadSegLog_inside map_page st ph_off _ hfields hbytes,
        fun _ st' _ => ⟨hphentsize, hnext st'⟩⟩
    · rw [all_loadSegmentsLog_skip map_page hidx hpt]
      exact ⟨hphnum, htype, hphentsize, hnext st⟩

/-- A loop in which every segment gets loaded has read all headers and their segments. -/
theorem Completes.inside {ehdr : Ehdr} {st : σ} {idx ph_off : ℕ}
    (c : Completes map_page img ehdr st idx ph_off) (hoff : ph_off < 2^64)
    (h : All (Inside img) (loadSegmentsLog map_page img ehdr st idx ph_off)) :
    ∀ j < ehdr.e_phnum-idx, HeaderInside img ((ph_off+j*ehdr.e_phentsize)%2^64) := by
  -- the first header, and the others by what the rest of the loop reads
  have hsplit {idx ph_off : ℕ} (hoff : ph_off < 2^64) (hfirst : HeaderInside img ph_off)
      (hrest : ∀ j < ehdr.e_phnum-(idx+1),
        HeaderInside img (((ph_off+ehdr.e_phentsize)%2^64+j*ehdr.e_phentsize)%2^64)) :
      ∀ j < ehdr.e_phnum-idx, HeaderInside img ((ph_off+j*ehdr.e_phentsize)%2^64) := by
    intro j hj
    cases j with
    | zero =>
      rw [Nat.zero_mul, Nat.add_zero, Nat.mod_eq_of_lt hoff]
      exact hfirst
    | succ j =>
      rw [← header_offset]
      exact hrest j (by omega)
  induction c with
  | done hidx => exact fun j hj => absurd hj (by omega)
  | @skip st idx ph_off hidx type rest ih =>
    obtain ⟨_, htype, _, hrest⟩ := (all_loadSegmentsLog_skip map_page hidx type).mp h
    exact hsplit hoff ⟨htype, fun hpt => absurd hpt type⟩ (ih (Nat.mod_lt _ (by decide)) hrest)
  | @load st st' idx ph_off hidx type seg rest ih =>
    obtain ⟨_, htype, hoffset, hseg, hrest⟩ := (all_loadSegmentsLog_load map_page hidx type).mp h
    obtain ⟨hfields, hbytes⟩ := elfLoadSegLog_copies map_page st ph_off _ hseg seg
    exact hsplit hoff ⟨htype, fun _ => ⟨hoffset, hfields, hbytes⟩⟩
      (ih (Nat.mod_lt _ (by decide)) (hrest 0 st' seg).2)

theorem Completes.returns {ehdr : Ehdr} {st : σ} {idx ph_off : ℕ}
    (c : Completes map_page img ehdr st idx ph_off) :
    ∃ st', loadSegments map_page img ehdr st idx ph_off = .ok st' := by
  induction c with
  | @done st idx ph_off hidx => exact ⟨st, by rw [loadSegments, if_neg (by omega)]⟩
  | skip hidx type rest ih =>
    obtain ⟨st', hrun⟩ := ih
    refine ⟨st', ?_⟩
    rw [loadSegments, if_pos hidx]
    dsimp only
    rw [if_neg type, ok_bind, hrun]
  | load hidx type seg rest ih =>
    obtain ⟨st', hrun⟩ := ih
    refine ⟨st', ?_⟩
    rw [loadSegments, if_pos hidx]
    dsimp only
    rw [if_pos type, seg, ok_bind, ok_bind, hrun]

end

/-! ### load_icode -/

/-- Every read lies inside, or the load stops with the panic for a bad image. -/
def ReadsImage (L : Layout) (K : Kernel) (e : ℕ) (img : Image) : Prop :=
  All (Inside img) (loadIcodeLog L K e img) ∨
    (loadIcodeLog L K e img).result = .error (.panic "load icode: bad elf")

/-- Every call of `elf_load_seg` returns 0. -/
def LoadCompletes (K : Kernel) (e : ℕ) (img : Image) : Prop := ∀ ehdr, elfFrom img = some ehdr →
  Completes (loadIcodeMapper img (K.envs e).env_pgtable) img ehdr K.phys 0 ehdr.e_phoff

section
variable {L : Layout} {K : Kernel} {e : ℕ} {img : Image} {ehdr : Ehdr}

theorem all_loadIcodeLog {P : ℕ × ℕ → Prop} (h : elfFrom img = some ehdr) :
    All P (loadIcodeLog L K e img) ↔ All P (elfFromLog img) ∧ P (32, 8) ∧
      All P (loadSegmentsLog (loadIcodeMapper img (K.envs e).env_pgtable) img ehdr K.phys 0 ehdr.e_phoff) ∧
      ∀ s, loadSegments (loadIcodeMapper img (K.envs e).env_pgtable) img ehdr K.phys 0 ehdr.e_phoff =
        .ok s → P (24, 8) := by
  obtain ⟨rfl, _⟩ := elfFrom_eq_some h
  rw [loadIcodeLog, all_bind]
  refine and_congr_right fun _ => ?_
  have hsome : (elfFromLog img).result = .ok true := by
    rw [elfFromLog_result, h]
    rfl
  constructor
  · intro hall
    have hload := hall true hsome
    rw [if_pos rfl, all_read_bind, all_bind, List.forall_mem_singleton] at hload
    obtain ⟨hphoff, hsegs, hentry⟩ := hload
    refine ⟨hphoff, hsegs, fun s hs => ?_⟩
    rw [← loadSegmentsLog_result] at hs
    have hlast := hentry s hs
    rw [all_read_bind, List.forall_mem_singleton] at hlast
    exact hlast.1
  · rintro ⟨hphoff, hsegs, hentry⟩ b hb
    obtain rfl : true = b := Except.ok.inj (hsome.symm.trans hb)
    rw [if_pos rfl, all_read_bind, all_bind, List.forall_mem_singleton]
    refine ⟨hphoff, hsegs, fun s hs => ?_⟩
    rw [loadSegmentsLog_result] at hs
    rw [all_read_bind, List.forall_mem_singleton]
    exact ⟨hentry s hs, all_pure _⟩

theorem InBounds.readsImage (h : InBounds img) : ReadsImage L K e img := by
  cases hel : elfFrom img with
  | none =>
    refine .inr ?_
    rw [loadIcodeLog_result, loadIcode, hel]
  | some ehdr =>
    obtain ⟨_, hsize⟩ := elfFrom_eq_some hel
    refine .inl ((all_loadIcodeLog hel).mpr ⟨elfFromLog_inside img, inside_head hsize (by decide), ?_,
      fun _ _ => inside_head hsize (by decide)⟩)
    exact loadSegmentsLog_inside _ hsize _ _ _ (elfFrom_phoff hel) (fun j hj => h ehdr hel j (by omega))

theorem LoadCompletes.inBounds (c : LoadCompletes K e img) (h : ReadsImage L K e img) :
    InBounds img := by
  intro ehdr hel k hk
  have hc := c ehdr hel
  rcases h with hall | hbad
  · obtain ⟨_, _, hsegs, _⟩ := (all_loadIcodeLog hel).mp hall
    exact hc.inside _ (elfFrom_phoff hel) hsegs k (by omega)
  · -- a complete load does not panic
    obtain ⟨s, hs⟩ := hc.returns
    rw [loadIcodeLog_result, loadIcode, hel] at hbad
    dsimp only at hbad
    rw [hs] at hbad
    cases hbad

end

/-- The log is of `load_icode`. An image whose program headers and segments lie inside is read
inside, or turned down; where all segments get loaded, no other image is. -/
theorem load_icode_reads_image (L : Layout) (K : Kernel) (e : ℕ) (img : Image) :
    (loadIcodeLog L K e img).result = loadIcode L K e img ∧
      (InBounds img → ReadsImage L K e img) ∧
      (LoadCompletes K e img → (ReadsImage L K e img ↔ InBounds img)) :=
  ⟨loadIcodeLog_result L K e img, InBounds.readsImage,
    fun c => ⟨c.inBounds, InBounds.readsImage⟩⟩

theorem spinImage_inBounds : InBounds (spinImage 0x1000) := by
  intro ehdr hel k hk
  obtain ⟨rfl, _⟩ := elfFrom_eq_some hel
  have hnum : (readEhdr (spinImage 0x1000).bytes).e_phnum = 1 := by decide +kernel
  have hoff : (readEhdr (spinImage 0x1000).bytes).e_phoff = 64 := by decide +kernel
  have hin {off len : ℕ} (h : off+len ≤ (spinImage 0x1000).size) : Inside (spinImage 0x1000) (off, len) := by
    have hsize : (spinImage 0x1000).size = 124 := by decide +kernel
    exact (inside_iff (by omega) (by omega)).mpr (.inr h)
  obtain rfl : k = 0 := by omega
  have h64 : (64+0*(readEhdr (spinImage 0x1000).bytes).e_phentsize)%2^64 = 64 := by
    rw [Nat.zero_mul]
    rfl
  rw [hoff, h64]
  refine ⟨hin (by decide +kernel), fun _ => ⟨hin (by decide +kernel), ?_, hin (by decide +kernel)⟩⟩
  simp only [segFields, List.forall_mem_cons]
  exact ⟨hin (by decide +kernel), hin (by decide +kernel), hin (by decide +kernel),
    hin (by decide +kernel), fun _ h => absurd h List.not_mem_nil⟩

theorem load_icode_reads_spin : ∃ K₀ K, boot default (fun _ => 0) = .ok K₀ ∧
    envAlloc default K₀ 0 = .ok (0, some 0, K) ∧ InBounds (spinImage 0x1000) ∧
    ReadsImage default K 0 (spinImage 0x1000) := by
  obtain ⟨K₀, _, _, _, hboot, _⟩ := boot_ok default (fun _ => 0)
  obtain ⟨_, _, K, _, _, halloc, _⟩ := boot_envAlloc hboot
  exact ⟨K₀, K, hboot, halloc, spinImage_inBounds,
    (load_icode_reads_image default K 0 _).2.1 spinImage_inBounds⟩

/-- An executable that ends behind its file header. -/
def cutImage : Image := ⟨fun i => if i < 64 then (spinBytes 0x1000).getD i 0 else 0, 64⟩

/-- It passes `elf_from`, and its program header is read behind the end. -/
theorem load_icode_reads_outside : ∃ K₀ K, boot default (fun _ => 0) = .ok K₀ ∧
    envAlloc default K₀ 0 = .ok (0, some 0, K) ∧
    elfFrom cutImage = some (readEhdr cutImage.bytes) ∧
    (∃ K', loadIcode default K 0 cutImage = .ok K') ∧ ¬ReadsImage default K 0 cutImage := by
  obtain ⟨K₀, _, _, _, hboot, _⟩ := boot_ok default (fun _ => 0)
  obtain ⟨_, _, K, _, _, halloc, _⟩ := boot_envAlloc hboot
  have hel : elfFrom cutImage = some (readEhdr cutImage.bytes) := if_pos (by decide +kernel)
  have hnum : (readEhdr cutImage.bytes).e_phnum = 1 := by decide +kernel
  have hoff : (readEhdr cutImage.bytes).e_phoff = 64 := by decide +kernel
  have htype : (readPhdr cutImage.bytes 64).p_type ≠ PT_LOAD := by decide +kernel
  have c : LoadCompletes K 0 cutImage := by
    intro ehdr hehdr
    obtain ⟨rfl, _⟩ := elfFrom_eq_some hehdr
    rw [hoff]
    exact .skip (by omega) htype (.done (by omega))
  refine ⟨K₀, K, hboot, halloc, hel, ?_, fun h => ?_⟩
  · obtain ⟨s, hs⟩ := (c _ hel).returns
    rw [loadIcode, hel]
    dsimp only
    rw [hs]
    exact ⟨_, rfl⟩
  · have hhead := (c.inBounds h _ hel 0 (by omega)).1 0 (by decide)
    dsimp only at hhead
    rw [hoff, Nat.zero_mul] at hhead
    exact absurd hhead (by decide)

end RiscvMos
