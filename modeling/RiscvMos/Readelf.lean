import RiscvMos.LibByteMemory
import RiscvMos.LibReadLog
import RiscvMos.PrintFormat

/-! The tool readelf. The file lies in memory from index 0 on, and the reads are logged with
their index and their length. Fields are read as on a little-endian host. -/
namespace RiscvMos.Readelf
open ByteMem ReadLog ReadLog.Logged

/-- Memory by the distance from `binary`. -/
abbrev Buffer := ℤ → UInt8

/-- Computations with their reads. They do not fail. -/
abbrev Reader := Logged (ℤ × ℕ) Empty

/-- `sizeof(Elf32_Ehdr)` -/
def EHDR_SIZE : ℕ := 52

/-- The field of `w` bytes at `off`. -/
def field (binary : Buffer) (off : ℤ) (w : ℕ) : ℕ := load (fun k => binary (off+k)) 0 w

def readField (binary : Buffer) (off : ℤ) (w : ℕ) : Reader ℕ := read [(off, w)] (field binary off w)

def isElfFormat (binary : Buffer) (size : ℕ) : Reader Bool := do
  if size ≥ EHDR_SIZE then
    if (← readField binary 0 1) = 0x7f then
      if (← readField binary 1 1) = 'E'.toNat then
        if (← readField binary 2 1) = 'L'.toNat then
          pure (decide ((← readField binary 3 1) = 'F'.toNat))
        else pure false
      else pure false
    else pure false
  else pure false

/-- The loop gives the arguments of `printf("%d:0x%x\n", i, addr)`. The product is an `int`. -/
def sectionLoop (binary : Buffer) (sh_table : ℤ) (sh_entry_count sh_entry_size i : ℕ) :
    Reader (List (ℕ × ℕ)) :=
  if i < sh_entry_count then do
    let shdr := sh_table+wrapInt (i*sh_entry_size)
    let addr ← readField binary (shdr+12) 4
    let lines ← sectionLoop binary sh_table sh_entry_count sh_entry_size (i+1)
    pure ((i, addr) :: lines)
  else pure []
  termination_by sh_entry_count-i

/-- The return value and the lines. -/
def readelf (binary : Buffer) (size : ℕ) : Reader (ℤ × List (ℕ × ℕ)) := do
  if ← isElfFormat binary size then
    let e_shoff ← readField binary 32 4
    let sh_entry_count ← readField binary 48 2
    let sh_entry_size ← readField binary 46 2
    let lines ← sectionLoop binary e_shoff sh_entry_count sh_entry_size 0
    pure (0, lines)
  else pure (-1, [])

/-! ### What it reads and prints -/

abbrev e_shoff (binary : Buffer) : ℕ := field binary 32 4
abbrev e_shnum (binary : Buffer) : ℕ := field binary 48 2
abbrev e_shentsize (binary : Buffer) : ℕ := field binary 46 2

/-- `sh_addr` of the entry `i` of the section table. -/
def sh_addr (binary : Buffer) (i : ℕ) : ℕ :=
  field binary (e_shoff binary+i*e_shentsize binary+12) 4

/-- The buffer is long enough for a header and starts with the magic bytes. -/
def IsElf (binary : Buffer) (size : ℕ) : Prop :=
  size ≥ EHDR_SIZE ∧ field binary 0 1 = 0x7f ∧ field binary 1 1 = 'E'.toNat ∧
    field binary 2 1 = 'L'.toNat ∧ field binary 3 1 = 'F'.toNat

instance (binary : Buffer) (size : ℕ) : Decidable (IsElf binary size) :=
  inferInstanceAs (Decidable (_ ∧ _))

/-- All bytes of a read have an index below `size`. -/
def Inside (size : ℕ) (r : ℤ × ℕ) : Prop := 0 ≤ r.1 ∧ r.1+r.2 ≤ size

/-- The section table ends inside the file, up to the last `sh_addr`, and the offset of its last
entry is an `int`. -/
def TableFits (binary : Buffer) (size : ℕ) : Prop :=
  e_shnum binary = 0 ∨ (e_shnum binary-1)*e_shentsize binary < 2^31 ∧
    e_shoff binary+(e_shnum binary-1)*e_shentsize binary+16 ≤ size

section
variable {binary : Buffer} {size : ℕ}

theorem isElfFormat_ends (binary : Buffer) (size : ℕ) :
    Ends (Inside size) (isElfFormat binary size) (.ok (decide (IsElf binary size))) := by
  have hread {k : ℕ} (hsize : size ≥ EHDR_SIZE) (hk : k < 4) :
      Ends (Inside size) (readField binary k 1) (.ok (field binary k 1)) := by
    refine ⟨rfl, fun r hr => ?_⟩
    obtain rfl := List.mem_singleton.mp hr
    rw [EHDR_SIZE] at hsize
    exact ⟨Int.natCast_nonneg k, by push_cast; omega⟩
  rw [isElfFormat]
  by_cases hsize : size ≥ EHDR_SIZE
  · rw [if_pos hsize]
    refine (hread hsize (by decide : 0 < 4)).bind ?_
    by_cases h0 : field binary 0 1 = 0x7f
    · refine (if_pos h0).symm ▸ (hread hsize (by decide : 1 < 4)).bind ?_
      by_cases h1 : field binary 1 1 = 'E'.toNat
      · refine (if_pos h1).symm ▸ (hread hsize (by decide : 2 < 4)).bind ?_
        by_cases h2 : field binary 2 1 = 'L'.toNat
        · refine (if_pos h2).symm ▸ (hread hsize (by decide : 3 < 4)).bind ?_
          have hiff : IsElf binary size ↔ field binary 3 1 = 'F'.toNat := by
            simp only [IsElf, hsize, h0, h1, h2, true_and]
          simp only [hiff]
          exact ends_pure _ _
        · have hno : ¬IsElf binary size := fun h => h2 h.2.2.2.1
          rw [decide_eq_false hno]
          exact (if_neg h2).symm ▸ ends_pure _ _
      · have hno : ¬IsElf binary size := fun h => h1 h.2.2.1
        rw [decide_eq_false hno]
        exact (if_neg h1).symm ▸ ends_pure _ _
    · have hno : ¬IsElf binary size := fun h => h0 h.2.1
      rw [decide_eq_false hno]
      exact (if_neg h0).symm ▸ ends_pure _ _
  · have hno : ¬IsElf binary size := fun h => hsize h.1
    rw [if_neg hsize, decide_eq_false hno]
    exact ends_pure _ _

theorem sectionLoop_result (t : ℤ) (count entry i : ℕ) :
    (sectionLoop binary t count entry i).result = .ok ((List.range' i (count-i)).map
      (fun j => (j, field binary (t+wrapInt (j*entry)+12) 4))) := by
  fun_induction sectionLoop binary t count entry i with
  | case1 i hi shdr ih =>
    have hlen : count-i = count-(i+1)+1 := by omega
    rw [hlen, List.range'_succ, List.map_cons, result_bind, readField, result_read]
    show (sectionLoop binary t count entry (i+1) >>= _).result = _
    rw [result_bind, ih]
    rfl
  | case2 i hi =>
    rw [Nat.sub_eq_zero_of_le (by omega)]
    rfl

theorem sectionLoop_reads (P : ℤ × ℕ → Prop) (t : ℤ) (count entry i : ℕ) :
    All P (sectionLoop binary t count entry i) ↔
      ∀ j, i ≤ j → j < count → P (t+wrapInt (j*entry)+12, 4) := by
  fun_induction sectionLoop binary t count entry i with
  | case1 i hi shdr ih =>
    rw [readField, all_read_bind, all_bind, ih, List.forall_mem_singleton]
    constructor
    · rintro ⟨hfirst, hrest, _⟩ j hij hj
      rcases hij.eq_or_lt with rfl | hlt
      · exact hfirst
      · exact hrest j hlt hj
    · exact fun h => ⟨h i le_rfl hi, fun j hij hj => h j (by omega) hj, fun _ _ => all_pure _⟩
  | case2 i hi =>
    exact ⟨fun _ j hij hj => absurd hj (by omega), fun _ => all_pure _⟩

theorem readelf_result (binary : Buffer) (size : ℕ) :
    (readelf binary size).result = .ok (if IsElf binary size then
      (0, (List.range (e_shnum binary)).map (fun i =>
        (i, field binary (e_shoff binary+wrapInt (i*e_shentsize binary)+12) 4)))
      else (-1, [])) := by
  rw [readelf, result_bind, (isElfFormat_ends binary size).result]
  by_cases h : IsElf binary size
  · rw [decide_eq_true h, if_pos h]
    show (sectionLoop binary (e_shoff binary) (e_shnum binary) (e_shentsize binary) 0 >>=
      fun lines => pure ((0 : ℤ), lines)).result = _
    rw [result_bind, sectionLoop_result, Nat.sub_zero, ← List.range_eq_range']
    rfl
  · rw [decide_eq_false h, if_neg h]
    rfl

theorem readelf_reads (h : IsElf binary size) :
    All (Inside size) (readelf binary size) ↔ ∀ i < e_shnum binary,
      Inside size (e_shoff binary+wrapInt (i*e_shentsize binary)+12, 4) := by
  have hsize : size ≥ EHDR_SIZE := h.1
  rw [EHDR_SIZE] at hsize
  have hheader {k w : ℕ} (hk : k+w ≤ 52) : ∀ r ∈ [((k : ℤ), w)], Inside size r := by
    intro r hr
    obtain rfl := List.mem_singleton.mp hr
    exact ⟨Int.natCast_nonneg k, by push_cast; omega⟩
  have hends := isElfFormat_ends binary size
  rw [decide_eq_true h] at hends
  rw [readelf, all_bind]
  constructor
  · rintro ⟨_, hrest⟩ i hi
    have hloop := hrest true hends.result
    rw [if_pos rfl, readField, all_read_bind, readField, all_read_bind, readField, all_read_bind,
      all_bind, sectionLoop_reads] at hloop
    exact hloop.2.2.2.1 i (Nat.zero_le i) hi
  · intro hall
    refine ⟨hends.reads, fun b hb => ?_⟩
    rw [hends.result] at hb
    obtain rfl := Except.ok.inj hb
    rw [if_pos rfl, readField, all_read_bind, readField, all_read_bind, readField, all_read_bind,
      all_bind, sectionLoop_reads]
    exact ⟨hheader (by decide : 32+4 ≤ 52), hheader (by decide : 48+2 ≤ 52),
      hheader (by decide : 46+2 ≤ 52), fun j _ hj => hall j hj, fun _ _ => all_pure _⟩

end

/-- The call returns -1, or it reads only inside the file, prints a line for every section with
its index and its `sh_addr`, and the offset of every entry is an `int`. -/
def Reports (binary : Buffer) (size : ℕ) : Prop :=
  (∃ lines, (readelf binary size).result = .ok (-1, lines)) ∨
    All (Inside size) (readelf binary size) ∧
    (readelf binary size).result =
      .ok (0, (List.range (e_shnum binary)).map (fun i => (i, sh_addr binary i))) ∧
    ∀ i < e_shnum binary, i*e_shentsize binary < 2^31

section
variable {binary : Buffer} {size : ℕ}

theorem wrapInt_mul {i n : ℕ} (h : i*n < 2^31) : wrapInt ((i : ℤ)*n) = ((i*n : ℕ) : ℤ) := by
  rw [← wrapInt_of_lt h, Nat.cast_mul]

theorem Reports.tableFits (h : Reports binary size) (helf : IsElf binary size) :
    TableFits binary size := by
  by_cases h0 : e_shnum binary = 0
  · exact .inl h0
  · have hlast : e_shnum binary-1 < e_shnum binary := by omega
    rcases h with ⟨lines, hbad⟩ | ⟨hreads, _, hint⟩
    · rw [readelf_result, if_pos helf] at hbad
      cases hbad
    · have hprod := hint _ hlast
      obtain ⟨_, hend⟩ := (readelf_reads helf).mp hreads _ hlast
      rw [wrapInt_mul hprod] at hend
      refine .inr ⟨hprod, ?_⟩
      push_cast at hend
      omega

theorem TableFits.reports (h : TableFits binary size) (helf : IsElf binary size) :
    Reports binary size := by
  -- no entry lies behind the last one
  have hentry (i : ℕ) (hi : i < e_shnum binary) : i*e_shentsize binary < 2^31 ∧
      e_shoff binary+i*e_shentsize binary+16 ≤ size := by
    rcases h with h0 | ⟨hprod, hend⟩
    · omega
    · have hle : i*e_shentsize binary ≤ (e_shnum binary-1)*e_shentsize binary :=
        Nat.mul_le_mul_right _ (by omega)
      omega
  refine .inr ⟨(readelf_reads helf).mpr fun i hi => ?_, ?_, fun i hi => (hentry i hi).1⟩
  · obtain ⟨hprod, hend⟩ := hentry i hi
    rw [wrapInt_mul hprod]
    exact ⟨by positivity, by push_cast; omega⟩
  · rw [readelf_result, if_pos helf]
    refine congrArg (fun lines => Except.ok ((0 : ℤ), lines)) (List.map_congr_left fun i hi => ?_)
    rw [wrapInt_mul (hentry i (List.mem_range.mp hi)).1, sh_addr, Nat.cast_mul]

theorem reports_not_elf (h : ¬IsElf binary size) : Reports binary size :=
  .inl ⟨[], by rw [readelf_result, if_neg h]⟩

end

/-- `readelf` does what it says exactly on the files that are no ELF files and on those whose
section table lies inside. -/
theorem readelf_reports (binary : Buffer) (size : ℕ) :
    Reports binary size ↔ (IsElf binary size → TableFits binary size) := by
  constructor
  · exact Reports.tableFits
  · intro h
    by_cases helf : IsElf binary size
    · exact (h helf).reports helf
    · exact reports_not_elf helf

/-- A header of 52 bytes with one entry of 40 bytes behind it. -/
def bareHeader : Buffer := fun i =>
  ([0x7f, 0x45, 0x4c, 0x46].getD i.toNat 0 : UInt8) +
    if i = 32 then 52 else if i = 46 then 40 else if i = 48 then 1 else 0

theorem readelf_reads_outside : IsElf bareHeader 52 ∧ ¬Reports bareHeader 52 := by
  refine ⟨by decide, fun h => ?_⟩
  have hfits := h.tableFits (by decide)
  exact absurd hfits (by unfold TableFits; decide)

end RiscvMos.Readelf
