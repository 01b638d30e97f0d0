import RiscvMos.Vm

/-! ELF images: the fields of elf.h that the loader reads, and elfloader.c. A
pointer into the image is an offset from its start. -/
namespace RiscvMos
open ByteMem

/-- `size` bytes are the image; a read beyond them finds what lies there. -/
structure Image where
  bytes : ℕ → UInt8
  size : ℕ

/-- The fields of `Elf64_Ehdr` that are used. -/
structure Ehdr where
  e_entry : ℕ
  e_phoff : ℕ
  e_phentsize : ℕ
  e_phnum : ℕ

/-- The fields of `Elf64_Phdr` that are used. -/
structure Phdr where
  p_type : ℕ
  p_flags : ℕ
  p_offset : ℕ
  p_vaddr : ℕ
  p_filesz : ℕ
  p_memsz : ℕ

/-- `sizeof(Elf64_Ehdr)` -/
def EHDR_SIZE : ℕ := 64
def PT_LOAD : ℕ := 1
def PF_W : ℕ := 1 <<< 1

def readEhdr (b : ℕ → UInt8) : Ehdr where
  e_entry := load b 24 8
  e_phoff := load b 32 8
  e_phentsize := load b 54 2
  e_phnum := load b 56 2

def readPhdr (b : ℕ → UInt8) (off : ℕ) : Phdr where
  p_type := load b off 4
  p_flags := load b (off+4) 4
  p_offset := load b (off+8) 8
  p_vaddr := load b (off+16) 8
  p_filesz := load b (off+32) 8
  p_memsz := load b (off+40) 8

/-- The ELF header, or `none` for the null pointer. -/
def elfFrom (img : Image) : Option Ehdr :=
  if img.size ≥ EHDR_SIZE ∧ img.bytes 0 = 0x7f ∧ img.bytes 1 = 0x45 ∧ img.bytes 2 = 0x4c ∧
      img.bytes 3 = 0x46 ∧ load img.bytes 16 2 = 2 then some (readEhdr img.bytes)
  else none

/-- `elf_mapper_t` on a state: `va`, `offset`, `perm`, `src`, `len`. -/
abbrev ElfMapper (σ : Type) := σ → ℕ → ℕ → ℕ → Option ℕ → ℕ → Result (ℤ × σ)

section
variable {σ : Type} (map_page : ElfMapper σ)

/-- `for (…; i < bin_size; i += PAGE_SIZE)`; the first result is not 0 where the
function returns from inside the loop. -/
def elfBinLoop (st : σ) (va perm bin bin_size i : ℕ) : Result (ℤ × ℕ × σ) :=
  if i < bin_size then do
    let (r, st) ← map_page st ((va+i)%2^64) 0 perm (some ((bin+i)%2^64))
      (min (bin_size-i) PAGE_SIZE)
    if r ≠ 0 then .ok (r, i, st)
    else elfBinLoop st va perm bin bin_size (i+PAGE_SIZE)
  else .ok (0, i, st)
  termination_by bin_size-i
  decreasing_by simp only [PAGE_SIZE]; omega

/-- `while (i < sgsize)` -/
def elfZeroLoop (st : σ) (va perm sgsize i : ℕ) : Result (ℤ × σ) :=
  if i < sgsize then do
    let (r, st) ← map_page st ((va+i)%2^64) 0 perm none (min (sgsize-i) PAGE_SIZE)
    if r ≠ 0 then .ok (r, st) else elfZeroLoop st va perm sgsize (i+PAGE_SIZE)
  else .ok (0, st)
  termination_by sgsize-i
  decreasing_by simp only [PAGE_SIZE]; omega

def segPerm (ph : Phdr) : ℕ :=
  let perm := PTE_V ||| PTE_R ||| PTE_X ||| PTE_U
  if ph.p_flags &&& PF_W ≠ 0 then perm ||| PTE_W else perm

/-- `bin` is the offset of the segment's bytes in the image. -/
def elfLoadSeg (st : σ) (ph : Phdr) (bin : ℕ) : Result (ℤ × σ) :=
  let va := ph.p_vaddr
  let bin_size := ph.p_filesz
  let sgsize := ph.p_memsz
  let perm := segPerm ph
  let offset := va-ROUNDDOWN va PAGE_SIZE
  let rest (st : σ) : Result (ℤ × σ) := do
    let (r, i, st) ← elfBinLoop map_page st va perm bin bin_size
      (if offset ≠ 0 then min bin_size (PAGE_SIZE-offset) else 0)
    if r ≠ 0 then .ok (r, st) else elfZeroLoop map_page st va perm sgsize i
  if offset ≠ 0 then do
    let (r, st) ← map_page st va offset perm (some bin) (min bin_size (PAGE_SIZE-offset))
    if r ≠ 0 then .ok (r, st) else rest st
  else rest st

/-- `ELF_FOREACH_PHDR_OFF` from header `idx` on, with the body of `load_icode`,
which ignores what `elf_load_seg` returns. -/
def loadSegments (img : Image) (ehdr : Ehdr) (st : σ) (idx ph_off : ℕ) : Result σ :=
  if idx < ehdr.e_phnum then do
    let ph := readPhdr img.bytes ph_off
    let st ← (if ph.p_type = PT_LOAD then do
        let (_, st) ← elfLoadSeg map_page st ph ph.p_offset
        .ok st
      else .ok st)
    loadSegments img ehdr st (idx+1) ((ph_off+ehdr.e_phentsize)%2^64)
  else .ok st
  termination_by ehdr.e_phnum-idx

end

end RiscvMos
