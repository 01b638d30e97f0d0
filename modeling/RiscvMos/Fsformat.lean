import RiscvMos.LibHostWord
import Mathlib.Data.BitVec

/-! The tool fsformat. The header fs.h is a parameter, with the byte order of the host. An
access outside of an array has no meaning in C: it ends a run of the model. -/
namespace RiscvMos.Fsformat
open ByteMem HostWord Function

/-- The number of blocks in the disk. -/
def NBLOCK : ℕ := 1024

/-! ### fs.h -/

/-- The fields of 32 bits of `struct File`, with `n` direct links. -/
inductive FileWord (n : ℕ)
  | f_size
  | f_type
  | f_direct (i : Fin n)
  | f_indirect
  deriving DecidableEq

/-- The constants of fs.h, and the offsets of the fields in `struct File` and `struct Super`. -/
structure FsH where
  host : Endian
  BLOCK_SIZE : ℕ
  NDIRECT : ℕ
  MAXNAMELEN : ℕ
  FILE_STRUCT_SIZE : ℕ
  FTYPE_REG : ℕ
  FTYPE_DIR : ℕ
  FS_MAGIC : ℕ
  f_name : ℕ
  word : FileWord NDIRECT → ℕ
  s_magic : ℕ
  s_nblocks : ℕ
  s_root : ℕ
  SUPER_SIZE : ℕ
  word_le : ∀ w, word w+4 ≤ FILE_STRUCT_SIZE
  word_apart : ∀ w w', w ≠ w' → word w+4 ≤ word w' ∨ word w'+4 ≤ word w
  name_le : f_name+MAXNAMELEN ≤ FILE_STRUCT_SIZE
  name_apart : ∀ w, word w+4 ≤ f_name ∨ f_name+MAXNAMELEN ≤ word w
  name_gt : 1 < MAXNAMELEN
  file_le : FILE_STRUCT_SIZE ≤ BLOCK_SIZE
  direct_lt : NDIRECT < BLOCK_SIZE/4
  size_lt : BLOCK_SIZE/4*BLOCK_SIZE < 2^32
  root_le : s_root+FILE_STRUCT_SIZE ≤ SUPER_SIZE
  magic_apart : s_magic+4 ≤ s_nblocks ∨ s_nblocks+4 ≤ s_magic
  magic_root : s_magic+4 ≤ s_root ∨ s_root+FILE_STRUCT_SIZE ≤ s_magic
  nblocks_root : s_nblocks+4 ≤ s_root ∨ s_root+FILE_STRUCT_SIZE ≤ s_nblocks
  magic_le : s_magic+4 ≤ SUPER_SIZE
  nblocks_le : s_nblocks+4 ≤ SUPER_SIZE
  super_le : SUPER_SIZE ≤ BLOCK_SIZE

/-- Words in an index block. -/
def FsH.NINDIRECT (F : FsH) : ℕ := F.BLOCK_SIZE/4

def FsH.BLOCK_SIZE_BIT (F : FsH) : ℕ := F.BLOCK_SIZE*8

/-- Entries in a directory block. -/
def FsH.FILE2BLK (F : FsH) : ℕ := F.BLOCK_SIZE/F.FILE_STRUCT_SIZE

/-- A header with blocks of 4096 bytes and entries of 256 bytes. -/
def FsH.sample (host : Endian) : FsH where
  host := host
  BLOCK_SIZE := 4096
  NDIRECT := 10
  MAXNAMELEN := 128
  FILE_STRUCT_SIZE := 256
  FTYPE_REG := 0
  FTYPE_DIR := 1
  FS_MAGIC := 0x68286097
  f_name := 0
  word w :=
    match w with
    | .f_size => 128
    | .f_type => 132
    | .f_direct i => 136+4*i
    | .f_indirect => 176
  s_magic := 0
  s_nblocks := 4
  s_root := 8
  SUPER_SIZE := 264
  word_le w := by
    cases w <;> dsimp only <;> omega
  word_apart w w' h := by
    rcases w with _ | _ | i | _ <;> rcases w' with _ | _ | j | _ <;> dsimp only
    case f_direct.f_direct =>
      have hne : i.val ≠ j.val := fun he => h (congrArg _ (Fin.ext he))
      omega
    all_goals first | exact absurd rfl h | omega
  name_le := by decide
  name_apart w := by
    cases w <;> dsimp only <;> omega
  name_gt := by decide
  file_le := by decide
  direct_lt := by decide
  size_lt := by decide
  root_le := by decide
  magic_apart := by decide
  magic_root := by decide
  nblocks_root := by decide
  magic_le := by decide
  nblocks_le := by decide
  super_le := by decide

/-! ### The disk -/

inductive BlockType
  | BLOCK_FREE
  | BLOCK_BOOT
  | BLOCK_BMAP
  | BLOCK_SUPER
  | BLOCK_DATA
  | BLOCK_FILE
  | BLOCK_INDEX
  deriving DecidableEq

structure Block where
  data : Mem
  type : BlockType

/-- The global variables. -/
structure Tool where
  disk : ℕ → Block
  super : Mem
  nbitblock : ℕ
  nextbno : ℕ

inductive Arr
  | disk
  | f_direct
  | f_name
  | index
  deriving DecidableEq

/-- How the tool stops before its end. -/
inductive Stop
  | assert
  | exit (code : ℕ)
  /-- An access outside of an array. -/
  | outside (a : Arr)
  deriving DecidableEq

abbrev Run := Except Stop

/-- The variables that hold a `struct File`. -/
inductive Obj
  | super
  | block (bno : ℕ)
  deriving DecidableEq

/-- A `struct File *`. -/
structure FilePtr where
  obj : Obj
  base : ℕ
  deriving DecidableEq

/-- `&super.s_root` -/
def FsH.root (F : FsH) : FilePtr := ⟨.super, F.s_root⟩

/-- `(struct File *)disk[bno].data + k` -/
def FsH.entry (F : FsH) (bno k : ℕ) : FilePtr := ⟨.block bno, k*F.FILE_STRUCT_SIZE⟩

namespace Tool

def obj (s : Tool) : Obj → Mem
  | .super => s.super
  | .block bno => (s.disk bno).data

def setObj (s : Tool) (o : Obj) (m : Mem) : Tool :=
  match o with
  | .super => { s with super := m }
  | .block bno => { s with disk := update s.disk bno ⟨m, (s.disk bno).type⟩ }

def setType (s : Tool) (bno : ℕ) (type : BlockType) : Tool :=
  { s with disk := update s.disk bno ⟨(s.disk bno).data, type⟩ }

variable (F : FsH)

/-- `f->w` -/
def get (s : Tool) (f : FilePtr) (w : FileWord F.NDIRECT) : ℕ :=
  loadAs F.host (s.obj f.obj) (f.base+F.word w) 4

def set (s : Tool) (f : FilePtr) (w : FileWord F.NDIRECT) (v : ℕ) : Tool :=
  s.setObj f.obj (storeAs F.host (s.obj f.obj) (f.base+F.word w) 4 v)

/-- `((uint32_t *)disk[bno].data)[i]` -/
def getIndex (s : Tool) (bno i : ℕ) : ℕ := loadAs F.host (s.disk bno).data (4*i) 4

def setIndex (s : Tool) (bno i v : ℕ) : Tool :=
  s.setObj (.block bno) (storeAs F.host (s.disk bno).data (4*i) 4 v)

/-- `f->f_name[i]` -/
def nameByte (s : Tool) (f : FilePtr) (i : ℕ) : UInt8 := s.obj f.obj (f.base+F.f_name+i)

/-- Write `n` bytes of `src` to `f->f_name`, with zeros behind its end. -/
def copyName (s : Tool) (f : FilePtr) (n : ℕ) (src : List UInt8) : Tool :=
  s.setObj f.obj (blit (s.obj f.obj) (f.base+F.f_name) n (fun i => src.getD i 0))

end Tool

section
variable (F : FsH)

/-! ### Blocks and links -/

/-- An index into `disk[]`. -/
def index (i : ℕ) : Run Unit := if i < NBLOCK then .ok () else .error (.outside .disk)

def nextBlock (s : Tool) (type : BlockType) : Run (ℕ × Tool) := do
  index s.nextbno
  .ok (s.nextbno, { s.setType s.nextbno type with nextbno := s.nextbno+1 })

def saveBlockLink (s : Tool) (f : FilePtr) (nblk bno : ℕ) : Run Tool :=
  if nblk < F.NINDIRECT then
    if h : nblk < F.NDIRECT then .ok (s.set F f (.f_direct ⟨nblk, h⟩) bno)
    else do
      let s ← (if s.get F f .f_indirect = 0 then do
          let (ind, s) ← nextBlock s .BLOCK_INDEX
          .ok (s.set F f .f_indirect ind)
        else .ok s)
      index (s.get F f .f_indirect)
      -- The words that stand for the direct links are not used.
      .ok (s.setIndex F (s.get F f .f_indirect) nblk bno)
  else .error .assert

def makeLinkBlock (s : Tool) (dirf : FilePtr) (nblk : ℕ) : Run (ℕ × Tool) := do
  let (bno, s) ← nextBlock s .BLOCK_FILE
  let s ← saveBlockLink F s dirf nblk bno
  .ok (bno, s.set F dirf .f_size (s.get F dirf .f_size+F.BLOCK_SIZE))

/-! ### Directories -/

/-- The block number of link `i` in `create_file`. The comparison is `<=`. -/
def dirLink (s : Tool) (dirf : FilePtr) (i : ℕ) : Run ℕ :=
  if i ≤ F.NDIRECT then
    if h : i < F.NDIRECT then .ok (s.get F dirf (.f_direct ⟨i, h⟩)) else .error (.outside .f_direct)
  else do
    index (s.get F dirf .f_indirect)
    if i < F.NINDIRECT then .ok (s.getIndex F (s.get F dirf .f_indirect) i)
    else .error (.outside .index)

/-- `for (struct File *f = blk; f < blk + FILE2BLK; ++f)` -/
def freeEntry (s : Tool) (bno : ℕ) : Option ℕ :=
  (List.range F.FILE2BLK).find? (fun k => s.nameByte F (F.entry bno k) 0 = 0)

/-- `for (int i = 0; i < nblk; ++i)` -/
def findLoop (s : Tool) (dirf : FilePtr) (nblk i : ℕ) : Run (Option FilePtr) :=
  if i < nblk then do
    let bno ← dirLink F s dirf i
    index bno
    match freeEntry F s bno with
    | some k => .ok (some (F.entry bno k))
    | none => findLoop s dirf nblk (i+1)
  else .ok none
  termination_by nblk-i

def createFile (s : Tool) (dirf : FilePtr) : Run (FilePtr × Tool) := do
  let nblk := s.get F dirf .f_size/F.BLOCK_SIZE
  match ← findLoop F s dirf nblk 0 with
  | some f => .ok (f, s)
  | none => do
    let (bno, s) ← makeLinkBlock F s dirf nblk
    index bno
    .ok (F.entry bno 0, s)

/-! ### Names -/

def slash : UInt8 := 47

/-- What stands behind the last '/', which is the whole path where there is none. -/
def fname (path : List UInt8) : List UInt8 := (path.reverse.takeWhile (fun c => c ≠ slash)).reverse

/-- A path without the slashes at its end. -/
def stripSlashes (path : List UInt8) : List UInt8 :=
  (path.reverse.dropWhile (fun c => c = slash)).reverse

/-- The function of libgen.h. -/
def basename (path : List UInt8) : List UInt8 :=
  if path = [] then [46]
  else if stripSlashes path = [] then [slash]
  else fname (stripSlashes path)

/-- What `basename` leaves in `path`. -/
def basenamePath (path : List UInt8) : List UInt8 :=
  if stripSlashes path = [] then path else stripSlashes path

/-- `strcpy(target->f_name, fname);` -/
def nameFile (s : Tool) (target : FilePtr) (path : List UInt8) : Run Tool :=
  if (fname path).length < F.MAXNAMELEN then
    .ok (s.copyName F target ((fname path).length+1) (fname path))
  else .error (.outside .f_name)

/-- The `strncpy` of `write_directory` and the check behind it. -/
def nameDirectory (s : Tool) (pdir : FilePtr) (path : List UInt8) : Run Tool :=
  let s := s.copyName F pdir (F.MAXNAMELEN-1) (basename path)
  if s.nameByte F pdir (F.MAXNAMELEN-1) ≠ 0 then .error (.exit 1) else .ok s

/-! ### Files -/

/-- A file of the host: what `lseek` returns for its end, and what the calls of `read` return
until there is nothing more. -/
structure HostFile where
  size : ℕ
  reads : List (List UInt8)
  reads_le : ∀ r ∈ reads, 0 < r.length ∧ r.length ≤ F.BLOCK_SIZE

/-- `while ((r = read(fd, disk[nextbno].data, n)) > 0)` -/
def readLoop (s : Tool) (target : FilePtr) (iblk : ℕ) : List (List UInt8) → Run Tool
  | [] => do
    -- The last call of `read` has a place in `disk[]` too.
    index s.nextbno
    .ok s
  | r :: reads => do
    index s.nextbno
    let s := s.setObj (.block s.nextbno)
      (blit (s.disk s.nextbno).data 0 r.length (fun i => r.getD i 0))
    let (bno, s) ← nextBlock s .BLOCK_DATA
    let s ← saveBlockLink F s target iblk bno
    readLoop s target (iblk+1) reads

/-- `write_file` behind the call of `create_file`. -/
def fillFile (s : Tool) (target : FilePtr) (path : List UInt8) (file : HostFile F) : Run Tool := do
  let s ← nameFile F s target path
  let s := s.set F target .f_size file.size
  let s := s.set F target .f_type F.FTYPE_REG
  readLoop F s target 0 file.reads

def writeFile (s : Tool) (dirf : FilePtr) (path : List UInt8) (file : HostFile F) : Run Tool := do
  let (target, s) ← createFile F s dirf
  fillFile F s target path file

/-- A name in a directory of the host. -/
structure Name where
  bytes : List UInt8
  ne_nil : bytes ≠ []
  no_nul : 0 ∉ bytes
  no_slash : slash ∉ bytes

/-- What `readdir` returns, in its order: files and other entries that are no directories,
directories, directories that `opendir` does not open, and the entries `.` and `..`. -/
inductive Listing
  | done
  | file (d_name : Name) (content : HostFile F) (rest : Listing)
  | dir (d_name : Name) (content rest : Listing)
  | noDir (d_name : Name) (rest : Listing)
  | dots (rest : Listing)

/-- `write_directory` up to its loop. -/
def enterDirectory (s : Tool) (dirf : FilePtr) (path : List UInt8) : Run (FilePtr × Tool) := do
  let (pdir, s) ← createFile F s dirf
  let s ← nameDirectory F s pdir path
  .ok (pdir, s.set F pdir .f_type F.FTYPE_DIR)

variable {F} in
/-- The loop of `write_directory` over `readdir`, with its recursive calls. -/
def writeListing (s : Tool) (pdir : FilePtr) (path : List UInt8) : Listing F → Run Tool
  | .done => .ok s
  | .file d_name content rest => do
    let s ← writeFile F s pdir (path ++ slash :: d_name.bytes) content
    writeListing s pdir path rest
  | .dir d_name content rest => do
    let buf := path ++ slash :: d_name.bytes
    -- `basename` has cut the slashes at the end of `buf`.
    let (pdir', s) ← enterDirectory F s pdir buf
    let s ← writeListing s pdir' (basenamePath buf) content
    writeListing s pdir path rest
  | .noDir _ rest => writeListing s pdir path rest
  | .dots rest => writeListing s pdir path rest

/-- `content` is what `readdir` returns, or none where `opendir` fails. -/
def writeDirectory (s : Tool) (dirf : FilePtr) (path : List UInt8) (content : Option (Listing F)) :
    Run Tool :=
  match content with
  | none => .ok s
  | some content => do
    let (pdir, s) ← enterDirectory F s dirf path
    writeListing s pdir (basenamePath path) content

/-! ### The whole tool -/

/-- A string on the command line. -/
structure Path where
  bytes : List UInt8
  no_nul : 0 ∉ bytes

/-- An argument, by what `stat` says of it. The path of a file does not end in '/'. -/
inductive CmdArg
  | noStat
  | file (path : Path) (named : fname path.bytes ≠ []) (content : HostFile F)
  | dir (path : Path) (content : Option (Listing F))
  | other

/-- The variables before `main`. -/
def Tool.start : Tool := ⟨fun _ => ⟨fun _ => 0, .BLOCK_FREE⟩, fun _ => 0, 0, 0⟩

/-- `for (i = 0; i < nbitblock; ++i)`: the blocks of the bitmap with all bits set. -/
def bitmapLoop (s : Tool) : ℕ → Tool
  | 0 => s
  | i+1 =>
    let s := (bitmapLoop s i).setType (2+i) .BLOCK_BMAP
    s.setObj (.block (2+i)) (fill (s.disk (2+i)).data 0 F.BLOCK_SIZE 0xff)

def initDisk : Tool :=
  let s := Tool.start.setType 0 .BLOCK_BOOT
  let nbitblock := (NBLOCK+F.BLOCK_SIZE_BIT-1)/F.BLOCK_SIZE_BIT
  let s := { s with nbitblock := nbitblock, nextbno := 2+nbitblock }
  let s := bitmapLoop F s nbitblock
  -- The bits behind the last block are cleared, as for blocks in use.
  let s :=
    if NBLOCK ≠ nbitblock*F.BLOCK_SIZE_BIT then
      let diff := NBLOCK%F.BLOCK_SIZE_BIT/8
      let last := 2+(nbitblock-1)
      s.setObj (.block last) (fill (s.disk last).data diff (F.BLOCK_SIZE-diff) 0)
    else s
  let s := s.setType 1 .BLOCK_SUPER
  let super := storeAs F.host s.super F.s_magic 4 F.FS_MAGIC
  let super := storeAs F.host super F.s_nblocks 4 NBLOCK
  let s := { s with super := super }
  let s := s.set F F.root .f_type F.FTYPE_DIR
  s.copyName F F.root 2 [slash]

def argLoop (s : Tool) : List (CmdArg F) → Run Tool
  | [] => .ok s
  | .noStat :: _ => .error .assert
  | .file path _ content :: args => do
    let s ← writeFile F s F.root path.bytes content
    argLoop s args
  | .dir path content :: args => do
    let s ← writeDirectory F s F.root path.bytes content
    argLoop s args
  | .other :: _ => .error (.exit 2)

/-- `for (i = 0; i < nextbno; ++i)`, from the last turn on. -/
def flushBitmap (s : Tool) : ℕ → Run Tool
  | 0 => .ok s
  | i+1 => do
    let s ← flushBitmap s i
    let bno := 2+i/F.BLOCK_SIZE_BIT
    let j := i%F.BLOCK_SIZE_BIT/32
    index bno
    .ok (s.setIndex F bno j (BitVec.ofNat 32 (s.getIndex F bno j) &&& ~~~(1#32 <<< (i%32))).toNat)

/-- `main` up to `finish_fs`; `args` are the arguments behind the name of the image. -/
def buildDisk (args : List (CmdArg F)) : Run Tool :=
  if args = [] then .error (.exit 1)
  else do
    let s ← argLoop F (initDisk F) args
    flushBitmap F s s.nextbno

/-! ### The image -/

/-- The routine behind CONFIG_REVERSE_ENDIAN: a word is loaded by the host and its bytes are
stored from the highest one on. -/
def reverse (m : Mem) (p : ℕ) : Mem :=
  let y := loadAs F.host m p 4
  let m := update m (p+3) (UInt8.ofNat (y &&& 0xFF))
  let m := update m (p+2) (UInt8.ofNat ((y >>> 8) &&& 0xFF))
  let m := update m (p+1) (UInt8.ofNat ((y >>> 16) &&& 0xFF))
  update m p (UInt8.ofNat ((y >>> 24) &&& 0xFF))

/-- The words of a `struct File`, in the order of `reverse_block`. -/
def fileWords : List (FileWord F.NDIRECT) :=
  [.f_size, .f_type] ++ (List.finRange F.NDIRECT).map .f_direct ++ [.f_indirect]

def reverseFile (m : Mem) (base : ℕ) : Mem :=
  (fileWords F).foldl (fun m w => reverse F m (base+F.word w)) m

/-- `for (i = 0; i < FILE2BLK; ++i)`, up to the first entry without a name. -/
def reverseEntries (m : Mem) (i : ℕ) : Mem :=
  if i < F.FILE2BLK then
    if m (i*F.FILE_STRUCT_SIZE+F.f_name) = 0 then m
    else reverseEntries (reverseFile F m (i*F.FILE_STRUCT_SIZE)) (i+1)
  else m
  termination_by F.FILE2BLK-i

def reverseBlock (b : Block) : Mem :=
  match b.type with
  | .BLOCK_SUPER => reverseFile F (reverse F (reverse F b.data F.s_magic) F.s_nblocks) F.s_root
  | .BLOCK_FILE => reverseEntries F b.data 0
  | .BLOCK_INDEX | .BLOCK_BMAP =>
    (List.range (F.BLOCK_SIZE/4)).foldl (fun m i => reverse F m (4*i)) b.data
  | _ => b.data

/-- The super block gets its contents. -/
def prepareSuper (s : Tool) : Tool :=
  s.setObj (.block 1) (blit (s.disk 1).data 0 F.SUPER_SIZE s.super)

/-- The bytes that `finish_fs` writes for each block. -/
def finishFs (config_reverse_endian : Bool) (s : Tool) (i : ℕ) : Mem :=
  let b := (prepareSuper F s).disk i
  if config_reverse_endian then reverseBlock F b else b.data

end

end RiscvMos.Fsformat
