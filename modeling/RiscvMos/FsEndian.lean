import RiscvMos.FsBounds

/-! The byte order of the image that `finish_fs` writes. The target is little-endian. -/
namespace RiscvMos.Fsformat
open ByteMem HostWord Function Budget

section
variable {F : FsH} {s : Tool}

/-- CONFIG_REVERSE_ENDIAN, which is set where HOST_ENDIAN differs from ENDIAN. -/
def configReverseEndian (F : FsH) : Bool := decide (F.host ≠ .little)

/-- The offsets of the 32-bit fields of metadata in a block. -/
def IsMeta (F : FsH) (b : Block) (off : ℕ) : Prop :=
  match b.type with
  | .BLOCK_SUPER => off = F.s_magic ∨ off = F.s_nblocks ∨ ∃ w, off = F.s_root+F.word w
  | .BLOCK_FILE => ∃ k < F.FILE2BLK, b.data (k*F.FILE_STRUCT_SIZE+F.f_name) ≠ 0 ∧
      ∃ w, off = k*F.FILE_STRUCT_SIZE+F.word w
  | .BLOCK_INDEX | .BLOCK_BMAP => ∃ j < F.BLOCK_SIZE/4, off = 4*j
  | _ => False

/-- In the image every field of metadata is little-endian, with the value that the host has in
memory, and all other bytes are those in memory. -/
structure LittleEndianImage (F : FsH) (s : Tool) (image : ℕ → Mem) : Prop where
  words : ∀ i < NBLOCK, ∀ off, IsMeta F ((prepareSuper F s).disk i) off →
    loadAs .little (image i) off 4 = loadAs F.host ((prepareSuper F s).disk i).data off 4
  bytes : ∀ i < NBLOCK, ∀ j,
    (∀ off, IsMeta F ((prepareSuper F s).disk i) off → j < off ∨ off+4 ≤ j) →
    image i j = ((prepareSuper F s).disk i).data j

/-! ### The routine -/

theorem low_byte (y : ℕ) : UInt8.ofNat (y &&& 0xFF) = UInt8.ofNat y := by
  have hand : y &&& 0xFF = y%2^8 := Nat.and_two_pow_sub_one_eq_mod y 8
  apply UInt8.toNat_inj.mp
  rw [hand, UInt8.toNat_ofNat', UInt8.toNat_ofNat', Nat.mod_mod]

theorem reverse_eq (m : Mem) (p : ℕ) :
    reverse F m p = storeAs .big m p 4 (loadAs F.host m p 4) := by
  funext b
  simp only [reverse, storeAs, low_byte, Nat.shiftRight_eq_div_pow]
  by_cases hin : p ≤ b ∧ b < p+4
  · have h3 : 256^3 = 2^24 := by decide
    have h2 : 256^2 = 2^16 := by decide
    have h1 : 256^1 = 2^8 := by decide
    rw [if_pos hin]
    have hcases : b = p ∨ b = p+1 ∨ b = p+2 ∨ b = p+3 := by omega
    rcases hcases with rfl | rfl | rfl | rfl
    · rw [update_self, show b+4-1-b = 3 by omega, h3]
    · rw [update_of_ne (by omega), update_self, show p+4-1-(p+1) = 2 by omega, h2]
    · rw [update_of_ne (by omega), update_of_ne (by omega), update_self,
        show p+4-1-(p+2) = 1 by omega, h1]
    · rw [update_of_ne (by omega), update_of_ne (by omega), update_of_ne (by omega), update_self,
        show p+4-1-(p+3) = 0 by omega, Nat.pow_zero, Nat.div_one]
  · rw [if_neg hin, update_of_ne (by omega), update_of_ne (by omega), update_of_ne (by omega),
      update_of_ne (by omega)]

theorem reverse_big (hbig : F.host = .big) (m : Mem) (p : ℕ) : reverse F m p = m := by
  rw [reverse_eq, hbig, storeAs_loadAs]

theorem reverseFile_big (hbig : F.host = .big) (m : Mem) (base : ℕ) :
    reverseFile F m base = m := by
  rw [reverseFile]
  induction fileWords F generalizing m with
  | nil => rfl
  | cons w ws ih => rw [List.foldl_cons, reverse_big hbig, ih]

theorem reverseEntries_big (hbig : F.host = .big) (m : Mem) (i : ℕ) :
    reverseEntries F m i = m := by
  fun_induction reverseEntries F m i with
  | case1 => rfl
  | case2 m i _ _ ih => rw [ih, reverseFile_big hbig]
  | case3 => rfl

/-- On a big-endian host, the only one that the routine is compiled for, it changes nothing. -/
theorem reverseBlock_big (hbig : F.host = .big) (b : Block) : reverseBlock F b = b.data := by
  have hfold : ∀ (l : List ℕ) (m : Mem), l.foldl (fun m i => reverse F m (4*i)) m = m := by
    intro l
    induction l with
    | nil => exact fun m => rfl
    | cons i l ih =>
      intro m
      rw [List.foldl_cons, reverse_big hbig, ih]
  rw [reverseBlock]
  cases b.type with
  | BLOCK_SUPER => simp only [reverse_big hbig, reverseFile_big hbig]
  | BLOCK_FILE => exact reverseEntries_big hbig _ _
  | BLOCK_INDEX => exact hfold _ _
  | BLOCK_BMAP => exact hfold _ _
  | BLOCK_FREE => rfl
  | BLOCK_BOOT => rfl
  | BLOCK_DATA => rfl

/-! ### Both hosts -/

theorem little_of_big {m : Mem} {a : ℕ} (h : loadAs .big m a 4 = NBLOCK) :
    loadAs .little m a 4 ≠ NBLOCK := by
  have h0 := (m a).toNat_lt
  have h1 := (m (a+1)).toNat_lt
  have h2 := (m (a+2)).toNat_lt
  have h3 := (m (a+3)).toNat_lt
  have hbig : loadAs .big m a 4 = (m (a+3)).toNat+256*((m (a+2)).toNat+256*((m (a+1)).toNat+
      256*((m a).toNat+256*0))) := rfl
  have hlittle : loadAs .little m a 4 = (m a).toNat+256*((m (a+1)).toNat+256*((m (a+2)).toNat+
      256*((m (a+3)).toNat+256*0))) := rfl
  rw [hlittle]
  rw [hbig] at h
  -- 1024 has the bytes 0, 4, 0, 0, which are another number backwards.
  rw [NBLOCK] at h ⊢
  omega

theorem Built.s_nblocks_memory (h : Built F s) :
    loadAs F.host ((prepareSuper F s).disk 1).data F.s_nblocks 4 = NBLOCK := by
  rw [← h.s_nblocks]
  refine loadAs_congr _ fun i hl hu => ?_
  have hle := F.nblocks_le
  have hdata : ((prepareSuper F s).disk 1).data = blit (s.disk 1).data 0 F.SUPER_SIZE s.super :=
    obj_setObj_same (o := .block 1)
  rw [hdata, blit, if_pos ⟨Nat.zero_le i, by omega⟩, Nat.sub_zero]

/-- On a big-endian host the number of blocks stands in the image as it does in memory. -/
theorem LittleEndianImage.host_little (hbuilt : Built F s)
    (himage : LittleEndianImage F s (finishFs F (configReverseEndian F) s)) : F.host = .little := by
  by_contra hhost
  have hbig : F.host = .big := by
    cases hF : F.host with
    | little => exact absurd hF hhost
    | big => rfl
  have hmeta : IsMeta F ((prepareSuper F s).disk 1) F.s_nblocks := by
    have htype : ((prepareSuper F s).disk 1).type = .BLOCK_SUPER := by
      rw [prepareSuper, type_setObj, hbuilt.type]
    rw [IsMeta, htype]
    exact Or.inr (Or.inl rfl)
  have hsame : finishFs F (configReverseEndian F) s 1 = ((prepareSuper F s).disk 1).data := by
    rw [finishFs, configReverseEndian, decide_eq_true hhost]
    exact reverseBlock_big hbig _
  have hword := himage.words 1 (by decide) _ hmeta
  have hmem := hbuilt.s_nblocks_memory
  rw [hsame, hmem] at hword
  rw [hbig] at hmem
  exact little_of_big hmem hword

theorem buildDisk_built {args : List (CmdArg F)} (h : buildDisk F args = .ok s) : Built F s := by
  have hne : args ≠ [] := by
    rintro rfl
    cases h
  obtain ⟨_, _, hbuilt⟩ := (buildDisk_follows hne).of_ok h
  exact hbuilt

/-- The image of a disk that the tool has built is little-endian exactly on a little-endian
host. -/
theorem image_little_endian_iff {args : List (CmdArg F)} (h : buildDisk F args = .ok s) :
    LittleEndianImage F s (finishFs F (configReverseEndian F) s) ↔ F.host = .little := by
  refine ⟨fun himage => himage.host_little (buildDisk_built h), fun hhost => ?_⟩
  have hconfig : configReverseEndian F = false := decide_eq_false (not_not.mpr hhost)
  rw [hconfig]
  exact ⟨fun i _ off _ => by rw [hhost]; rfl, fun i _ j _ => rfl⟩

end

/-- A file of three bytes. -/
def threeBytes (host : Endian) : HostFile (FsH.sample host) where
  size := 3
  reads := [[1, 2, 3]]
  reads_le := by cases host <;> decide

theorem not_mem_letter {b c : UInt8} (h : b ≠ c) : b ∉ [c] :=
  fun hb => h (List.mem_singleton.mp hb)

theorem letters_ne : (0 : UInt8) ≠ 100 ∧ (0 : UInt8) ≠ 102 ∧ (47 : UInt8) ≠ 102 := by decide

/-- The directory "d" with a file "f". -/
def oneDir (host : Endian) : List (CmdArg (FsH.sample host)) :=
  [.dir ⟨[100], not_mem_letter letters_ne.1⟩
    (some (.file ⟨[102], List.cons_ne_nil _ _, not_mem_letter letters_ne.2.1,
      not_mem_letter letters_ne.2.2⟩ (threeBytes host) .done))]

/-- The disk has three blocks of its own, and the tree takes three more. -/
theorem oneDir_exec (host : Endian) :
    exec NBLOCK (.outside .disk) (initDisk (FsH.sample host)).nextbno
      (argsPlan (FsH.sample host) 0 (oneDir host)) = .ok 6 := by
  rw [nextbno_initDisk]
  cases host <;> decide +kernel

theorem image_little_endian_oneDir : ∃ s,
    buildDisk (FsH.sample .little) (oneDir .little) = .ok s ∧
      LittleEndianImage (FsH.sample .little) s
        (finishFs (FsH.sample .little) (configReverseEndian (FsH.sample .little)) s) := by
  obtain ⟨s, hok, _⟩ := (buildDisk_follows (List.cons_ne_nil _ _)).of_exec (oneDir_exec .little)
  exact ⟨s, hok, (image_little_endian_iff hok).mpr rfl⟩

/-- The argument "a", a directory that `opendir` does not open. -/
def closedDir (F : FsH) : CmdArg F := .dir ⟨[97], by decide⟩ none

theorem buildDisk_closedDir (F : FsH) : ∃ s, buildDisk F [closedDir F] = .ok s := by
  have hne := List.cons_ne_nil (closedDir F) []
  obtain ⟨s, hok, _⟩ := (buildDisk_follows hne).of_exec rfl
  exact ⟨s, hok⟩

/-- On a big-endian host the routine is compiled in, and the image is big-endian. -/
theorem image_closedDir_big : ∃ s,
    buildDisk (FsH.sample .big) [closedDir (FsH.sample .big)] = .ok s ∧
      configReverseEndian (FsH.sample .big) = true ∧
      ¬LittleEndianImage (FsH.sample .big) s
        (finishFs (FsH.sample .big) (configReverseEndian (FsH.sample .big)) s) := by
  obtain ⟨s, hok⟩ := buildDisk_closedDir (FsH.sample .big)
  refine ⟨s, hok, rfl, fun himage => ?_⟩
  cases himage.host_little (buildDisk_built hok)

end RiscvMos.Fsformat
