import RiscvMos.FsMemory
import Mathlib.Data.List.GetD
import Mathlib.Data.List.TakeWhile

/-! The names that `write_file` and `write_directory` store in an entry. -/
namespace RiscvMos.Fsformat
open ByteMem HostWord Function

section
variable {F : FsH} {s s' : Tool} {f : FilePtr} {path : List UInt8}

/-! ### Paths -/

theorem fname_subset (path : List UInt8) : fname path ⊆ path := by
  intro c hc
  rw [fname, List.mem_reverse] at hc
  exact List.mem_reverse.mp ((List.takeWhile_sublist _).mem hc)

theorem stripSlashes_subset (path : List UInt8) : stripSlashes path ⊆ path := by
  intro c hc
  rw [stripSlashes, List.mem_reverse] at hc
  exact List.mem_reverse.mp ((List.dropWhile_sublist _).mem hc)

theorem basename_no_nul (h : 0 ∉ path) : 0 ∉ basename path := by
  rw [basename]
  split_ifs with hp hs
  · decide
  · decide
  · exact fun hc => h (stripSlashes_subset _ (fname_subset _ hc))

theorem fname_ne_nil_iff : fname path ≠ [] ↔ ∃ c t, path.reverse = c :: t ∧ c ≠ slash := by
  rw [fname, ne_eq, List.reverse_eq_nil_iff]
  cases path.reverse with
  | nil => simp
  | cons c t => by_cases h : c = slash <;> simp [h]

theorem basename_of_file (h : fname path ≠ []) : basename path = fname path := by
  obtain ⟨c, t, hrev, hc⟩ := fname_ne_nil_iff.mp h
  have hstrip : stripSlashes path = path := by
    rw [stripSlashes, hrev, List.dropWhile_cons_of_neg (by simpa using hc), ← hrev,
      List.reverse_reverse]
  have hpath : path ≠ [] := by
    rintro rfl
    cases hrev
  rw [basename, if_neg hpath, hstrip, if_neg hpath]

theorem no_slash_reverse (h : slash ∉ path) : ∀ c ∈ path.reverse, decide (c ≠ slash) = true := by
  intro c hc
  rw [decide_eq_true_eq]
  rintro rfl
  exact h (List.mem_reverse.mp hc)

theorem fname_of_no_slash (h : slash ∉ path) : fname path = path := by
  rw [fname, List.takeWhile_eq_self_iff.mpr (no_slash_reverse h), List.reverse_reverse]

theorem fname_append {name : List UInt8} (h : slash ∉ name) :
    fname (path ++ slash :: name) = name := by
  rw [fname, List.reverse_append, List.reverse_cons, List.append_assoc,
    List.takeWhile_append_of_pos (no_slash_reverse h), List.singleton_append,
    List.takeWhile_cons_of_neg (by simp), List.append_nil, List.reverse_reverse]

theorem basename_ne_nil (path : List UInt8) : basename path ≠ [] := by
  rw [basename]
  split_ifs with hp hs
  · decide
  · decide
  · -- What is left of the path does not end in '/'.
    rw [fname_ne_nil_iff, stripSlashes, List.reverse_reverse]
    rw [stripSlashes, List.reverse_eq_nil_iff] at hs
    obtain ⟨c, t, hct⟩ := List.exists_cons_of_ne_nil hs
    refine ⟨c, t, hct, ?_⟩
    have hhead := List.head?_dropWhile_not (fun c => decide (c = slash)) path.reverse
    rw [hct] at hhead
    simpa using hhead

/-! ### Stores -/

theorem nameByte_copyName (n : ℕ) (src : List UInt8) (i : ℕ) :
    (s.copyName F f n src).nameByte F f i = if i < n then src.getD i 0 else s.nameByte F f i := by
  rw [Tool.nameByte, Tool.copyName, obj_setObj_same, blit]
  by_cases h : i < n
  · rw [if_pos (by omega), if_pos h, Nat.add_sub_cancel_left]
  · rw [if_neg (by omega), if_neg h]
    rfl

/-- `f->f_name` holds the string `name`, with its NUL in the array, and no byte outside of
`f->f_name` has changed. -/
structure Stored (F : FsH) (s s' : Tool) (f : FilePtr) (name : List UInt8) : Prop where
  string : ∃ n < F.MAXNAMELEN, s'.nameByte F f n = 0 ∧
    (List.range n).map (s'.nameByte F f) = name
  frame : ∀ o i, ¬InName F f o i → s'.obj o i = s.obj o i

/-- The name is stored, or the tool has stopped with an error of its own. -/
def StoresOrRefuses (F : FsH) (s : Tool) (f : FilePtr) (name : List UInt8) : Run Tool → Prop
  | .ok s' => Stored F s s' f name
  | .error (.outside _) => False
  | .error .assert => True
  | .error (.exit _) => True

/-- The two callers of `create_file`. -/
inductive Writer
  | write_file
  | write_directory
  deriving DecidableEq

/-- How each of them stores the name of `path` in the new entry. -/
def storeName (F : FsH) (s : Tool) (f : FilePtr) (path : List UInt8) : Writer → Run Tool
  | .write_file => nameFile F s f path
  | .write_directory => nameDirectory F s f path

/-- All bytes of `*f` are zero. -/
def ZeroFile (F : FsH) (s : Tool) (f : FilePtr) : Prop := ∀ i, InFile F f f.obj i → s.obj f.obj i = 0

theorem ZeroFile.nameByte (hz : ZeroFile F s f) {i : ℕ} (hi : i < F.MAXNAMELEN) :
    s.nameByte F f i = 0 :=
  hz _ (InName.inFile ⟨rfl, Nat.le_add_right _ _, Nat.add_lt_add_left hi _⟩)

theorem ZeroFile.copyName (hz : ZeroFile F s f) {n : ℕ} {name : List UInt8}
    (hlen : name.length < F.MAXNAMELEN) (hn : name.length ≤ n) (hmax : n ≤ F.MAXNAMELEN) :
    Stored F s (s.copyName F f n name) f name where
  string := by
    refine ⟨name.length, hlen, ?_, ?_⟩
    · rw [nameByte_copyName, List.getD_eq_default _ _ le_rfl, hz.nameByte hlen, ite_self]
    · refine List.ext_getElem (by simp) fun i hi hi' => ?_
      rw [List.getElem_map, List.getElem_range, nameByte_copyName, if_pos (hi'.trans_le hn),
        List.getD_eq_getElem _ _ hi']
  frame o i hi := by
    by_cases ho : o = f.obj
    · subst ho
      rw [Tool.copyName, obj_setObj_same]
      refine blit_sameOutside _ _ _ _ i ?_
      by_contra hin
      exact hi ⟨rfl, by omega, by omega⟩
    · rw [Tool.copyName, obj_setObj_ne ho]

/-- The check behind `strncpy` looks at a byte that it never writes. -/
theorem ZeroFile.nameDirectory (hz : ZeroFile F s f) (path : List UInt8) :
    nameDirectory F s f path = .ok (s.copyName F f (F.MAXNAMELEN-1) (basename path)) := by
  have hgt := F.name_gt
  have hlast : (s.copyName F f (F.MAXNAMELEN-1) (basename path)).nameByte F f (F.MAXNAMELEN-1) =
      0 := by
    rw [nameByte_copyName, if_neg (lt_irrefl _), hz.nameByte (by omega)]
  exact if_neg (not_not.mpr hlast)

theorem Stored.length_lt {name : List UInt8} (h : Stored F s s' f name) :
    name.length < F.MAXNAMELEN := by
  obtain ⟨n, hn, _, rfl⟩ := h.string
  rwa [List.length_map, List.length_range]

/-- A long name is cut by `strncpy`, and overruns the array under `strcpy`. -/
theorem StoresOrRefuses.length_lt (hz : ZeroFile F s f) {writer : Writer}
    (hfile : writer = .write_file → fname path ≠ [])
    (h : StoresOrRefuses F s f (basename path) (storeName F s f path writer)) :
    (basename path).length < F.MAXNAMELEN := by
  cases writer with
  | write_file =>
    rw [basename_of_file (hfile rfl)] at h ⊢
    by_contra hlen
    rw [storeName, nameFile, if_neg hlen] at h
    exact h
  | write_directory =>
    rw [storeName, hz.nameDirectory] at h
    exact Stored.length_lt h

/-- The name of a path, which is the part behind the last '/', is stored as it is or refused by
the tool exactly when it is shorter than the array. -/
theorem store_name_iff (hz : ZeroFile F s f) {writer : Writer}
    (hfile : writer = .write_file → fname path ≠ []) :
    StoresOrRefuses F s f (basename path) (storeName F s f path writer) ↔
      (basename path).length < F.MAXNAMELEN := by
  refine ⟨StoresOrRefuses.length_lt hz hfile, fun hlen => ?_⟩
  cases writer with
  | write_file =>
    rw [basename_of_file (hfile rfl)] at hlen ⊢
    rw [storeName, nameFile, if_pos hlen]
    exact hz.copyName hlen (Nat.le_succ _) hlen
  | write_directory =>
    rw [storeName, hz.nameDirectory]
    exact hz.copyName hlen (Nat.le_sub_one_of_lt hlen) (Nat.sub_le _ _)

end

theorem zeroFile_start (F : FsH) (f : FilePtr) : ZeroFile F Tool.start f := by
  intro i _
  cases f.obj <;> rfl

/-- A file with the path "a/b". -/
theorem store_name_short :
    StoresOrRefuses (FsH.sample .little) Tool.start ((FsH.sample .little).entry 3 0)
      (basename [97, slash, 98])
      (storeName (FsH.sample .little) Tool.start ((FsH.sample .little).entry 3 0) [97, slash, 98]
        .write_file) ↔
      (basename [97, slash, 98]).length < 128 :=
  store_name_iff (zeroFile_start _ _) fun _ => by decide

/-- A directory whose name has 128 bytes: the tool goes on with the first 127 of them. -/
theorem long_directory_name_cut :
    ¬StoresOrRefuses (FsH.sample .little) Tool.start ((FsH.sample .little).entry 3 0)
      (basename (List.replicate 128 97))
      (storeName (FsH.sample .little) Tool.start ((FsH.sample .little).entry 3 0)
        (List.replicate 128 97) .write_directory) := by
  intro h
  have hlen := StoresOrRefuses.length_lt (zeroFile_start _ _) (by nofun) h
  have hname : fname (List.replicate 128 97) = List.replicate 128 97 :=
    fname_of_no_slash fun hc => absurd (List.eq_of_mem_replicate hc) (by decide)
  have hne : fname (List.replicate 128 97) ≠ [] := by
    rw [hname]
    decide
  rw [basename_of_file hne, hname, List.length_replicate] at hlen
  exact absurd hlen (lt_irrefl _)

end RiscvMos.Fsformat
