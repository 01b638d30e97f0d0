import RiscvMos.FsFile

/-! Runs over trees of host directories: a directory keeps its entries while they are filled. -/
namespace RiscvMos.Fsformat
open ByteMem HostWord Function Budget

section
variable {F : FsH} {s₀ s s₁ s' : Tool} {p t : FilePtr} {m : ℕ} {bs bs' : List ℕ}

/-- A directory with `m` entries that was empty in `s₀`, where what has changed since is the words
of the directory itself. -/
structure Dir (F : FsH) (s₀ s : Tool) (p : FilePtr) (m : ℕ) (bs : List ℕ) : Prop where
  slots : Slots F s₀.nextbno s p m bs
  tight : bs.length*F.FILE2BLK < m+F.FILE2BLK
  changes : Changes s₀ s (InWords F p)

theorem EmptyDir.dir (h : EmptyDir F s p) : Dir F s s p 0 [] :=
  ⟨h.slots, by simpa using F.file2blk_pos, Changes.refl _ _⟩

theorem Slots.entry_not_below (h : Slots F s₀.nextbno s p m bs) {j : ℕ}
    (hj : j < bs.length*F.FILE2BLK) : ¬(entryAt F bs j).obj.Below s₀.nextbno := by
  obtain ⟨b, hb, ho⟩ := entryAt_mem hj
  rw [ho]
  exact not_lt.mpr (h.links.mem b hb).1

theorem Slots.inLinks_words (h : Slots F s₀.nextbno s p m bs) {o : Obj} {i : ℕ}
    (ho : o.Below s₀.nextbno) (hin : InLinks F s p o i) : InWords F p o i := by
  rcases hin with hin | hin
  · exact hin
  · obtain ⟨hlow, _⟩ := h.links.indirect (h.links.lt_of_inIndex hin)
    rw [hin.2] at ho
    exact absurd ho (not_lt.mpr hlow)

theorem Created.fresh (h : Created F s₀.nextbno s s₁ p t m bs bs') : FreshEntry F s₁ t where
  next_pos := h.slots.links.low_pos.trans_le h.slots.links.low_le
  next_le := h.slots.links.next_le
  older := h.entry ▸ (h.slots.links.entry_ne h.lt).1
  empty i hi := h.slots.unused m le_rfl h.lt _ i (h.entry ▸ hi)
  zero := h.slots.zero

theorem Dir.fill (h : Dir F s₀ s p m bs) (hc : Created F s₀.nextbno s s₁ p t m bs bs')
    (hch : Changes s₁ s' (InFile F t)) (hnext : s'.nextbno ≤ NBLOCK)
    (hname : s'.nameByte F t 0 ≠ 0) : Dir F s₀ s' p (m+1) bs' := by
  have hentry := hc.entry
  subst hentry
  refine ⟨hc.slots.succ hc.lt hch hnext hname, ?_, ?_⟩
  · have hle := hc.le
    omega
  · refine (h.changes.trans hc.changes fun _ _ => h.slots.inLinks_words).trans hch ?_
    rintro o i ho ⟨rfl, _⟩
    exact absurd ho (hc.slots.entry_not_below hc.lt)

/-- What happens below an entry of a directory leaves the directory as it is. -/
theorem Dir.child (h : Dir F s₀ s p m bs) {j : ℕ} (hj : j < m)
    (hch : Changes s s' (InWords F (entryAt F bs j))) (hnext : s'.nextbno ≤ NBLOCK) :
    Dir F s₀ s' p m bs := by
  refine ⟨h.slots.congr hch hnext fun o i _ _ hin => ⟨j, hj, hin⟩, h.tight, ?_⟩
  refine h.changes.trans hch ?_
  rintro o i ho ⟨rfl, _⟩
  exact absurd ho (h.slots.entry_not_below (hj.trans_le h.slots.room))

/-! ### The callers of `create_file` -/

theorem Dir.writeFile (h : Dir F s₀ s p m bs) {path : List UInt8}
    (hpath : (fname path).getD 0 0 ≠ 0) (file : HostFile F) :
    Follows NBLOCK (.outside .disk) s.nextbno (createPlan F m ++ fillPlan F path file.reads)
      (writeFile F s p path file)
      (fun n s' => n = s'.nextbno ∧ ∃ bs', Dir F s₀ s' p (m+1) bs') := by
  refine (h.slots.create h.tight).bind ?_
  rintro n ⟨t, s₁⟩ ⟨rfl, bs', hc⟩
  refine (fillFile_follows hc.fresh path file).mono ?_
  rintro n s' ⟨hn, cs, hfilled⟩
  refine ⟨hn, bs', h.fill hc hfilled.changes hfilled.links.next_le ?_⟩
  rw [hfilled.name 0 (Nat.zero_lt_of_lt F.name_gt)]
  exact hpath

theorem head_ne {name : List UInt8} (hne : name ≠ []) (h : 0 ∉ name) : name.getD 0 0 ≠ 0 := by
  obtain ⟨c, l, rfl⟩ := List.exists_cons_of_ne_nil hne
  rw [List.getD_cons_zero]
  rintro rfl
  exact h List.mem_cons_self

theorem Dir.enterDirectory (h : Dir F s₀ s p m bs) {path : List UInt8} (hpath : 0 ∉ path) :
    Follows NBLOCK (.outside .disk) s.nextbno (createPlan F m) (enterDirectory F s p path)
      (fun n r => n = r.2.nextbno ∧ EmptyDir F r.2 r.1 ∧
        ∃ bs', Dir F s₀ r.2 p (m+1) bs' ∧ r.1 = entryAt F bs' m) := by
  refine (h.slots.create h.tight).bind_ok ?_
  rintro n ⟨t, s₁⟩ ⟨rfl, bs', hc⟩
  have hfresh := hc.fresh
  have hgt := F.name_gt
  set s₂ := s₁.copyName F t (F.MAXNAMELEN-1) (basename path) with hs₂
  have hold : t.obj.Below s₂.nextbno := by
    rw [hs₂, nextbno_copyName]
    exact hfresh.older
  have hcopy : Changes s₁ s₂ (InFile F t) :=
    (copyName_changes hfresh.older (Nat.sub_le _ _) _).mono fun _ _ _ => InName.inFile
  have hset : Changes s₂ (s₂.set F t .f_type F.FTYPE_DIR) (InWords F t) := set_changes hold _ _
  have hch : Changes s₁ (s₂.set F t .f_type F.FTYPE_DIR) (InFile F t) :=
    hcopy.trans hset fun _ _ _ => InWords.inFile
  have hnext : (s₂.set F t .f_type F.FTYPE_DIR).nextbno = s₁.nextbno := by
    rw [nextbno_set, hs₂, nextbno_copyName]
  have hget : ∀ w, w ≠ .f_type → (s₂.set F t .f_type F.FTYPE_DIR).get F t w = 0 := by
    intro w hw
    rw [get_set_ne hw, hs₂, get_copyName _ (Nat.sub_le _ _), hfresh.get]
  have hname : (s₂.set F t .f_type F.FTYPE_DIR).nameByte F t 0 ≠ 0 := by
    rw [nameByte_set _ _ (by omega), hs₂, nameByte_copyName, if_pos (by omega)]
    exact head_ne (basename_ne_nil path) (basename_no_nul hpath)
  refine ⟨(t, s₂.set F t .f_type F.FTYPE_DIR), ?_, hnext.symm, ?_, bs', ?_, hc.entry⟩
  · show (nameDirectory F s₁ t path >>= fun s => Except.ok (t, s.set F t .f_type F.FTYPE_DIR)) = _
    rw [hfresh.empty.nameDirectory]
    rfl
  · exact ⟨hnext ▸ hfresh.next_pos, hnext ▸ hfresh.next_le, hnext ▸ hfresh.older,
      hget _ nofun, hget _ nofun, hfresh.zero.changes hch⟩
  · exact h.fill hc hch (hnext ▸ hfresh.next_le) hname

theorem Dir.tree (h : Dir F s₀ s p m bs) {path : List UInt8} (hpath : 0 ∉ path)
    {es : List (Ev Stop)} {run : FilePtr × Tool → Run Tool}
    (hrun : ∀ r, EmptyDir F r.2 r.1 → Follows NBLOCK (.outside .disk) r.2.nextbno es (run r)
      (fun n s' => n = s'.nextbno ∧ ∃ m' bs', Dir F r.2 s' r.1 m' bs')) :
    Follows NBLOCK (.outside .disk) s.nextbno (createPlan F m ++ es)
      (Fsformat.enterDirectory F s p path >>= run)
      (fun n s' => n = s'.nextbno ∧ ∃ bs', Dir F s₀ s' p (m+1) bs') := by
  refine (h.enterDirectory hpath).bind ?_
  rintro n ⟨p', s₁⟩ ⟨rfl, hempty, bs', hdir, hentry⟩
  refine (hrun _ hempty).mono ?_
  rintro n s₂ ⟨hn, m', bs'', hchild⟩
  exact ⟨hn, bs', hdir.child (Nat.lt_succ_self m) (hentry ▸ hchild.changes)
    hchild.slots.links.next_le⟩

/-! ### Trees -/

/-- What the loop of `write_directory` does to the counter of blocks, in a directory whose first
`m` entries have names. -/
def listingPlan (F : FsH) (m : ℕ) : Listing F → List (Ev Stop)
  | .done => []
  | .file d_name content rest =>
    createPlan F m ++ fillPlan F d_name.bytes content.reads ++ listingPlan F (m+1) rest
  | .dir _ content rest =>
    createPlan F m ++ listingPlan F 0 content ++ listingPlan F (m+1) rest
  | .noDir _ rest => listingPlan F m rest
  | .dots rest => listingPlan F m rest

theorem no_nul_append {path : List UInt8} (h : 0 ∉ path) (d_name : Name) :
    0 ∉ path ++ slash :: d_name.bytes := by
  rw [List.mem_append, List.mem_cons, not_or, not_or]
  exact ⟨h, by decide, d_name.no_nul⟩

theorem no_nul_basenamePath {path : List UInt8} (h : 0 ∉ path) : 0 ∉ basenamePath path := by
  rw [basenamePath]
  split_ifs
  · exact h
  · exact fun hc => h (stripSlashes_subset _ hc)

theorem fname_name (path : List UInt8) (d_name : Name) :
    fname (path ++ slash :: d_name.bytes) = d_name.bytes := fname_append d_name.no_slash

/-- The loop of `write_directory` with its recursive calls: the directory stays one, and of what
is older than it only its own words change. -/
theorem writeListing_follows (l : Listing F) {path : List UInt8} (hpath : 0 ∉ path)
    (h : Dir F s₀ s p m bs) :
    Follows NBLOCK (.outside .disk) s.nextbno (listingPlan F m l) (writeListing s p path l)
      (fun n s' => n = s'.nextbno ∧ ∃ m' bs', Dir F s₀ s' p m' bs') := by
  induction l generalizing s₀ s p m bs path with
  | done => exact Follows.ok ⟨rfl, m, bs, h⟩
  | file d_name content rest ih =>
    rw [listingPlan, writeListing]
    have hfill : fillPlan F d_name.bytes content.reads =
        fillPlan F (path ++ slash :: d_name.bytes) content.reads := by
      rw [fillPlan, fillPlan, fname_name, fname_of_no_slash d_name.no_slash]
    have hhead : (fname (path ++ slash :: d_name.bytes)).getD 0 0 ≠ 0 := by
      rw [fname_name]
      exact head_ne d_name.ne_nil d_name.no_nul
    rw [hfill]
    refine (h.writeFile hhead content).bind ?_
    rintro n s₁ ⟨rfl, bs', hdir⟩
    exact ih hpath hdir
  | dir d_name content rest ihc ihr =>
    rw [listingPlan, writeListing]
    have hbuf := no_nul_append hpath d_name
    -- For the directory below, the run starts anew with its empty entry.
    have htree := h.tree hbuf fun r hempty => ihc (no_nul_basenamePath hbuf) hempty.dir
    have hboth := htree.bind fun n s₁ h₁ => by
      obtain ⟨rfl, bs', hdir⟩ := h₁
      exact ihr hpath hdir
    rwa [bind_assoc] at hboth
  | noDir _ rest ih => exact ih hpath h
  | dots rest ih => exact ih hpath h

/-! ### The command line -/

/-- What the arguments do to the counter of blocks, from entry `m` of the root on. -/
def argsPlan (F : FsH) (m : ℕ) : List (CmdArg F) → List (Ev Stop)
  | [] => []
  | .noStat :: _ => [.halt .assert]
  | .file path _ content :: args =>
    createPlan F m ++ fillPlan F path.bytes content.reads ++ argsPlan F (m+1) args
  | .dir _ none :: args => argsPlan F m args
  | .dir _ (some content) :: args =>
    createPlan F m ++ listingPlan F 0 content ++ argsPlan F (m+1) args
  | .other :: _ => [.halt (.exit 2)]

theorem argLoop_follows (args : List (CmdArg F)) (h : Dir F s₀ s p m bs) (hp : p = F.root) :
    Follows NBLOCK (.outside .disk) s.nextbno (argsPlan F m args) (argLoop F s args)
      (fun n s' => n = s'.nextbno ∧ ∃ m' bs', Dir F s₀ s' p m' bs') := by
  subst hp
  induction args generalizing s m bs with
  | nil => exact Follows.ok ⟨rfl, m, bs, h⟩
  | cons arg args ih =>
    cases arg with
    | noStat => exact Follows.halt _
    | other => exact Follows.halt _
    | file path named content =>
      rw [argsPlan, argLoop]
      have hhead : (fname path.bytes).getD 0 0 ≠ 0 :=
        head_ne named fun hc => path.no_nul (fname_subset _ hc)
      refine (h.writeFile hhead content).bind ?_
      rintro n s₁ ⟨rfl, bs', hdir⟩
      exact ih hdir
    | dir path content =>
      cases content with
      | none => exact ih h
      | some content =>
        rw [argsPlan, argLoop, writeDirectory]
        refine (h.tree path.no_nul fun r hempty =>
          writeListing_follows content (no_nul_basenamePath path.no_nul) hempty.dir).bind ?_
        rintro n s₁ ⟨rfl, bs', hdir⟩
        exact ih hdir

end

end RiscvMos.Fsformat
