import RiscvMos.FsInit
import RiscvMos.FsNames

/-! Runs of `create_file` on one directory, while the rest of the tool goes on. -/
namespace RiscvMos.Fsformat
open ByteMem HostWord Function Budget

section
variable {F : FsH} {s s₁ s' start : Tool} {p f : FilePtr} {given : List FilePtr} {bs : List ℕ}

/-- The states and the entries returned, the last one first. Between two calls the entry gets its
name, and what does not belong to the directory may change, with the words of its entries. -/
inductive CreateRun (F : FsH) (p : FilePtr) (start : Tool) : Tool → List FilePtr → Prop
  | start : CreateRun F p start start []
  | call {s s₁ s₂ : Tool} {given : List FilePtr} {f : FilePtr} :
      CreateRun F p start s given → createFile F s p = .ok (f, s₁) →
      Changes s₁ s₂ (InName F f) → s₂.nextbno ≤ NBLOCK → s₂.nameByte F f 0 ≠ 0 →
      CreateRun F p start s₂ (f :: given)
  | other {s s₁ : Tool} {given : List FilePtr} {A : Obj → ℕ → Prop} :
      CreateRun F p start s given → Changes s s₁ A → s₁.nextbno ≤ NBLOCK →
      (∀ o i, o.Below s.nextbno → Owns F s p o i → A o i → ∃ g ∈ given, InWords F g o i) →
      CreateRun F p start s₁ given

/-- The blocks that the next call claims are left. -/
def HasRoom (F : FsH) (s : Tool) (m : ℕ) : Prop :=
  Fits NBLOCK (fun e => e = .outside .disk) s.nextbno (createPlan F m)

/-- The call returns an unused entry in a block that is linked to the directory, and leaves all
else alone. -/
structure GoodCall (F : FsH) (s s₁ : Tool) (p f : FilePtr) (given : List FilePtr) : Prop where
  unused : ZeroFile F s₁ f
  linked : ∃ i k, i < s₁.get F p .f_size/F.BLOCK_SIZE ∧ k < F.FILE2BLK ∧
    f = F.entry (blockOf F s₁ p i) k ∧ (s₁.disk (blockOf F s₁ p i)).type = .BLOCK_FILE
  fresh : ∀ g ∈ given, g ≠ f ∧ ∀ o i, InFile F g o i → ¬InFile F f o i
  own : ∀ b < s.nextbno, f.obj = .block b →
    ∃ i < s.get F p .f_size/F.BLOCK_SIZE, blockOf F s p i = b
  links : ∀ i < s.get F p .f_size/F.BLOCK_SIZE, blockOf F s₁ p i = blockOf F s p i
  frame : Changes s s₁ (InLinks F s p)

/-- The directory of a run, with the entries returned as its first ones. -/
structure RunSlots (F : FsH) (p : FilePtr) (start s : Tool) (given : List FilePtr)
    (bs : List ℕ) : Prop where
  slots : Slots F start.nextbno s p given.length bs
  tight : bs.length*F.FILE2BLK < given.length+F.FILE2BLK
  entries : ∀ g ∈ given, ∃ j < given.length, g = entryAt F bs j

theorem file_inhabited (f : FilePtr) : InFile F f f.obj f.base :=
  ⟨rfl, le_rfl, Nat.lt_add_of_pos_right F.fileStruct_pos⟩

theorem Created.blocks_append {low m : ℕ} {bs' : List ℕ}
    (h : Created F low s s₁ p f m bs bs') : ∃ cs, bs' = bs ++ cs := by
  rcases h.blocks with rfl | rfl
  · exact ⟨[], (List.append_nil _).symm⟩
  · exact ⟨_, rfl⟩

theorem Created.good (hrun : RunSlots F p start s given bs) {bs' : List ℕ}
    (h : Created F start.nextbno s s₁ p f given.length bs bs') : GoodCall F s s₁ p f given := by
  obtain ⟨cs, hcs⟩ := h.blocks_append
  have hq := div_lt_length h.lt
  have hentry := h.entry
  have hobj : f.obj = .block bs'[given.length/F.FILE2BLK] := by
    rw [hentry, entryAt, FsH.entry, List.getD_eq_getElem _ _ hq]
  constructor
  · intro i hin
    exact h.slots.unused _ le_rfl h.lt _ i (hentry ▸ hin)
  · refine ⟨given.length/F.FILE2BLK, given.length%F.FILE2BLK, by rwa [h.slots.nblk],
      Nat.mod_lt _ F.file2blk_pos, ?_, ?_⟩
    · rw [h.slots.links.link _ hq, hentry, entryAt, List.getD_eq_getElem _ _ hq]
    · rw [h.slots.links.link _ hq]
      exact (h.slots.links.mem _ (List.getElem_mem hq)).2.2
  · intro g hg
    obtain ⟨j, hj, rfl⟩ := hrun.entries g hg
    have hj' : j < bs.length*F.FILE2BLK := hj.trans_le hrun.slots.room
    have hapart : ∀ o i, InFile F (entryAt F bs j) o i → ¬InFile F f o i := by
      intro o i hin
      rw [hentry]
      refine entryAt_apart h.slots.links.nodup (hj.trans h.lt) h.lt hj.ne ?_
      rwa [hcs, entryAt_append hj']
    exact ⟨fun he => hapart _ _ (file_inhabited _) (he ▸ file_inhabited _), hapart⟩
  · intro b hb ho
    rw [hobj] at ho
    injection ho with ho
    -- A block that is older than the call is not the one that it has linked.
    have hmem : b ∈ bs' := ho ▸ List.getElem_mem hq
    have hmem' : b ∈ bs := by
      rcases h.blocks with rfl | rfl
      · exact hmem
      · rcases List.mem_append.mp hmem with hmem | hmem
        · exact hmem
        · exact absurd (List.mem_singleton.mp hmem) hb.ne
    obtain ⟨i, hi, hbi⟩ := List.getElem_of_mem hmem'
    exact ⟨i, by rwa [hrun.slots.nblk], by rw [hrun.slots.links.link i hi, hbi]⟩
  · intro i hi
    rw [hrun.slots.nblk] at hi
    rw [hrun.slots.links.link i hi, h.slots.links.link i (by rw [hcs, List.length_append]; omega)]
    simp only [hcs, List.getElem_append_left hi]
  · exact h.changes

/-! ### Runs -/

theorem RunSlots.name {s₂ : Tool} {bs' : List ℕ} (hrun : RunSlots F p start s given bs)
    (h : Created F start.nextbno s s₁ p f given.length bs bs') (hc : Changes s₁ s₂ (InName F f))
    (hnext : s₂.nextbno ≤ NBLOCK) (hname : s₂.nameByte F f 0 ≠ 0) :
    RunSlots F p start s₂ (f :: given) bs' where
  slots := by
    have hentry := h.entry
    subst hentry
    exact h.slots.succ h.lt (hc.mono fun _ _ _ => InName.inFile) hnext hname
  tight := by
    have hle := h.le
    rw [List.length_cons]
    omega
  entries g hg := by
    obtain ⟨cs, hcs⟩ := h.blocks_append
    rcases List.mem_cons.mp hg with rfl | hg
    · exact ⟨given.length, Nat.lt_succ_self _, h.entry⟩
    · obtain ⟨j, hj, rfl⟩ := hrun.entries g hg
      exact ⟨j, hj.trans (Nat.lt_succ_self _),
        by rw [hcs, entryAt_append (hj.trans_le hrun.slots.room)]⟩

theorem RunSlots.create (h : RunSlots F p start s given bs) :
    Follows NBLOCK (.outside .disk) s.nextbno (createPlan F given.length) (createFile F s p)
      (fun n r => n = r.2.nextbno ∧
        ∃ bs', Created F start.nextbno s r.2 p r.1 given.length bs bs') :=
  h.slots.create h.tight

theorem CreateRun.slots (hstart : EmptyDir F start p) (h : CreateRun F p start s given) :
    ∃ bs, RunSlots F p start s given bs := by
  induction h with
  | start => exact ⟨[], hstart.slots, by simpa using F.file2blk_pos, nofun⟩
  | call _ hok hc hnext hname ih =>
    obtain ⟨bs, hrun⟩ := ih
    obtain ⟨n, _, _, bs', hcreated⟩ := hrun.create.of_ok hok
    exact ⟨bs', hrun.name hcreated hc hnext hname⟩
  | other _ hc hnext hA ih =>
    obtain ⟨bs, hrun⟩ := ih
    refine ⟨bs, ?_, hrun.tight, hrun.entries⟩
    refine hrun.slots.congr hc hnext fun o i ho hown ha => ?_
    obtain ⟨g, hg, hin⟩ := hA o i ho hown ha
    obtain ⟨j, hj, rfl⟩ := hrun.entries g hg
    exact ⟨j, hj, hin⟩

/-- With at most as many entries as the direct links have room for, the only thing that stops a
call is the end of the disk. -/
theorem exec_createPlan {m n : ℕ} {e : Stop} (hm : m ≤ F.NDIRECT*F.FILE2BLK)
    (h : exec NBLOCK (.outside .disk) n (createPlan F m) = .error e) : e = .outside .disk := by
  refine (eq_full_or_mem_of_exec h).resolve_right fun hmem => ?_
  have hlen : ¬F.NINDIRECT ≤ m/F.FILE2BLK := by
    have hdiv := Nat.div_le_of_le_mul (hm.trans_eq (Nat.mul_comm _ _))
    exact not_le.mpr (hdiv.trans_lt F.direct_lt)
  rw [createPlan, savePlan, if_neg (not_lt.mpr hm), if_neg hlen] at hmem
  split_ifs at hmem <;> simp at hmem

/-- In a run of calls on an empty directory, with other work between them, a call for which there
are blocks returns an unused entry of the directory exactly when no more entries are in use than
the direct links have room for. -/
theorem create_file_good_iff (hstart : EmptyDir F start p) (hrun : CreateRun F p start s given)
    (hroom : HasRoom F s given.length) :
    (∃ f s₁, createFile F s p = .ok (f, s₁) ∧ GoodCall F s s₁ p f given) ↔
      given.length ≤ F.NDIRECT*F.FILE2BLK := by
  obtain ⟨bs, hslots⟩ := hrun.slots hstart
  constructor
  · rintro ⟨f, s₁, hok, _⟩
    obtain ⟨n, hexec, _⟩ := hslots.create.of_ok hok
    -- With more entries the plan of the call is a stop, whatever room there is.
    by_contra hm
    rw [createPlan, if_pos (not_le.mp hm)] at hexec
    cases hexec
  · intro hm
    cases hexec : exec NBLOCK (.outside .disk) s.nextbno (createPlan F given.length) with
    | ok n =>
      obtain ⟨⟨f, s₁⟩, hok, _, bs', hcreated⟩ := hslots.create.of_exec hexec
      exact ⟨f, s₁, hok, hcreated.good hslots⟩
    | error e =>
      rw [HasRoom, fits_iff (fun e : Stop => e = .outside .disk) rfl] at hroom
      exact absurd (exec_createPlan hm hexec) (hroom e hexec)

/-! ### Calls without other work between them -/

/-- Calls of `create_file`, each followed by the name of a file; the entries and the last state. -/
def createRun (F : FsH) (s : Tool) (p : FilePtr) : List (List UInt8) → Run (List FilePtr × Tool)
  | [] => .ok ([], s)
  | path :: paths => do
    let (f, s) ← createFile F s p
    let s ← nameFile F s f path
    let (fs, s) ← createRun F s p paths
    .ok (f :: fs, s)

/-- What `n` calls do to the counter of blocks, in a directory with `m` entries in use. -/
def createsPlan (F : FsH) (m : ℕ) : ℕ → List (Ev Stop)
  | 0 => []
  | n+1 => createPlan F m ++ createsPlan F (m+1) n

/-- A path whose last component can be the name of an entry. -/
structure GoodPath (F : FsH) (path : List UInt8) : Prop where
  length_lt : (fname path).length < F.MAXNAMELEN
  head_ne : (fname path).getD 0 0 ≠ 0

theorem GoodPath.nameFile {path : List UInt8} (h : GoodPath F path) (hf : f.obj.Below s.nextbno) :
    ∃ s₁, nameFile F s f path = .ok s₁ ∧ s₁.nextbno = s.nextbno ∧ Changes s s₁ (InName F f) ∧
      s₁.nameByte F f 0 ≠ 0 := by
  refine ⟨_, if_pos h.length_lt, nextbno_copyName _ _, copyName_changes hf h.length_lt _, ?_⟩
  rw [nameByte_copyName, if_pos (Nat.succ_pos _)]
  exact h.head_ne

theorem createRun_follows (hstart : EmptyDir F start p) {paths : List (List UInt8)}
    (hpaths : ∀ path ∈ paths, GoodPath F path) (hrun : CreateRun F p start s given) :
    Follows NBLOCK (.outside .disk) s.nextbno (createsPlan F given.length paths.length)
      (createRun F s p paths)
      (fun n r => n = r.2.nextbno ∧ r.1.length = paths.length ∧
        CreateRun F p start r.2 (r.1.reverse ++ given)) := by
  induction paths generalizing s given with
  | nil => exact Follows.ok ⟨rfl, rfl, hrun⟩
  | cons path paths ih =>
    obtain ⟨bs, hslots⟩ := hrun.slots hstart
    rw [createRun, List.length_cons, createsPlan]
    refine hslots.create.and_ok.bind ?_
    rintro n ⟨f, s₁⟩ ⟨⟨rfl, bs', hcreated⟩, hok⟩
    have hentry : f = entryAt F bs' given.length := hcreated.entry
    have hf : f.obj.Below s₁.nextbno := by
      rw [hentry]
      exact (hcreated.slots.links.entry_ne hcreated.lt).1
    have hle : s₁.nextbno ≤ NBLOCK := hcreated.slots.links.next_le
    obtain ⟨s₂, hname, hnext, hc, hne⟩ :=
      (hpaths path List.mem_cons_self).nameFile hf
    have hcall : CreateRun F p start s₂ (f :: given) :=
      hrun.call hok hc (hnext.trans_le hle) hne
    show Follows _ _ _ _ (nameFile F s₁ f path >>= fun s => createRun F s p paths >>= fun r =>
      .ok (f :: r.1, r.2)) _
    rw [hname, ← hnext]
    refine (ih (fun path' h => hpaths path' (List.mem_cons_of_mem _ h)) hcall).bind_ok ?_
    rintro n ⟨fs, s₃⟩ ⟨hn, hlen, hrun'⟩
    refine ⟨(f :: fs, s₃), rfl, hn, congrArg Nat.succ hlen, ?_⟩
    rwa [List.reverse_cons, List.append_assoc]

end

/-! ### The sample header -/

theorem sample_nextbno : (initDisk (FsH.sample .little)).nextbno = 3 := by
  rw [nextbno_initDisk]
  rfl

theorem createRun_root {paths : List (List UInt8)} {n : ℕ}
    (hpaths : ∀ path ∈ paths, GoodPath (FsH.sample .little) path)
    (hexec : exec NBLOCK (.outside .disk) 3 (createsPlan (FsH.sample .little) 0 paths.length) =
      .ok n) :
    ∃ fs s, createRun (FsH.sample .little) (initDisk (FsH.sample .little))
        (FsH.sample .little).root paths = .ok (fs, s) ∧
      s.nextbno = n ∧ fs.reverse.length = paths.length ∧
      CreateRun (FsH.sample .little) (FsH.sample .little).root (initDisk (FsH.sample .little)) s
        fs.reverse := by
  rw [← sample_nextbno] at hexec
  obtain ⟨⟨fs, s⟩, hok, hn, hfs, hrun⟩ :=
    (createRun_follows (initDisk_empty _) hpaths .start).of_exec hexec
  rw [List.append_nil] at hrun
  exact ⟨fs, s, hok, hn.symm, by rw [List.length_reverse, hfs], hrun⟩

theorem letter_good : GoodPath (FsH.sample .little) [97] := ⟨by decide, by decide⟩

/-- The 41st file of a directory, in its third block. -/
theorem create_file_good_41 :
    ∃ fs s, createRun (FsH.sample .little) (initDisk (FsH.sample .little))
        (FsH.sample .little).root (List.replicate 40 [97]) = .ok (fs, s) ∧
      s.nextbno = 6 ∧
      ∃ f s₁, createFile (FsH.sample .little) s (FsH.sample .little).root = .ok (f, s₁) ∧
        GoodCall (FsH.sample .little) s s₁ (FsH.sample .little).root f fs.reverse := by
  have hexec : exec NBLOCK (.outside .disk) 3
      (createsPlan (FsH.sample .little) 0 (List.replicate 40 ([97] : List UInt8)).length) =
      .ok 6 := by
    rw [List.length_replicate]
    decide +kernel
  obtain ⟨fs, s, hok, hnext, hlen, hrun⟩ := createRun_root
    (fun path hpath => List.eq_of_mem_replicate hpath ▸ letter_good) hexec
  rw [List.length_replicate] at hlen
  have hroom : HasRoom (FsH.sample .little) s fs.reverse.length := by
    rw [HasRoom, hnext, hlen]
    exact trivial
  refine ⟨fs, s, hok, hnext, (create_file_good_iff (initDisk_empty _) hrun hroom).mpr ?_⟩
  rw [hlen]
  decide

/-- With 161 files in the root its last block, with 15 unused entries, stands behind the direct
links; `create_file` reads `f_direct[10]` on the way to it. -/
theorem createRun_sample {paths : List (List UInt8)} (hlen : paths.length = 161)
    (hpaths : ∀ path ∈ paths, GoodPath (FsH.sample .little) path) :
    ∃ fs s, createRun (FsH.sample .little) (initDisk (FsH.sample .little))
        (FsH.sample .little).root paths = .ok (fs, s) ∧
      s.nextbno = 15 ∧
      createFile (FsH.sample .little) s (FsH.sample .little).root =
        .error (.outside .f_direct) := by
  have hexec : exec NBLOCK (.outside .disk) 3
      (createsPlan (FsH.sample .little) 0 paths.length) = .ok 15 := by
    rw [hlen]
    decide +kernel
  obtain ⟨fs, s, hok, hnext, hgiven, hrun⟩ := createRun_root hpaths hexec
  obtain ⟨bs, hslots⟩ := hrun.slots (initDisk_empty _)
  have hcreate := hslots.create
  rw [hgiven, hlen] at hcreate
  exact ⟨fs, s, hok, hnext, (hcreate.error_iff _).mpr rfl⟩

/-- The 162nd file of a directory. -/
theorem create_file_162 :
    ∃ fs s, createRun (FsH.sample .little) (initDisk (FsH.sample .little))
        (FsH.sample .little).root (List.replicate 161 [97]) = .ok (fs, s) ∧
      s.nextbno = 15 ∧
      ¬∃ f s₁, createFile (FsH.sample .little) s (FsH.sample .little).root = .ok (f, s₁) ∧
        GoodCall (FsH.sample .little) s s₁ (FsH.sample .little).root f fs.reverse := by
  obtain ⟨fs, s, hok, hnext, herror⟩ := createRun_sample List.length_replicate
    fun path hpath => List.eq_of_mem_replicate hpath ▸ letter_good
  refine ⟨fs, s, hok, hnext, ?_⟩
  rintro ⟨f, s₁, hcall, _⟩
  rw [herror] at hcall
  cases hcall

end RiscvMos.Fsformat
