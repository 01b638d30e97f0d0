import RiscvMos.ContextSwitch
import RiscvMos.Histories

/-! What the user mode of a new env sees of the past of its slot: the start state after two
histories that end with the same `env_create`. -/
namespace RiscvMos
open ByteMem IntrusiveQueue LinkChain Tiling Function

/-! ### The start state -/

/-- The page that user mode finds at `va`: the flags of its leaf and its bytes. -/
def userPage (m : Mem) (root va : ℕ) : Option (ℕ × List UInt8) :=
  match sv39 m root va with
  | some (level, pte) =>
    if pte &&& PTE_U ≠ 0 then
      let pa := Sv39.ppn pte*4096+va/4096%512^level*4096
      some (PTE_FLAGS pte, (List.range PAGE_SIZE).map (fun b => m (pa+b)))
    else none
  | none => none

/-- User mode starts in the same state: what `env_pop_tf` loads from the trap frame, and the
pages that user mode has. -/
structure SameStart (L : Layout) (K K' : Kernel) (e : ℕ) : Prop where
  state : ∀ h h', SameState (envPopTf h K.phys.mem (L.tf e)) (envPopTf h' K'.phys.mem (L.tf e))
  sstatus : ∀ h h', (envPopTf h' K'.phys.mem (L.tf e)).sstatus =
    (envPopTf h K.phys.mem (L.tf e)).sstatus
  pages : ∀ va < 2^39, userPage K'.phys.mem (K'.envs e).env_pgtable va =
    userPage K.phys.mem (K.envs e).env_pgtable va

/-- The words of the trap frame that neither `env_alloc` nor `load_icode` sets. -/
def SameLeftovers (L : Layout) (K K' : Kernel) (e : ℕ) : Prop := ∀ i, 0 < i → i < 32 → i ≠ 29 →
  frameWord K'.phys.mem (L.tf e) i = frameWord K.phys.mem (L.tf e) i

/-! ### Pages -/

/-- The page of an image that user mode should find at `va`. -/
def startPage (img : Image) (ehdr : Ehdr) (va : ℕ) : Option (ℕ × List UInt8) :=
  if va/4096 < 2^19 then
    (imageSpace img ehdr (va/4096)).map
      (fun x => (x.perm ||| PTE_V, (List.range PAGE_SIZE).map x.bytes))
  else none

theorem LinkedImage.imageSpace_perm {img : Image} {ehdr : Ehdr} (h : LinkedImage img ehdr) {v : ℕ}
    {x : UserPage} (hx : imageSpace img ehdr v = some x) : ∃ ph, x.perm = segPerm ph := by
  have hmem : v ∈ imagePages img ehdr := by
    by_contra hn
    rw [imageSpace_none hn] at hx
    cases hx
  obtain ⟨ph, hs, hv⟩ := mem_imagePages.mp hmem
  have htile : segTile img ph ∈ imageTiles img ehdr := List.mem_map_of_mem (mem_segments.mpr hs)
  have hval := layOut_of_mem (fun _ => none) h.tiles_apart htile hv
  obtain rfl := Option.some.inj (hval.symm.trans hx)
  exact ⟨ph, rfl⟩

theorem userPage_none {m : Mem} {root va : ℕ} (h : sv39 m root va = none) :
    userPage m root va = none := by
  rw [userPage, h]

section
variable {k : ℕ} {f : ℕ → ℕ} {u : ℕ} {G : Finset ℕ} {m₀ : Mem} {s : Phys} {τ : Typing}
  {sm : ℕ → Prop} {l : List ℕ} {N : ℕ} {img : Image} {ehdr : Ehdr}

theorem userPage_mkLeaf {root va c perm : ℕ} (hc : c%4096 = 0) (hlt : c < 2^56) (hperm : perm < 1024)
    (hu : perm &&& PTE_U ≠ 0) (h : sv39 s.mem root va = some (0, mkLeaf c perm)) :
    userPage s.mem root va =
      some (perm ||| PTE_V, (List.range PAGE_SIZE).map (fun b => s.mem (c+b))) := by
  have hppn : Sv39.ppn (mkLeaf c perm)*4096 = c := by
    have hf := perm_or_lt hperm
    rw [Sv39.ppn, mkLeaf_eq, mkPte_eq c _ hf]
    omega
  rw [userPage, h]
  dsimp only
  rw [mkLeaf_and c hperm (by decide) (by decide), if_pos hu, hppn, PTE_FLAGS_mkLeaf c hperm,
    Nat.pow_zero, Nat.mod_one, Nat.zero_mul, Nat.add_zero]

theorem Loaded.userPage {etext : ℕ} {fr : ℕ → ℕ}
    (h : Loaded k (kernelLeaf etext fr) u G m₀ s τ sm l (imageSpace img ehdr) N)
    (li : LinkedImage img ehdr) (hfr : ∀ j < NENV, IsPage (fr j)) (hlo : 0x80000000 < etext)
    (hhi : etext < KERNEND) {va : ℕ} (hva : va < 2^39) :
    RiscvMos.userPage s.mem u va = startPage img ehdr va := by
  have hroot := h.spaces.root_of_sm h.root
  have htyped := h.spaces.typed
  by_cases hself : VPN_L 2 va = VPN_L 2 UVPT
  · -- the self map is no translation
    have hv : ¬va/4096 < 2^19 := fun hv => user_index hv ((VPN_L_self va).mp hself)
    rw [userPage_none (htyped.sv39_selfSlot h.root hself), startPage, if_neg hv]
  · have hidx : vpnIndex 2 (va/4096) ≠ selfSlot := fun hi => hself ((VPN_L_self va).mpr hi)
    have hc := clear_of_index sm u hidx
    have hwalk (hread : Valid (leaf s.mem u (va/4096)) → ReadLeaf (leaf s.mem u (va/4096))) :
        sv39 s.mem u va = if Valid (leaf s.mem u (va/4096)) then some (0, leaf s.mem u (va/4096))
          else none := htyped.sv39_walk hroot hc hread
    have hinvalid (hval : ¬Valid (leaf s.mem u (va/4096))) : RiscvMos.userPage s.mem u va = none := by
      apply userPage_none
      rw [hwalk (fun hv => absurd hv hval), if_neg hval]
    by_cases hlow : va/4096 < 2^19
    · rw [startPage, if_pos hlow]
      cases hx : imageSpace img ehdr (va/4096) with
      | none => exact hinvalid (h.unmapped _ hlow hx)
      | some x =>
        obtain ⟨ph, hperm⟩ := li.imageSpace_perm hx
        obtain ⟨_, c, hpage, _, hleaf, hbytes⟩ := h.mapped _ x hx
        have hb := hpage.bounds
        have hlt : c < 2^56 := by omega
        have hal : c%4096 = 0 := by omega
        rw [hperm] at hleaf
        rw [hleaf] at hwalk
        have hsv := hwalk (fun _ => ReadLeaf_mkLeaf hlt (segPerm_lt ph) (segPerm_and ph (Or.inl rfl)))
        rw [if_pos (Valid_mkLeaf c (segPerm_lt ph))] at hsv
        rw [userPage_mkLeaf hal hlt (segPerm_lt ph) (segPerm_and ph (Or.inr rfl)) hsv]
        simp only [Option.map_some, hperm, Option.some.injEq, Prod.mk.injEq, true_and]
        apply List.map_congr_left
        intro b hb
        exact hbytes b (List.mem_range.mp hb)
    · rw [startPage, if_neg hlow]
      by_cases hmid : va/4096 < 2^26
      · -- the leaves of the kernel are not for user mode
        have hs := h.spaces.shared u (va/4096) h.root (by omega) hmid hidx
        by_cases hval : Valid (kernelLeaf etext fr (va/4096))
        · rw [if_pos hval] at hs
          rw [hs] at hwalk
          have hsv := hwalk (fun _ => kernelLeaf_readable hfr hlo hhi hmid hval)
          rw [if_pos hval] at hsv
          rw [RiscvMos.userPage, hsv]
          exact if_neg (fun hu => hu (kernelLeaf_not_user hlo hhi hmid hval))
        · rw [if_neg hval] at hs
          apply hinvalid
          rw [hs]
          exact not_Valid_zero
      · -- the root entries from 256 on are invalid
        have hi : 256 ≤ vpnIndex 2 (va/4096) := by
          simp only [vpnIndex]
          omega
        apply hinvalid
        rw [leaf, leafFrom_succ_of_not_valid (h.spaces.high u _ hroot hi (vpnIndex_lt 2 _))]
        exact not_Valid_zero

end

/-! ### Two histories -/

/-- What `env_create` leaves of the trap frame, and the pages that it makes. -/
structure Started (L : Layout) (K K' : Kernel) (e : ℕ) (img : Image) (ehdr : Ehdr) : Prop where
  env_lt : e < NENV
  words : ∀ i, i < 36 → frameWord K'.phys.mem (L.tf e) i =
    if i = 33 then ehdr.e_entry else if i = 29 then USTACKTOP-4-8 else if i = 32 then SSTATUS_SPIE
      else frameWord K.phys.mem (L.tf e) i
  pages : ∀ va < 2^39, userPage K'.phys.mem (K'.envs e).env_pgtable va = startPage img ehdr va

section
variable {L : Layout} {K K' K₁ K₁' : Kernel} {l l' : List ℕ} {img : Image} {ehdr : Ehdr} {e : ℕ}

theorem History.started (history : History L K) (free : FreeList K.phys l) (image : LinkedImage img ehdr)
    (room : createRoom img ehdr ≤ l.length) {priority : ℤ}
    (call : envCreate L K img priority = .ok (e, K₁)) : Started L K K₁ e img ehdr := by
  obtain ⟨calls, fr, τ, sm, l', ql, fl, h, _, hfr⟩ := history.inv
  obtain rfl := free.unique h.owned.spaces.typed.free
  have hinv : SpacesInv L K fr τ sm l ql fl := ⟨h.owned.spaces, h.sched⟩
  obtain ⟨_, _, _, _, c⟩ := envCreate_cases call
  have ha : asidAlloc K.asid_bitmap ≠ none := by
    rw [c.alloc.asid]
    simp
  obtain ⟨e', K₁', _, _, _, _, _, _, hcall, c', hload, _⟩ := hinv.envCreate_loads image room priority ha
  obtain ⟨rfl, rfl⟩ := Prod.mk.inj (Except.ok.inj (call.symm.trans hcall))
  obtain ⟨_, _, he, _⟩ := h.sched.alloc c'.alloc
  refine ⟨he, fun i hi => ?_, fun va hva => hload.userPage image hfr L.etext_gt L.etext_lt hva⟩
  have hend := L.tf_end he
  have htf : TF_SIZE = 288 := rfl
  calc frameWord K₁.phys.mem (L.tf e) i
      = load64 (startFrame L K.phys.mem e ehdr.e_entry) (L.tf e+8*i) :=
        load_congr (fun b _ hb => hload.low b (by omega))
    _ = _ := startFrame_word L K.phys.mem e (elfFrom_entry image.elf) i

theorem ofNat_frameWord {m m' : Mem} {a a' i : ℕ} :
    BitVec.ofNat 64 (frameWord m a i) = BitVec.ofNat 64 (frameWord m' a' i) ↔
      frameWord m a i = frameWord m' a' i := by
  have hlt (m : Mem) (a : ℕ) : frameWord m a i < 2^64 := load_lt m (a+8*i) 8
  rw [← BitVec.toNat_inj, BitVec.toNat_ofNat, BitVec.toNat_ofNat, Nat.mod_eq_of_lt (hlt m a),
    Nat.mod_eq_of_lt (hlt m' a')]

theorem Started.sameStart_iff (s : Started L K K₁ e img ehdr) (s' : Started L K' K₁' e img ehdr) :
    SameStart L K₁ K₁' e ↔ SameLeftovers L K K' e := by
  have hend := L.tf_end s.env_lt
  have hk : KERNEND < 2^63 := by decide
  have htf : TF_SIZE = 288 := rfl
  have hframe (h : Hart) (m : Mem) := (envPopTf_frame h m (show L.tf e+288 ≤ 2^64 by omega)).1
  constructor
  · intro same i h0 hi hne
    have hreg := (same.state default default).regs i h0 hi
    rw [(hframe _ _).regs i h0 hi, (hframe _ _).regs i h0 hi, ofNat_frameWord, s.words i (by omega),
      s'.words i (by omega)] at hreg
    rwa [if_neg (by omega), if_neg hne, if_neg (by omega), if_neg (by omega), if_neg hne,
      if_neg (by omega)] at hreg
  · intro left
    have hwords (i : ℕ) (h0 : 0 < i) (hi : i < 34) :
        frameWord K₁'.phys.mem (L.tf e) i = frameWord K₁.phys.mem (L.tf e) i := by
      rw [s.words i (by omega), s'.words i (by omega)]
      split_ifs with h33 h29 h32
      · rfl
      · rfl
      · rfl
      · exact left i h0 (by omega) h29
    refine ⟨fun h h' => ⟨fun i h0 hi => ?_, ?_, ?_⟩, fun h h' => ?_, fun va hva => ?_⟩
    · rw [(hframe h _).regs i h0 hi, (hframe h' _).regs i h0 hi, hwords i h0 (by omega)]
    · rw [(hframe h _).pc, (hframe h' _).pc, hwords 33 (by decide) (by decide)]
    · rw [(hframe h _).mode, (hframe h' _).mode, hwords 32 (by decide) (by decide)]
    · exact envPopTf_sstatus h h' (by omega) (hwords 32 (by decide) (by decide))
    · rw [s.pages va hva, s'.pages va hva]

/-- After two histories a slot gives the same image the same start state iff its trap frame
holds the same words in the places that `env_alloc` and `load_icode` leave alone. -/
theorem env_create_start {priority : ℤ} (history : History L K) (history' : History L K')
    (image : LinkedImage img ehdr) (free : FreeList K.phys l) (free' : FreeList K'.phys l')
    (room : createRoom img ehdr ≤ l.length) (room' : createRoom img ehdr ≤ l'.length)
    (call : envCreate L K img priority = .ok (e, K₁))
    (call' : envCreate L K' img priority = .ok (e, K₁')) :
    SameStart L K₁ K₁' e ↔ SameLeftovers L K K' e :=
  (history.started free image room call).sameStart_iff (history'.started free' image room' call')

end

/-! ### A register that is left over -/

/-- A timer interrupt is a store of the entry and a call of the scheduler. -/
theorem History.interrupt {L : Layout} {M M' : Machine} {e : ℕ} (history : History L M.kernel)
    (stores : StoresFrame L M) (d : Dispatched L M M' e) : History L M'.kernel := by
  obtain ⟨_, _, m, _, entered, hsched, _⟩ := d.entry
  have hlow := stores.low
  have htf : TF_SIZE = 288 := rfl
  have writes : UserWrites M.kernel m := userWrites_low fun b hb => entered.outside b (by omega)
  exact (history.user writes).schedule hsched

/-- An executable for 0x1000 that counts in t0. -/
def countBytes : List UInt8 :=
  [0x7f, 0x45, 0x4c, 0x46, 2, 1, 1, 0, 0, 0, 0, 0, 0, 0, 0, 0] ++ leBytes 2 2 ++ leBytes 243 2 ++
    leBytes 1 4 ++ leBytes 0x1000 8 ++ leBytes 64 8 ++ leBytes 0 8 ++ leBytes 0 4 ++ leBytes 64 2 ++
    leBytes 56 2 ++ leBytes 1 2 ++ leBytes 0 6 ++
  leBytes 1 4 ++ leBytes 5 4 ++ leBytes 120 8 ++ leBytes 0x1000 8 ++ leBytes 0x1000 8 ++
    leBytes 8 8 ++ leBytes 8 8 ++ leBytes 8 8 ++
  -- addi t0, t0, 1 and a jump back to it
  leBytes 0x00128293 4 ++ leBytes 0xffdff06f 4

def countImage : Image := ⟨fun i => countBytes.getD i 0, countBytes.length⟩

theorem countImage_onePage : OnePage countImage (readEhdr countImage.bytes)
    (readPhdr countImage.bytes 64) where
  elf := if_pos (by decide +kernel)
  num := by decide
  header := congrArg (readPhdr _) (by decide)
  type := by decide
  pos := by decide
  size := by decide
  fit := by decide
  below := by decide

theorem countImage_linked : LinkedImage countImage (readEhdr countImage.bytes) :=
  countImage_onePage.linked (by decide +kernel) (by decide +kernel) (by decide +kernel) (by decide)

theorem countImage_room : createRoom countImage (readEhdr countImage.bytes) = 149 := by
  decide +kernel

theorem IsolationInv.recreate {L : Layout} {K : Kernel} {calls : List (ℕ × ℕ × ℕ)} {fr : ℕ → ℕ}
    {τ : Typing} {sm : ℕ → Prop} {l ql fl : List ℕ} {img : Image} {ehdr : Ehdr} {e : ℕ}
    (h : IsolationInv L K calls fr τ sm l ql fl) (runnable : (K.envs e).env_status = .ENV_RUNNABLE)
    (image : LinkedImage img ehdr) (room : createRoom img ehdr ≤ l.length) (priority : ℤ) :
    ∃ s l' K', TornDown K e s ∧ FreeList s l' ∧ l.length ≤ l'.length ∧
      (∀ b < KERNEND, s.mem b = K.phys.mem b) ∧
      envCreate L (envRelease (K.setPhys s) e) img priority = .ok (e, K') := by
  obtain ⟨s, torn⟩ := h.exists_tornDown runnable
  obtain ⟨τ', sm', l', ql', h'⟩ := h.free runnable torn
  obtain ⟨l₀, l₁, hfree, o⟩ := torn
  obtain rfl := hfree.unique h.owned.spaces.typed.free
  have hfree' : FreeList s l' := h'.owned.spaces.typed.free
  obtain rfl := o.free.unique hfree'
  have hlen : l₀.length ≤ l₁.length :=
    (hfree.nodup.subperm (fun p hp => (o.mem_free p).mpr (Or.inl hp))).length_le
  have hlow (b : ℕ) (hb : b < KERNEND) : s.mem b = K.phys.mem b := by
    refine o.kept b (fun p hp => Or.inl ?_)
    exact hb.trans_le ((h.envPage_closed runnable).page p hp).1.1
  -- the ASID of the env is free again
  have hmem := (h.sched.mem_queue e).mpr runnable
  obtain ⟨he, hfl⟩ := h.sched.queue_lt e hmem
  obtain ⟨hasid, _⟩ := h.sched.asid_set e he hfl
  have hbit : asidBit (envRelease (K.setPhys s) e).asid_bitmap (K.envs e).env_asid = false := by
    refine (asidBit_free K.asid_bitmap (K.envs e).env_asid (K.envs e).env_asid).trans ?_
    simp
  have hinv : SpacesInv L (envRelease (K.setPhys s) e) fr τ' sm' l₁ ql' (e :: fl) :=
    ⟨h'.owned.spaces, h'.sched⟩
  obtain ⟨e', K', _, _, _, _, _, _, hcall, c, _⟩ :=
    hinv.envCreate_loads image (by omega) priority (asidAlloc_ne_none hasid hbit)
  obtain ⟨t, hlist⟩ := h'.sched.free
  obtain rfl : e = e' := Option.some.inj ((repr_first hlist).symm.trans c.alloc.head)
  exact ⟨s, l₁, K', ⟨l₀, l₁, hfree, o⟩, o.free, hlen, hlow, hcall⟩

theorem Dispatched.heap {L : Layout} {M M' : Machine} {e : ℕ} (d : Dispatched L M M' e)
    (stores : StoresFrame L M) (hcur : M.kernel.curenv = none) :
    M'.kernel.phys.freelist = M.kernel.phys.freelist ∧
      ∀ b, KERNEND ≤ b → M'.kernel.phys.mem b = M.kernel.phys.mem b := by
  obtain ⟨_, _, m, _, entered, hsched, hmem⟩ := d.entry
  obtain ⟨_, s⟩ := schedule_scheduled hsched
  have hlow := stores.low
  have htf : TF_SIZE = 288 := rfl
  have hphys := s.phys
  refine ⟨?_, fun b hb => ?_⟩
  · rw [hphys]
    rfl
  · rw [hmem, hcur]
    exact entered.outside b (by omega)

/-- An env that counted once in user mode and was freed, and the same `env_create` before and
after it. -/
theorem count_histories (L : Layout) : ∃ K K' K₁ K₁' l l', History L K ∧ History L K' ∧
    FreeList K.phys l ∧ FreeList K'.phys l' ∧
    createRoom countImage (readEhdr countImage.bytes) ≤ l.length ∧
    createRoom countImage (readEhdr countImage.bytes) ≤ l'.length ∧
    envCreate L K countImage 1 = .ok (0, K₁) ∧ envCreate L K' countImage 1 = .ok (0, K₁') ∧
    ¬SameLeftovers L K K' 0 := by
  have htf : TF_SIZE = 288 := rfl
  have he : 0 < NENV := by decide
  have hend := L.tf_end he
  have hk : KERNEND < 2^63 := by decide
  have hbound : L.tf 0+288 ≤ 2^64 := by omega
  obtain ⟨K₀, fr, τ, l, hboot, b⟩ := boot_ok L (fun _ => 0)
  have hlen := b.length
  have hsize := countImage_room
  generalize hn : createRoom countImage (readEhdr countImage.bytes) = n at hsize ⊢
  have hroom : n ≤ l.length := by omega
  -- the first env
  obtain ⟨K, _, _, _, _, hcreate, c, f⟩ := envCreate_first hboot countImage_onePage 1
  obtain ⟨e, K', _, _, _, _, lK, _, hcreate', _, hload, hlK⟩ :=
    b.envCreate_loads hboot countImage_linked (hn.trans_le (by omega)) 1
  obtain ⟨rfl, rfl⟩ := Prod.mk.inj (Except.ok.inj (hcreate.symm.trans hcreate'))
  rw [hn] at hlK
  have hist₀ : History L K₀ := .boot hboot
  have hfree₀ := b.building.typed.free
  have hstart := hist₀.started hfree₀ countImage_linked (hn.trans_le hroom) hcreate
  have hist : History L K := hist₀.create countImage_onePage.userImage
    (countImage_onePage.loadsWholePages (by decide) c f) hcreate
  obtain ⟨fl, _, _, hs⟩ := (boot_schedInv hboot).create c
  have hcur : K.curenv = none := c.curenv.trans b.curenv
  -- it is dispatched from `spin`
  obtain ⟨M, ql, call, d, hsM, hql, hmode, hframe⟩ := spin_dispatch hs hcur (hstart.words 32 (by decide))
  have histM : History L M.kernel := hist.interrupt (M := ⟨spinHart, K⟩) (spin_stores L) d
  obtain ⟨hfreelist, hheap⟩ := d.heap (spin_stores L) hcur
  obtain ⟨_, hscratch⟩ := d.frame hbound
  rw [if_pos hmode] at hscratch
  -- it counts, and the next trap stores its registers
  let counted : Hart := { M.hart with x := update M.hart.x 5 (M.hart.x 5+1), pc := M.hart.pc+4 }
  let h := counted.trap 0 SCAUSE_TIMER 0
  have hbase : (frameBase h).toNat = L.tf 0 := SAVE_ALL_sscratch he hscratch
  have entered := SAVE_ALL_entered (h := h) (by omega) M.kernel.phys.mem
  generalize (SAVE_ALL h M.kernel.phys.mem).2 = m at entered
  have hout := entered.outside
  rw [hbase] at hout
  have histT : History L (M.kernel.setMem m) :=
    histM.user (userWrites_low fun b hb => hout b (by omega))
  have hword : frameWord m (L.tf 0) 5 =
      (BitVec.ofNat 64 (frameWord K₀.phys.mem (L.tf 0) 5)+1).toNat := by
    have hsaved := entered.words 5 (by decide) (by decide)
    have hreg := hframe.regs 5 (by decide) (by decide)
    have hfirst : frameWord K.phys.mem (L.tf 0) 5 =
        frameWord K₀.phys.mem (L.tf 0) 5 := hstart.words 5 (by decide)
    rw [hfirst] at hreg
    rw [hbase] at hsaved
    rw [hsaved, ← hreg]
    rfl
  -- it is freed
  obtain ⟨calls, fr', τ', sm', l', ql', fl', hinv⟩ := histT.inv
  have hrun : ((M.kernel.setMem m).envs 0).env_status = .ENV_RUNNABLE :=
    (hsM.mem_queue 0).mp ((hql 0).mpr List.mem_cons_self)
  obtain rfl : lK = l' := by
    have hlow (b : ℕ) (hb : KERNEND ≤ b) : m b = K.phys.mem b :=
      (hout b (by omega)).trans (hheap b hb)
    have hfreeK := (hload.spaces.write_low hlow).1.typed.free
    rw [← hfreelist] at hfreeK
    exact hfreeK.unique hinv.isolation.owned.spaces.typed.free
  obtain ⟨s, l₁, K₁', torn, hfree₁, hlen₁, hlow, hcall⟩ :=
    hinv.isolation.recreate hrun countImage_linked (hn.trans_le (by omega)) 1
  have hroom₁ : n ≤ l₁.length := by omega
  refine ⟨K₀, envRelease ((M.kernel.setMem m).setPhys s) 0, K, K₁', l, l₁, hist₀, histT.free hrun torn,
    hfree₀, hfree₁, hroom, hroom₁, hcreate, hcall, fun same => ?_⟩
  have hleft : frameWord s.mem (L.tf 0) 5 = frameWord K₀.phys.mem (L.tf 0) 5 :=
    same 5 (by decide) (by decide) (by decide)
  have hkept : frameWord s.mem (L.tf 0) 5 = frameWord m (L.tf 0) 5 :=
    load_congr (fun b _ hb => hlow b (by omega))
  have hlt : frameWord K₀.phys.mem (L.tf 0) 5 < 2^64 := load_lt _ _ 8
  rw [← hkept, hleft] at hword
  simp only [BitVec.toNat_add, BitVec.toNat_ofNat, BitVec.ofNat_eq_ofNat] at hword
  omega

theorem env_create_start_count : ∃ K K' K₁ K₁' l l', History default K ∧ History default K' ∧
    FreeList K.phys l ∧ FreeList K'.phys l' ∧ envCreate default K countImage 1 = .ok (0, K₁) ∧
    envCreate default K' countImage 1 = .ok (0, K₁') ∧
    (SameStart default K₁ K₁' 0 ↔ SameLeftovers default K K' 0) := by
  obtain ⟨K, K', K₁, K₁', l, l', hist, hist', free, free', room, room', call, call', _⟩ :=
    count_histories default
  exact ⟨K, K', K₁, K₁', l, l', hist, hist', free, free', call, call',
    env_create_start hist hist' countImage_linked free free' room room' call call'⟩

/-- The count of the freed env is in t0 when the new one starts. -/
theorem env_create_start_differs : ∃ K K' K₁ K₁', History default K ∧ History default K' ∧
    envCreate default K countImage 1 = .ok (0, K₁) ∧
    envCreate default K' countImage 1 = .ok (0, K₁') ∧ ¬SameStart default K₁ K₁' 0 := by
  obtain ⟨K, K', K₁, K₁', l, l', hist, hist', free, free', room, room', call, call', hleft⟩ :=
    count_histories default
  have s := hist.started free countImage_linked room call
  have s' := hist'.started free' countImage_linked room' call'
  exact ⟨K, K', K₁, K₁', hist, hist', call, call', fun same => hleft ((s.sameStart_iff s').mp same)⟩

end RiscvMos
