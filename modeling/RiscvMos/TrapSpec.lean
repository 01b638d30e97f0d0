import RiscvMos.Trap

/-! What the trap entry leaves in the frame and what the exit takes from it. -/
namespace RiscvMos
open ByteMem Function

/-! ### Registers -/

section
variable (h : Hart) (i j : ℕ) (v : Word)

theorem Hart.setReg_x : (h.setReg i v).x = update h.x i v := rfl

@[simp] theorem Hart.setReg_same : (h.setReg i v).x i = v := by
  rw [Hart.setReg_x, update_self]

@[simp] theorem Hart.setReg_of_ne {i j : ℕ} (hij : j ≠ i) : (h.setReg i v).x j = h.x j := by
  rw [Hart.setReg_x, update_of_ne hij]

@[simp] theorem Hart.setReg_sstatus : (h.setReg i v).sstatus = h.sstatus := rfl

@[simp] theorem Hart.setReg_sepc : (h.setReg i v).sepc = h.sepc := rfl

@[simp] theorem Hart.setReg_stval : (h.setReg i v).stval = h.stval := rfl

@[simp] theorem Hart.setReg_scause : (h.setReg i v).scause = h.scause := rfl

@[simp] theorem Hart.setReg_sscratch : (h.setReg i v).sscratch = h.sscratch := rfl

end

/-! ### Frames -/

/-- Word `i` of the frame at `a`. -/
def frameWord (m : Mem) (a i : ℕ) : ℕ := load64 m (a+8*i)

/-- The address of word `i` of the frame at `b`, which may wrap around. -/
def slot (b : Word) (i : ℕ) : ℕ := (b+BitVec.ofNat 64 (i*8)).toNat

def slotWord (m : Mem) (b : Word) (i : ℕ) : ℕ := load64 m (slot b i)

theorem slots_apart (b : Word) {i j : ℕ} (hi : i < 36) (hj : j < 36) (hij : i ≠ j) :
    slot b j+8 ≤ slot b i ∨ slot b i+8 ≤ slot b j := by
  have hb := b.isLt
  rw [slot, slot, BitVec.toNat_add, BitVec.toNat_add, BitVec.toNat_ofNat, BitVec.toNat_ofNat]
  omega

theorem slot_eq {b : Word} (hb : b.toNat+288 ≤ 2^64) {i : ℕ} (hi : i < 36) :
    slot b i = b.toNat+8*i := by
  rw [slot, BitVec.toNat_add, BitVec.toNat_ofNat]
  omega

theorem slotWord_eq {b : Word} (hb : b.toNat+288 ≤ 2^64) (m : Mem) {i : ℕ} (hi : i < 36) :
    slotWord m b i = frameWord m b.toNat i := by
  rw [slotWord, slot_eq hb hi, frameWord]

theorem STORE_eq {h : Hart} {b : Word} (hsp : h.x 2 = b) (m : Mem) (reg i : ℕ) :
    STORE h m reg i = store m (slot b i) 8 (h.x reg).toNat := by
  rw [STORE, hsp]
  rfl

theorem foldl_STORE {h : Hart} {b : Word} (hsp : h.x 2 = b) (l : List ℕ) (m : Mem) :
    l.foldl (fun m i => STORE h m i i) m = storeWords m (slot b) 8 (fun i => (h.x i).toNat) l := by
  induction l generalizing m with
  | nil => rfl
  | cons i l ih => rw [List.foldl_cons, ih, storeWords, STORE_eq hsp]

/-- The words that the entry stores, in its order. -/
def savedWords : List ℕ := (1 :: List.range' 3 29) ++ [2, 32, 33, 34, 35]

theorem mem_savedWords {i : ℕ} : i ∈ savedWords ↔ 0 < i ∧ i < 36 := by
  simp only [savedWords, List.mem_append, List.mem_cons, List.mem_range'_1, List.not_mem_nil, or_false]
  omega

/-! ### SAVE_ALL -/

/-- What `SAVE_ALL` stores at word `i`. -/
def Hart.saved (h : Hart) (i : ℕ) : Word :=
  if i = 32 then h.sstatus else if i = 33 then h.sepc else if i = 34 then h.stval
    else if i = 35 then h.scause else h.x i

theorem Hart.saved_reg (h : Hart) {i : ℕ} (hi : i < 32) : h.saved i = h.x i := by
  rw [Hart.saved, if_neg (by omega), if_neg (by omega), if_neg (by omega), if_neg (by omega)]

/-- The slots of the frame at `b` have the registers and CSRs of `h`. -/
structure Pushed (h : Hart) (b : Word) (m : Mem) (h' : Hart) (m' : Mem) : Prop where
  outside : ∀ c, (∀ i < 36, c < slot b i ∨ slot b i+8 ≤ c) → m' c = m c
  words : ∀ i, 0 < i → i < 36 → slotWord m' b i = (h.saved i).toNat
  sp : h'.x 2 = b
  sscratch : h'.sscratch = 0
  scause : h'.scause = h.scause

/-- The same where the frame does not wrap around. -/
structure Entered (h : Hart) (b : Word) (m : Mem) (h' : Hart) (m' : Mem) : Prop where
  outside : SameOutside m m' b.toNat 288
  words : ∀ i, 0 < i → i < 36 → frameWord m' b.toNat i = (h.saved i).toNat
  sp : h'.x 2 = b
  sscratch : h'.sscratch = 0
  scause : h'.scause = h.scause

theorem Pushed.entered {h h' : Hart} {b : Word} {m m' : Mem} (p : Pushed h b m h' m')
    (hb : b.toNat+288 ≤ 2^64) : Entered h b m h' m' := by
  refine ⟨fun c hc => p.outside c fun i hi => ?_, fun i h0 hi => ?_, p.sp, p.sscratch, p.scause⟩
  · rw [slot_eq hb hi]
    omega
  · rw [← slotWord_eq hb m' hi]
    exact p.words i h0 hi

/-- From the label on, with the top of the frame in sp and the old sp in sscratch. -/
theorem trapFromUser_pushed {h h₀ : Hart} {b : Word} (htop : h₀.x 2-36*8 = b)
    (hx : ∀ i, i ≠ 2 → h₀.x i = h.x i) (hsp : h₀.sscratch = h.x 2)
    (hcsr : h₀.sstatus = h.sstatus ∧ h₀.sepc = h.sepc ∧ h₀.stval = h.stval ∧ h₀.scause = h.scause)
    (m : Mem) : Pushed h b m (trapFromUser h₀ m).1 (trapFromUser h₀ m).2 := by
  obtain ⟨hstatus, hepc, htval, hcause⟩ := hcsr
  have hsp' : (trapFromUser h₀ m).1.x 2 = b := by
    rw [← htop]
    simp [trapFromUser]
  have hfirst : ∀ i ∈ 1 :: List.range' 3 29, ((h₀.setReg 2 b).x i).toNat = (h.saved i).toNat := by
    intro i hi
    have hi' : i ≠ 2 ∧ i < 32 := by
      simp only [List.mem_cons, List.mem_range'_1] at hi
      omega
    rw [Hart.setReg_of_ne _ _ hi'.1, hx i hi'.1, Hart.saved_reg h hi'.2]
  have hm : (trapFromUser h₀ m).2 = storeWords m (slot b) 8 (fun i => (h.saved i).toNat) savedWords := by
    rw [savedWords, storeWords_append, ← storeWords_congr hfirst m,
      ← foldl_STORE (Hart.setReg_same h₀ 2 b), trapFromUser, htop]
    simp only [storeWords]
    rw [STORE_eq (b := b) (by simp), STORE_eq (b := b) (by simp), STORE_eq (b := b) (by simp),
      STORE_eq (b := b) (by simp), STORE_eq (b := b) (by simp)]
    simp [Hart.saved, hsp, hstatus, hepc, htval, hcause]
  refine ⟨fun c hc => ?_, fun i h0 hi => ?_, hsp', rfl, hcause⟩
  · rw [hm]
    exact storeWords_other (fun i hi => hc i (mem_savedWords.mp hi).2)
  · have hmem := mem_savedWords.mpr ⟨h0, hi⟩
    rw [slotWord, load64, hm, load_storeWords _ _
      (fun j hj hji => slots_apart b (mem_savedWords.mp hj).2 hi hji), if_pos hmem]
    exact Nat.mod_eq_of_lt (h.saved i).isLt

/-- Where the frame of a trap lies: below sscratch, or below sp when sscratch is 0. -/
def frameBase (h : Hart) : Word := (if h.sscratch = 0 then h.x 2 else h.sscratch)-36*8

theorem SAVE_ALL_pushed (h : Hart) (m : Mem) :
    Pushed h (frameBase h) m (SAVE_ALL h m).1 (SAVE_ALL h m).2 := by
  rw [SAVE_ALL]
  by_cases hs : h.sscratch = 0
  · rw [if_neg (by simp [hs])]
    apply trapFromUser_pushed (h := h)
    · rw [Hart.setReg_same, frameBase, if_pos hs]
    · intro i hi
      rw [Hart.setReg_of_ne _ _ hi]
      exact Hart.setReg_of_ne h _ hi
    · rfl
    · exact ⟨rfl, rfl, rfl, rfl⟩
  · rw [if_pos (by simpa using hs)]
    apply trapFromUser_pushed (h := h)
    · rw [frameBase, if_neg hs]
      exact congrArg (fun x => x-36*8) (Hart.setReg_same h 2 h.sscratch)
    · exact fun i hi => Hart.setReg_of_ne h _ hi
    · rfl
    · exact ⟨rfl, rfl, rfl, rfl⟩

theorem SAVE_ALL_entered {h : Hart} (hb : (frameBase h).toNat+288 ≤ 2^64) (m : Mem) :
    Entered h (frameBase h) m (SAVE_ALL h m).1 (SAVE_ALL h m).2 :=
  (SAVE_ALL_pushed h m).entered hb

/-! ### RESTORE_ALL -/

theorem LOAD_eq {h : Hart} {b : Word} (hsp : h.x 2 = b) (m : Mem) (reg i : ℕ) :
    LOAD h m reg i = h.setReg reg (BitVec.ofNat 64 (slotWord m b i)) := by
  rw [LOAD, hsp]
  rfl

theorem foldl_LOAD {h : Hart} {b : Word} (hsp : h.x 2 = b) (m : Mem) (l : List ℕ)
    (hl : ∀ i ∈ l, i ≠ 2) : l.foldl (fun h i => LOAD h m i i) h =
      { h with x := fun j => if j ∈ l then BitVec.ofNat 64 (slotWord m b j) else h.x j } := by
  induction l generalizing h with
  | nil => simp
  | cons i l ih =>
    have hi2 := hl i List.mem_cons_self
    have hsp' : (LOAD h m i i).x 2 = b := by
      rw [LOAD_eq hsp, Hart.setReg_of_ne _ _ (Ne.symm hi2), hsp]
    rw [List.foldl_cons, ih hsp' (fun j hj => hl j (List.mem_cons_of_mem i hj)), LOAD_eq hsp]
    simp only [Hart.setReg, Hart.mk.injEq, and_true]
    ext1 j
    by_cases hj : j ∈ l
    · rw [if_pos hj, if_pos (List.mem_cons_of_mem i hj)]
    · rw [if_neg hj]
      by_cases hij : j = i
      · rw [hij, update_self, if_pos List.mem_cons_self]
      · rw [update_of_ne hij, if_neg (fun h => (List.mem_cons.mp h).elim hij hj)]

/-- The registers and CSRs have the words of the slots at `b`, and sscratch points behind
the frame when SPP is clear. -/
structure Popped (h : Hart) (b : Word) (m : Mem) (h' : Hart) : Prop where
  regs : ∀ i, 0 < i → i < 32 → h'.x i = BitVec.ofNat 64 (slotWord m b i)
  sstatus : h'.sstatus = BitVec.ofNat 64 (slotWord m b 32)
  sepc : h'.sepc = BitVec.ofNat 64 (slotWord m b 33) &&& ~~~1
  sscratch : h'.sscratch = if h'.sstatus &&& SSTATUS_SPP = 0 then b+36*8 else h.sscratch

/-- The same where the frame does not wrap around. -/
structure Restored (h : Hart) (b : Word) (m : Mem) (h' : Hart) : Prop where
  regs : ∀ i, 0 < i → i < 32 → h'.x i = BitVec.ofNat 64 (frameWord m b.toNat i)
  sstatus : h'.sstatus = BitVec.ofNat 64 (frameWord m b.toNat 32)
  sepc : h'.sepc = BitVec.ofNat 64 (frameWord m b.toNat 33) &&& ~~~1
  sscratch : h'.sscratch = if h'.sstatus &&& SSTATUS_SPP = 0 then b+36*8 else h.sscratch

theorem Popped.restored {h h' : Hart} {b : Word} {m : Mem} (p : Popped h b m h')
    (hb : b.toNat+288 ≤ 2^64) : Restored h b m h' := by
  refine ⟨fun i h0 hi => ?_, ?_, ?_, p.sscratch⟩
  · rw [← slotWord_eq hb m (by omega)]
    exact p.regs i h0 hi
  · rw [← slotWord_eq hb m (by decide)]
    exact p.sstatus
  · rw [← slotWord_eq hb m (by decide)]
    exact p.sepc

theorem toKernel_popped {h h₁ : Hart} {b : Word} {m : Mem} (hsp : h₁.x 2 = b)
    (hepc : h₁.x 18 = BitVec.ofNat 64 (slotWord m b 33))
    (hstatus : h₁.x 9 = BitVec.ofNat 64 (slotWord m b 32))
    (hscratch : h₁.sscratch = if h₁.x 9 &&& SSTATUS_SPP = 0 then b+36*8 else h.sscratch) :
    Popped h b m (toKernel h₁ m) := by
  have hlist (i : ℕ) : i ∈ (List.range' 3 29).reverse ++ [1] ↔ i = 1 ∨ 3 ≤ i ∧ i < 32 := by
    simp only [List.mem_append, List.mem_reverse, List.mem_range'_1, List.mem_singleton]
    omega
  have hload := foldl_LOAD (h := { h₁ with sepc := h₁.x 18 &&& ~~~1, sstatus := h₁.x 9 }) hsp m
    ((List.range' 3 29).reverse ++ [1]) (fun i hi => by
      rw [hlist] at hi
      omega)
  rw [toKernel, hload, LOAD_eq (b := b) (by simp [hsp])]
  refine ⟨fun i h0 hi => ?_, hstatus, ?_, hscratch⟩
  · by_cases hi2 : i = 2
    · rw [hi2, Hart.setReg_same]
    · rw [Hart.setReg_of_ne _ _ hi2]
      exact if_pos ((hlist i).mpr (by omega))
  · rw [← hepc]
    rfl

theorem RESTORE_ALL_popped {h : Hart} {b : Word} (hsp : h.x 2 = b) (m : Mem) :
    Popped h b m (RESTORE_ALL h m) := by
  rw [RESTORE_ALL, LOAD_eq hsp, LOAD_eq (b := b) (by simp [hsp])]
  dsimp only
  rw [Hart.setReg_same, Hart.setReg_same]
  split_ifs with hspp
  · have hspp' : ¬BitVec.ofNat 64 (slotWord m b 32) &&& SSTATUS_SPP = 0#64 := hspp
    apply toKernel_popped (h := h) (b := b) (by simp [hsp]) (by simp) (by simp)
    simp [hspp']
  · have hspp' : BitVec.ofNat 64 (slotWord m b 32) &&& SSTATUS_SPP = 0 := not_not.mp hspp
    apply toKernel_popped (h := h) (b := b) (by simp [hsp]) (by simp) (by simp)
    simp [hspp', hsp]

theorem RESTORE_ALL_restored {h : Hart} {b : Word} (hsp : h.x 2 = b) (hb : b.toNat+288 ≤ 2^64)
    (m : Mem) : Restored h b m (RESTORE_ALL h m) :=
  (RESTORE_ALL_popped hsp m).restored hb

/-! ### Going back -/

/-- `h` has the registers, pc and mode of the frame at `a`. -/
structure FrameOf (m : Mem) (a : ℕ) (h : Hart) : Prop where
  regs : ∀ i, 0 < i → i < 32 → h.x i = BitVec.ofNat 64 (frameWord m a i)
  pc : h.pc = BitVec.ofNat 64 (frameWord m a 33) &&& ~~~1
  mode : h.mode =
    if BitVec.ofNat 64 (frameWord m a 32) &&& SSTATUS_SPP = 0 then .user else .supervisor

/-- The registers, pc and mode are the same. -/
structure SameState (h h' : Hart) : Prop where
  regs : ∀ i, 0 < i → i < 32 → h'.x i = h.x i
  pc : h'.pc = h.pc
  mode : h'.mode = h.mode

/-- Two harts that one frame stands for. -/
theorem FrameOf.sameState_iff {m : Mem} {a : ℕ} {h h' : Hart} (f : FrameOf m a h') :
    SameState h h' ↔ FrameOf m a h := by
  constructor
  · intro s
    exact ⟨fun i h0 hi => (s.regs i h0 hi).symm.trans (f.regs i h0 hi), s.pc.symm.trans f.pc,
      s.mode.symm.trans f.mode⟩
  · intro g
    exact ⟨fun i h0 hi => (f.regs i h0 hi).trans (g.regs i h0 hi).symm, f.pc.trans g.pc.symm,
      f.mode.trans g.mode.symm⟩

theorem FrameOf.congr {m m' : Mem} {a a' : ℕ} {h : Hart}
    (hw : ∀ i < 36, frameWord m a i = frameWord m' a' i) : FrameOf m a h ↔ FrameOf m' a' h := by
  have himp {m m' : Mem} {a a' : ℕ} (hw : ∀ i < 36, frameWord m a i = frameWord m' a' i)
      (f : FrameOf m a h) : FrameOf m' a' h := by
    refine ⟨fun i h0 hi => ?_, ?_, ?_⟩
    · rw [← hw i (by omega)]
      exact f.regs i h0 hi
    · rw [← hw 33 (by decide)]
      exact f.pc
    · rw [← hw 32 (by decide)]
      exact f.mode
  exact ⟨himp hw, himp (fun i hi => (hw i hi).symm)⟩

theorem Hart.sret_sstatus {h h' : Hart} (hs : h.sstatus = h'.sstatus) :
    h.sret.sstatus = h'.sret.sstatus := by
  simp only [Hart.sret, hs]

theorem toNat_frame {tf : ℕ} (htf : tf+288 ≤ 2^64) : (BitVec.ofNat 64 tf).toNat = tf := by
  rw [BitVec.toNat_ofNat]
  omega

/-- The status that `sret` leaves depends on word 32 only. -/
theorem envPopTf_sstatus (h h' : Hart) {m m' : Mem} {tf : ℕ} (htf : tf+288 ≤ 2^64)
    (hw : frameWord m' tf 32 = frameWord m tf 32) :
    (envPopTf h' m' tf).sstatus = (envPopTf h m tf).sstatus := by
  have hbase := toNat_frame htf
  have r := RESTORE_ALL_restored (Hart.setReg_same h 2 (BitVec.ofNat 64 tf)) (by omega) m
  have r' := RESTORE_ALL_restored (Hart.setReg_same h' 2 (BitVec.ofNat 64 tf)) (by omega) m'
  apply Hart.sret_sstatus
  rw [r.sstatus, r'.sstatus, hbase, hw]

theorem envPopTf_frame (h : Hart) (m : Mem) {tf : ℕ} (htf : tf+288 ≤ 2^64) :
    FrameOf m tf (envPopTf h m tf) ∧ (envPopTf h m tf).sscratch =
      if (envPopTf h m tf).mode = .user then BitVec.ofNat 64 (tf+288) else h.sscratch := by
  have hbase := toNat_frame htf
  have r := RESTORE_ALL_restored (Hart.setReg_same h 2 (BitVec.ofNat 64 tf)) (by omega) m
  have hmode : (envPopTf h m tf).mode =
      if BitVec.ofNat 64 (frameWord m tf 32) &&& SSTATUS_SPP = 0 then .user else .supervisor := by
    have hs := r.sstatus
    rw [hbase] at hs
    rw [← hs]
    rfl
  refine ⟨⟨fun i h0 hi => ?_, ?_, hmode⟩, ?_⟩
  · have hreg := r.regs i h0 hi
    rwa [hbase] at hreg
  · have hpc := r.sepc
    rwa [hbase] at hpc
  · have hscratch := r.sscratch
    rw [r.sstatus, hbase] at hscratch
    rw [hmode]
    refine hscratch.trans ?_
    by_cases hspp : BitVec.ofNat 64 (frameWord m tf 32) &&& SSTATUS_SPP = 0
    · rw [if_pos hspp, if_pos hspp, if_pos rfl, BitVec.ofNat_add]
      rfl
    · rw [if_neg hspp, if_neg hspp, if_neg (by decide)]
      rfl

end RiscvMos
