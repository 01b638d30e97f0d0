import RiscvMos.Fsformat

/-! What the writes of fsformat change: bytes by the variable that they lie in. -/
namespace RiscvMos.Fsformat
open ByteMem HostWord Function

section
variable {F : FsH} {s s' s'' : Tool} {f : FilePtr} {o o' : Obj} {m : Mem}

@[simp] theorem obj_setObj_same : (s.setObj o m).obj o = m := by
  cases o with
  | super => rfl
  | block b => simp [Tool.setObj, Tool.obj]

theorem obj_setObj_ne (h : o' ≠ o) : (s.setObj o m).obj o' = s.obj o' := by
  cases o with
  | super =>
    cases o' with
    | super => exact absurd rfl h
    | block b => rfl
  | block b =>
    cases o' with
    | super => rfl
    | block b' =>
      have hb : b' ≠ b := fun he => h (by rw [he])
      simp [Tool.setObj, Tool.obj, update_of_ne hb]

@[simp] theorem nextbno_setObj : (s.setObj o m).nextbno = s.nextbno := by cases o <;> rfl

@[simp] theorem type_setObj (b : ℕ) : ((s.setObj o m).disk b).type = (s.disk b).type := by
  cases o with
  | super => rfl
  | block b' =>
    by_cases h : b = b'
    · subst h
      simp [Tool.setObj]
    · simp [Tool.setObj, update_of_ne h]

@[simp] theorem nextbno_set (w : FileWord F.NDIRECT) (v : ℕ) :
    (s.set F f w v).nextbno = s.nextbno := nextbno_setObj

@[simp] theorem nextbno_setIndex (b i v : ℕ) : (s.setIndex F b i v).nextbno = s.nextbno :=
  nextbno_setObj

@[simp] theorem nextbno_copyName (n : ℕ) (src : List UInt8) :
    (s.copyName F f n src).nextbno = s.nextbno := nextbno_setObj

@[simp] theorem type_set (w : FileWord F.NDIRECT) (v b : ℕ) :
    ((s.set F f w v).disk b).type = (s.disk b).type := type_setObj b

@[simp] theorem type_setIndex (b i v c : ℕ) :
    ((s.setIndex F b i v).disk c).type = (s.disk c).type := type_setObj c

theorem index_bind {α : Type} {i : ℕ} (hi : i < NBLOCK) (k : Unit → Run α) :
    (index i >>= k) = k () := by
  rw [index, if_pos hi]
  rfl

/-- The next block, with its type. -/
def Tool.claim (s : Tool) (type : BlockType) : Tool :=
  { s.setType s.nextbno type with nextbno := s.nextbno+1 }

theorem nextBlock_eq (s : Tool) (type : BlockType) : nextBlock s type =
    if s.nextbno < NBLOCK then .ok (s.nextbno, s.claim type) else .error (.outside .disk) := by
  rw [nextBlock, index]
  split_ifs <;> rfl

@[simp] theorem nextbno_claim (type : BlockType) : (s.claim type).nextbno = s.nextbno+1 := rfl

@[simp] theorem obj_claim (type : BlockType) (o : Obj) : (s.claim type).obj o = s.obj o := by
  cases o with
  | super => rfl
  | block b =>
    by_cases h : b = s.nextbno
    · subst h
      simp [Tool.claim, Tool.setType, Tool.obj]
    · simp [Tool.claim, Tool.setType, Tool.obj, update_of_ne h]

theorem type_claim_same (type : BlockType) : ((s.claim type).disk s.nextbno).type = type := by
  simp [Tool.claim, Tool.setType]

theorem type_claim_ne (type : BlockType) {b : ℕ} (h : b ≠ s.nextbno) :
    ((s.claim type).disk b).type = (s.disk b).type := by
  simp [Tool.claim, Tool.setType, update_of_ne h]

/-! ### Frames -/

/-- Super blocks and the blocks below `n`. -/
def Obj.Below (n : ℕ) : Obj → Prop
  | .super => True
  | .block b => b < n

/-- From `s` to `s'` no byte outside of `A` has changed in the super block and in the blocks in
use. -/
structure Keeps (s s' : Tool) (A : Obj → ℕ → Prop) : Prop where
  next_le : s.nextbno ≤ s'.nextbno
  byte : ∀ o, o.Below s.nextbno → ∀ i, ¬A o i → s'.obj o i = s.obj o i
  type : ∀ b < s.nextbno, (s'.disk b).type = (s.disk b).type

/-- Nothing has changed in the blocks that are still free either. -/
structure Changes (s s' : Tool) (A : Obj → ℕ → Prop) : Prop extends Keeps s s' A where
  free : ∀ b, s'.nextbno ≤ b → s'.obj (.block b) = s.obj (.block b)

variable {A B : Obj → ℕ → Prop}

theorem Obj.Below.mono {n n' : ℕ} (h : o.Below n) (hn : n ≤ n') : o.Below n' := by
  cases o with
  | super => trivial
  | block b => exact lt_of_lt_of_le h hn

theorem Changes.refl (s : Tool) (A : Obj → ℕ → Prop) : Changes s s A where
  next_le := le_rfl
  byte _ _ _ _ := rfl
  type _ _ := rfl
  free _ _ := rfl

/-- Only what the second part changes in older variables counts. -/
theorem Keeps.trans (h : Keeps s s' A) (h' : Keeps s' s'' B)
    (hB : ∀ o i, o.Below s.nextbno → B o i → A o i) : Keeps s s'' A where
  next_le := h.next_le.trans h'.next_le
  byte o ho i hi := by
    rw [h'.byte o (ho.mono h.next_le) i (fun hb => hi (hB o i ho hb)), h.byte o ho i hi]
  type b hb := by rw [h'.type b (lt_of_lt_of_le hb h.next_le), h.type b hb]

theorem Changes.trans (h : Changes s s' A) (h' : Changes s' s'' B)
    (hB : ∀ o i, o.Below s.nextbno → B o i → A o i) : Changes s s'' A where
  toKeeps := h.toKeeps.trans h'.toKeeps hB
  free b hb := by rw [h'.free b hb, h.free b (h'.next_le.trans hb)]

theorem Changes.mono (h : Changes s s' A) (hAB : ∀ o i, o.Below s.nextbno → A o i → B o i) :
    Changes s s' B where
  next_le := h.next_le
  byte o ho i hi := h.byte o ho i fun ha => hi (hAB o i ho ha)
  type := h.type
  free := h.free

/-! ### The writes -/

/-- The bytes of the 32-bit fields of `f`. -/
def InWords (F : FsH) (f : FilePtr) (o : Obj) (i : ℕ) : Prop :=
  o = f.obj ∧ ∃ w, f.base+F.word w ≤ i ∧ i < f.base+F.word w+4

/-- The bytes of `f->f_name`. -/
def InName (F : FsH) (f : FilePtr) (o : Obj) (i : ℕ) : Prop :=
  o = f.obj ∧ f.base+F.f_name ≤ i ∧ i < f.base+F.f_name+F.MAXNAMELEN

/-- The bytes of `*f`. -/
def InFile (F : FsH) (f : FilePtr) (o : Obj) (i : ℕ) : Prop :=
  o = f.obj ∧ f.base ≤ i ∧ i < f.base+F.FILE_STRUCT_SIZE

theorem InWords.inFile {i : ℕ} (h : InWords F f o i) : InFile F f o i := by
  obtain ⟨ho, w, hl, hu⟩ := h
  have hw := F.word_le w
  exact ⟨ho, by omega, by omega⟩

theorem InName.inFile {i : ℕ} (h : InName F f o i) : InFile F f o i := by
  obtain ⟨ho, hl, hu⟩ := h
  have hn := F.name_le
  exact ⟨ho, by omega, by omega⟩

theorem InWords.not_inName {i : ℕ} (h : InWords F f o i) : ¬InName F f o i := by
  obtain ⟨_, w, hl, hu⟩ := h
  rintro ⟨_, hl', hu'⟩
  rcases F.name_apart w with hw | hw <;> omega

theorem setObj_changes (ho : o.Below s.nextbno)
    (hA : ∀ i, ¬A o i → m i = s.obj o i) : Changes s (s.setObj o m) A where
  next_le := by rw [nextbno_setObj]
  byte o' _ i hi := by
    by_cases h : o' = o
    · subst h
      rw [obj_setObj_same, hA i hi]
    · rw [obj_setObj_ne h]
  type b _ := type_setObj b
  free b hb := by
    rw [nextbno_setObj] at hb
    refine obj_setObj_ne fun h => ?_
    subst h
    exact absurd ho (not_lt.mpr hb)

theorem set_changes (hf : f.obj.Below s.nextbno) (w : FileWord F.NDIRECT) (v : ℕ) :
    Changes s (s.set F f w v) (InWords F f) := by
  refine setObj_changes hf fun i hi => storeAs_sameOutside _ _ _ _ _ i ?_
  by_contra hin
  rw [not_or, not_lt, not_le] at hin
  exact hi ⟨rfl, w, hin⟩

theorem copyName_changes (hf : f.obj.Below s.nextbno) {n : ℕ} (hn : n ≤ F.MAXNAMELEN)
    (src : List UInt8) : Changes s (s.copyName F f n src) (InName F f) := by
  refine setObj_changes hf fun i hi => blit_sameOutside _ _ _ _ i ?_
  by_contra hin
  rw [not_or, not_lt, not_le] at hin
  exact hi ⟨rfl, hin.1, by omega⟩

theorem setIndex_changes {b : ℕ} (hb : b < s.nextbno) (i v : ℕ) :
    Changes s (s.setIndex F b i v) (fun o _ => o = .block b) :=
  setObj_changes hb fun _ hi => absurd rfl hi

theorem claim_changes (type : BlockType) (A : Obj → ℕ → Prop) : Changes s (s.claim type) A where
  next_le := Nat.le_succ _
  byte o _ i _ := by rw [obj_claim]
  type b hb := type_claim_ne type hb.ne
  free b _ := obj_claim type _

/-! ### Fields -/

theorem get_set_mod (w : FileWord F.NDIRECT) (v : ℕ) : (s.set F f w v).get F f w = v%2^32 := by
  rw [Tool.get, Tool.set, obj_setObj_same, loadAs_storeAs_same]
  rfl

theorem get_set_same (w : FileWord F.NDIRECT) {v : ℕ} (hv : v < 2^32) :
    (s.set F f w v).get F f w = v := by
  rw [get_set_mod, Nat.mod_eq_of_lt hv]

theorem nameByte_set (w : FileWord F.NDIRECT) (v : ℕ) {i : ℕ} (hi : i < F.MAXNAMELEN) :
    (s.set F f w v).nameByte F f i = s.nameByte F f i := by
  rw [Tool.nameByte, Tool.set, obj_setObj_same]
  refine storeAs_sameOutside _ _ _ _ _ _ ?_
  rcases F.name_apart w with h | h <;> omega

theorem get_set_ne {w w' : FileWord F.NDIRECT} (h : w' ≠ w) (v : ℕ) :
    (s.set F f w v).get F f w' = s.get F f w' := by
  rw [Tool.get, Tool.set, obj_setObj_same]
  refine loadAs_sameOutside _ (storeAs_sameOutside _ _ _ _ _) ?_
  rcases F.word_apart w' w h with hw | hw <;> omega

theorem getIndex_setIndex_same (b i : ℕ) {v : ℕ} (hv : v < 2^32) :
    (s.setIndex F b i v).getIndex F b i = v := by
  have hdata : ((s.setIndex F b i v).disk b).data = storeAs F.host (s.disk b).data (4*i) 4 v :=
    obj_setObj_same (o := .block b)
  rw [Tool.getIndex, hdata, loadAs_storeAs_same]
  exact Nat.mod_eq_of_lt hv

theorem getIndex_setIndex_ne (b : ℕ) {i j : ℕ} (h : j ≠ i) (v : ℕ) :
    (s.setIndex F b i v).getIndex F b j = s.getIndex F b j := by
  have hdata : ((s.setIndex F b i v).disk b).data = storeAs F.host (s.disk b).data (4*i) 4 v :=
    obj_setObj_same (o := .block b)
  rw [Tool.getIndex, hdata]
  exact loadAs_sameOutside _ (storeAs_sameOutside _ _ _ _ _) (by omega)

theorem get_copyName (w : FileWord F.NDIRECT) {n : ℕ} (hn : n ≤ F.MAXNAMELEN) (src : List UInt8) :
    (s.copyName F f n src).get F f w = s.get F f w := by
  rw [Tool.get, Tool.copyName, obj_setObj_same]
  refine loadAs_sameOutside _ (blit_sameOutside _ _ _ _) ?_
  rcases F.name_apart w with h | h <;> omega

theorem Keeps.get (h : Keeps s s' A) (hf : f.obj.Below s.nextbno) (w : FileWord F.NDIRECT)
    (hA : ∀ i, InWords F f f.obj i → ¬A f.obj i) : s'.get F f w = s.get F f w :=
  loadAs_congr _ fun i hl hu => h.byte _ hf i (hA i ⟨rfl, w, hl, hu⟩)

theorem Keeps.getIndex (h : Keeps s s' A) {b : ℕ} (hb : b < s.nextbno)
    (hA : ∀ i, ¬A (.block b) i) (i : ℕ) : s'.getIndex F b i = s.getIndex F b i :=
  loadAs_congr _ fun j _ _ => h.byte (.block b) hb j (hA j)

theorem Keeps.nameByte (h : Keeps s s' A) (hf : f.obj.Below s.nextbno) {i : ℕ}
    (hA : ¬A f.obj (f.base+F.f_name+i)) : s'.nameByte F f i = s.nameByte F f i :=
  h.byte _ hf _ hA

end

end RiscvMos.Fsformat
