import RiscvMos.EnvSpec

/-! The rules of the loader: how `load_icode` calls its mapper, for any mapper. -/
namespace RiscvMos
open ByteMem Function

/-- `ph` is the header of a segment that `load_icode` loads. -/
def Segment (img : Image) (ehdr : Ehdr) (ph : Phdr) : Prop :=
  ∃ idx < ehdr.e_phnum, ph = readPhdr img.bytes ((ehdr.e_phoff+idx*ehdr.e_phentsize)%2^64) ∧
    ph.p_type = PT_LOAD

theorem elfFrom_eq_some {img : Image} {ehdr : Ehdr} (h : elfFrom img = some ehdr) :
    ehdr = readEhdr img.bytes ∧ EHDR_SIZE ≤ img.size := by
  rw [elfFrom] at h
  split_ifs at h with hsize
  exact ⟨(Option.some.inj h).symm, hsize.1⟩

theorem elfFrom_entry {img : Image} {ehdr : Ehdr} (h : elfFrom img = some ehdr) :
    ehdr.e_entry < 2^64 := by
  obtain ⟨rfl, _⟩ := elfFrom_eq_some h
  exact load_lt _ _ 8

theorem elfFrom_phoff {img : Image} {ehdr : Ehdr} (h : elfFrom img = some ehdr) :
    ehdr.e_phoff < 2^64 := by
  obtain ⟨rfl, _⟩ := elfFrom_eq_some h
  exact load_lt _ _ 8

section
variable {σ : Type} {map_page : ElfMapper σ}

theorem elfBinLoop_eq (map_page : ElfMapper σ) (st : σ) (va perm bin bin_size i : ℕ) :
    elfBinLoop map_page st va perm bin bin_size i =
      if i < bin_size then
        map_page st ((va+i)%2^64) 0 perm (some ((bin+i)%2^64)) (min (bin_size-i) PAGE_SIZE) >>=
          fun x => if x.1 ≠ 0 then .ok (x.1, i, x.2)
            else elfBinLoop map_page x.2 va perm bin bin_size (i+PAGE_SIZE)
      else .ok (0, i, st) := by
  rw [elfBinLoop]

theorem elfZeroLoop_eq (map_page : ElfMapper σ) (st : σ) (va perm sgsize i : ℕ) :
    elfZeroLoop map_page st va perm sgsize i =
      if i < sgsize then
        map_page st ((va+i)%2^64) 0 perm none (min (sgsize-i) PAGE_SIZE) >>=
          fun x => if x.1 ≠ 0 then .ok x
            else elfZeroLoop map_page x.2 va perm sgsize (i+PAGE_SIZE)
      else .ok (0, st) := by
  rw [elfZeroLoop]

/-! ### Invariants of the calls -/

/-- `I` survives the calls of the mapper for user addresses that `A` allows. -/
def MapperCalls (map_page : ElfMapper σ) (A : ℕ → ℕ → Prop) (I : σ → Prop) : Prop :=
  ∀ st ph va offset src len r st', I st → A va offset → va < USTACKTOP → offset+len ≤ PAGE_SIZE →
    map_page st va offset (segPerm ph) src len = .ok (r, st') → I st'

/-- `I` survives the calls that an aligned segment below USTACKTOP makes. -/
def PageCalls (map_page : ElfMapper σ) (I : σ → Prop) : Prop :=
  MapperCalls map_page (fun va offset => va%PAGE_SIZE = 0 ∧ offset = 0) I

variable {A : ℕ → ℕ → Prop} {I : σ → Prop}

theorem USTACKTOP_lt : USTACKTOP < 2^64 := by decide

theorem user_address {va i n : ℕ} (hin : i < n) (htop : va+n ≤ USTACKTOP) :
    (va+i)%2^64 = va+i ∧ va+i < USTACKTOP := by
  have hlt := USTACKTOP_lt
  omega

theorem MapperCalls.turn (hI : MapperCalls map_page A I) {ph : Phdr} {va i n : ℕ} {src : Option ℕ}
    {st : σ} {r : ℤ} {st' : σ} (htop : va+n ≤ USTACKTOP) (hlt : i < n) (hA : A (va+i) 0) (h : I st)
    (hcall : map_page st ((va+i)%2^64) 0 (segPerm ph) src (min (n-i) PAGE_SIZE) = .ok (r, st')) :
    I st' := by
  obtain ⟨hva, hbelow⟩ := user_address hlt htop
  rw [hva] at hcall
  have hlen : 0+min (n-i) PAGE_SIZE ≤ PAGE_SIZE := by omega
  exact hI st ph _ _ _ _ r st' h hA hbelow hlen hcall

theorem elfBinLoop_invariant (hI : MapperCalls map_page A I) {ph : Phdr} {va bin bin_size : ℕ}
    (htop : va+bin_size ≤ USTACKTOP) {B : ℕ → Prop} (hA : ∀ i, B i → A (va+i) 0)
    (hB : ∀ i, B i → B (i+PAGE_SIZE)) {i : ℕ} :
    ∀ {st : σ} {r : ℤ} {j : ℕ} {st' : σ}, B i → I st →
      elfBinLoop map_page st va (segPerm ph) bin bin_size i = .ok (r, j, st') →
      I st' ∧ (r = 0 → B j) := by
  induction hn : bin_size-i using Nat.strong_induction_on generalizing i with
  | _ n ih =>
    intro st r j st' hi h hrun
    rw [elfBinLoop_eq] at hrun
    split_ifs at hrun with hlt
    · obtain ⟨⟨r₁, st₁⟩, hcall, hrun⟩ := bind_eq_ok.mp hrun
      have h₁ := hI.turn htop hlt (hA i hi) h hcall
      dsimp only at hrun
      split_ifs at hrun with hr
      · cases hrun
        exact ⟨h₁, fun h0 => absurd h0 hr⟩
      · have hpage : PAGE_SIZE = 4096 := rfl
        exact ih (bin_size-(i+PAGE_SIZE)) (by omega) rfl (hB i hi) h₁ hrun
    · cases hrun
      exact ⟨h, fun _ => hi⟩

theorem elfZeroLoop_invariant (hI : MapperCalls map_page A I) {ph : Phdr} {va sgsize : ℕ}
    (htop : va+sgsize ≤ USTACKTOP) {B : ℕ → Prop} (hA : ∀ i, B i → A (va+i) 0)
    (hB : ∀ i, B i → B (i+PAGE_SIZE)) {i : ℕ} :
    ∀ {st : σ} {r : ℤ} {st' : σ}, B i → I st →
      elfZeroLoop map_page st va (segPerm ph) sgsize i = .ok (r, st') → I st' := by
  induction hn : sgsize-i using Nat.strong_induction_on generalizing i with
  | _ n ih =>
    intro st r st' hi h hrun
    rw [elfZeroLoop_eq] at hrun
    split_ifs at hrun with hlt
    · obtain ⟨⟨r₁, st₁⟩, hcall, hrun⟩ := bind_eq_ok.mp hrun
      have h₁ := hI.turn htop hlt (hA i hi) h hcall
      dsimp only at hrun
      split_ifs at hrun with hr
      · cases hrun
        exact h₁
      · have hpage : PAGE_SIZE = 4096 := rfl
        exact ih (sgsize-(i+PAGE_SIZE)) (by omega) rfl (hB i hi) h₁ hrun
    · cases hrun
      exact h

theorem elfLoops_invariant (hI : MapperCalls map_page A I) {ph : Phdr} {bin : ℕ}
    (hsize : ph.p_filesz ≤ ph.p_memsz) (htop : ph.p_vaddr+ph.p_memsz ≤ USTACKTOP) {B : ℕ → Prop}
    (hA : ∀ i, B i → A (ph.p_vaddr+i) 0) (hB : ∀ i, B i → B (i+PAGE_SIZE)) {i : ℕ} {st : σ} {r : ℤ}
    {st' : σ} (hi : B i) (h : I st)
    (hrun : (elfBinLoop map_page st ph.p_vaddr (segPerm ph) bin ph.p_filesz i >>= fun x =>
      if x.1 ≠ 0 then .ok (x.1, x.2.2)
      else elfZeroLoop map_page x.2.2 ph.p_vaddr (segPerm ph) ph.p_memsz x.2.1) = .ok (r, st')) :
    I st' := by
  obtain ⟨⟨r₁, j, st₁⟩, hbin, hrun⟩ := bind_eq_ok.mp hrun
  obtain ⟨h₁, hj⟩ := elfBinLoop_invariant hI (by omega) hA hB hi h hbin
  dsimp only at hrun
  split_ifs at hrun with hr
  · cases hrun
    exact h₁
  · exact elfZeroLoop_invariant hI htop hA hB (hj (not_not.mp hr)) h₁ hrun

theorem elfLoadSeg_invariant (hI : PageCalls map_page I) {ph : Phdr} {bin : ℕ}
    (hva : ph.p_vaddr%PAGE_SIZE = 0) (hsize : ph.p_filesz ≤ ph.p_memsz)
    (htop : ph.p_vaddr+ph.p_memsz ≤ USTACKTOP) {st : σ} {r : ℤ} {st' : σ} (h : I st)
    (hrun : elfLoadSeg map_page st ph bin = .ok (r, st')) : I st' := by
  have hlt := USTACKTOP_lt
  have h0 : ph.p_vaddr-ROUNDDOWN ph.p_vaddr PAGE_SIZE = 0 := by
    rw [PAGE_SIZE] at hva
    rw [ROUNDDOWN_page _ (by omega)]
    omega
  rw [elfLoadSeg] at hrun
  simp only [h0, ne_eq, not_true_eq_false, if_false] at hrun
  refine elfLoops_invariant hI (B := fun i => i%PAGE_SIZE = 0) hsize htop ?_ ?_ rfl h hrun
  · intro i hi
    exact ⟨by rw [Nat.add_mod, hva, hi]; rfl, rfl⟩
  · intro i hi
    show (i+PAGE_SIZE)%PAGE_SIZE = 0
    rw [Nat.add_mod_right]
    exact hi

/-- A segment anywhere below USTACKTOP. -/
theorem elfLoadSeg_user (hI : MapperCalls map_page (fun _ _ => True) I) {ph : Phdr} {bin : ℕ}
    (hsize : ph.p_filesz ≤ ph.p_memsz) (htop : ph.p_vaddr+ph.p_memsz ≤ USTACKTOP) {st : σ} {r : ℤ}
    {st' : σ} (h : I st) (hrun : elfLoadSeg map_page st ph bin = .ok (r, st')) : I st' := by
  have hpage : PAGE_SIZE = 4096 := rfl
  have htop' : USTACKTOP = 524287*4096 := by decide
  have hround : ROUNDDOWN ph.p_vaddr PAGE_SIZE = ph.p_vaddr/4096*4096 := ROUNDDOWN_page _ (by omega)
  have hA (i : ℕ) (_ : True) : True := trivial
  rw [elfLoadSeg] at hrun
  dsimp only at hrun
  split_ifs at hrun with h0
  · obtain ⟨⟨r₁, st₁⟩, hcall, hrun⟩ := bind_eq_ok.mp hrun
    have h₁ := hI st ph _ _ _ _ r₁ st₁ h trivial (by omega) (by omega) hcall
    dsimp only at hrun
    split_ifs at hrun with hr
    · cases hrun
      exact h₁
    · exact elfLoops_invariant hI hsize htop hA hA trivial h₁ hrun
  · exact elfLoops_invariant hI hsize htop hA hA trivial h hrun

theorem loadSegments_invariant {img : Image} {ehdr : Ehdr}
    (hseg : ∀ ph st r st', Segment img ehdr ph → I st →
      elfLoadSeg map_page st ph ph.p_offset = .ok (r, st') → I st')
    {idx : ℕ} : ∀ {st st' : σ}, I st →
      loadSegments map_page img ehdr st idx ((ehdr.e_phoff+idx*ehdr.e_phentsize)%2^64) = .ok st' →
      I st' := by
  induction hn : ehdr.e_phnum-idx generalizing idx with
  | zero =>
    intro st st' h hrun
    rw [loadSegments, if_neg (by omega)] at hrun
    cases hrun
    exact h
  | succ n ih =>
    intro st st' h hrun
    rw [loadSegments, if_pos (by omega)] at hrun
    have hoff : ((ehdr.e_phoff+idx*ehdr.e_phentsize)%2^64+ehdr.e_phentsize)%2^64 =
        (ehdr.e_phoff+(idx+1)*ehdr.e_phentsize)%2^64 := by
      rw [Nat.add_mul, Nat.mod_add_mod, Nat.one_mul, Nat.add_assoc]
    rw [hoff] at hrun
    obtain ⟨st₁, hload, hrun⟩ := bind_eq_ok.mp hrun
    refine ih (by omega) ?_ hrun
    split_ifs at hload with htype
    · obtain ⟨⟨r, st₂⟩, hcall, hst⟩ := bind_eq_ok.mp hload
      cases hst
      exact hseg _ st r _ ⟨idx, by omega, rfl, htype⟩ h hcall
    · cases hload
      exact h

/-! ### A segment within one page -/

/-- The file bytes of a segment that fill it and end in its first page take one call. -/
theorem elfLoadSeg_page (map_page : ElfMapper σ) (st : σ) {ph : Phdr} {bin : ℕ}
    (hva : ph.p_vaddr < 2^63) (hbin : bin < 2^64) (hpos : 0 < ph.p_filesz)
    (hsize : ph.p_memsz = ph.p_filesz) (hfit : ph.p_vaddr%4096+ph.p_filesz ≤ 4096) :
    elfLoadSeg map_page st ph bin =
      map_page st ph.p_vaddr (ph.p_vaddr%4096) (segPerm ph) (some bin) ph.p_filesz := by
  have hpage : PAGE_SIZE = 4096 := rfl
  have hoff : ph.p_vaddr-ROUNDDOWN ph.p_vaddr PAGE_SIZE = ph.p_vaddr%4096 := by
    rw [ROUNDDOWN_page _ (by omega)]
    omega
  -- whatever the call returns, the loops behind it have nothing left to do
  have hzero (st : σ) (i : ℕ) (hi : ph.p_filesz ≤ i) :
      elfZeroLoop map_page st ph.p_vaddr (segPerm ph) ph.p_filesz i = .ok (0, st) := by
    rw [elfZeroLoop_eq, if_neg (by omega)]
  have hloop (st : σ) (i : ℕ) (hi : ph.p_filesz ≤ i) :
      elfBinLoop map_page st ph.p_vaddr (segPerm ph) bin ph.p_filesz i = .ok (0, i, st) := by
    rw [elfBinLoop_eq, if_neg (by omega)]
  rw [elfLoadSeg]
  simp only [hoff, hsize]
  by_cases h0 : ph.p_vaddr%4096 = 0
  · have hmod : (ph.p_vaddr+0)%2^64 = ph.p_vaddr := Nat.mod_eq_of_lt (by omega)
    have hbmod : (bin+0)%2^64 = bin := Nat.mod_eq_of_lt (by omega)
    have hmin : min (ph.p_filesz-0) PAGE_SIZE = ph.p_filesz := by omega
    simp only [h0, ne_eq, not_true_eq_false, if_false]
    rw [elfBinLoop_eq, if_pos hpos, hmod, hbmod, hmin]
    cases map_page st ph.p_vaddr 0 (segPerm ph) (some bin) ph.p_filesz with
    | error e => rfl
    | ok x =>
      obtain ⟨r, st₁⟩ := x
      simp only [ok_bind]
      by_cases hr : r = 0
      · rw [if_neg (fun h => h hr), hloop st₁ _ (by omega), ok_bind]
        dsimp only
        rw [if_neg (fun h => h rfl), hzero st₁ _ (by omega), hr]
      · rw [if_pos hr, ok_bind]
        dsimp only
        rw [if_pos hr]
  · have hmin : min ph.p_filesz (PAGE_SIZE-ph.p_vaddr%4096) = ph.p_filesz := by omega
    simp only [h0, ne_eq, not_false_eq_true, if_true, hmin]
    cases map_page st ph.p_vaddr (ph.p_vaddr%4096) (segPerm ph) (some bin) ph.p_filesz with
    | error e => rfl
    | ok x =>
      obtain ⟨r, st₁⟩ := x
      simp only [ok_bind]
      by_cases hr : r = 0
      · rw [if_neg (fun h => h hr), hloop st₁ _ le_rfl, ok_bind]
        dsimp only
        rw [if_neg (fun h => h rfl), hzero st₁ _ le_rfl, hr]
      · rw [if_pos hr]

theorem loadSegments_single (map_page : ElfMapper σ) (st : σ) {img : Image} {ehdr : Ehdr}
    (hnum : ehdr.e_phnum = 1) (hload : (readPhdr img.bytes ehdr.e_phoff).p_type = PT_LOAD) :
    loadSegments map_page img ehdr st 0 ehdr.e_phoff =
      elfLoadSeg map_page st (readPhdr img.bytes ehdr.e_phoff)
        (readPhdr img.bytes ehdr.e_phoff).p_offset >>= fun x => .ok x.2 := by
  rw [loadSegments, if_pos (by omega)]
  dsimp only
  rw [if_pos hload]
  cases elfLoadSeg map_page st (readPhdr img.bytes ehdr.e_phoff)
      (readPhdr img.bytes ehdr.e_phoff).p_offset with
  | error e => rfl
  | ok x =>
    simp only [ok_bind]
    rw [loadSegments, if_neg (by omega)]

end

/-! ### A mapper that carries more state -/

section
variable {σ ρ : Type} {map_page' : ElfMapper (σ × ρ)} {map_page : ElfMapper σ}

theorem map_ok {α β : Type} (f : α → β) (a : α) : (Except.ok a : Result α).map f = .ok (f a) := rfl

/-- Without its second component, `map_page'` is `map_page`. -/
def Erases (map_page' : ElfMapper (σ × ρ)) (map_page : ElfMapper σ) : Prop :=
  ∀ st va offset perm src len,
    (map_page' st va offset perm src len).map (fun x => (x.1, x.2.1)) =
      map_page st.1 va offset perm src len

theorem elfBinLoop_erases (h : Erases map_page' map_page) (va perm bin bin_size i : ℕ) :
    ∀ st, (elfBinLoop map_page' st va perm bin bin_size i).map (fun x => (x.1, x.2.1, x.2.2.1)) =
      elfBinLoop map_page st.1 va perm bin bin_size i := by
  induction hn : bin_size-i using Nat.strong_induction_on generalizing i with
  | _ n ih =>
    intro st
    rw [elfBinLoop_eq, elfBinLoop_eq]
    split_ifs with hlt
    · rw [← h]
      cases map_page' st ((va+i)%2^64) 0 perm (some ((bin+i)%2^64)) (min (bin_size-i) PAGE_SIZE) with
      | error e => rfl
      | ok x =>
        simp only [ok_bind, map_ok]
        split_ifs with hr
        · rfl
        · have hpage : PAGE_SIZE = 4096 := rfl
          exact ih (bin_size-(i+PAGE_SIZE)) (by omega) _ rfl x.2
    · rfl

theorem elfZeroLoop_erases (h : Erases map_page' map_page) (va perm sgsize i : ℕ) :
    ∀ st, (elfZeroLoop map_page' st va perm sgsize i).map (fun x => (x.1, x.2.1)) =
      elfZeroLoop map_page st.1 va perm sgsize i := by
  induction hn : sgsize-i using Nat.strong_induction_on generalizing i with
  | _ n ih =>
    intro st
    rw [elfZeroLoop_eq, elfZeroLoop_eq]
    split_ifs with hlt
    · rw [← h]
      cases map_page' st ((va+i)%2^64) 0 perm none (min (sgsize-i) PAGE_SIZE) with
      | error e => rfl
      | ok x =>
        simp only [ok_bind, map_ok]
        split_ifs with hr
        · rfl
        · have hpage : PAGE_SIZE = 4096 := rfl
          exact ih (sgsize-(i+PAGE_SIZE)) (by omega) _ rfl x.2
    · rfl

theorem elfLoadSeg_erases (h : Erases map_page' map_page) (st : σ × ρ) (ph : Phdr) (bin : ℕ) :
    (elfLoadSeg map_page' st ph bin).map (fun x => (x.1, x.2.1)) =
      elfLoadSeg map_page st.1 ph bin := by
  -- the two loops, from any index and any state on
  have hrest (i : ℕ) (st : σ × ρ) :
      ((elfBinLoop map_page' st ph.p_vaddr (segPerm ph) bin ph.p_filesz i >>= fun x =>
        if x.1 ≠ 0 then .ok (x.1, x.2.2)
        else elfZeroLoop map_page' x.2.2 ph.p_vaddr (segPerm ph) ph.p_memsz x.2.1).map
          fun x => (x.1, x.2.1)) =
      elfBinLoop map_page st.1 ph.p_vaddr (segPerm ph) bin ph.p_filesz i >>= fun x =>
        if x.1 ≠ 0 then .ok (x.1, x.2.2)
        else elfZeroLoop map_page x.2.2 ph.p_vaddr (segPerm ph) ph.p_memsz x.2.1 := by
    rw [← elfBinLoop_erases h]
    cases elfBinLoop map_page' st ph.p_vaddr (segPerm ph) bin ph.p_filesz i with
    | error e => rfl
    | ok x =>
      simp only [ok_bind, map_ok]
      split_ifs
      · rfl
      · exact elfZeroLoop_erases h _ _ _ _ _
  simp only [elfLoadSeg]
  split_ifs with h0
  · rw [← h]
    cases map_page' st ph.p_vaddr (ph.p_vaddr-ROUNDDOWN ph.p_vaddr PAGE_SIZE) (segPerm ph)
        (some bin) (min ph.p_filesz (PAGE_SIZE-(ph.p_vaddr-ROUNDDOWN ph.p_vaddr PAGE_SIZE))) with
    | error e => rfl
    | ok x =>
      simp only [ok_bind, map_ok]
      split_ifs
      · rfl
      · exact hrest _ _
  · exact hrest _ _

theorem loadSegments_erases (h : Erases map_page' map_page) (img : Image) (ehdr : Ehdr)
    (idx ph_off : ℕ) : ∀ st, (loadSegments map_page' img ehdr st idx ph_off).map Prod.fst =
      loadSegments map_page img ehdr st.1 idx ph_off := by
  induction hn : ehdr.e_phnum-idx generalizing idx ph_off with
  | zero =>
    intro st
    rw [loadSegments, loadSegments, if_neg (by omega), if_neg (by omega)]
    rfl
  | succ n ih =>
    intro st
    rw [loadSegments, loadSegments, if_pos (by omega), if_pos (by omega)]
    dsimp only
    split_ifs with hload
    · rw [← elfLoadSeg_erases h]
      cases elfLoadSeg map_page' st (readPhdr img.bytes ph_off) (readPhdr img.bytes ph_off).p_offset with
      | error e => rfl
      | ok x => exact ih (idx+1) _ (by omega) x.2
    · exact ih (idx+1) _ (by omega) st

end

end RiscvMos
