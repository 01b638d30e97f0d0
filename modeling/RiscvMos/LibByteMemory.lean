import Mathlib.Algebra.Group.Nat.Defs
import Mathlib.Data.Nat.Basic
import Mathlib.Tactic.Common

/-! A flat byte memory with little-endian words, and the frame facts that say
which bytes a store, a fill or a copy leaves alone. -/
namespace ByteMem

abbrev Mem := ℕ → UInt8

/-- The little-endian word of `w` bytes at `a`. -/
def load (m : Mem) (a : ℕ) : ℕ → ℕ
  | 0 => 0
  | w+1 => (m a).toNat+256*load m (a+1) w

/-- Write the low `w` bytes of `v` at `a`. -/
def store (m : Mem) (a w v : ℕ) : Mem := fun b =>
  if a ≤ b ∧ b < a+w then UInt8.ofNat (v/256^(b-a)) else m b

def fill (m : Mem) (a n : ℕ) (c : UInt8) : Mem := fun b =>
  if a ≤ b ∧ b < a+n then c else m b

/-- Write `n` bytes of `src`, counted from its start, at `a`. -/
def blit (m : Mem) (a n : ℕ) (src : ℕ → UInt8) : Mem := fun b =>
  if a ≤ b ∧ b < a+n then src (b-a) else m b

/-- `m` and `m'` agree on every byte of `[a, a+n)`. -/
def AgreeOn (m m' : Mem) (a n : ℕ) : Prop := ∀ b, a ≤ b → b < a+n → m b = m' b

theorem AgreeOn.symm {m m' : Mem} {a n : ℕ} (h : AgreeOn m m' a n) : AgreeOn m' m a n :=
  fun b hl hu => (h b hl hu).symm

theorem AgreeOn.trans {m m' m'' : Mem} {a n : ℕ} (h : AgreeOn m m' a n)
    (h' : AgreeOn m' m'' a n) : AgreeOn m m'' a n :=
  fun b hl hu => (h b hl hu).trans (h' b hl hu)

theorem AgreeOn.mono {m m' : Mem} {a n b k : ℕ} (h : AgreeOn m m' a n)
    (hl : a ≤ b) (hu : b+k ≤ a+n) : AgreeOn m m' b k :=
  fun c hcl hcu => h c (le_trans hl hcl) (by omega)

/-- `m'` differs from `m` at most inside `[a, a+n)`. -/
def SameOutside (m m' : Mem) (a n : ℕ) : Prop := ∀ b, b < a ∨ a+n ≤ b → m' b = m b

theorem SameOutside.trans {m m' m'' : Mem} {a n : ℕ} (h : SameOutside m m' a n)
    (h' : SameOutside m' m'' a n) : SameOutside m m'' a n :=
  fun b hb => (h' b hb).trans (h b hb)

theorem SameOutside.mono {m m' : Mem} {a n b k : ℕ} (h : SameOutside m m' a n)
    (hl : b ≤ a) (hu : a+n ≤ b+k) : SameOutside m m' b k :=
  fun c hc => h c (by omega)

theorem SameOutside.agreeOn {m m' : Mem} {a n b k : ℕ} (h : SameOutside m m' a n)
    (hd : b+k ≤ a ∨ a+n ≤ b) : AgreeOn m' m b k :=
  fun c hl hu => h c (by omega)

theorem load_congr {m m' : Mem} {a w : ℕ} (h : AgreeOn m m' a w) :
    load m a w = load m' a w := by
  induction w generalizing a with
  | zero => rfl
  | succ w ih =>
    have hhead : m a = m' a := h a le_rfl (by omega)
    have htail : load m (a+1) w = load m' (a+1) w := ih (h.mono (by omega) (by omega))
    simp only [load, hhead, htail]

theorem load_lt (m : Mem) (a w : ℕ) : load m a w < 256^w := by
  induction w generalizing a with
  | zero => simp [load]
  | succ w ih =>
    have hb : (m a).toNat < 256 := (m a).toNat_lt
    have ht := ih (a+1)
    rw [load, Nat.pow_succ]
    omega

theorem load_of_bytes (m : Mem) (w : ℕ) : ∀ (a v : ℕ),
    (∀ i < w, m (a+i) = UInt8.ofNat (v/256^i)) → load m a w = v%256^w := by
  induction w with
  | zero => intro a v _; simp [load, Nat.mod_one]
  | succ w ih =>
    intro a v h
    have hhead : (m a).toNat = v%256 := by
      have h0 := h 0 (by omega)
      rw [Nat.add_zero, Nat.pow_zero, Nat.div_one] at h0
      rw [h0, UInt8.toNat_ofNat']
    have htail : load m (a+1) w = (v/256)%256^w := by
      apply ih
      intro i hi
      have hs := h (i+1) (by omega)
      rw [Nat.pow_succ', ← Nat.div_div_eq_div_mul] at hs
      rw [← hs]
      congr 1
      omega
    rw [load, hhead, htail, Nat.pow_succ', Nat.mod_mul]

theorem load_zero_bytes {m : Mem} {a w : ℕ} (h : ∀ b, a ≤ b → b < a+w → m b = 0) :
    load m a w = 0 := by
  induction w generalizing a with
  | zero => rfl
  | succ w ih =>
    have hhead : m a = 0 := h a le_rfl (by omega)
    have htail : load m (a+1) w = 0 := ih (fun b hl hu => h b (by omega) (by omega))
    simp [load, hhead, htail]

theorem load_store_same (m : Mem) (a w v : ℕ) : load (store m a w v) a w = v%256^w := by
  apply load_of_bytes
  intro i hi
  have hin : a ≤ a+i ∧ a+i < a+w := by omega
  simp only [store, hin, and_self, if_true, Nat.add_sub_cancel_left]

/-! ### Frames -/

theorem store_sameOutside (m : Mem) (a w v : ℕ) : SameOutside m (store m a w v) a w := by
  intro c hc
  have hout : ¬(a ≤ c ∧ c < a+w) := by omega
  simp only [store, hout, if_false]

theorem store_congr {m m' : Mem} {b : ℕ} (h : m b = m' b) (a w v : ℕ) :
    store m a w v b = store m' a w v b := by
  simp only [store, h]

theorem fill_sameOutside (m : Mem) (a n : ℕ) (x : UInt8) : SameOutside m (fill m a n x) a n := by
  intro c hc
  have hout : ¬(a ≤ c ∧ c < a+n) := by omega
  simp only [fill, hout, if_false]

theorem blit_sameOutside (m : Mem) (a n : ℕ) (src : ℕ → UInt8) :
    SameOutside m (blit m a n src) a n := by
  intro c hc
  have hout : ¬(a ≤ c ∧ c < a+n) := by omega
  simp only [blit, hout, if_false]

theorem load_sameOutside {m m' : Mem} {a n : ℕ} (h : SameOutside m m' a n) {b k : ℕ}
    (hd : b+k ≤ a ∨ a+n ≤ b) : load m' b k = load m b k :=
  load_congr (h.agreeOn hd)

theorem load_store_disjoint (m : Mem) (a w v b n : ℕ) (h : b+n ≤ a ∨ a+w ≤ b) :
    load (store m a w v) b n = load m b n :=
  load_sameOutside (store_sameOutside m a w v) h

theorem fill_apply_mem (m : Mem) (a n : ℕ) (c : UInt8) (b : ℕ) (h : a ≤ b ∧ b < a+n) :
    fill m a n c b = c := by
  simp only [fill, h, and_self, if_true]

/-! ### Words at several places -/

/-- Words of `w` bytes, word `i` at `addr i`, stored in the order of the list of their
indices. -/
def storeWords (m : Mem) (addr : ℕ → ℕ) (w : ℕ) (f : ℕ → ℕ) : List ℕ → Mem
  | [] => m
  | i :: l => storeWords (store m (addr i) w (f i)) addr w f l

theorem storeWords_other {m : Mem} {addr : ℕ → ℕ} {w c : ℕ} {f : ℕ → ℕ} {l : List ℕ}
    (h : ∀ i ∈ l, c < addr i ∨ addr i+w ≤ c) : storeWords m addr w f l c = m c := by
  induction l generalizing m with
  | nil => rfl
  | cons i l ih =>
    rw [storeWords, ih (fun j hj => h j (List.mem_cons_of_mem i hj))]
    exact store_sameOutside m (addr i) w (f i) c (h i List.mem_cons_self)

theorem storeWords_append (m : Mem) (addr : ℕ → ℕ) (w : ℕ) (f : ℕ → ℕ) (l l' : List ℕ) :
    storeWords m addr w f (l ++ l') = storeWords (storeWords m addr w f l) addr w f l' := by
  induction l generalizing m with
  | nil => rfl
  | cons i l ih => exact ih _

theorem storeWords_congr {f g : ℕ → ℕ} {l : List ℕ} (h : ∀ i ∈ l, f i = g i) (m : Mem)
    (addr : ℕ → ℕ) (w : ℕ) : storeWords m addr w f l = storeWords m addr w g l := by
  induction l generalizing m with
  | nil => rfl
  | cons i l ih =>
    rw [storeWords, storeWords, h i List.mem_cons_self,
      ih (fun j hj => h j (List.mem_cons_of_mem i hj))]

theorem load_storeWords (m : Mem) {addr : ℕ → ℕ} {w : ℕ} (f : ℕ → ℕ) {l : List ℕ} {j : ℕ}
    (h : ∀ i ∈ l, i ≠ j → addr j+w ≤ addr i ∨ addr i+w ≤ addr j) :
    load (storeWords m addr w f l) (addr j) w =
      if j ∈ l then f j%256^w else load m (addr j) w := by
  induction l generalizing m with
  | nil => exact (if_neg List.not_mem_nil).symm
  | cons i l ih =>
    rw [storeWords, ih _ (fun k hk => h k (List.mem_cons_of_mem i hk))]
    by_cases hl : j ∈ l
    · rw [if_pos hl, if_pos (List.mem_cons_of_mem i hl)]
    · rw [if_neg hl]
      by_cases hij : i = j
      · rw [hij, if_pos List.mem_cons_self, load_store_same]
      · have hnot : j ∉ i :: l := fun h => (List.mem_cons.mp h).elim (fun hj => hij hj.symm) hl
        rw [if_neg hnot, load_store_disjoint _ _ _ _ _ _ (h i List.mem_cons_self hij)]

theorem load_moved {m m' : Mem} {a b : ℕ} (w : ℕ) (h : ∀ i < w, m (a+i) = m' (b+i)) :
    load m a w = load m' b w := by
  induction w generalizing a b with
  | zero => rfl
  | succ w ih =>
    have hhead : m a = m' b := h 0 (Nat.succ_pos w)
    have htail : load m (a+1) w = load m' (b+1) w := by
      apply ih
      intro i hi
      have hs := h (i+1) (by omega)
      rwa [Nat.add_comm i 1, ← Nat.add_assoc, ← Nat.add_assoc] at hs
    simp only [load, hhead, htail]

theorem load_blit {m m' : Mem} {a b n k w : ℕ} (h : k+w ≤ n) :
    load (blit m a n (fun i => m' (b+i))) (a+k) w = load m' (b+k) w := by
  apply load_moved
  intro i hi
  have hin : a ≤ a+k+i ∧ a+k+i < a+n := by omega
  rw [blit, if_pos hin]
  congr 1
  omega

/-! ### Byte by byte copies -/

/-- `for (k = 0; k < n; k++) dst[k] = src[k];` -/
def copyForward (m : Mem) (dst src : ℕ) : ℕ → Mem
  | 0 => m
  | k+1 =>
    let m' := copyForward m dst src k
    store m' (dst+k) 1 (m' (src+k)).toNat

theorem copyForward_add (m : Mem) (dst src j k : ℕ) :
    copyForward m dst src (j+k) = copyForward (copyForward m dst src j) (dst+j) (src+j) k := by
  induction k with
  | zero => rfl
  | succ k ih => rw [← Nat.add_assoc, copyForward, copyForward, ih, Nat.add_assoc, Nat.add_assoc]

theorem blit_zero (m : Mem) (a : ℕ) (src : ℕ → UInt8) : blit m a 0 src = m := by
  funext b
  exact if_neg (by omega)

theorem blit_succ (m : Mem) (a n : ℕ) (src : ℕ → UInt8) :
    blit m a (n+1) src = store (blit m a n src) (a+n) 1 (src n).toNat := by
  funext b
  by_cases hb : b = a+n
  · subst hb
    simp [blit, store]
  · have hone : ¬(a+n ≤ b ∧ b < a+n+1) := by omega
    have hiff : a ≤ b ∧ b < a+(n+1) ↔ a ≤ b ∧ b < a+n := by omega
    simp only [blit, store, hone, if_false, hiff]

/-- The bytes that a turn reads were not written by the turns before it, unless `dst` lies
inside the source. -/
theorem copyForward_eq_blit (m : Mem) {dst src n : ℕ} (h : dst ≤ src ∨ src+n ≤ dst) :
    copyForward m dst src n = blit m dst n (fun i => m (src+i)) := by
  induction n with
  | zero => exact (blit_zero m dst _).symm
  | succ n ih =>
    have hread : blit m dst n (fun i => m (src+i)) (src+n) = m (src+n) :=
      blit_sameOutside m dst n _ _ (by omega)
    rw [copyForward, ih (by omega), blit_succ, hread]

/-- To an address behind its source a forward copy repeats the bytes between the two. -/
theorem copyForward_repeats (m : Mem) {dst src : ℕ} (h : src < dst) (n : ℕ) {j : ℕ}
    (hj : j < dst-src+n) : copyForward m dst src n (src+j) = m (src+j%(dst-src)) := by
  induction n generalizing j with
  | zero =>
    have hlt : j < dst-src := hj
    rw [copyForward, Nat.mod_eq_of_lt hlt]
  | succ n ih =>
    rw [copyForward]
    by_cases hlast : j = dst-src+n
    · -- The byte that is written now was read one period before.
      have hat : src+j = dst+n := by omega
      have hone : dst+n ≤ dst+n ∧ dst+n < dst+n+1 := ⟨le_rfl, Nat.lt_succ_self _⟩
      rw [hat, store, if_pos hone, Nat.sub_self, Nat.pow_zero, Nat.div_one, UInt8.ofNat_toNat,
        ih (by omega), hlast, Nat.add_mod_left]
    · rw [store_sameOutside _ _ _ _ _ (by omega), ih (by omega)]

theorem load_byte (m : Mem) (a w i : ℕ) (hi : i < w) :
    UInt8.ofNat (load m a w/256^i) = m (a+i) := by
  induction i generalizing a w with
  | zero =>
    obtain ⟨w, rfl⟩ := Nat.exists_eq_succ_of_ne_zero (by omega : w ≠ 0)
    apply UInt8.toNat_inj.mp
    have hb : (m a).toNat < 256 := (m a).toNat_lt
    rw [Nat.pow_zero, Nat.div_one, UInt8.toNat_ofNat', load, Nat.add_zero a]
    omega
  | succ i ih =>
    obtain ⟨w, rfl⟩ := Nat.exists_eq_succ_of_ne_zero (by omega : w ≠ 0)
    have hb : (m a).toNat < 256 := (m a).toNat_lt
    have hrest : load m a (w+1)/256 = load m (a+1) w := by
      rw [load]
      omega
    rw [Nat.pow_succ', ← Nat.div_div_eq_div_mul, hrest, ih _ _ (by omega)]
    congr 1
    omega

theorem store_load_eq_blit (m : Mem) (dst src w : ℕ) :
    store m dst w (load m src w) = blit m dst w (fun i => m (src+i)) := by
  funext b
  by_cases hb : dst ≤ b ∧ b < dst+w
  · rw [store, blit, if_pos hb, if_pos hb]
    exact load_byte m src w (b-dst) (by omega)
  · rw [store, blit, if_neg hb, if_neg hb]

end ByteMem
