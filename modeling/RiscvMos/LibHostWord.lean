import RiscvMos.LibByteMemory

/-! Words of `w` bytes in the byte order of a host. -/
namespace HostWord
open ByteMem

inductive Endian
  | little
  | big
  deriving DecidableEq

/-- The word at `a`. -/
def loadAs (e : Endian) (m : Mem) (a w : ℕ) : ℕ :=
  match e with
  | .little => load m a w
  | .big => load (fun i => m (a+w-1-i)) 0 w

/-- Write the low `w` bytes of `v` at `a`. -/
def storeAs (e : Endian) (m : Mem) (a w v : ℕ) : Mem :=
  match e with
  | .little => store m a w v
  | .big => fun b => if a ≤ b ∧ b < a+w then UInt8.ofNat (v/256^(a+w-1-b)) else m b

variable (e : Endian) (m : Mem) (a w v : ℕ)

theorem loadAs_storeAs_same : loadAs e (storeAs e m a w v) a w = v%256^w := by
  cases e with
  | little => exact load_store_same m a w v
  | big =>
    apply load_of_bytes
    intro i hi
    have hin : a ≤ a+w-1-(0+i) ∧ a+w-1-(0+i) < a+w := by omega
    have hback : a+w-1-(a+w-1-(0+i)) = i := by omega
    simp only [storeAs, hin, and_self, if_true, hback]

theorem storeAs_sameOutside : SameOutside m (storeAs e m a w v) a w := by
  cases e with
  | little => exact store_sameOutside m a w v
  | big =>
    intro b hb
    exact if_neg (by omega)

variable {m a w}

theorem loadAs_congr {m' : Mem} (h : AgreeOn m m' a w) : loadAs e m a w = loadAs e m' a w := by
  cases e with
  | little => exact load_congr h
  | big => exact load_congr fun i _ hi => h _ (by omega) (by omega)

theorem loadAs_zero (h : ∀ b, a ≤ b → b < a+w → m b = 0) : loadAs e m a w = 0 := by
  cases e with
  | little => exact load_zero_bytes h
  | big => exact load_zero_bytes fun i _ hi => h _ (by omega) (by omega)

theorem loadAs_sameOutside {m' : Mem} {b n : ℕ} (h : SameOutside m m' b n)
    (hd : a+w ≤ b ∨ b+n ≤ a) : loadAs e m' a w = loadAs e m a w :=
  loadAs_congr e (h.agreeOn hd)

variable (m a w)

theorem storeAs_loadAs : storeAs e m a w (loadAs e m a w) = m := by
  funext b
  cases e with
  | little =>
    show (if a ≤ b ∧ b < a+w then UInt8.ofNat (load m a w/256^(b-a)) else m b) = m b
    split_ifs with hb
    · rw [load_byte m a w (b-a) (by omega)]
      congr 1
      omega
    · rfl
  | big =>
    show (if a ≤ b ∧ b < a+w then
      UInt8.ofNat (load (fun i => m (a+w-1-i)) 0 w/256^(a+w-1-b)) else m b) = m b
    split_ifs with hb
    · rw [load_byte _ 0 w (a+w-1-b) (by omega)]
      congr 1
      omega
    · rfl

end HostWord
