import Mathlib.Data.Nat.Bitwise
import RiscvMos.LibByteMemory

/-! The memory layout and the Sv39 macros of mmu.h, the rounding macros of
types.h, and how a run can stop. Addresses and words are naturals below 2^64;
a wrap is written where the source can reach one. -/
namespace RiscvMos

export ByteMem (Mem)

/-- How kernel code stops without returning. -/
inductive Stop
  /-- `panic(s)`: print `s` and spin. -/
  | panic (s : String)
  /-- The recursion of `freewalk` ran over the kernel stack. -/
  | stackOverflow
  /-- A local pointer is used that no assignment reached. -/
  | unsetPointer (var : String)
  deriving DecidableEq, Repr

/-- The result of a kernel function that may stop. -/
abbrev Result := Except Stop

@[simp] theorem ok_bind {α β : Type} (a : α) (f : α → Result β) :
    (Except.ok a >>= f) = f a := rfl

@[simp] theorem error_bind {α β : Type} (e : Stop) (f : α → Result β) :
    (Except.error e >>= f) = .error e := rfl

theorem bind_eq_ok {α β : Type} {x : Result α} {f : α → Result β} {b : β} :
    (x >>= f) = .ok b ↔ ∃ a, x = .ok a ∧ f a = .ok b := by
  cases x with
  | error e => simp
  | ok a => simp

def NASID : ℕ := 256
def UART0 : ℕ := 0x10000000
def VIRTIO0 : ℕ := 0x10001000
def CLINT : ℕ := 0x2000000
def PLIC : ℕ := 0x0c000000
def KERNBASE : ℕ := 0x80200000
def KERNEND : ℕ := 0x80400000
def PHYEND : ℕ := 0x88000000
def KSTACKTOP : ℕ := 0x80400000
def PAGE_SIZE : ℕ := 4096
def MAXVA : ℕ := 1 <<< (9+9+9+12-1)
def UVPT : ℕ := MAXVA-PAGE_SIZE-0x40000000
def ENVS (i : ℕ) : ℕ := UVPT-(i+1)*PAGE_SIZE
def USTACKTOP : ℕ := 0x80000000-PAGE_SIZE

def MAKE_SATP (pte : ℕ) : ℕ := (8 <<< 60) ||| (pte >>> 12)

def VPN_SHIFT (level : ℕ) : ℕ := 12+9*level
def VPN_L (level va : ℕ) : ℕ := va >>> VPN_SHIFT level &&& 0x1ff

def PTE_V : ℕ := 1 <<< 0
def PTE_R : ℕ := 1 <<< 1
def PTE_W : ℕ := 1 <<< 2
def PTE_X : ℕ := 1 <<< 3
def PTE_U : ℕ := 1 <<< 4

def PTE_FLAGS (pte : ℕ) : ℕ := pte &&& 0x3FF
def PA2PTE (pa : ℕ) : ℕ := (pa >>> 12) <<< 10
def PTE2PA (pte : ℕ) : ℕ := (pte >>> 10) <<< 12 % 2^64

/-- `~((n)-1)` as a 64-bit mask is `2^64-n`. -/
def ROUND (a n : ℕ) : ℕ := (a+n-1)%2^64 &&& (2^64-n)
def ROUNDDOWN (a n : ℕ) : ℕ := a &&& (2^64-n)

def load64 (m : Mem) (a : ℕ) : ℕ := ByteMem.load m a 8
def store64 (m : Mem) (a v : ℕ) : Mem := ByteMem.store m a 8 v

/-! ### Rounding -/

theorem and_page_mask (a : ℕ) (ha : a < 2^64) : a &&& (2^64-4096) = a/4096*4096 := by
  have hmask : (2^64-4096 : ℕ) = (2^52-1) <<< 12 := by decide
  have hdiv : a/4096*4096 = (a/4096) <<< 12 := by rw [Nat.shiftLeft_eq]
  have hlow : (a/4096) &&& (2^52-1) = a/4096 := by
    rw [Nat.and_two_pow_sub_one_eq_mod, Nat.mod_eq_of_lt (by omega)]
  rw [hmask, hdiv, ← hlow]
  apply Nat.eq_of_testBit_eq
  intro i
  have hshift : a/4096 = a >>> 12 := by rw [Nat.shiftRight_eq_div_pow]
  simp only [hshift, Nat.testBit_and, Nat.testBit_shiftLeft, Nat.testBit_shiftRight]
  by_cases hi : 12 ≤ i
  · simp [hi, Nat.add_sub_cancel' hi]
  · simp [hi]

theorem ROUNDDOWN_page (a : ℕ) (ha : a < 2^64) : ROUNDDOWN a PAGE_SIZE = a/4096*4096 :=
  and_page_mask a ha

theorem ROUND_page (a : ℕ) (ha : a+4095 < 2^64) : ROUND a PAGE_SIZE = (a+4095)/4096*4096 := by
  have hlt : (a+PAGE_SIZE-1)%2^64 = a+4095 := by
    simp only [PAGE_SIZE]
    omega
  rw [ROUND, hlt]
  exact and_page_mask _ ha

/-! ### Page numbers and table entries -/

/-- The index a virtual page number has at a level of the tree. -/
def vpnIndex (level v : ℕ) : ℕ := v/512^level%512

theorem VPN_L_eq (level va : ℕ) : VPN_L level va = vpnIndex level (va/4096) := by
  have h9 : (0x1ff : ℕ) = 2^9-1 := rfl
  have hp : 2^VPN_SHIFT level = 4096*512^level := by
    rw [VPN_SHIFT, Nat.pow_add, Nat.pow_mul]
  rw [VPN_L, vpnIndex, h9, Nat.and_two_pow_sub_one_eq_mod, Nat.shiftRight_eq_div_pow, hp,
    Nat.div_div_eq_div_mul]

theorem vpnIndex_lt (level v : ℕ) : vpnIndex level v < 512 := Nat.mod_lt _ (by decide)

theorem vpn_ext {v w : ℕ} (hv : v < 2^27) (hw : w < 2^27) (h0 : vpnIndex 0 v = vpnIndex 0 w)
    (h1 : vpnIndex 1 v = vpnIndex 1 w) (h2 : vpnIndex 2 v = vpnIndex 2 w) : v = w := by
  simp only [vpnIndex, Nat.pow_zero, Nat.div_one, Nat.pow_one] at h0 h1 h2
  omega

theorem mkPte_eq (pa f : ℕ) (hf : f < 1024) : PA2PTE pa ||| f = pa/4096*1024+f := by
  rw [PA2PTE, ← Nat.shiftLeft_add_eq_or_of_lt (by simpa using hf), Nat.shiftLeft_eq,
    Nat.shiftRight_eq_div_pow]

theorem PTE_FLAGS_eq (pte : ℕ) : PTE_FLAGS pte = pte%1024 :=
  Nat.and_two_pow_sub_one_eq_mod pte 10

theorem PTE2PA_eq (pte : ℕ) (h : pte < 2^62) : PTE2PA pte = pte/1024*4096 := by
  rw [PTE2PA, Nat.shiftLeft_eq, Nat.shiftRight_eq_div_pow]
  omega

theorem PTE2PA_mod (pte : ℕ) : PTE2PA pte%4096 = 0 := by
  rw [PTE2PA, Nat.shiftLeft_eq]
  omega

theorem PTE2PA_mkPte (pa f : ℕ) (hp : pa < 2^64) (hf : f < 1024) :
    PTE2PA (PA2PTE pa ||| f) = pa/4096*4096 := by
  have hlt : pa/4096*1024+f < 2^62 := by omega
  rw [mkPte_eq pa f hf, PTE2PA_eq _ hlt]
  omega

theorem PTE_FLAGS_mkPte (pa f : ℕ) (hf : f < 1024) : PTE_FLAGS (PA2PTE pa ||| f) = f := by
  rw [PTE_FLAGS_eq, mkPte_eq pa f hf]
  omega

theorem and_flags (pte k : ℕ) (hk : k &&& 0x3FF = k) : pte &&& k = PTE_FLAGS pte &&& k := by
  rw [PTE_FLAGS, Nat.and_assoc, Nat.and_comm 0x3FF k, hk]

/-- `*pte & PTE_V` -/
def Valid (pte : ℕ) : Prop := pte &&& PTE_V ≠ 0

instance (pte : ℕ) : Decidable (Valid pte) := inferInstanceAs (Decidable (_ ≠ _))

theorem Valid_iff (pte : ℕ) : Valid pte ↔ pte%2 = 1 := by
  have h : pte &&& PTE_V = pte%2 := Nat.and_two_pow_sub_one_eq_mod pte 1
  rw [Valid, h]
  exact Nat.mod_two_ne_zero

@[simp] theorem not_Valid_zero : ¬Valid 0 := by decide

theorem Valid_mkPte (pa f : ℕ) (hf : f < 1024) : Valid (PA2PTE pa ||| f) ↔ Valid f := by
  rw [Valid_iff, Valid_iff, mkPte_eq pa f hf]
  omega

end RiscvMos
