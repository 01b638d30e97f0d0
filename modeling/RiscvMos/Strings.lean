import RiscvMos.Strcmp

/-! `strlen`, `strcpy` and `strchr` of string.c, on addresses that do not wrap. -/
namespace RiscvMos.Strings
open ByteMem Strcmp ThreeWay

/-- The bound on the number of turns is reached, or the `int` of `strlen` overflows. -/
inductive Stop
  | fuel
  | overflow
  deriving DecidableEq

section
variable (char_signed : Bool) (m : Mem)

/-- `for (n = 0; *s; s++) n++;` with an `int` for `n` -/
def strlenLoop : ℕ → ℕ → ℕ → Except Stop ℕ
  | 0, _, _ => .error .fuel
  | fuel+1, s, n =>
    if m s ≠ 0 then
      if n+1 < 2^31 then strlenLoop fuel (s+1) (n+1) else .error .overflow
    else .ok n

def strlen (fuel s : ℕ) : Except Stop ℕ := strlenLoop m fuel s 0

/-- `while ((*dst++ = *src++) != 0)` -/
def strcpyLoop : ℕ → Mem → ℕ → ℕ → Option Mem
  | 0, _, _, _ => none
  | fuel+1, m, dst, src =>
    let m' := store m dst 1 (m src).toNat
    if m src ≠ 0 then strcpyLoop fuel m' (dst+1) (src+1) else some m'

/-- Returns `ret` and the memory. -/
def strcpy (fuel dst src : ℕ) : Option (ℕ × Mem) :=
  (strcpyLoop fuel m dst src).map (fun m' => (dst, m'))

/-- `for (; *s; s++) if (*s == c) return s;` and NULL behind it -/
def strchr (c : BitVec 32) : ℕ → ℕ → Option ℕ
  | 0, _ => none
  | fuel+1, s =>
    if m s ≠ 0 then
      if charInt char_signed (m s) = c then some s else strchr c fuel (s+1)
    else some 0

end

section
variable {char_signed : Bool} {m m' : Mem} {p q dst src fuel n : ℕ} {s : List UInt8}

/-! ### The bytes of a string -/

theorem bytesAt_nul (h : BytesAt m p s) : m (p+s.length) = 0 := by
  induction s generalizing p with
  | nil => exact h
  | cons b s ih =>
    have htail := ih h.2.2
    rwa [Nat.add_assoc, Nat.add_comm 1] at htail

theorem bytesAt_ne {i : ℕ} (h : BytesAt m p s) (hi : i < s.length) : m (p+i) ≠ 0 := by
  induction s generalizing p i with
  | nil => exact absurd hi (Nat.not_lt_zero i)
  | cons b s ih =>
    cases i with
    | zero =>
      have hb : m p = b := h.1
      rw [Nat.add_zero, hb]
      exact h.2.1
    | succ i =>
      have htail := ih h.2.2 (Nat.lt_of_succ_lt_succ hi)
      rwa [Nat.add_assoc, Nat.add_comm 1] at htail

theorem bytesAt_moved (h : BytesAt m p s) (he : ∀ i ≤ s.length, m' (q+i) = m (p+i)) :
    BytesAt m' q s := by
  induction s generalizing p q with
  | nil => exact (he 0 le_rfl).trans h
  | cons b s ih =>
    have hhead : m' q = m p := he 0 (Nat.zero_le _)
    refine ⟨hhead.trans h.1, h.2.1, ih h.2.2 fun i hi => ?_⟩
    have hnext := he (i+1) (Nat.succ_le_succ hi)
    rwa [Nat.add_comm i 1, ← Nat.add_assoc, ← Nat.add_assoc] at hnext

/-! ### strlen -/

theorem strlenLoop_eq (h : BytesAt m p s) (hfuel : s.length < fuel) (hn : n < 2^31) :
    strlenLoop m fuel p n = if n+s.length < 2^31 then .ok (n+s.length) else .error .overflow := by
  induction s generalizing p fuel n with
  | nil =>
    obtain ⟨fuel, rfl⟩ := Nat.exists_eq_succ_of_ne_zero (Nat.ne_of_gt hfuel)
    have hnul : m p = 0 := h
    rw [strlenLoop, if_neg (not_not.mpr hnul), List.length_nil, Nat.add_zero, if_pos hn]
  | cons b s ih =>
    obtain ⟨fuel, rfl⟩ := Nat.exists_eq_succ_of_ne_zero (Nat.ne_of_gt (Nat.zero_lt_of_lt hfuel))
    have hne := bytesAt_ne h (Nat.succ_pos s.length)
    rw [Nat.add_zero] at hne
    rw [strlenLoop, if_pos hne]
    rw [List.length_cons] at hfuel ⊢
    by_cases hlt : n+1 < 2^31
    · have hlen : n+1+s.length = n+(s.length+1) := by omega
      rw [if_pos hlt, ih h.2.2 (Nat.lt_of_succ_lt_succ hfuel) hlt, hlen]
    · rw [if_neg hlt, if_neg (by omega)]

/-- The length comes back as long as it is an `int`. -/
theorem strlen_length (h : BytesAt m p s) (hfuel : s.length < fuel) :
    strlen m fuel p = if s.length < 2^31 then .ok s.length else .error .overflow := by
  rw [strlen, strlenLoop_eq h hfuel (by decide), Nat.zero_add]

/-! ### strcpy -/

theorem strcpyLoop_add (hne : ∀ j < n, copyForward m dst src j (src+j) ≠ 0) (fuel : ℕ) :
    strcpyLoop (n+fuel) m dst src =
      strcpyLoop fuel (copyForward m dst src n) (dst+n) (src+n) := by
  induction n generalizing fuel with
  | zero => rw [Nat.zero_add, copyForward, Nat.add_zero, Nat.add_zero]
  | succ n ih =>
    -- The last of the turns is split off, since `copyForward` recurses there.
    have hfuel : n+1+fuel = n+(fuel+1) := by omega
    rw [hfuel, ih (fun j hj => hne j (Nat.lt_succ_of_lt hj)), strcpyLoop, copyForward]
    rw [if_pos (hne n (Nat.lt_succ_self n)), Nat.add_assoc, Nat.add_assoc]

/-- Where the destination does not begin inside the source, each turn reads the old byte. -/
theorem strcpyLoop_apart (h : BytesAt m src s) (hd : dst ≤ src ∨ src+s.length < dst) (fuel : ℕ) :
    strcpyLoop fuel m dst src = if s.length < fuel
      then some (blit m dst (s.length+1) (fun i => m (src+i))) else none := by
  have hread (j : ℕ) (hj : j ≤ s.length) : copyForward m dst src j (src+j) = m (src+j) := by
    rw [copyForward_eq_blit m (by omega)]
    exact blit_sameOutside m dst j _ _ (by omega)
  have hne (j : ℕ) (hj : j < s.length) : copyForward m dst src j (src+j) ≠ 0 := by
    rw [hread j hj.le]
    exact bytesAt_ne h hj
  by_cases hfuel : s.length < fuel
  · obtain ⟨k, rfl⟩ : ∃ k, fuel = s.length+(k+1) := ⟨fuel-s.length-1, by omega⟩
    have hnul : copyForward m dst src s.length (src+s.length) = 0 := by
      rw [hread _ le_rfl, bytesAt_nul h]
    rw [strcpyLoop_add hne, if_pos hfuel, strcpyLoop]
    rw [if_neg (not_not.mpr hnul), ← copyForward_eq_blit m (by omega), copyForward]
  · have hall (j : ℕ) (hj : j < fuel) := hne j (by omega)
    rw [if_neg hfuel]
    exact strcpyLoop_add hall 0

/-- Where it begins inside, the NUL is overwritten before it is read. -/
theorem strcpyLoop_inside (h : BytesAt m src s) (hlo : src < dst) (hhi : dst ≤ src+s.length)
    (fuel : ℕ) : strcpyLoop fuel m dst src = none := by
  have hne (j : ℕ) (_ : j < fuel) : copyForward m dst src j (src+j) ≠ 0 := by
    -- The bytes between the two starts repeat, and none of them is the NUL.
    have hmod : j%(dst-src) < dst-src := Nat.mod_lt j (by omega)
    rw [copyForward_repeats m hlo j (by omega)]
    exact bytesAt_ne h (by omega)
  exact strcpyLoop_add hne 0

/-- What `strcpy` returns: the destination, where the string stands now. Nothing else changes. -/
structure StringCopied (m : Mem) (dst : ℕ) (s : List UInt8) (r : ℕ × Mem) : Prop where
  returns : r.1 = dst
  bytes : BytesAt r.2 dst s
  outside : SameOutside m r.2 dst (s.length+1)

theorem stringCopied_blit (h : BytesAt m src s) (dst : ℕ) :
    StringCopied m dst s (dst, blit m dst (s.length+1) (fun i => m (src+i))) where
  returns := rfl
  bytes := by
    apply bytesAt_moved h
    intro i hi
    have hat : dst ≤ dst+i ∧ dst+i < dst+(s.length+1) := by omega
    dsimp only
    rw [blit, if_pos hat, Nat.add_sub_cancel_left]
  outside := blit_sameOutside m dst (s.length+1) (fun i => m (src+i))

theorem strcpy_inside (h : BytesAt m src s) (hin : src < dst ∧ dst ≤ src+s.length) (fuel : ℕ) :
    strcpy m fuel dst src = none := by
  rw [strcpy, strcpyLoop_inside h hin.1 hin.2 fuel, Option.map_none]

theorem strcpy_copied {r : ℕ × Mem} (h : BytesAt m src s) (hr : strcpy m fuel dst src = some r) :
    StringCopied m dst s r := by
  by_cases hin : src < dst ∧ dst ≤ src+s.length
  · rw [strcpy_inside h hin] at hr
    cases hr
  · rw [strcpy, strcpyLoop_apart h (by omega)] at hr
    obtain ⟨m', hm, rfl⟩ := Option.map_eq_some_iff.mp hr
    split_ifs at hm
    cases hm
    exact stringCopied_blit h dst

/-- `strcpy` ends exactly if the destination does not begin inside the source, its NUL included:
there it would overwrite the NUL before it reads it. Where it ends it has copied the string. -/
theorem strcpy_copies_iff (h : BytesAt m src s) (dst : ℕ) :
    ((∃ fuel r, strcpy m fuel dst src = some r) ↔ ¬(src < dst ∧ dst ≤ src+s.length)) ∧
      ∀ fuel r, strcpy m fuel dst src = some r → StringCopied m dst s r := by
  refine ⟨⟨?_, fun hin => ⟨s.length+1, ?_⟩⟩, fun fuel r hr => strcpy_copied h hr⟩
  · rintro ⟨fuel, r, hr⟩ hin
    rw [strcpy_inside h hin] at hr
    cases hr
  · rw [strcpy, strcpyLoop_apart h (by omega), if_pos (Nat.lt_succ_self _)]
    exact ⟨_, rfl⟩

/-- One byte to the right, onto the rest of the string, and "ab" one byte to the left. -/
theorem strcpy_copies_iff_shift : (¬∃ fuel r, strcpy twoStrings fuel 1 0 = some r) ∧
    ∃ m fuel r, BytesAt m 1 [97, 98] ∧ strcpy m fuel 0 1 = some r ∧
      StringCopied m 0 [97, 98] r := by
  have hs : BytesAt twoStrings 0 [97] := ⟨rfl, by decide, rfl⟩
  have ht : BytesAt (fun a => if a = 1 then 97 else if a = 2 then 98 else 0) 1 [97, 98] :=
    ⟨rfl, by decide, rfl, by decide, rfl⟩
  obtain ⟨hends, hcopied⟩ := strcpy_copies_iff ht 0
  obtain ⟨fuel, r, hr⟩ := hends.mpr (by decide)
  exact ⟨fun hr => (strcpy_copies_iff hs 1).1.mp hr (by decide), _, fuel, r, ht, hr,
    hcopied fuel r hr⟩

theorem strcpy_strcmp (char_signed : Bool) {r : ℕ × Mem} (h : BytesAt m src s)
    (hd : src+s.length < dst ∨ dst+s.length < src) (hr : strcpy m fuel dst src = some r) :
    Returns char_signed r.2 r.1 src 0 := by
  have copied := strcpy_copied h hr
  have hsrc : BytesAt r.2 src s := bytesAt_moved h fun i hi => copied.outside _ (by omega)
  rw [copied.returns, returns_iff copied.bytes hsrc, eq_comm, answer_eq_zero_iff]

/-! ### strchr -/

/-- `strchr` finds the first byte that is `c` as an `int`. For the NUL it finds nothing. -/
theorem strchr_first (h : BytesAt m p s) (c : BitVec 32) (hfuel : s.length < fuel) :
    strchr char_signed m c fuel p = some (if c ∈ s.map (charInt char_signed)
      then p+(s.map (charInt char_signed)).idxOf c else 0) := by
  induction s generalizing p fuel with
  | nil =>
    obtain ⟨fuel, rfl⟩ := Nat.exists_eq_succ_of_ne_zero (Nat.ne_of_gt hfuel)
    have hnul : m p = 0 := h
    rw [strchr, if_neg (not_not.mpr hnul), List.map_nil, if_neg List.not_mem_nil]
  | cons b s ih =>
    obtain ⟨fuel, rfl⟩ := Nat.exists_eq_succ_of_ne_zero (Nat.ne_of_gt (Nat.zero_lt_of_lt hfuel))
    have hb : m p = b := h.1
    rw [strchr, hb, if_pos h.2.1, List.map_cons]
    by_cases hc : charInt char_signed b = c
    · rw [if_pos hc, hc, if_pos List.mem_cons_self, List.idxOf_cons_self, Nat.add_zero]
    · have htail := ih h.2.2 (Nat.lt_of_succ_lt_succ hfuel)
      -- The first byte is not it, so that the position is one further.
      have hmem : c ∈ charInt char_signed b :: s.map (charInt char_signed) ↔
          c ∈ s.map (charInt char_signed) := by
        rw [List.mem_cons]
        exact or_iff_right (fun he => hc he.symm)
      rw [if_neg hc, htail, List.idxOf_cons_ne _ hc, if_congr hmem rfl rfl, Nat.add_assoc,
        Nat.add_comm 1]

end

end RiscvMos.Strings
