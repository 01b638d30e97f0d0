import RiscvMos.Phypage

/-! The page-table code of vm.c. A pointer to an entry is the entry's address,
and 0 is the null pointer. -/
namespace RiscvMos

def entry (m : Mem) (pagetable i : ℕ) : ℕ := load64 m (pagetable+8*i)

/-- The loop of `walk`, from the table `pagetable` at a level down to level 0. -/
def walkLoop (s : Phys) (pagetable va : ℕ) (alloc : Bool) : ℕ → ℕ × Phys
  | 0 => (pagetable+8*VPN_L 0 va, s)
  | level+1 =>
    let pte := pagetable+8*VPN_L (level+1) va
    if Valid (load64 s.mem pte) then
      walkLoop s (PTE2PA (load64 s.mem pte)) va alloc level
    else if alloc then
      let (pagetable, s) := kalloc s
      if pagetable = 0 then (0, s)
      else
        let (_, mem) := memset s.mem pagetable 0 PAGE_SIZE
        let mem := store64 mem pte (PA2PTE pagetable ||| PTE_V)
        walkLoop ⟨mem, s.freelist⟩ pagetable va alloc level
    else (0, s)

/-- Returns the address of the entry for `va`, or 0. -/
def walk (s : Phys) (pagetable va : ℕ) (alloc : Bool) : Result (ℕ × Phys) :=
  if va ≥ MAXVA then .error (.panic "walk\n")
  else .ok (walkLoop s pagetable va alloc 2)

/-- Returns `pa` and, where it is found, the entry's address for `*ppte`. -/
def lookup (s : Phys) (pagetable va : ℕ) : Result (ℕ × Option ℕ) := do
  let (pte, s) ← walk s pagetable va false
  if pte = 0 ∨ ¬Valid (load64 s.mem pte) then .ok (0, none)
  else if load64 s.mem pte &&& PTE_U = 0 then .ok (0, none)
  else .ok (PTE2PA (load64 s.mem pte), some pte)

theorem walk_eq_ok {s : Phys} {pagetable va : ℕ} {alloc : Bool} {r : ℕ × Phys} :
    walk s pagetable va alloc = .ok r ↔
      va < MAXVA ∧ walkLoop s pagetable va alloc 2 = r := by
  unfold walk
  split_ifs with h
  · simp [Nat.not_lt.mpr h]
  · simp [Nat.lt_of_not_ge h]

/-- The `for (;;)` of `mappages`: it only goes on where `walk` did not panic. -/
def mappagesLoop (s : Phys) (pagetable start last pa perm : ℕ) : Result (ℤ × Phys) :=
  match hw : walk s pagetable start true with
  | .error e => .error e
  | .ok (pte, s) =>
    if pte = 0 then .ok (-1, s)
    else if Valid (load64 s.mem pte) then
      .error (.panic "mappages: remap; use 'uvmunmap' first")
    else
      let s : Phys := ⟨store64 s.mem pte (PA2PTE pa ||| perm ||| PTE_V), s.freelist⟩
      if start = last then .ok (0, s)
      else mappagesLoop s pagetable (start+PAGE_SIZE) last ((pa+PAGE_SIZE)%2^64) perm
  termination_by MAXVA-start
  decreasing_by
    have hlt := (walk_eq_ok.mp hw).1
    simp only [PAGE_SIZE]
    omega

/-- Returns 0, or -1 when `walk` fails. -/
def mappages (s : Phys) (pagetable va size pa perm : ℕ) : Result (ℤ × Phys) :=
  if size = 0 then .error (.panic "mappages: size")
  else
    let start := ROUNDDOWN va PAGE_SIZE
    let last := ROUNDDOWN ((va+size-1)%2^64) PAGE_SIZE
    mappagesLoop s pagetable start last pa perm

def kvmmap (s : Phys) (pagetable va pa size perm : ℕ) : Result Phys := do
  let (r, s) ← mappages s pagetable va size pa perm
  if r ≠ 0 then .error (.panic "kvmmap") else .ok s

/-- The loop of `uvmunmap` over `a`. Its body walks to `va`, not to `a`. -/
def uvmunmapLoop (s : Phys) (pagetable va : ℕ) (do_free : Bool) (a stop : ℕ) : Result Phys :=
  if a < stop then do
    let (pte, s) ← walk s pagetable va false
    if pte = 0 ∨ ¬Valid (load64 s.mem pte) then .error (.panic "uvmunmap: not mapped")
    else if PTE_FLAGS (load64 s.mem pte) = PTE_V then .error (.panic "uvmunmap: not leaf")
    else
      let s ← (if do_free then kfree s (PTE2PA (load64 s.mem pte)) else .ok s)
      uvmunmapLoop ⟨store64 s.mem pte 0, s.freelist⟩ pagetable va do_free (a+PAGE_SIZE) stop
  else .ok s
  termination_by stop-a
  decreasing_by simp only [PAGE_SIZE]; omega

def uvmunmap (s : Phys) (pagetable va npages : ℕ) (do_free : Bool) : Result (ℤ × Phys) :=
  if va%PAGE_SIZE ≠ 0 then .error (.panic "uvmunmap: va not aligned")
  else do
    let s ← uvmunmapLoop s pagetable va do_free va ((va+npages*PAGE_SIZE)%2^64)
    .ok (0, s)

/-- A `u_long` narrowed to `int` and passed on as a `u_long`. -/
def narrowInt (n : ℕ) : ℕ := if n%2^32 < 2^31 then n%2^32 else 2^64-2^32+n%2^32

def uvmdealloc (s : Phys) (pagetable old_size new_size : ℕ) : Result (ℕ × Phys) :=
  if new_size ≥ old_size then .ok (old_size, s)
  else if ROUND new_size PAGE_SIZE < ROUND old_size PAGE_SIZE then do
    let npages := narrowInt ((ROUND old_size PAGE_SIZE-ROUND new_size PAGE_SIZE)/PAGE_SIZE)
    let (_, s) ← uvmunmap s pagetable (ROUND new_size PAGE_SIZE) npages true
    .ok (new_size, s)
  else .ok (new_size, s)

/-- The loop of `uvmalloc` over `a`. -/
def uvmallocLoop (s : Phys) (pagetable old_size new_size perm a : ℕ) : Result (ℕ × Phys) :=
  if a < new_size then
    let (mem, s) := kalloc s
    if mem = 0 then do
      let (_, s) ← uvmdealloc s pagetable a old_size
      .ok (0, s)
    else do
      let s : Phys := ⟨(memset s.mem mem 0 PAGE_SIZE).2, s.freelist⟩
      let (r, s) ← mappages s pagetable a PAGE_SIZE mem (PTE_R ||| PTE_U ||| perm)
      if r ≠ 0 then
        let s ← kfree s mem
        let (_, s) ← uvmdealloc s pagetable a old_size
        .ok (0, s)
      else uvmallocLoop s pagetable old_size new_size perm (a+PAGE_SIZE)
  else .ok (new_size, s)
  termination_by new_size-a
  decreasing_by simp only [PAGE_SIZE]; omega

def uvmalloc (s : Phys) (pagetable old_size new_size perm : ℕ) : Result (ℕ × Phys) :=
  if new_size < old_size then .ok (old_size, s)
  else
    let old_size := ROUND old_size PAGE_SIZE
    uvmallocLoop s pagetable old_size new_size perm old_size

def uvmcreate (s : Phys) : ℕ × Phys :=
  let (pagetable, s) := kalloc s
  if pagetable = 0 then (0, s)
  else (pagetable, ⟨(memset s.mem pagetable 0 PAGE_SIZE).2, s.freelist⟩)

/-- The loop of `freewalk` over the entries from `i` on; `walkChild` is the
recursive call. -/
def freewalkLoop (walkChild : Phys → ℕ → Result Phys) (s : Phys) (pagetable i : ℕ) :
    Result Phys :=
  if i < 512 then
    let pte := entry s.mem pagetable i
    if Valid pte ∧ pte &&& (PTE_R ||| PTE_W ||| PTE_X) = 0 then do
      let s ← walkChild s (PTE2PA pte)
      freewalkLoop walkChild ⟨store64 s.mem (pagetable+8*i) 0, s.freelist⟩ pagetable (i+1)
    else if Valid pte then .error (.panic "freewalk: leaf still mapped")
    else freewalkLoop walkChild s pagetable (i+1)
  else .ok s
  termination_by 512-i

/-- `stack` bounds the nested calls the kernel stack has room for. -/
def freewalk : (stack : ℕ) → Phys → ℕ → Result Phys
  | 0, _, _ => .error .stackOverflow
  | stack+1, s, pagetable => do
    let s ← freewalkLoop (freewalk stack) s pagetable 0
    kfree s pagetable

def uvmfree (stack : ℕ) (s : Phys) (pagetable size : ℕ) : Result Phys := do
  let s ← (if size > 0 then do
      let (_, s) ← uvmunmap s pagetable 0 (ROUND size PAGE_SIZE/PAGE_SIZE) true
      .ok s
    else .ok s)
  freewalk stack s pagetable

/-- The loop of `kvm_copy_to_user_pagetable` over the address `i`. -/
def kvmCopyLoop (s : Phys) (kernel_pagetable upgtable i : ℕ) : Result (ℤ × Phys) :=
  if i < MAXVA then do
    let (pte, s) ← walk s kernel_pagetable i false
    if pte = 0 then kvmCopyLoop s kernel_pagetable upgtable (i+PAGE_SIZE)
    else if ¬Valid (load64 s.mem pte) then
      kvmCopyLoop s kernel_pagetable upgtable (i+PAGE_SIZE)
    else
      let pa := PTE2PA (load64 s.mem pte)
      let flags := PTE_FLAGS (load64 s.mem pte)
      let (r, s) ← mappages s upgtable i PAGE_SIZE pa flags
      if r ≠ 0 then
        let (_, s) ← uvmunmap s upgtable 0x80000000 (i/PAGE_SIZE) false
        .ok (-1, s)
      else kvmCopyLoop s kernel_pagetable upgtable (i+PAGE_SIZE)
  else .ok (0, s)
  termination_by MAXVA-i
  decreasing_by all_goals simp only [PAGE_SIZE]; omega

/-- `kernel_pagetable` is the global that `kpgtable_init` sets. -/
def kvmCopyToUserPagetable (s : Phys) (kernel_pagetable upgtable : ℕ) : Result (ℤ × Phys) :=
  kvmCopyLoop s kernel_pagetable upgtable 0x80000000

end RiscvMos
