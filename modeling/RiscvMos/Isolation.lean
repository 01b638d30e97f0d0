import RiscvMos.FirstEnv
import RiscvMos.PageTable

/-! Memory isolation of the envs that `env_create` makes: who owns the frames that
user leaves map. -/
namespace RiscvMos
open ByteMem IntrusiveQueue LinkChain Function

/-! ### Ownership of the user leaves -/

/-- Below 0x80000000 every valid leaf of an env table maps a frame that is typed for
that root and page and was handed out for it. -/
structure Owned (k : ℕ) (f : ℕ → ℕ) (s : Phys) (τ : Typing) (sm : ℕ → Prop) (l : List ℕ)
    (hand : ℕ → ℕ → ℕ → Prop) : Prop where
  spaces : Spaces k f s τ sm l
  owned : ∀ r v, sm r → v < 2^19 → Valid (leaf s.mem r v) →
    IsPage (PTE2PA (leaf s.mem r v)) ∧ τ (PTE2PA (leaf s.mem r v)) = .frame (some (r,v)) ∧
      hand r v (PTE2PA (leaf s.mem r v))

section
variable {k : ℕ} {f : ℕ → ℕ} {s : Phys} {τ : Typing} {sm : ℕ → Prop} {l : List ℕ}
  {hand : ℕ → ℕ → ℕ → Prop}

theorem Owned.mono (h : Owned k f s τ sm l hand) {hand' : ℕ → ℕ → ℕ → Prop}
    (hm : ∀ r v p, sm r → hand r v p → hand' r v p) : Owned k f s τ sm l hand' :=
  ⟨h.spaces, fun r v hr hv hval =>
    ⟨(h.owned r v hr hv hval).1, (h.owned r v hr hv hval).2.1,
      hm _ _ _ hr (h.owned r v hr hv hval).2.2⟩⟩

theorem Owned.keep (h : Owned k f s τ sm l hand) {s' : Phys} {τ' : Typing} {l' : List ℕ}
    (hs : Spaces k f s' τ' sm l') (hf : ∀ p o, τ p = .frame o → τ' p = .frame o)
    (hl : ∀ r v, sm r → v < 2^19 → leaf s'.mem r v = leaf s.mem r v) :
    Owned k f s' τ' sm l' hand := by
  refine ⟨hs, fun r v hr hv hval => ?_⟩
  rw [hl r v hr hv] at hval ⊢
  obtain ⟨hp, ht, hh⟩ := h.owned r v hr hv hval
  exact ⟨hp, hf _ _ ht, hh⟩

theorem Owned.write_low (h : Owned k f s τ sm l hand) {m : Mem}
    (hm : ∀ b, KERNEND ≤ b → m b = s.mem b) : Owned k f ⟨m, s.freelist⟩ τ sm l hand := by
  obtain ⟨hs, hleaf⟩ := h.spaces.write_low hm
  exact h.keep hs (fun _ _ hp => hp)
    (fun r v hr hv => hleaf r v (h.spaces.root_of_sm hr) (clear_of_index sm r (user_index hv)))

theorem Owned.loadIcodeMapper (h : Owned k f s τ sm l hand) {u va len : ℕ} {img : Image}
    {src : Option ℕ} {ph : Phdr} {res : ℤ} {s' : Phys} (hu : sm u) (hal : va%PAGE_SIZE = 0)
    (hva : va < USTACKTOP) (hlen : len ≤ PAGE_SIZE) (hfree : (kalloc s).1 ≠ 0)
    (hrun : RiscvMos.loadIcodeMapper img u s va 0 (segPerm ph) src len = .ok (res, s')) :
    ∃ τ' l', Owned k f s' τ' sm l'
      (fun r v p => hand r v p ∨ r = u ∧ v = va/4096 ∧ p = (kalloc s).1) := by
  cases l with
  | nil =>
    rw [kalloc_nil h.spaces.typed.free] at hfree
    exact absurd rfl hfree
  | cons c l =>
    have hpage : PAGE_SIZE = 4096 := rfl
    have htop : USTACKTOP = 524287*4096 := by decide
    have hc := h.spaces.typed.free.pages c List.mem_cons_self
    have hcfree := h.spaces.typed.free_kind List.mem_cons_self
    have hb := hc.bounds
    have hkc : (kalloc s).1 = c := by
      obtain ⟨s₀, hk, _⟩ := kalloc_cons h.spaces.typed.free
      rw [hk]
    rw [hpage] at hal hlen
    obtain ⟨v, rfl⟩ : ∃ v, va = v*4096 := ⟨va/4096, by omega⟩
    have hv : v < 2^19 := by omega
    obtain ⟨s₁, hmap, h₁, hleaf, _⟩ := h.spaces.loadIcodeMapper img src (some (u,v))
      (by omega : 0+len ≤ 4096)
    rw [hmap] at hrun
    have hroot := h₁.root_of_sm hu
    obtain ⟨τ', l', _, hres⟩ := h₁.typed.mappages_page_ok hroot
      (clear_of_index sm u (user_index hv)) (by omega) (by omega) (segPerm_lt ph)
      (HasRWX_segPerm ph) hrun
    -- in both outcomes old frames keep their owners
    have hkinds {n : ℕ} (m : MapOut sm s₁ (update τ c (.frame (some (u,v)))) l u v n c (segPerm ph)
        s' τ' l') (p : ℕ) (o : Option (ℕ × ℕ)) (hp : τ p = .frame o) : τ' p = .frame o := by
      have hpc : p ≠ c := by
        rintro rfl
        rw [hcfree] at hp
        cases hp
      have hp₁ : update τ c (.frame (some (u,v))) p = .frame o := by
        rw [update_other_kind _ _ hpc, hp]
      rw [m.grows.kinds p (by simp [hp₁]), hp₁]
    have hleaves {n : ℕ} (m : MapOut sm s₁ (update τ c (.frame (some (u,v)))) l u v n c (segPerm ph)
        s' τ' l') (r w : ℕ) (hr : sm r) (hw : w < 2^19) :
        leaf s'.mem r w = if r = u ∧ v ≤ w ∧ w < v+n
          then mkLeaf ((c+4096*(w-v))%2^64) (segPerm ph) else leaf s.mem r w := by
      have hcw := clear_of_index sm r (user_index hw)
      rw [m.leaves (h₁.root_of_sm hr) hcw (by omega), hleaf r w (h.spaces.root_of_sm hr) hcw]
    rw [hkc]
    rcases hres with ⟨_, _, m⟩ | ⟨_, m⟩
    · refine ⟨τ', l', h₁.map hu (by omega) m, fun r w hr hw hval => ?_⟩
      rw [hleaves m r w hr hw] at hval ⊢
      by_cases hin : r = u ∧ v ≤ w ∧ w < v+1
      · obtain ⟨rfl, h1, h2⟩ := hin
        obtain rfl : w = v := by omega
        have hpa : PTE2PA (mkLeaf ((c+4096*(w-w))%2^64) (segPerm ph)) = c := by
          rw [PTE2PA_mkLeaf (Nat.mod_lt _ (by decide)) (segPerm_lt ph)]
          omega
        have hkind : τ' c = .frame (some (r,w)) := by
          rw [m.grows.kinds c (by rw [update_same_kind]; simp), update_same_kind]
        rw [if_pos ⟨rfl, h1, h2⟩, hpa]
        exact ⟨hc, hkind, Or.inr ⟨rfl, by omega, rfl⟩⟩
      · rw [if_neg hin] at hval ⊢
        obtain ⟨hp, ht, hh⟩ := h.owned r w hr hw hval
        exact ⟨hp, hkinds m _ _ ht, Or.inl hh⟩
    · refine ⟨τ', l', (h.keep (h₁.map hu (by omega) m) (hkinds m) ?_).mono
        (fun _ _ _ _ hh => Or.inl hh)⟩
      intro r w hr hw
      rw [hleaves m r w hr hw, if_neg (by omega)]

end

/-! ### Runs of env_create -/

/-- A mapper that also records the virtual page of each call and the page that `kalloc`
gives it. -/
def recordCalls (map_page : ElfMapper Phys) : ElfMapper (Phys × List (ℕ × ℕ)) :=
  fun st va offset perm src len => do
    let (r, s) ← map_page st.1 va offset perm src len
    .ok (r, s, (va/PAGE_SIZE, (kalloc st.1).1) :: st.2)

theorem recordCalls_erases (map_page : ElfMapper Phys) : Erases (recordCalls map_page) map_page := by
  intro st va offset perm src len
  rw [recordCalls]
  cases map_page st.1 va offset perm src len with
  | error e => rfl
  | ok x => rfl

/-- The calls of `load_icode_mapper` that `env_create` makes. -/
def loaderCalls (L : Layout) (K : Kernel) (img : Image) : List (ℕ × ℕ) :=
  match envAlloc L K 0, elfFrom img with
  | .ok (_, some e, K), some ehdr =>
    match loadSegments (recordCalls (loadIcodeMapper img (K.envs e).env_pgtable)) img ehdr
        (K.phys, []) 0 ehdr.e_phoff with
    | .ok (_, calls) => calls
    | .error _ => []
  | _, _ => []

theorem Created.recorded {L : Layout} {K K₁ K₂ K' : Kernel} {s : Phys} {e : ℕ} {img : Image}
    {ehdr : Ehdr} (c : Created L K K₁ K₂ K' s e img ehdr) :
    loadSegments (recordCalls (loadIcodeMapper img (K₂.envs e).env_pgtable)) img ehdr (K₂.phys, []) 0
      ehdr.e_phoff = .ok (s, loaderCalls L K img) := by
  have herase := loadSegments_erases
    (recordCalls_erases (loadIcodeMapper img (K₂.envs e).env_pgtable)) img ehdr 0 ehdr.e_phoff
    (K₂.phys, [])
  rw [c.load] at herase
  simp only [loaderCalls, c.call, c.elf]
  cases hrec : loadSegments (recordCalls (loadIcodeMapper img (K₂.envs e).env_pgtable)) img ehdr
      (K₂.phys, []) 0 ehdr.e_phoff with
  | error e =>
    rw [hrec] at herase
    cases herase
  | ok x =>
    rw [hrec] at herase
    obtain ⟨s', calls⟩ := x
    obtain rfl : s' = s := Except.ok.inj herase
    rfl

/-- The segments are not longer in the file than in memory and lie below USTACKTOP. -/
def UserImage (img : Image) : Prop := ∀ ehdr ph, elfFrom img = some ehdr → Segment img ehdr ph →
  ph.p_filesz ≤ ph.p_memsz ∧ ph.p_vaddr+ph.p_memsz ≤ USTACKTOP

/-- Boot and calls of `env_create` that return, each from a state and with an image that
`ok` holds of. `calls` has the calls of the mapper, with the env they were for. -/
inductive CreateRun (L : Layout) (ok : Kernel → Image → Prop) : Kernel → List (ℕ × ℕ × ℕ) → Prop
  | boot {m : Mem} {K : Kernel} (start : boot L m = .ok K) : CreateRun L ok K []
  | create {K K' : Kernel} {calls : List (ℕ × ℕ × ℕ)} {e : ℕ} {img : Image} {priority : ℤ}
    (run : CreateRun L ok K calls) (user : UserImage img) (step : ok K img)
    (call : envCreate L K img priority = .ok (e, K')) :
    CreateRun L ok K' ((loaderCalls L K img).map (fun c => (e, c)) ++ calls)

def StartsOnPages (img : Image) : Prop := ∀ ehdr ph, elfFrom img = some ehdr →
  Segment img ehdr ph → ph.p_vaddr%PAGE_SIZE = 0

/-- The segments start on pages, and `kalloc` has a page at each call of the mapper, as it has
when the list is longer than the load can take (`SpacesInv.loadsWholePages_of_room`). -/
def LoadsWholePages (L : Layout) (K : Kernel) (img : Image) : Prop :=
  StartsOnPages img ∧ ∀ c ∈ loaderCalls L K img, c.2 ≠ 0

/-- Page `v` has the level-0 leaf `pte` with PTE_U in the table of the env `e`, outside
the slot of the self map. -/
structure UserLeaf (K : Kernel) (e v pte : ℕ) : Prop where
  env : (K.envs e).env_status = .ENV_RUNNABLE
  page : v < 2^27
  slot : vpnIndex 2 v ≠ VPN_L 2 UVPT
  leaf : leaf K.phys.mem (K.envs e).env_pgtable v = pte
  valid : Valid pte
  user : pte &&& PTE_U ≠ 0

/-- `p` is a page of the kernel's table or of the table of an env. -/
def TablePage (K : Kernel) (p : ℕ) : Prop := ∃ r level,
  (r = K.kernel_pagetable ∨ ∃ e, (K.envs e).env_status = .ENV_RUNNABLE ∧ r = (K.envs e).env_pgtable) ∧
    TableAt K.phys.mem r level p

/-- Every user leaf maps a frame that `kalloc` handed out for exactly that page. -/
def Isolated (K : Kernel) (calls : List (ℕ × ℕ × ℕ)) : Prop :=
  ∀ e v pte, UserLeaf K e v pte →
    (e, v, PTE2PA pte) ∈ calls ∧ KERNEND ≤ PTE2PA pte ∧ PTE2PA pte < PHYEND ∧
    (∃ l, FreeList K.phys l ∧ PTE2PA pte ∉ l) ∧ ¬TablePage K (PTE2PA pte) ∧
    ∀ e' v' pte', UserLeaf K e' v' pte' → PTE2PA pte' = PTE2PA pte → e' = e ∧ v' = v

/-! ### The invariant of the runs -/

/-- The call of the mapper for page `v` of the env whose root is `r` got the page `p`. -/
def HandedOut (K : Kernel) (calls : List (ℕ × ℕ × ℕ)) (r v p : ℕ) : Prop :=
  ∃ e, (K.envs e).env_status = .ENV_RUNNABLE ∧ (K.envs e).env_pgtable = r ∧ (e,v,p) ∈ calls

structure IsolationInv (L : Layout) (K : Kernel) (calls : List (ℕ × ℕ × ℕ)) (fr : ℕ → ℕ)
    (τ : Typing) (sm : ℕ → Prop) (l ql fl : List ℕ) : Prop where
  owned : Owned K.kernel_pagetable (kernelLeaf L.etext fr) K.phys τ sm l (HandedOut K calls)
  sched : SchedInv K ql fl
  tables : ∀ r, sm r ↔ ∃ e, (K.envs e).env_status = .ENV_RUNNABLE ∧ (K.envs e).env_pgtable = r
  distinct : ∀ e e', (K.envs e).env_status = .ENV_RUNNABLE → (K.envs e').env_status = .ENV_RUNNABLE →
    (K.envs e).env_pgtable = (K.envs e').env_pgtable → e = e'

theorem Booted.isolationInv {L : Layout} {K : Kernel} {fr : ℕ → ℕ} {τ : Typing} {l fl : List ℕ}
    (b : Booted L K fr τ l) (hs : SchedInv K [] fl) :
    IsolationInv L K [] fr τ noSelfMap l [] fl := by
  have hnone (e : ℕ) : (K.envs e).env_status ≠ .ENV_RUNNABLE :=
    fun he => absurd ((hs.mem_queue e).mpr he) List.not_mem_nil
  exact ⟨⟨b.spaces, fun r v hr => hr.elim⟩, hs,
    fun r => ⟨fun hr => hr.elim, fun ⟨e, he, _⟩ => absurd he (hnone e)⟩,
    fun e e' he => absurd he (hnone e)⟩

section
variable {k : ℕ} {f : ℕ → ℕ} {s : Phys} {τ : Typing} {sm : ℕ → Prop} {l : List ℕ}
  {hand : ℕ → ℕ → ℕ → Prop}

/-- A new address space has no user page yet. -/
theorem Owned.setup (h : Owned k f s τ sm l hand) {u : ℕ} {s' : Phys} {τ' : Typing} {l' : List ℕ}
    (o : SetupOut k f s τ sm l u s' τ' l') :
    Owned k f s' τ' (fun r => sm r ∨ r = u) l' hand := by
  refine ⟨o.spaces, ?_⟩
  rintro r v (hr | rfl) hv hval
  · rw [o.old r v hr (by omega) (user_index hv)] at hval ⊢
    obtain ⟨hp, ht, hh⟩ := h.owned r v hr hv hval
    exact ⟨hp, o.frames _ _ ht, hh⟩
  · rw [o.empty v hv] at hval
    exact absurd hval not_Valid_zero

theorem Owned.load (h : Owned k f s τ sm l hand) {u : ℕ} (hu : sm u) {img : Image} {ehdr : Ehdr}
    (hal : ∀ ph, Segment img ehdr ph → ph.p_vaddr%PAGE_SIZE = 0)
    (huser : ∀ ph, Segment img ehdr ph →
      ph.p_filesz ≤ ph.p_memsz ∧ ph.p_vaddr+ph.p_memsz ≤ USTACKTOP)
    (hoff : ehdr.e_phoff < 2^64) {s' : Phys} {calls : List (ℕ × ℕ)}
    (hrun : loadSegments (recordCalls (RiscvMos.loadIcodeMapper img u)) img ehdr (s, []) 0
      ehdr.e_phoff = .ok (s', calls)) (hfree : ∀ c ∈ calls, c.2 ≠ 0) :
    ∃ τ' l', Owned k f s' τ' sm l' (fun r v p => hand r v p ∨ r = u ∧ (v,p) ∈ calls) := by
  let I : Phys × List (ℕ × ℕ) → Prop := fun st => (∀ c ∈ st.2, c.2 ≠ 0) →
    ∃ τ' l', Owned k f st.1 τ' sm l' (fun r v p => hand r v p ∨ r = u ∧ (v,p) ∈ st.2)
  -- each call of the mapper hands its page to `u`
  have hI : PageCalls (recordCalls (RiscvMos.loadIcodeMapper img u)) I := by
    rintro ⟨s₁, calls₁⟩ ph va offset src len res st' h₁ ⟨hva, rfl⟩ htop hlen hcall hne
    obtain ⟨⟨res', s₂⟩, hmap, hcall⟩ := bind_eq_ok.mp hcall
    cases hcall
    obtain ⟨τ₁, l₁, o₁⟩ := h₁ (fun c hc => hne c (List.mem_cons_of_mem _ hc))
    obtain ⟨τ₂, l₂, o₂⟩ := o₁.loadIcodeMapper hu hva htop (by omega) (hne _ List.mem_cons_self) hmap
    refine ⟨τ₂, l₂, o₂.mono ?_⟩
    rintro r v p _ ((hh | ⟨hr, hm⟩) | ⟨hr, hv, hp⟩)
    · exact Or.inl hh
    · exact Or.inr ⟨hr, List.mem_cons_of_mem _ hm⟩
    · refine Or.inr ⟨hr, ?_⟩
      rw [hv, hp]
      exact List.mem_cons_self
  have hstart : (ehdr.e_phoff+0*ehdr.e_phentsize)%2^64 = ehdr.e_phoff := by
    rw [Nat.zero_mul, Nat.add_zero, Nat.mod_eq_of_lt hoff]
  rw [← hstart] at hrun
  have hinit : I (s, []) := fun _ => ⟨τ, l, h.mono (fun _ _ _ _ hh => Or.inl hh)⟩
  exact loadSegments_invariant (fun ph _ _ _ hs h₁ hload =>
    elfLoadSeg_invariant hI (hal ph hs) (huser ph hs).1 (huser ph hs).2 h₁ hload) hinit hrun hfree

end

theorem IsolationInv.create {L : Layout} {K K₁ K₂ K' : Kernel} {s : Phys} {e : ℕ} {img : Image}
    {ehdr : Ehdr} {calls : List (ℕ × ℕ × ℕ)} {fr : ℕ → ℕ} {τ : Typing} {sm : ℕ → Prop}
    {l ql fl : List ℕ} (h : IsolationInv L K calls fr τ sm l ql fl)
    (c : Created L K K₁ K₂ K' s e img ehdr) (user : UserImage img) (ok : LoadsWholePages L K img) :
    ∃ τ' sm' l' ql' fl', IsolationInv L K' ((loaderCalls L K img).map (fun c => (e, c)) ++ calls) fr
      τ' sm' l' ql' fl' := by
  obtain ⟨_, _, helt, heq, _⟩ := h.sched.alloc c.alloc
  -- the env that runs is not the new one
  have hold (i : ℕ) (hi : (K.envs i).env_status = .ENV_RUNNABLE) : i ≠ e := by
    rintro rfl
    exact heq ((h.sched.mem_queue i).mpr hi)
  obtain ⟨_, ⟨h0, _⟩ | ⟨_, τ₁, l₁, henvs, o⟩⟩ := envSetupVm_spaces h.owned.spaces c.alloc.setup
  · exact absurd rfl h0
  have hroot : (K₂.envs e).env_pgtable = (K₁.envs e).env_pgtable := c.alloc.env_pgtable e
  have hkeep (i : ℕ) (hi : i ≠ e) : (K'.envs i).env_pgtable = (K.envs i).env_pgtable := by
    rw [c.env_pgtable i, henvs, update_of_ne hi]
  have hnew : (K'.envs e).env_pgtable = (K₁.envs e).env_pgtable := c.env_pgtable e
  have hrun (i : ℕ) : (K'.envs i).env_status = .ENV_RUNNABLE ↔
      (K.envs i).env_status = .ENV_RUNNABLE ∨ i = e := by
    by_cases hi : i = e
    · simp [hi, c.runnable]
    · rw [c.env_status i hi]
      simp [hi]
  generalize (K₁.envs e).env_pgtable = u at o hroot hnew
  have hu : (fun r => sm r ∨ r = u) u := Or.inr rfl
  have o₁ := (h.owned.setup o).write_low (m := initFrame L K₁.phys.mem e)
    (fun b hb => initFrame_low helt hb)
  rw [← c.alloc.phys] at o₁
  have hrec := c.recorded
  rw [hroot] at hrec
  obtain ⟨τ₂, l₂, o₂⟩ := o₁.load hu (fun ph => ok.1 ehdr ph c.elf) (fun ph => user ehdr ph c.elf)
    (elfFrom_phoff c.elf) hrec ok.2
  have o₃ := o₂.write_low (m := store64 s.mem (L.tf e+8*33) ehdr.e_entry)
    (fun b hb => store64_low helt (by decide) _ hb)
  rw [← c.phys, ← c.kernel_pagetable] at o₃
  obtain ⟨fl', _, _, hs⟩ := h.sched.create c
  -- the new root was free, so no env that runs has it
  have hnot (i : ℕ) (hi : (K.envs i).env_status = .ENV_RUNNABLE) : (K.envs i).env_pgtable ≠ u := by
    rintro rfl
    have htab := h.owned.spaces.root_of_sm ((h.tables _).mpr ⟨i, hi, rfl⟩)
    rw [o.fresh] at htab
    cases htab
  refine ⟨τ₂, fun r => sm r ∨ r = u, l₂, e :: ql, fl', o₃.mono ?_, hs, ?_, ?_⟩
  · rintro r v p _ (⟨i, hi, hri, hm⟩ | ⟨rfl, hm⟩)
    · refine ⟨i, (hrun i).mpr (Or.inl hi), ?_, List.mem_append_right _ hm⟩
      rw [hkeep i (hold i hi), hri]
    · exact ⟨e, c.runnable, hnew, List.mem_append_left _ (List.mem_map_of_mem hm)⟩
  · intro r
    constructor
    · rintro (hr | rfl)
      · obtain ⟨i, hi, hri⟩ := (h.tables r).mp hr
        exact ⟨i, (hrun i).mpr (Or.inl hi), by rw [hkeep i (hold i hi), hri]⟩
      · exact ⟨e, c.runnable, hnew⟩
    · rintro ⟨i, hi, hri⟩
      by_cases hie : i = e
      · rw [hie, hnew] at hri
        exact Or.inr hri.symm
      · rw [hkeep i hie] at hri
        exact Or.inl ((h.tables r).mpr ⟨i, ((hrun i).mp hi).resolve_right hie, hri⟩)
  · intro i j hi hj hij
    by_cases hie : i = e <;> by_cases hje : j = e
    · rw [hie, hje]
    · rw [hie, hnew, hkeep j hje] at hij
      exact absurd hij.symm (hnot j (((hrun j).mp hj).resolve_right hje))
    · rw [hje, hnew, hkeep i hie] at hij
      exact absurd hij (hnot i (((hrun i).mp hi).resolve_right hie))
    · rw [hkeep i hie, hkeep j hje] at hij
      exact h.distinct i j (((hrun i).mp hi).resolve_right hie)
        (((hrun j).mp hj).resolve_right hje) hij

theorem CreateRun.isolationInv {L : Layout} {K : Kernel} {calls : List (ℕ × ℕ × ℕ)}
    (run : CreateRun L (LoadsWholePages L) K calls) :
    ∃ fr τ sm l ql fl, IsolationInv L K calls fr τ sm l ql fl := by
  induction run with
  | boot start =>
    obtain ⟨fr, τ, l, b⟩ := boot_booted start
    exact ⟨fr, τ, noSelfMap, l, [], _, b.isolationInv (boot_schedInv start)⟩
  | create _ user step call ih =>
    obtain ⟨fr, τ, sm, l, ql, fl, h⟩ := ih
    obtain ⟨K₁, K₂, s, ehdr, c⟩ := envCreate_cases call
    obtain ⟨τ', sm', l', ql', fl', h'⟩ := h.create c user step
    exact ⟨fr, τ', sm', l', ql', fl', h'⟩

/-! ### Isolation -/

theorem kernelLeaf_not_user {etext : ℕ} {fr : ℕ → ℕ} (hlo : 0x80000000 < etext)
    (hhi : etext < KERNEND) {v : ℕ} (hv : v < 2^26) (hval : Valid (kernelLeaf etext fr v)) :
    kernelLeaf etext fr v &&& PTE_U = 0 := by
  have hmask (pa : ℕ) {perm : ℕ} (hf : perm < 1024) (hp : perm &&& PTE_U = 0) :
      mkLeaf pa perm &&& PTE_U = 0 := by
    rw [mkLeaf_and pa hf (by decide) (by decide), hp]
  rcases kernelLeaf_cases hlo hhi hv hval with ⟨_, _, h⟩ | ⟨_, _, h⟩ | ⟨_, _, h⟩ | ⟨_, h⟩ <;>
    rw [h] <;> exact hmask _ (by decide) (by decide)

/-- Through the slot of a self map the tree only meets table pages again that it has
anyway, at the level of their kind. -/
theorem Typed.tableAt_selfMap {s : Phys} {τ : Typing} {sm : ℕ → Prop} {l : List ℕ} {r level p : ℕ}
    (h : Typed s τ sm l) (hr : τ r = .table 2 none) (hp : TableAt s.mem r level p) :
    ∃ ℓ par, level ≤ ℓ ∧ τ p = .table ℓ par ∧ TableAt s.mem r ℓ p := by
  induction hp with
  | root => exact ⟨2, none, le_rfl, hr, .root⟩
  | @next level p i _ hi hv ih =>
    obtain ⟨ℓ, par, hle, hpar, ht⟩ := ih
    by_cases hc : Clear sm p ℓ i
    · obtain ⟨ℓ', rfl⟩ : ∃ ℓ', ℓ = ℓ'+1 := ⟨ℓ-1, by omega⟩
      exact ⟨ℓ', _, by omega, h.next hpar hi hc hv, ht.next hi hv⟩
    · obtain ⟨hsm, rfl, rfl⟩ := not_not.mp hc
      obtain ⟨hroot, hen⟩ := h.selfMap hsm
      rw [hen, PTE2PA_selfPte (h.page hroot)]
      exact ⟨2, none, by omega, hroot, ht⟩

section
variable {L : Layout} {K : Kernel} {calls : List (ℕ × ℕ × ℕ)} {fr : ℕ → ℕ} {τ : Typing}
  {sm : ℕ → Prop} {l ql fl : List ℕ}

/-- A user leaf maps a page below 0x80000000 to a frame of its own. -/
theorem IsolationInv.userLeaf (h : IsolationInv L K calls fr τ sm l ql fl) {e v pte : ℕ}
    (u : UserLeaf K e v pte) : IsPage (PTE2PA pte) ∧
      τ (PTE2PA pte) = .frame (some ((K.envs e).env_pgtable, v)) ∧ (e, v, PTE2PA pte) ∈ calls := by
  have hr := (h.tables _).mpr ⟨e, u.env, rfl⟩
  have hroot := h.owned.spaces.root_of_sm hr
  have hval : Valid (leaf K.phys.mem (K.envs e).env_pgtable v) := by
    rw [u.leaf]
    exact u.valid
  rcases Nat.lt_or_ge v (2^19) with hlow | hmid
  · obtain ⟨hp, ht, ⟨e', he', hre', hm⟩⟩ := h.owned.owned _ v hr hlow hval
    obtain rfl := h.distinct e' e he' u.env hre'
    rw [u.leaf] at hp ht hm
    exact ⟨hp, ht, hm⟩
  · rcases Nat.lt_or_ge v (2^26) with hmid' | hhigh
    · -- the pages of the kernel
      have hs := h.owned.spaces.shared _ v hr hmid hmid' u.slot
      rw [u.leaf] at hs
      split_ifs at hs with hf
      · have hu := kernelLeaf_not_user L.etext_gt L.etext_lt hmid' hf
        rw [← hs] at hu
        exact absurd hu u.user
      · have := u.valid
        rw [hs] at this
        exact absurd this not_Valid_zero
    · -- the root entries from 256 on are invalid
      have hidx : 256 ≤ vpnIndex 2 v := by
        have := u.page
        simp only [vpnIndex]
        omega
      have hz : leaf K.phys.mem (K.envs e).env_pgtable v = 0 :=
        leafFrom_succ_of_not_valid (h.owned.spaces.high _ _ hroot hidx (vpnIndex_lt 2 v))
      rw [hz] at hval
      exact absurd hval not_Valid_zero

theorem IsolationInv.tablePage (h : IsolationInv L K calls fr τ sm l ql fl) {p : ℕ}
    (hp : TablePage K p) : ∃ ℓ par, τ p = .table ℓ par := by
  obtain ⟨r, level, hr, ht⟩ := hp
  have hroot : τ r = .table 2 none := by
    rcases hr with rfl | ⟨e, he, rfl⟩
    · exact h.owned.spaces.kernel
    · exact h.owned.spaces.root_of_sm ((h.tables _).mpr ⟨e, he, rfl⟩)
  obtain ⟨ℓ, par, _, hpar, _⟩ := h.owned.spaces.typed.tableAt_selfMap hroot ht
  exact ⟨ℓ, par, hpar⟩

theorem IsolationInv.isolated (h : IsolationInv L K calls fr τ sm l ql fl) : Isolated K calls := by
  intro e v pte u
  obtain ⟨hp, ht, hm⟩ := h.userLeaf u
  refine ⟨hm, hp.1, hp.2.1, ⟨l, h.owned.spaces.typed.free, fun hl => ?_⟩, fun htab => ?_, ?_⟩
  · rw [h.owned.spaces.typed.free_kind hl] at ht
    cases ht
  · obtain ⟨ℓ, par, hpar⟩ := h.tablePage htab
    rw [hpar] at ht
    cases ht
  · intro e' v' pte' u' heq
    obtain ⟨_, ht', _⟩ := h.userLeaf u'
    rw [heq, ht] at ht'
    obtain ⟨hr, hv⟩ := Prod.mk.inj (Option.some.inj (PageKind.frame.inj ht'))
    exact ⟨(h.distinct e e' u.env u'.env hr).symm, hv.symm⟩

end

/-- When every segment starts on a page and `kalloc` has a page at every call of the
mapper, each user leaf of each env maps a frame of its own. -/
theorem env_create_isolated {L : Layout} {K : Kernel} {calls : List (ℕ × ℕ × ℕ)}
    (run : CreateRun L (LoadsWholePages L) K calls) : Isolated K calls := by
  obtain ⟨fr, τ, sm, l, ql, fl, h⟩ := run.isolationInv
  exact h.isolated

theorem OnePage.segment {img : Image} {ehdr ehdr' : Ehdr} {ph ph' : Phdr} (o : OnePage img ehdr ph)
    (hel : elfFrom img = some ehdr') (hs : Segment img ehdr' ph') : ph' = ph := by
  obtain rfl := Option.some.inj (o.elf.symm.trans hel)
  obtain ⟨idx, hidx, rfl, _⟩ := hs
  obtain rfl : idx = 0 := by
    have := o.num
    omega
  rw [Nat.zero_mul, Nat.add_zero, Nat.mod_eq_of_lt (elfFrom_phoff hel), o.header]

theorem OnePage.userImage {img : Image} {ehdr : Ehdr} {ph : Phdr} (o : OnePage img ehdr ph) :
    UserImage img := by
  intro ehdr' ph' hel hs
  rw [o.segment hel hs]
  have hsize := o.size
  have hfit := o.fit
  have hbelow := o.below
  omega

theorem OnePage.loaderCalls {L : Layout} {K K₁ K₂ K' : Kernel} {s : Phys} {e : ℕ} {img : Image}
    {ehdr : Ehdr} {ph : Phdr} (o : OnePage img ehdr ph) (c : Created L K K₁ K₂ K' s e img ehdr) :
    RiscvMos.loaderCalls L K img = [(ph.p_vaddr/PAGE_SIZE, (kalloc K₂.phys).1)] := by
  have hrec := c.recorded
  rw [o.loadSegments, recordCalls] at hrec
  obtain ⟨x, hcall, hx⟩ := bind_eq_ok.mp hrec
  obtain ⟨⟨res, s'⟩, _, hcall⟩ := bind_eq_ok.mp hcall
  cases hcall
  exact (Prod.mk.inj (Except.ok.inj hx)).2.symm

theorem FirstEnv.userLeaf {L : Layout} {K K₁ K₂ K' : Kernel} {s : Phys} {img : Image} {ehdr : Ehdr}
    {ph : Phdr} {c w : ℕ} (f : FirstEnv L K₂ K' ph c) (d : Created L K K₁ K₂ K' s 0 img ehdr)
    (hw : w < 2^19) (hin : ph.p_vaddr/4096 ≤ w ∧ w ≤ (ph.p_vaddr+4095)/4096) :
    UserLeaf K' 0 w (mkLeaf (c+4096*(w-ph.p_vaddr/4096)) (segPerm ph)) where
  env := d.runnable
  page := by omega
  slot := user_index hw
  leaf := by rw [f.leaves w hw, if_pos hin]
  valid := Valid_mkLeaf _ (segPerm_lt ph)
  user := by
    rw [mkLeaf_and _ (segPerm_lt ph) (by decide) (by decide)]
    exact segPerm_and ph (Or.inr rfl)

theorem OnePage.loadsWholePages {L : Layout} {K K₁ K₂ K' : Kernel} {s : Phys} {img : Image}
    {ehdr : Ehdr} {ph : Phdr} {c : ℕ} (o : OnePage img ehdr ph) (hal : ph.p_vaddr%PAGE_SIZE = 0)
    (d : Created L K K₁ K₂ K' s 0 img ehdr) (f : FirstEnv L K₂ K' ph c) : LoadsWholePages L K img := by
  refine ⟨fun ehdr ph hel hs => ?_, fun x hx => ?_⟩
  · rw [o.segment hel hs]
    exact hal
  · rw [o.loaderCalls d, List.mem_singleton] at hx
    have hb := f.page.bounds
    rw [hx, kalloc_fst, f.freelist]
    omega

/-- One env from an image whose segment starts on a page. -/
theorem env_create_isolated_page : ∃ K' calls, CreateRun default (LoadsWholePages default) K' calls ∧
    (K'.envs 0).env_status = .ENV_RUNNABLE ∧ Isolated K' calls := by
  obtain ⟨K, _, _, _, hboot, _⟩ := boot_ok default (fun _ => 0)
  obtain ⟨K', K₁, K₂, s, c, hcreate, d, f⟩ := envCreate_first hboot spinImage_aligned 1
  have hok : LoadsWholePages default K (spinImage 0x1000) :=
    spinImage_aligned.loadsWholePages (by decide) d f
  have run := (CreateRun.boot hboot).create spinImage_aligned.userImage hok hcreate
  exact ⟨K', _, run, d.runnable, env_create_isolated run⟩

/-- A segment in the middle of a page gets a second page, with the frame behind the one
that `kalloc` handed out. -/
theorem env_create_not_isolated : ∃ K' calls, CreateRun default (fun _ _ => True) K' calls ∧
    ¬Isolated K' calls := by
  obtain ⟨K, _, _, _, hboot, _⟩ := boot_ok default (fun _ => 0)
  obtain ⟨K', K₁, K₂, s, c, hcreate, d, f⟩ := envCreate_first hboot spinImage_unaligned 1
  have run : CreateRun default (fun _ _ => True) K' _ :=
    .create (.boot hboot) spinImage_unaligned.userImage trivial hcreate
  refine ⟨K', _, run, fun hiso => ?_⟩
  have hva : (readPhdr (spinImage 0x1008).bytes 64).p_vaddr = 0x1008 := by decide
  have hu := f.userLeaf d (w := 2) (by decide) (by rw [hva]; decide)
  obtain ⟨hm, _⟩ := hiso 0 2 _ hu
  rw [spinImage_unaligned.loaderCalls d, hva] at hm
  simp [PAGE_SIZE] at hm

end RiscvMos
