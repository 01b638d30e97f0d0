import RiscvMos.BootSpaces
import RiscvMos.Loader
import RiscvMos.SchedInv

/-! A call of `load_icode_mapper` next to the other spaces, and the first `env_create`
after boot for an image of one page. -/
namespace RiscvMos
open ByteMem IntrusiveQueue LinkChain Function

section
variable {k : ℕ} {f : ℕ → ℕ} {s : Phys} {τ : Typing} {sm : ℕ → Prop} {l : List ℕ}

/-- Byte `i` of a zeroed page after the copy that the mapper makes. -/
def copied (img : Image) (src : Option ℕ) (offset len i : ℕ) : UInt8 :=
  match src with
  | some src => if offset ≤ i ∧ i < offset+len then img.bytes (src+(i-offset)) else 0
  | none => 0

theorem loadIcodeMapper_page (img : Image) {s₀ : Phys} {c offset len : ℕ} (src : Option ℕ)
    (hk : kalloc s = (c, s₀)) (hc : IsPage c) (hz : ZeroPage s₀.mem c) (hfit : offset+len ≤ 4096) :
    ∃ m, SameOutside s₀.mem m c 4096 ∧ (∀ i < 4096, m (c+i) = copied img src offset len i) ∧
      ∀ r va perm, loadIcodeMapper img r s va offset perm src len =
        mappages ⟨m, s₀.freelist⟩ r va PAGE_SIZE c perm := by
  have hb := hc.bounds
  have hzero (i : ℕ) (hi : i < 4096) : s₀.mem (c+i) = 0 := hz (c+i) (by omega) (by omega)
  cases src with
  | none =>
    refine ⟨s₀.mem, fun _ _ => rfl, hzero, fun r va perm => ?_⟩
    rw [loadIcodeMapper, hk]
    rfl
  | some src =>
    have hne : ¬(c = 0 ∧ 0 < len) := by omega
    refine ⟨blit s₀.mem (c+offset) len (fun i => img.bytes (src+i)),
      (blit_sameOutside _ _ _ _).mono (by omega) (by omega), fun i hi => ?_, fun r va perm => ?_⟩
    · have hiff : (c+offset ≤ c+i ∧ c+i < c+offset+len) ↔ (offset ≤ i ∧ i < offset+len) := by omega
      rw [blit, hzero i hi, Nat.add_sub_add_left]
      exact if_congr hiff rfl rfl
    · rw [loadIcodeMapper, hk]
      dsimp only
      rw [copyToPage, if_neg hne, ok_bind]

theorem Typed.loadIcodeMapper (h : Typed s τ sm (c :: l)) (img : Image) {offset len : ℕ}
    (src : Option ℕ) (o : Option (ℕ × ℕ)) (hfit : offset+len ≤ 4096) :
    ∃ s₁, (∀ r va perm, RiscvMos.loadIcodeMapper img r s va offset perm src len =
        mappages s₁ r va PAGE_SIZE c perm) ∧
      Typed s₁ (update τ c (.frame o)) sm l ∧
      (∀ p ℓ par, update τ c (.frame o) p = .table ℓ par ↔ τ p = .table ℓ par) ∧
      SameOutside s.mem s₁.mem c 4096 ∧ ∀ i < 4096, s₁.mem (c+i) = copied img src offset len i := by
  have hpage := h.free.pages c List.mem_cons_self
  have hnt := Typed.not_table_of_free (h.free_kind List.mem_cons_self)
  obtain ⟨s₀, hk, ht, hz, hm₀⟩ := h.kalloc_frame o
  obtain ⟨m, hm₁, hbytes, hmap⟩ := loadIcodeMapper_page img src hk hpage hz hfit
  have ht₁ : Typed ⟨m, s₀.freelist⟩ (update τ c (.frame o)) sm l := by
    apply ht.write_frames
    intro p hp hne
    have hpc : p ≠ c := by
      rintro rfl
      exact hne o (update_same_kind τ p _)
    exact hm₁.agreeOn (hp.disjoint hpage hpc)
  exact ⟨⟨m, s₀.freelist⟩, hmap, ht₁, Typed.update_table_iff hnt (by simp), hm₀.trans hm₁, hbytes⟩

theorem Typed.filled_agree (h : Typed s τ sm (c :: l)) {m : Mem}
    (hm : SameOutside s.mem m c 4096) {p ℓ : ℕ} {par : Option (ℕ × ℕ)} (hp : τ p = .table ℓ par) :
    AgreeOn m s.mem p 4096 :=
  h.table_agree (h.free.pages c List.mem_cons_self)
    (Typed.not_table_of_free (h.free_kind List.mem_cons_self)) hm hp

theorem Spaces.loadIcodeMapper (h : Spaces k f s τ sm (c :: l)) (img : Image) {offset len : ℕ}
    (src : Option ℕ) (o : Option (ℕ × ℕ)) (hfit : offset+len ≤ 4096) :
    ∃ s₁, (∀ r va perm, RiscvMos.loadIcodeMapper img r s va offset perm src len =
        mappages s₁ r va PAGE_SIZE c perm) ∧
      Spaces k f s₁ (update τ c (.frame o)) sm l ∧
      (∀ r v, τ r = .table 2 none → Clear sm r 2 (vpnIndex 2 v) →
        leaf s₁.mem r v = leaf s.mem r v) ∧
      SameOutside s.mem s₁.mem c 4096 ∧ ∀ i < 4096, s₁.mem (c+i) = copied img src offset len i := by
  obtain ⟨s₁, hmap, ht, hτ, hm, hbytes⟩ := h.typed.loadIcodeMapper img src o hfit
  obtain ⟨h', hleaf⟩ := h.retype ht hτ (h.typed.filled_agree hm)
  exact ⟨s₁, hmap, h', hleaf, hm, hbytes⟩

theorem segPerm_lt (ph : Phdr) : segPerm ph < 1024 := by
  rw [segPerm]
  split_ifs <;> decide

theorem segPerm_and (ph : Phdr) {b : ℕ} (hb : b = PTE_R ∨ b = PTE_U) : segPerm ph &&& b ≠ 0 := by
  rw [segPerm]
  rcases hb with rfl | rfl <;> split_ifs <;> decide

theorem HasRWX_segPerm (ph : Phdr) : HasRWX (segPerm ph) := by
  rw [segPerm]
  split_ifs <;> decide

theorem Spaces.write_low (h : Spaces k f s τ sm l) {m : Mem}
    (hm : ∀ b, KERNEND ≤ b → m b = s.mem b) :
    Spaces k f ⟨m, s.freelist⟩ τ sm l ∧ ∀ r v, τ r = .table 2 none →
      Clear sm r 2 (vpnIndex 2 v) → leaf m r v = leaf s.mem r v := by
  have hagree (p : ℕ) (hp : IsPage p) : AgreeOn m s.mem p 4096 := by
    intro b hl _
    exact hm b (hp.1.trans hl)
  exact h.retype (h.typed.write_frames (fun p hp _ => hagree p hp)) (fun _ _ _ => Iff.rfl)
    (fun {p _ _} hp => hagree p (h.typed.page hp))

end

/-! ### Trap frames lie below the heap -/

theorem Layout.tf_end (L : Layout) {e : ℕ} (he : e < NENV) : L.tf e+TF_SIZE ≤ KERNEND := by
  have hn : NENV = 1024 := by decide
  have htop : KSTACKTOP = KERNEND := rfl
  have hsize : ENV_SIZE = 376 := rfl
  have htf : TF_SIZE = 288 := rfl
  have henvs := L.envs_lt
  rw [hn, htop, hsize, htf] at henvs
  rw [Layout.tf, hsize, htf]
  omega

theorem store64_low {m : Mem} {L : Layout} {e i : ℕ} (he : e < NENV) (hi : i < 36) (v : ℕ) {b : ℕ}
    (hb : KERNEND ≤ b) : store64 m (L.tf e+8*i) v b = m b := by
  have hend := L.tf_end he
  have htf : TF_SIZE = 288 := rfl
  exact store_sameOutside m (L.tf e+8*i) 8 v b (by omega)

theorem initFrame_low {m : Mem} {L : Layout} {e : ℕ} (he : e < NENV) {b : ℕ} (hb : KERNEND ≤ b) :
    initFrame L m e b = m b := by
  rw [initFrame, store64_low he (by decide) _ hb, store64_low he (by decide) _ hb]

/-! ### Images of one page -/

/-- One header, of a segment whose bytes fill it and end in its first page. -/
structure OnePage (img : Image) (ehdr : Ehdr) (ph : Phdr) : Prop where
  elf : elfFrom img = some ehdr
  num : ehdr.e_phnum = 1
  header : readPhdr img.bytes ehdr.e_phoff = ph
  type : ph.p_type = PT_LOAD
  pos : 0 < ph.p_filesz
  size : ph.p_memsz = ph.p_filesz
  fit : ph.p_vaddr%4096+ph.p_filesz ≤ 4096
  below : ph.p_vaddr+4096 ≤ USTACKTOP

section
variable {k : ℕ} {f : ℕ → ℕ} {s : Phys} {τ : Typing} {sm : ℕ → Prop} {l : List ℕ}
  {img : Image} {ehdr : Ehdr} {ph : Phdr}

theorem OnePage.loadSegments {σ : Type} (o : OnePage img ehdr ph) (map_page : ElfMapper σ) (st : σ) :
    RiscvMos.loadSegments map_page img ehdr st 0 ehdr.e_phoff =
      map_page st ph.p_vaddr (ph.p_vaddr%4096) (segPerm ph) (some ph.p_offset) ph.p_filesz >>=
        fun x => .ok x.2 := by
  have hlt := USTACKTOP_lt
  have htop : USTACKTOP < 2^63-4096 := by decide
  have hbin : ph.p_offset < 2^64 := by
    rw [← o.header]
    exact load_lt _ _ 8
  have hb := o.below
  rw [loadSegments_single map_page st o.num (by rw [o.header]; exact o.type), o.header,
    elfLoadSeg_page map_page st (by omega) hbin o.pos o.size o.fit]

/-- The loader maps the page of such an image, and also the next page when the segment
does not start on a page. -/
theorem Spaces.load_onePage {u c : ℕ} (h : Spaces k f s τ sm (c :: l)) (hu : sm u)
    (o : OnePage img ehdr ph) (hl : 5 ≤ l.length)
    (hempty : ∀ w < 2^19, ¬Valid (leaf s.mem u w)) :
    ∃ s' τ' l', RiscvMos.loadSegments (RiscvMos.loadIcodeMapper img u) img ehdr s 0 ehdr.e_phoff =
        .ok s' ∧ Spaces k f s' τ' sm l' ∧
      ∀ w < 2^19, leaf s'.mem u w =
        if ph.p_vaddr/4096 ≤ w ∧ w ≤ (ph.p_vaddr+4095)/4096
          then mkLeaf (c+4096*(w-ph.p_vaddr/4096)) (segPerm ph) else leaf s.mem u w := by
  have hpage : PAGE_SIZE = 4096 := rfl
  have htop : USTACKTOP = 524287*4096 := by decide
  have hb := o.below
  have hc := (h.typed.free.pages c List.mem_cons_self).bounds
  obtain ⟨s₁, hmap, h₁, hleaf, _⟩ := h.loadIcodeMapper img (some ph.p_offset)
    (some (u, ph.p_vaddr/4096)) o.fit
  have hroot := h.root_of_sm hu
  have hclear {w : ℕ} (hw : w < 2^19) : Clear sm u 2 (vpnIndex 2 w) :=
    clear_of_index sm u (user_index hw)
  have hkeep {w : ℕ} (hw : w < 2^19) : leaf s₁.mem u w = leaf s.mem u w :=
    hleaf u w hroot (hclear hw)
  -- a segment that starts within a page makes `mappages` map the next page too
  let v := ph.p_vaddr/4096
  let vl := (ph.p_vaddr+4095)/4096
  let G : Finset ℕ := {v/512, (v+1)/512}
  have hG : G.card ≤ 2 := Finset.card_le_two
  have hclearG (x : ℕ) (hx : x ∈ G) : Clear sm u 2 (vpnIndex 2 (512*x)) := by
    obtain ⟨w, hw, rfl⟩ : ∃ w < 2^19, x = w/512 := by
      rcases Finset.mem_insert.mp hx with rfl | hx
      · exact ⟨v, by omega, rfl⟩
      · exact ⟨v+1, by omega, Finset.mem_singleton.mp hx⟩
    rw [vpnIndex_region]
    exact hclear hw
  have hreg (w : ℕ) (h1 : v ≤ w) (h2 : w ≤ vl) : w/512 ∈ G := by
    by_cases hwv : w = v
    · rw [hwv]
      exact Finset.mem_insert_self _ _
    · have hw1 : w = v+1 := by omega
      rw [hw1]
      exact Finset.mem_insert_of_mem (Finset.mem_singleton_self _)
  have hun (w : ℕ) (h1 : v ≤ w) (h2 : w ≤ vl) : ¬Valid (leaf s₁.mem u w) := by
    rw [hkeep (by omega)]
    exact hempty w (by omega)
  obtain ⟨s', τ', l', hrun, m, _⟩ := Typed.mappagesLoop_map (segPerm_lt ph) (HasRWX_segPerm ph)
    (by omega : vl < 2^26) (by omega : 2*G.card < l.length) hclearG (vl-v) (by omega) h₁.typed
    (h₁.root_of_sm hu) (by omega : c < 2^64) hreg hun (Budget.start _ _ _ _)
  refine ⟨s', τ', l', ?_, ?_, ?_⟩
  · have hlast : (ph.p_vaddr+4096-1)/4096 = vl := rfl
    rw [o.loadSegments, hmap, hpage, mappages_eq (by decide) (by omega), hlast, hrun, ok_bind]
  · exact h₁.map hu (by omega) m
  · intro w hw
    rw [m.leaves (h₁.root_of_sm hu) (hclear hw) (by omega), hkeep hw]
    by_cases hin : v ≤ w ∧ w ≤ vl
    · rw [if_pos hin, if_pos ⟨rfl, by omega, by omega⟩, Nat.mod_eq_of_lt (by omega)]
    · rw [if_neg hin, if_neg (by omega)]

end

/-! ### The first env -/

theorem boot_envAlloc {L : Layout} {m : Mem} {K : Kernel} (hboot : boot L m = .ok K) :
    ∃ fr K₁ K₂ τ l, envAlloc L K 0 = .ok (0, some 0, K₂) ∧ Allocated L K K₁ K₂ 0 ∧
      Spaces K.kernel_pagetable (kernelLeaf L.etext fr) K₂.phys τ
        (fun r => noSelfMap r ∨ r = (K₂.envs 0).env_pgtable) l ∧ 30000 ≤ l.length ∧
      ∀ v < 2^19, leaf K₂.phys.mem (K₂.envs 0).env_pgtable v = 0 := by
  obtain ⟨fr, τ, l, b⟩ := boot_booted hboot
  obtain ⟨t, hfree⟩ := (boot_schedInv hboot).free
  have hfirst : K.env_free_list.first = some 0 := by
    have hn : NENV = 1023+1 := by decide
    rw [hn, List.range_succ_eq_map, List.cons_append] at hfree
    exact repr_first hfree
  obtain ⟨K₁, τ', l', hsetup, o, hlen⟩ := b.envSetupVm_map 0
  have hasid : asidAlloc K.asid_bitmap = some (0, update K.asid_bitmap 0 1) := by
    rw [b.asid_bitmap, asidAlloc, asidAllocLoop]
    rfl
  obtain ⟨K₂, halloc, a⟩ := envAlloc_ok L 0 hfirst hsetup hasid
  have hroot : (K₂.envs 0).env_pgtable = (K₁.envs 0).env_pgtable := a.env_pgtable 0
  obtain ⟨h₂, hleaf⟩ := o.spaces.write_low (m := initFrame L K₁.phys.mem 0)
    (fun b hb => initFrame_low (by decide) hb)
  refine ⟨fr, K₁, K₂, τ', l', halloc, a, ?_, hlen, fun v hv => ?_⟩
  · rw [hroot, a.phys]
    exact h₂
  · rw [hroot, a.phys]
    have hkeep := hleaf _ v (o.spaces.root_of_sm (Or.inr rfl)) (clear_of_index _ _ (user_index hv))
    exact hkeep.trans (o.empty v hv)

/-- `c` is the page that the mapper got; the env's table has the image there and no
other user page. -/
structure FirstEnv (L : Layout) (K₂ K' : Kernel) (ph : Phdr) (c : ℕ) : Prop where
  freelist : K₂.phys.freelist = c
  page : IsPage c
  spaces : ∃ fr τ l, Spaces K'.kernel_pagetable (kernelLeaf L.etext fr) K'.phys τ
    (fun r => noSelfMap r ∨ r = (K'.envs 0).env_pgtable) l
  leaves : ∀ w < 2^19, leaf K'.phys.mem (K'.envs 0).env_pgtable w =
    if ph.p_vaddr/4096 ≤ w ∧ w ≤ (ph.p_vaddr+4095)/4096
      then mkLeaf (c+4096*(w-ph.p_vaddr/4096)) (segPerm ph) else 0

theorem envCreate_first {L : Layout} {m : Mem} {K : Kernel} {img : Image} {ehdr : Ehdr} {ph : Phdr}
    (hboot : boot L m = .ok K) (o : OnePage img ehdr ph) (priority : ℤ) :
    ∃ K' K₁ K₂ s c, envCreate L K img priority = .ok (0, K') ∧
      Created L K K₁ K₂ K' s 0 img ehdr ∧ FirstEnv L K₂ K' ph c := by
  obtain ⟨fr, K₁, K₂, τ, l, halloc, a, h₂, hlen, hempty⟩ := boot_envAlloc hboot
  cases l with
  | nil =>
    simp only [List.length_nil] at hlen
    omega
  | cons c l =>
    rw [List.length_cons] at hlen
    have hu : (fun r => noSelfMap r ∨ r = (K₂.envs 0).env_pgtable) (K₂.envs 0).env_pgtable := Or.inr rfl
    obtain ⟨s, τ', l', hload, h₃, hleaf⟩ := h₂.load_onePage hu o (by omega) (fun w hw => by
      rw [hempty w hw]
      exact not_Valid_zero)
    obtain ⟨K', K₁', hcreate, c'⟩ := envCreate_ok priority halloc o.elf hload
    have hroot : (K'.envs 0).env_pgtable = (K₂.envs 0).env_pgtable := by
      rw [c'.env_pgtable 0, c'.alloc.env_pgtable 0]
    obtain ⟨h₄, hleaf'⟩ := h₃.write_low (m := store64 s.mem (L.tf 0+8*33) ehdr.e_entry)
      (fun b hb => store64_low (by decide) (by decide) _ hb)
    refine ⟨K', K₁', K₂, s, c, hcreate, c', h₂.typed.free.chain.1,
      h₂.typed.free.pages c List.mem_cons_self, ?_, fun w hw => ?_⟩
    · refine ⟨fr, τ', l', ?_⟩
      rw [hroot, c'.kernel_pagetable, c'.phys]
      exact h₄
    · have hkeep := hleaf' _ w (h₃.root_of_sm hu) (clear_of_index _ _ (user_index hw))
      have hl := hleaf w hw
      rw [hempty w hw] at hl
      rw [hroot, c'.phys]
      exact hkeep.trans hl

/-! ### A small image -/

def leBytes (v : ℕ) : ℕ → List UInt8
  | 0 => []
  | n+1 => UInt8.ofNat v :: leBytes (v/256) n

/-- An executable for `vaddr` with the one instruction `j .` as its only segment. -/
def spinBytes (vaddr : ℕ) : List UInt8 :=
  [0x7f, 0x45, 0x4c, 0x46, 2, 1, 1, 0, 0, 0, 0, 0, 0, 0, 0, 0] ++ leBytes 2 2 ++ leBytes 243 2 ++
    leBytes 1 4 ++ leBytes vaddr 8 ++ leBytes 64 8 ++ leBytes 0 8 ++ leBytes 0 4 ++ leBytes 64 2 ++
    leBytes 56 2 ++ leBytes 1 2 ++ leBytes 0 6 ++
  leBytes 1 4 ++ leBytes 5 4 ++ leBytes 120 8 ++ leBytes vaddr 8 ++ leBytes vaddr 8 ++
    leBytes 4 8 ++ leBytes 4 8 ++ leBytes 8 8 ++
  leBytes 0x6f 4

def spinImage (vaddr : ℕ) : Image :=
  ⟨fun i => (spinBytes vaddr).getD i 0, (spinBytes vaddr).length⟩

theorem spinImage_aligned : OnePage (spinImage 0x1000) (readEhdr (spinImage 0x1000).bytes)
    (readPhdr (spinImage 0x1000).bytes 64) where
  elf := if_pos (by decide +kernel)
  num := by decide
  header := congrArg (readPhdr _) (by decide)
  type := by decide
  pos := by decide
  size := by decide
  fit := by decide
  below := by decide

theorem spinImage_unaligned : OnePage (spinImage 0x1008) (readEhdr (spinImage 0x1008).bytes)
    (readPhdr (spinImage 0x1008).bytes 64) where
  elf := if_pos (by decide +kernel)
  num := by decide
  header := congrArg (readPhdr _) (by decide)
  type := by decide
  pos := by decide
  size := by decide
  fit := by decide
  below := by decide

end RiscvMos
