import RiscvMos.Histories

/-! What `env_create` and `env_free` of one env leave of the user pages of the others. -/
namespace RiscvMos
open ByteMem IntrusiveQueue LinkChain Function

/-- What calls of the mapper that get a page keep, a load keeps if all its calls do. -/
theorem recorded_load {I : Phys → Prop} {img : Image} {ehdr : Ehdr} {u : ℕ} {s s' : Phys}
    {calls : List (ℕ × ℕ)} (hal : ∀ ph, Segment img ehdr ph → ph.p_vaddr%PAGE_SIZE = 0)
    (huser : ∀ ph, Segment img ehdr ph →
      ph.p_filesz ≤ ph.p_memsz ∧ ph.p_vaddr+ph.p_memsz ≤ USTACKTOP)
    (hoff : ehdr.e_phoff < 2^64)
    (hstep : ∀ {s₁ s₂ : Phys} {va len : ℕ} {src : Option ℕ} {ph : Phdr} {res : ℤ}, I s₁ →
      va%PAGE_SIZE = 0 → va < USTACKTOP → len ≤ PAGE_SIZE → (kalloc s₁).1 ≠ 0 →
      loadIcodeMapper img u s₁ va 0 (segPerm ph) src len = .ok (res, s₂) → I s₂)
    (h : I s) (hrun : loadSegments (recordCalls (loadIcodeMapper img u)) img ehdr (s, []) 0
      ehdr.e_phoff = .ok (s', calls)) (hfree : ∀ c ∈ calls, c.2 ≠ 0) : I s' := by
  let J : Phys × List (ℕ × ℕ) → Prop := fun st => (∀ c ∈ st.2, c.2 ≠ 0) → I st.1
  have hJ : PageCalls (recordCalls (loadIcodeMapper img u)) J := by
    rintro ⟨s₁, calls₁⟩ ph va offset src len res st' h₁ ⟨hva, rfl⟩ htop hlen hcall hne
    obtain ⟨⟨res', s₂⟩, hmap, hcall⟩ := bind_eq_ok.mp hcall
    cases hcall
    -- The call is the newest of the record.
    have hold := h₁ fun c hc => hne c (List.mem_cons_of_mem _ hc)
    exact hstep hold hva htop (by omega) (hne _ List.mem_cons_self) hmap
  have hstart : (ehdr.e_phoff+0*ehdr.e_phentsize)%2^64 = ehdr.e_phoff := by
    rw [Nat.zero_mul, Nat.add_zero, Nat.mod_eq_of_lt hoff]
  rw [← hstart] at hrun
  have hinit : J (s, []) := fun _ => h
  exact loadSegments_invariant (fun ph _ _ _ hs h₁ hload =>
    elfLoadSeg_invariant hJ (hal ph hs) (huser ph hs).1 (huser ph hs).2 h₁ hload) hinit hrun hfree

/-- The user pages of the roots other than `u`: their leaves, and the bytes of their frames. -/
structure OthersKept (sm : ℕ → Prop) (u : ℕ) (s s' : Phys) : Prop where
  leaf : ∀ r v, sm r → r ≠ u → v < 2^19 → leaf s'.mem r v = leaf s.mem r v
  frame : ∀ r v, sm r → r ≠ u → v < 2^19 → Valid (RiscvMos.leaf s.mem r v) →
    AgreeOn s'.mem s.mem (PTE2PA (RiscvMos.leaf s.mem r v)) 4096

theorem OthersKept.refl (sm : ℕ → Prop) (u : ℕ) (s : Phys) : OthersKept sm u s s :=
  ⟨fun _ _ _ _ _ => rfl, fun _ _ _ _ _ _ _ _ _ => rfl⟩

theorem OthersKept.trans {sm : ℕ → Prop} {u : ℕ} {s s' s'' : Phys} (h : OthersKept sm u s s')
    (h' : OthersKept sm u s' s'') : OthersKept sm u s s'' := by
  refine ⟨fun r v hr hu hv => ?_, fun r v hr hu hv hval => ?_⟩
  · rw [h'.leaf r v hr hu hv, h.leaf r v hr hu hv]
  · have hleaf := h.leaf r v hr hu hv
    have hframe := h'.frame r v hr hu hv
    rw [hleaf] at hframe
    exact (hframe hval).trans (h.frame r v hr hu hv hval)

theorem OthersKept.mono {sm sm' : ℕ → Prop} {u : ℕ} {s s' : Phys} (h : OthersKept sm' u s s')
    (hsm : ∀ r, sm r → sm' r) : OthersKept sm u s s' :=
  ⟨fun r v hr => h.leaf r v (hsm r hr), fun r v hr => h.frame r v (hsm r hr)⟩

section
variable {k : ℕ} {f : ℕ → ℕ} {s : Phys} {τ : Typing} {sm : ℕ → Prop} {l : List ℕ}
  {hand : ℕ → ℕ → ℕ → Prop} {u : ℕ}

theorem Owned.others_low (h : Owned k f s τ sm l hand) {m : Mem}
    (hm : ∀ b, KERNEND ≤ b → m b = s.mem b) : OthersKept sm u s ⟨m, s.freelist⟩ := by
  obtain ⟨_, hleaf⟩ := h.spaces.write_low hm
  refine ⟨fun r v hr _ hv => ?_, fun r v hr _ hv hval b hlo _ => ?_⟩
  · exact hleaf r v (h.spaces.root_of_sm hr) (clear_of_index sm r (user_index hv))
  · exact hm b ((h.owned r v hr hv hval).1.1.trans hlo)

theorem Owned.frame_update (h : Owned k f s τ sm l hand) {c r v : ℕ} (x : PageKind)
    (hfree : τ c = .free) (hr : sm r) (hv : v < 2^19) (hval : Valid (leaf s.mem r v)) :
    IsPage (PTE2PA (leaf s.mem r v)) ∧ PTE2PA (leaf s.mem r v) ≠ c ∧
      update τ c x (PTE2PA (leaf s.mem r v)) = .frame (some (r,v)) := by
  obtain ⟨hq, ht, _⟩ := h.owned r v hr hv hval
  have hqc : PTE2PA (leaf s.mem r v) ≠ c := by
    intro he
    rw [he, hfree] at ht
    cases ht
  exact ⟨hq, hqc, by rw [update_other_kind _ _ hqc, ht]⟩

theorem Owned.others_grow (h : Owned k f s τ sm l hand) {c : ℕ} {x : PageKind} {s₁ s' : Phys}
    {τ' : Typing} (hc : IsPage c) (hfree : τ c = .free) (hm : SameOutside s.mem s₁.mem c 4096)
    (g : Grows s₁ (update τ c x) s' τ')
    (hleaf : ∀ r v, sm r → r ≠ u → v < 2^19 → leaf s'.mem r v = leaf s.mem r v) :
    OthersKept sm u s s' := by
  refine ⟨hleaf, fun r v hr _ hv hval => ?_⟩
  obtain ⟨hq, hqc, ht₁⟩ := h.frame_update x hfree hr hv hval
  have hd := hq.disjoint hc hqc
  exact (g.frame_agree hq ht₁).trans (hm.agreeOn hd)

theorem Owned.others_mapper (h : Owned k f s τ sm l hand) {va len : ℕ} {img : Image}
    {src : Option ℕ} {ph : Phdr} {res : ℤ} {s' : Phys} (hu : sm u) (hal : va%PAGE_SIZE = 0)
    (hva : va < USTACKTOP) (hlen : len ≤ PAGE_SIZE) (hfree : (kalloc s).1 ≠ 0)
    (hrun : RiscvMos.loadIcodeMapper img u s va 0 (segPerm ph) src len = .ok (res, s')) :
    OthersKept sm u s s' := by
  cases l with
  | nil =>
    rw [kalloc_nil h.spaces.typed.free] at hfree
    exact absurd rfl hfree
  | cons c l =>
    have hpage : PAGE_SIZE = 4096 := rfl
    have htop : USTACKTOP = 524287*4096 := by decide
    have hc := h.spaces.typed.free.pages c List.mem_cons_self
    have hcfree := h.spaces.typed.free_kind List.mem_cons_self
    have hb := hc.bounds
    rw [hpage] at hal hlen
    obtain ⟨v, rfl⟩ : ∃ v, va = v*4096 := ⟨va/4096, by omega⟩
    obtain ⟨s₁, hmap, h₁, hleaf, hm, _⟩ := h.spaces.loadIcodeMapper img src (some (u,v))
      (by omega : 0+len ≤ 4096)
    rw [hmap] at hrun
    have hroot := h₁.root_of_sm hu
    obtain ⟨τ', l', _, hres⟩ := h₁.typed.mappages_page_ok hroot
      (clear_of_index sm u (user_index (by omega))) (by omega) (by omega) (segPerm_lt ph)
      (HasRWX_segPerm ph) hrun
    -- Both outcomes of the walk write the tables of `u` alone.
    have hout {n : ℕ} (m : MapOut sm s₁ (update τ c (.frame (some (u,v)))) l u v n c (segPerm ph)
        s' τ' l') : OthersKept sm u s s' := by
      apply h.others_grow hc hcfree hm m.grows
      intro r w hr hne hw
      have hcw := clear_of_index sm r (user_index hw)
      rw [m.leaves (h₁.root_of_sm hr) hcw (by omega), if_neg (fun hh => hne hh.1),
        hleaf r w (h.spaces.root_of_sm hr) hcw]
    rcases hres with ⟨_, _, m⟩ | ⟨_, m⟩
    · exact hout m
    · exact hout m

theorem Owned.others_load (h : Owned k f s τ sm l hand) (hu : sm u) {img : Image} {ehdr : Ehdr}
    (hal : ∀ ph, Segment img ehdr ph → ph.p_vaddr%PAGE_SIZE = 0)
    (huser : ∀ ph, Segment img ehdr ph →
      ph.p_filesz ≤ ph.p_memsz ∧ ph.p_vaddr+ph.p_memsz ≤ USTACKTOP)
    (hoff : ehdr.e_phoff < 2^64) {s' : Phys} {calls : List (ℕ × ℕ)}
    (hrun : loadSegments (recordCalls (RiscvMos.loadIcodeMapper img u)) img ehdr (s, []) 0
      ehdr.e_phoff = .ok (s', calls)) (hfree : ∀ c ∈ calls, c.2 ≠ 0) : OthersKept sm u s s' := by
  let I : Phys → Prop := fun s₁ =>
    OthersKept sm u s s₁ ∧ ∃ τ' l' hand', Owned k f s₁ τ' sm l' hand'
  have hinit : I s := ⟨OthersKept.refl sm u s, τ, l, hand, h⟩
  refine (recorded_load (I := I) hal huser hoff ?_ hinit hrun hfree).1
  rintro s₁ s₂ va len src ph res ⟨hkept, τ₁, l₁, hand₁, o₁⟩ hva htop hlen hpage hmap
  obtain ⟨τ₂, l₂, o₂⟩ := o₁.loadIcodeMapper hu hva htop hlen hpage hmap
  exact ⟨hkept.trans (o₁.others_mapper hu hva htop hlen hpage hmap), τ₂, l₂, _, o₂⟩

theorem Owned.others_setup {K K' : Kernel} {e : ℕ}
    (h : Owned K.kernel_pagetable f K.phys τ sm l hand) (hrun : envSetupVm K e = .ok (0, K')) :
    OthersKept sm (K'.envs e).env_pgtable K.phys K'.phys := by
  rcases envSetupVm_cases hrun with ⟨hr, _⟩ | ⟨_, u, s₁, s₂, hu, hu0, hcopy, rfl⟩
  · exact absurd hr (by decide)
  · obtain ⟨l₁, τ₂, l₂, rfl, ht, hz, hm, c⟩ := h.spaces.rooted.setup_calls hu hu0 hcopy
    have hfree := h.spaces.typed.free_kind List.mem_cons_self
    have huroot : update τ u (.table 2 none) u = .table 2 none := update_same_kind τ u _
    have hpage := ht.page huroot
    have hout := h.spaces.setup_copy ht hz hm c
    -- The self map is one more entry of the new root.
    have hself : SameOutside s₂.mem (selfMap s₂.mem u) u 4096 := by
      have hslot : VPN_L 2 UVPT < 512 := by decide
      exact (store_sameOutside s₂.mem (u+8*VPN_L 2 UVPT) 8 _).mono (by omega) (by omega)
    have henv : (((K.setPhys ⟨selfMap s₂.mem u, s₂.freelist⟩).setEnv e
        { K.envs e with env_pgtable := u }).envs e).env_pgtable = u := by
      simp only [Kernel.setEnv, update_self]
    rw [henv]
    refine ⟨fun r v hr _ hv => hout.old r v hr (by omega) (user_index hv),
      fun r v hr hne hv hval => ?_⟩
    obtain ⟨hq, hqu, ht₁⟩ := h.frame_update (.table 2 none) hfree hr hv hval
    have hd := hq.disjoint hpage hqu
    exact (hself.agreeOn hd).trans ((c.grows.frame_agree hq ht₁).trans (hm.agreeOn hd))

end

/-! ### The envs that are there -/

section
variable {L : Layout} {K K₁ K₂ K' : Kernel} {s : Phys} {e : ℕ} {img : Image} {ehdr : Ehdr}
  {calls : List (ℕ × ℕ × ℕ)} {fr : ℕ → ℕ} {τ : Typing} {sm : ℕ → Prop} {l ql fl : List ℕ}

/-- `env_create` keeps the user pages that are there. -/
theorem IsolationInv.create_others (h : IsolationInv L K calls fr τ sm l ql fl)
    (c : Created L K K₁ K₂ K' s e img ehdr) (user : UserImage img) (ok : LoadsWholePages L K img) :
    OthersKept sm (K₁.envs e).env_pgtable K.phys K'.phys ∧ ¬sm (K₁.envs e).env_pgtable := by
  obtain ⟨_, _, helt, _⟩ := h.sched.alloc c.alloc
  have hsetup := h.owned.others_setup c.alloc.setup
  obtain ⟨_, ⟨h0, _⟩ | ⟨_, τ₁, l₁, _, o⟩⟩ := envSetupVm_spaces h.owned.spaces c.alloc.setup
  · exact absurd rfl h0
  have hroot : (K₂.envs e).env_pgtable = (K₁.envs e).env_pgtable := c.alloc.env_pgtable e
  have hrec := c.recorded
  rw [hroot, c.alloc.phys] at hrec
  generalize (K₁.envs e).env_pgtable = u at hsetup o hrec ⊢
  have hold {r : ℕ} (hr : sm r) : sm r ∨ r = u := Or.inl hr
  -- The stages: a new space, the frame in envs[], the load and the entry point.
  have hlow (b : ℕ) (hb : KERNEND ≤ b) : initFrame L K₁.phys.mem e b = K₁.phys.mem b :=
    initFrame_low helt hb
  have o₁ := (h.owned.setup o).write_low hlow
  obtain ⟨_, _, o₂⟩ := o₁.load (Or.inr rfl) (fun ph => ok.1 ehdr ph c.elf)
    (fun ph => user ehdr ph c.elf) (elfFrom_phoff c.elf) hrec ok.2
  have hload := o₁.others_load (Or.inr rfl) (fun ph => ok.1 ehdr ph c.elf)
    (fun ph => user ehdr ph c.elf) (elfFrom_phoff c.elf) hrec ok.2
  have hlast := o₂.others_low (u := u) (m := store64 s.mem (L.tf e+8*33) ehdr.e_entry)
    (fun b hb => store64_low helt (by decide) _ hb)
  rw [← c.phys] at hlast
  refine ⟨?_, fun hu => ?_⟩
  · apply hsetup.trans
    apply OthersKept.trans (((h.owned.setup o).others_low hlow).mono fun _ hr => hold hr)
    exact (hload.trans hlast).mono fun _ hr => hold hr
  · -- The new root was a free page.
    have htab := h.owned.spaces.root_of_sm hu
    rw [o.fresh] at htab
    cases htab

theorem IsolationInv.free_others (h : IsolationInv L K calls fr τ sm l ql fl)
    (he : (K.envs e).env_status = .ENV_RUNNABLE) (torn : TornDown K e s) :
    OthersKept sm (K.envs e).env_pgtable K.phys s := by
  obtain ⟨l₀, l', hfree, o⟩ := torn
  obtain rfl := hfree.unique h.owned.spaces.typed.free
  have hF := h.envPage_closed he
  have hother {r : ℕ} (hr : sm r) (hne : r ≠ (K.envs e).env_pgtable) : ¬EnvPage K e r := by
    rw [h.envPage_root he (h.owned.spaces.root_of_sm hr)]
    exact hne
  refine ⟨fun r v hr hne hv => ?_, fun r v hr hne hv hval => ?_⟩
  · apply o.leaf h.owned.spaces.typed hF (h.owned.spaces.root_of_sm hr) (hother hr hne)
    exact clear_of_index _ r (user_index hv)
  · obtain ⟨hq, ht, _⟩ := h.owned.owned r v hr hv hval
    apply o.agree hF hq
    -- A frame of the env that goes has that env as its owner.
    rintro (⟨level, htab⟩ | ⟨w, pte, hu, hpte⟩)
    · obtain ⟨_, _, _, hp, _⟩ := h.owned.spaces.typed.tableAt_selfMap (h.root he) htab
      rw [hp] at ht
      cases ht
    · obtain ⟨_, ht', _⟩ := h.userLeaf hu
      rw [hpte, ht] at ht'
      obtain ⟨hre, _⟩ := Prod.mk.inj (Option.some.inj (PageKind.frame.inj ht'))
      exact hne hre

end

end RiscvMos
