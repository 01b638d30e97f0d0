import RiscvMos.FirstEnv
import RiscvMos.UvmunmapSpec

/-! `env_free` calls `uvmunmap` for 2^26 pages, and `uvmunmap` goes to the same page on
each turn: whatever memory holds, it finds the entry of that page gone after two turns. -/
namespace RiscvMos
open ByteMem IntrusiveQueue LinkChain Function

theorem descend_two {m : Mem} {r v q : ℕ} (h : descend m 2 r v = some q) :
    Valid (entry m r (vpnIndex 2 v)) ∧
      Valid (entry m (PTE2PA (entry m r (vpnIndex 2 v))) (vpnIndex 1 v)) ∧
      q = PTE2PA (entry m (PTE2PA (entry m r (vpnIndex 2 v))) (vpnIndex 1 v)) := by
  by_cases h2 : Valid (entry m r (vpnIndex 2 v))
  · rw [descend_succ_of_valid h2] at h
    by_cases h1 : Valid (entry m (PTE2PA (entry m r (vpnIndex 2 v))) (vpnIndex 1 v))
    · rw [descend_succ_of_valid h1] at h
      exact ⟨h2, h1, (Option.some.inj h).symm⟩
    · rw [descend_succ_of_not_valid h1] at h
      cases h
  · rw [descend_succ_of_not_valid h2] at h
    cases h

theorem entry_cleared (m : Mem) (q i : ℕ) : entry (store64 m (q+8*i) 0) q i = 0 :=
  entry_store_same m q i 0 (by decide)

/-- Clearing the leaf of a page that does not overlap the page's entry in the root
leaves no leaf for it. -/
theorem cleared_leaf_lost {m : Mem} {r v q q' : ℕ} (h : descend m 2 r v = some q)
    (hd : r+8*vpnIndex 2 v+8 ≤ q+8*vpnIndex 0 v ∨ q+8*vpnIndex 0 v+8 ≤ r+8*vpnIndex 2 v)
    (h' : descend (store64 m (q+8*vpnIndex 0 v) 0) 2 r v = some q') :
    ¬Valid (entry (store64 m (q+8*vpnIndex 0 v) 0) q' (vpnIndex 0 v)) := by
  have hsame := store_sameOutside m (q+8*vpnIndex 0 v) 8 0
  have hroot : entry (store64 m (q+8*vpnIndex 0 v) 0) r (vpnIndex 2 v) = entry m r (vpnIndex 2 v) :=
    load64_sameOutside hsame (by omega)
  obtain ⟨_, _, hq⟩ := descend_two h
  obtain ⟨_, hv', hq'⟩ := descend_two h'
  rw [hroot] at hv' hq'
  have hqmod : q%4096 = 0 := by
    rw [hq]
    exact PTE2PA_mod _
  have htmod := PTE2PA_mod (entry m r (vpnIndex 2 v))
  generalize PTE2PA (entry m r (vpnIndex 2 v)) = t at hq hv' hq' htmod
  -- the entry of the level-1 table is the cleared word or does not overlap it
  by_cases he : t+8*vpnIndex 1 v = q+8*vpnIndex 0 v
  · have hzero : entry (store64 m (q+8*vpnIndex 0 v) 0) t (vpnIndex 1 v) = 0 := by
      rw [← he]
      exact entry_cleared m t (vpnIndex 1 v)
    rw [hzero] at hv'
    exact absurd hv' not_Valid_zero
  · have hkeep : entry (store64 m (q+8*vpnIndex 0 v) 0) t (vpnIndex 1 v) =
        entry m t (vpnIndex 1 v) := load64_sameOutside hsame (by omega)
    rw [hkeep, ← hq] at hq'
    rw [hq', entry_cleared]
    exact not_Valid_zero

theorem uvmunmapLoop_turn {s s' : Phys} {r va a stop : ℕ} (ha : a < stop)
    (h : uvmunmapLoop s r va false a stop = .ok s') :
    ∃ q, descend s.mem 2 r (va/4096) = some q ∧ Valid (entry s.mem q (vpnIndex 0 (va/4096))) ∧
      uvmunmapLoop ⟨store64 s.mem (q+8*vpnIndex 0 (va/4096)) 0, s.freelist⟩ r va false
        (a+PAGE_SIZE) stop = .ok s' := by
  rw [uvmunmapLoop_eq, if_pos ha] at h
  have hva : va < MAXVA := by
    obtain ⟨x, hw, _⟩ := bind_eq_ok.mp h
    exact (walk_eq_ok.mp hw).1
  have hw := walk_noalloc_eq s r hva
  cases hd : descend s.mem 2 r (va/4096) with
  | none =>
    rw [hd, Option.elim_none] at hw
    rw [hw, ok_bind, if_pos (Or.inl rfl)] at h
    cases h
  | some q =>
    rw [hd, Option.elim_some] at hw
    rw [hw, ok_bind] at h
    by_cases hbad : q+8*vpnIndex 0 (va/4096) = 0 ∨
        ¬Valid (load64 s.mem (q+8*vpnIndex 0 (va/4096)))
    · rw [if_pos hbad] at h
      cases h
    rw [if_neg hbad] at h
    by_cases hflags : PTE_FLAGS (load64 s.mem (q+8*vpnIndex 0 (va/4096))) = PTE_V
    · rw [if_pos hflags] at h
      cases h
    rw [if_neg hflags, if_neg Bool.false_ne_true, ok_bind] at h
    exact ⟨q, rfl, not_not.mp (fun hv => hbad (Or.inr hv)), h⟩

/-- Three turns are too many. -/
theorem uvmunmapLoop_three {s s' : Phys} {r va a stop : ℕ} (ha : a+2*PAGE_SIZE < stop) :
    uvmunmapLoop s r va false a stop ≠ .ok s' := by
  intro h
  obtain ⟨q₁, hd₁, _, h⟩ := uvmunmapLoop_turn (by omega) h
  obtain ⟨q₂, hd₂, hv₂, h⟩ := uvmunmapLoop_turn (by omega) h
  obtain ⟨q₃, hd₃, hv₃, _⟩ := uvmunmapLoop_turn (by omega) h
  dsimp only at hd₂ hv₂ hd₃ hv₃
  have hm₁ : q₁%4096 = 0 := by
    rw [(descend_two hd₁).2.2]
    exact PTE2PA_mod _
  have hm₂ : q₂%4096 = 0 := by
    rw [(descend_two hd₂).2.2]
    exact PTE2PA_mod _
  have hne : q₂ ≠ q₁ := by
    rintro rfl
    rw [entry_cleared] at hv₂
    exact not_Valid_zero hv₂
  -- only one of the two cleared words can overlap the entry in the root
  by_cases hdis : r+8*vpnIndex 2 (va/4096)+8 ≤ q₁+8*vpnIndex 0 (va/4096) ∨
      q₁+8*vpnIndex 0 (va/4096)+8 ≤ r+8*vpnIndex 2 (va/4096)
  · exact cleared_leaf_lost hd₁ hdis hd₂ hv₂
  · exact cleared_leaf_lost hd₂ (by omega) hd₃ hv₃

theorem envFree_never_ok (L : Layout) (K K' : Kernel) (e : ℕ) : envFree L K e ≠ .ok K' := by
  intro h
  rw [envFree] at h
  obtain ⟨x, hun, _⟩ := bind_eq_ok.mp h
  rw [uvmunmap, if_neg (by decide)] at hun
  obtain ⟨s, hloop, _⟩ := bind_eq_ok.mp hun
  exact uvmunmapLoop_three (by decide) hloop

/-! ### The life of an env -/

/-- `env_create` in `K` returns an env, and `env_free` of that env returns and restores
the free pages, the ASIDs, the free envs and the run queue of `K`. -/
def Conserves (L : Layout) (K : Kernel) (img : Image) (priority : ℤ) : Prop :=
  ∃ e K' K'', envCreate L K img priority = .ok (e, K') ∧ envFree L K' e = .ok K'' ∧
    (∀ l, FreeList K.phys l → ∃ l'', FreeList K''.phys l'' ∧ ∀ p, p ∈ l'' ↔ p ∈ l) ∧
    K''.asid_bitmap = K.asid_bitmap ∧
    (∀ l t, Repr K.env_free_list l t →
      ∃ l'' t'', Repr K''.env_free_list l'' t'' ∧ ∀ i, i ∈ l'' ↔ i ∈ l) ∧
    (∀ l, TailRepr K.env_sched_list l → TailRepr K''.env_sched_list l)

/-- From no state and with no image is an env created and freed again. -/
theorem env_lifecycle_never_conserves (L : Layout) (K : Kernel) (img : Image) (priority : ℤ) :
    ¬Conserves L K img priority := by
  rintro ⟨e, K', K'', _, hfree, _⟩
  exact envFree_never_ok L K' K'' e hfree

/-- After boot, an env whose load succeeds cannot be freed: the first turn takes away the
kernel's first text page, and the second turn looks for it again. -/
theorem env_free_panics : ∃ K K', boot default (fun _ => 0) = .ok K ∧
    envCreate default K (spinImage 0x1000) 1 = .ok (0, K') ∧
    envFree default K' 0 = .error (.panic "uvmunmap: not mapped") := by
  obtain ⟨K, _, _, _, hboot, _⟩ := boot_ok default (fun _ => 0)
  obtain ⟨K', _, _, _, c, hcreate, _, o⟩ := envCreate_first hboot spinImage_aligned 1
  obtain ⟨fr, τ, l, h⟩ := o.spaces
  refine ⟨K, K', hboot, hcreate, ?_⟩
  have hu : (fun r => noSelfMap r ∨ r = (K'.envs 0).env_pgtable) (K'.envs 0).env_pgtable := Or.inr rfl
  have hroot := h.root_of_sm hu
  have hidx : vpnIndex 2 (2^19) ≠ selfSlot := by decide
  have hclear := clear_of_index (fun r => noSelfMap r ∨ r = (K'.envs 0).env_pgtable)
    (K'.envs 0).env_pgtable hidx
  have htext : kernelLeaf (default : Layout).etext fr (2^19) = mkLeaf (2^19*4096) (PTE_R ||| PTE_X) := by
    rw [kernelLeaf_of_lt (by decide), ramLeaves_text (by decide) (by decide) (by decide)]
  have hval : Valid (leaf K'.phys.mem (K'.envs 0).env_pgtable (2^19)) := by
    rw [h.shared _ _ hu le_rfl (by decide) hidx, htext]
    decide
  have hstop : (0x80000000+MAXVA/PAGE_SIZE*PAGE_SIZE)%2^64 = 0x80000000+2^38 := by decide
  obtain ⟨s', l', hfirst, _⟩ := h.typed.uvmunmap_first false hroot hclear (by decide) hval
    (by decide : 2^19*4096 < 0x80000000+2^38) (fun hf => absurd hf (by decide))
  rw [if_pos (by decide), ← page_base] at hfirst
  rw [envFree, uvmunmap, if_neg (by decide), hstop, hfirst]
  rfl

end RiscvMos
