import Mathlib.Data.Nat.Basic
import Mathlib.Tactic.SplitIfs

/-! Runs against a counter with a capacity. A plan lists what a run does to the counter; a run
follows its plan when it ends as the plan does. -/
namespace Budget

universe u v

/-- A use of the counter, or the end of the run with `e`. -/
inductive Ev (ε : Type u)
  /-- The counter goes up by one. -/
  | take
  /-- The place at the counter is used, and stays free. -/
  | peek
  | halt (e : ε)

variable {ε : Type u} {α β : Type v} {cap : ℕ} {full : ε} {n : ℕ} {es es' : List (Ev ε)}

/-- The counter behind a plan that starts at `n`. Where it has no room the plan ends with
`full`. -/
def exec (cap : ℕ) (full : ε) (n : ℕ) : List (Ev ε) → Except ε ℕ
  | [] => .ok n
  | .take :: es => if n < cap then exec cap full (n+1) es else .error full
  | .peek :: es => if n < cap then exec cap full n es else .error full
  | .halt e :: _ => .error e

theorem exec_append : exec cap full n (es ++ es') =
    (exec cap full n es).bind (fun m => exec cap full m es') := by
  induction es generalizing n with
  | nil => rfl
  | cons e es ih =>
    cases e with
    | take =>
      rw [List.cons_append, exec, exec]
      split_ifs
      · exact ih
      · rfl
    | peek =>
      rw [List.cons_append, exec, exec]
      split_ifs
      · exact ih
      · rfl
    | halt e => rfl

theorem eq_full_or_mem_of_exec {e : ε} (h : exec cap full n es = .error e) :
    e = full ∨ .halt e ∈ es := by
  induction es generalizing n with
  | nil => cases h
  | cons ev es ih =>
    cases ev with
    | take =>
      rw [exec] at h
      split_ifs at h with hlt
      · exact (ih h).imp_right (List.mem_cons_of_mem _)
      · injection h with h
        exact Or.inl h.symm
    | peek =>
      rw [exec] at h
      split_ifs at h with hlt
      · exact (ih h).imp_right (List.mem_cons_of_mem _)
      · injection h with h
        exact Or.inl h.symm
    | halt e' =>
      injection h with h
      subst h
      exact Or.inr List.mem_cons_self

/-- The run `r` ends as the plan `es` does; for its result and the counter `Q` holds. -/
def Follows (cap : ℕ) (full : ε) (n : ℕ) (es : List (Ev ε)) (r : Except ε α)
    (Q : ℕ → α → Prop) : Prop :=
  match exec cap full n es with
  | .ok m => ∃ a, r = .ok a ∧ Q m a
  | .error e => r = .error e

variable {r : Except ε α} {Q : ℕ → α → Prop}

/-- The run and its plan end in the same way. -/
theorem follows_iff : Follows cap full n es r Q ↔
    (∃ m a, exec cap full n es = .ok m ∧ r = .ok a ∧ Q m a) ∨
      ∃ e, exec cap full n es = .error e ∧ r = .error e := by
  rw [Follows]
  cases exec cap full n es with
  | ok m => simp
  | error e => simp

theorem Follows.ok {a : α} (h : Q n a) : Follows cap full n [] (.ok a) Q := ⟨a, rfl, h⟩

theorem Follows.halt (e : ε) : Follows cap full n (.halt e :: es) (.error e : Except ε α) Q := rfl

theorem Follows.bind {f : α → Except ε β} {R : ℕ → β → Prop} (h : Follows cap full n es r Q)
    (hf : ∀ m a, Q m a → Follows cap full m es' (f a) R) :
    Follows cap full n (es ++ es') (r >>= f) R := by
  obtain ⟨m, a, hm, rfl, ha⟩ | ⟨e, he, rfl⟩ := follows_iff.mp h
  · rw [Follows, exec_append, hm]
    exact hf m a ha
  · rw [Follows, exec_append, he]
    rfl

theorem Follows.bind_ok {f : α → Except ε β} {R : ℕ → β → Prop} (h : Follows cap full n es r Q)
    (hf : ∀ m a, Q m a → ∃ b, f a = .ok b ∧ R m b) : Follows cap full n es (r >>= f) R := by
  rw [← List.append_nil es]
  refine h.bind fun m a ha => ?_
  obtain ⟨b, hb, hR⟩ := hf m a ha
  rw [hb]
  exact Follows.ok hR

theorem Follows.mono {R : ℕ → α → Prop} (h : Follows cap full n es r Q)
    (hQ : ∀ m a, Q m a → R m a) : Follows cap full n es r R := by
  rw [follows_iff] at h ⊢
  apply h.imp_left
  rintro ⟨m, a, hm, hr, ha⟩
  exact ⟨m, a, hm, hr, hQ m a ha⟩

theorem Follows.and_ok (h : Follows cap full n es r Q) :
    Follows cap full n es r (fun m a => Q m a ∧ r = .ok a) := by
  rw [follows_iff] at h ⊢
  apply h.imp_left
  rintro ⟨m, a, hm, hr, ha⟩
  exact ⟨m, a, hm, hr, ha, hr⟩

theorem Follows.of_exec (h : Follows cap full n es r Q) {m : ℕ}
    (hm : exec cap full n es = .ok m) : ∃ a, r = .ok a ∧ Q m a := by
  rwa [Follows, hm] at h

theorem Follows.of_ok (h : Follows cap full n es r Q) {a : α} (hr : r = .ok a) :
    ∃ m, exec cap full n es = .ok m ∧ Q m a := by
  subst hr
  obtain ⟨m, a', hm, ha, hQ⟩ | ⟨e, _, he⟩ := follows_iff.mp h
  · injection ha with ha
    exact ⟨m, hm, ha ▸ hQ⟩
  · cases he

theorem Follows.error_iff (h : Follows cap full n es r Q) (e : ε) :
    r = .error e ↔ exec cap full n es = .error e := by
  obtain ⟨m, a, hm, rfl, _⟩ | ⟨e', he, rfl⟩ := follows_iff.mp h
  · rw [hm]
    exact iff_of_false nofun nofun
  · rw [he, Except.error.injEq, Except.error.injEq]

/-- Every use of the counter has room, up to the first end, and that end is no bad one. -/
def Fits (cap : ℕ) (bad : ε → Prop) (n : ℕ) : List (Ev ε) → Prop
  | [] => True
  | .take :: es => n < cap ∧ Fits cap bad (n+1) es
  | .peek :: es => n < cap ∧ Fits cap bad n es
  | .halt e :: _ => ¬bad e

theorem fits_iff (bad : ε → Prop) (hfull : bad full) :
    Fits cap bad n es ↔ ∀ e, exec cap full n es = .error e → ¬bad e := by
  induction es generalizing n with
  | nil => exact iff_of_true trivial nofun
  | cons e es ih =>
    cases e with
    | take =>
      rw [Fits, exec]
      split_ifs with hn
      · rw [← ih, and_iff_right hn]
      · exact iff_of_false (fun h => hn h.1) fun h => h full rfl hfull
    | peek =>
      rw [Fits, exec]
      split_ifs with hn
      · rw [← ih, and_iff_right hn]
      · exact iff_of_false (fun h => hn h.1) fun h => h full rfl hfull
    | halt e =>
      rw [Fits, exec]
      constructor
      · rintro h e' he
        injection he with he
        exact he ▸ h
      · intro h
        exact h e rfl

end Budget
