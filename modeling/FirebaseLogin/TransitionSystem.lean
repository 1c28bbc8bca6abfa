import Mathlib.Data.List.Basic
import Mathlib.Tactic.Common

/-!
# Transition Systems and their Runs

This module is the general layer under every whole-run result of the development. A
`TransitionSystem` has a predicate of initial states and a partial step function: the
step is `none` when the action does not apply. A run is recorded with its **history**,
the list of the pairs (state before, action taken), so that a property of a run can
speak about the state in which a given action was taken and not only about the states
reached.

## Main results

* `Run.invariant`: the induction rule, with a condition on the steps taken.
* `Run.exists_split`: a run splits at every step of its history.
* `Run.of_exec`: the executable interpreter `exec` yields runs, which is how the
  concrete runs of the development are evaluated.
-/

namespace FirebaseLogin

/-- A transition system over states `σ` and actions `α`. -/
structure TransitionSystem (σ α : Type*) where
  /-- The states a run may start in. -/
  Init : σ → Prop
  /-- One step, `none` when the action does not apply. -/
  step : σ → α → Option σ

namespace TransitionSystem

variable {σ α : Type*}

/-- A run from one state to another with its history: every entry is the state in which
an action was taken, together with the action. -/
inductive Run (T : TransitionSystem σ α) : σ → List (σ × α) → σ → Prop
  | nil (s : σ) : Run T s [] s
  | snoc {s t u : σ} {h : List (σ × α)} {a : α} :
      Run T s h t → T.step t a = some u → Run T s (h ++ [(t, a)]) u

/-- The states a run passes through: the states before each of its steps, then the last
state. -/
def visited (h : List (σ × α)) (s : σ) : List σ :=
  h.map Prod.fst ++ [s]

/-- The last state of a run is visited. -/
theorem last_mem_visited (h : List (σ × α)) (s : σ) : s ∈ visited h s := by
  simp [visited]

/-- The states visited by a run extended by one step. -/
theorem mem_visited_snoc {h : List (σ × α)} {t u x : σ} {a : α} :
    x ∈ visited (h ++ [(t, a)]) u ↔ x ∈ visited h t ∨ x = u := by
  simp [visited, or_assoc]

/-- The states reachable from an initial state. -/
def Reachable (T : TransitionSystem σ α) (s : σ) : Prop :=
  ∃ s₀ h, T.Init s₀ ∧ T.Run s₀ h s

variable {T : TransitionSystem σ α}

/-- One step is a run. -/
theorem Run.single {s t : σ} {a : α} (h : T.step s a = some t) : T.Run s [(s, a)] t :=
  Run.snoc (Run.nil s) h

/-- Runs compose, and their histories are concatenated. -/
theorem Run.trans {s t u : σ} {h₁ h₂ : List (σ × α)} (r₁ : T.Run s h₁ t)
    (r₂ : T.Run t h₂ u) : T.Run s (h₁ ++ h₂) u := by
  induction r₂ with
  | nil => simpa using r₁
  | snoc _ hstep ih =>
      rw [← List.append_assoc]
      exact Run.snoc ih hstep

/-- The first state of a run is visited. -/
theorem Run.start_mem_visited {s s' : σ} {h : List (σ × α)} (r : T.Run s h s') :
    s ∈ visited h s' := by
  induction r with
  | nil => simp [visited]
  | snoc _ _ ih => exact mem_visited_snoc.mpr (Or.inl ih)

/-- **A run splits at every step of its history**: the part before the step, the step
itself, and the part after it. -/
theorem Run.exists_split {s s' t : σ} {h : List (σ × α)} {a : α} (r : T.Run s h s')
    (hmem : (t, a) ∈ h) :
    ∃ h₁ u h₂, h = h₁ ++ (t, a) :: h₂ ∧ T.Run s h₁ t ∧ T.step t a = some u ∧
      T.Run u h₂ s' := by
  induction r with
  | nil => simp at hmem
  | @snoc v w h b r hstep ih =>
      rcases List.mem_append.mp hmem with hmem | hmem
      · obtain ⟨h₁, u, h₂, rfl, r₁, hu, r₂⟩ := ih hmem
        exact ⟨h₁, u, h₂ ++ [(v, b)], by simp, r₁, hu, Run.snoc r₂ hstep⟩
      · obtain ⟨rfl, rfl⟩ : t = v ∧ a = b := by simpa using hmem
        exact ⟨h, w, [], rfl, r, hstep, Run.nil w⟩

/-- **The invariant rule.** A predicate that is preserved by every step meeting `C`
holds at the end of every run whose steps all meet `C`. -/
theorem Run.invariant {C : σ → α → Prop} {I : σ → Prop} {s s' : σ} {h : List (σ × α)}
    (r : T.Run s h s') (hok : ∀ p ∈ h, C p.1 p.2) (hs : I s)
    (hstep : ∀ t a u, C t a → I t → T.step t a = some u → I u) : I s' := by
  induction r with
  | nil => exact hs
  | @snoc t u h a r hu ih =>
      have ht : I t := ih fun p hp => hok p (by simp [hp])
      exact hstep t a u (hok (t, a) (by simp)) ht hu

/-- The invariant rule without a condition on the steps. -/
theorem Run.invariant_of_step {I : σ → Prop} {s s' : σ} {h : List (σ × α)}
    (r : T.Run s h s') (hs : I s)
    (hstep : ∀ t a u, I t → T.step t a = some u → I u) : I s' :=
  r.invariant (C := fun _ _ => True) (fun _ _ => trivial) hs fun t a u _ => hstep t a u

/-- The invariant rule along every state the run visits. -/
theorem Run.invariant_visited {C : σ → α → Prop} {I : σ → Prop} {s s' : σ}
    {h : List (σ × α)} (r : T.Run s h s') (hok : ∀ p ∈ h, C p.1 p.2) (hs : I s)
    (hstep : ∀ t a u, C t a → I t → T.step t a = some u → I u) :
    ∀ x ∈ visited h s', I x := by
  induction r with
  | nil => simpa [visited] using hs
  | @snoc t u h a r hu ih =>
      intro x hx
      have hok' : ∀ p ∈ h, C p.1 p.2 := fun p hp => hok p (by simp [hp])
      rcases mem_visited_snoc.mp hx with hx | rfl
      · exact ih hok' x hx
      · have ht : I t := ih hok' t (last_mem_visited h t)
        exact hstep t a x (hok (t, a) (by simp)) ht hu

/-- A predicate that holds initially and is preserved by every step holds in every
reachable state. -/
theorem Reachable.invariant {I : σ → Prop} {s : σ} (r : T.Reachable s)
    (hinit : ∀ s₀, T.Init s₀ → I s₀)
    (hstep : ∀ t a u, I t → T.step t a = some u → I u) : I s := by
  obtain ⟨s₀, h, hs₀, r⟩ := r
  exact r.invariant_of_step (hinit s₀ hs₀) hstep

/-- A run from a reachable state reaches reachable states only. -/
theorem Reachable.trans {s s' : σ} {h : List (σ × α)} (hs : T.Reachable s)
    (r : T.Run s h s') : T.Reachable s' := by
  obtain ⟨s₀, h₀, hs₀, r₀⟩ := hs
  exact ⟨s₀, h₀ ++ h, hs₀, r₀.trans r⟩

/-! ### The executable interpreter -/

/-- Take a list of actions in order, `none` when one of them does not apply. -/
def exec (T : TransitionSystem σ α) : σ → List α → Option σ
  | s, [] => some s
  | s, a :: as => (T.step s a).bind fun t => exec T t as

/-- The history of `exec`. -/
def history (T : TransitionSystem σ α) : σ → List α → List (σ × α)
  | _, [] => []
  | s, a :: as => (s, a) :: ((T.step s a).map fun t => history T t as).getD []

/-- Executing a list of actions is a run with the executed history. -/
theorem Run.of_exec {s s' : σ} {as : List α} (h : T.exec s as = some s') :
    T.Run s (T.history s as) s' := by
  induction as generalizing s with
  | nil =>
      obtain rfl : s = s' := by simpa [exec] using h
      exact Run.nil s
  | cons a as ih =>
      simp only [exec, Option.bind_eq_some_iff] at h
      obtain ⟨t, ht, h⟩ := h
      have hh : T.history s (a :: as) = [(s, a)] ++ T.history t as := by
        simp [history, ht]
      rw [hh]
      exact (Run.single ht).trans (ih h)

/-- The history of a list of actions that apply takes exactly these actions. -/
theorem map_snd_history {s s' : σ} {as : List α} (h : T.exec s as = some s') :
    (T.history s as).map Prod.snd = as := by
  induction as generalizing s with
  | nil => rfl
  | cons a as ih =>
      simp only [exec, Option.bind_eq_some_iff] at h
      obtain ⟨t, ht, h⟩ := h
      simp [history, ht, ih h]

/-- Every state that `exec` reaches from an initial state is reachable. -/
theorem Reachable.of_exec {s s' : σ} {as : List α} (hs : T.Init s)
    (h : T.exec s as = some s') : T.Reachable s' :=
  ⟨s, T.history s as, hs, Run.of_exec h⟩

end TransitionSystem

end FirebaseLogin
