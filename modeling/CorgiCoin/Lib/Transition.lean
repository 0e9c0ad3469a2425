import Mathlib.Data.List.Basic

/-!
# Runs of a deterministic machine

A machine is a function that takes a state and an action to a state.  `Along` says that a
condition holds at every action of a run, in the state the action is taken in; what one such
action keeps, a run of them keeps.
-/

namespace Transition

variable {σ α : Type} (step : σ → α → σ)

/-- The state after a list of actions. -/
def run (s : σ) (actions : List α) : σ := actions.foldl step s

/-- Every action of a run meets a condition in the state it is taken in. -/
def Along (ok : σ → α → Prop) : σ → List α → Prop
  | _, [] => True
  | s, action :: actions => ok s action ∧ Along ok (step s action) actions

instance Along.decidable (ok : σ → α → Prop) [∀ s action, Decidable (ok s action)] :
    (s : σ) → (actions : List α) → Decidable (Along step ok s actions)
  | _, [] => isTrue trivial
  | s, action :: actions =>
    have := Along.decidable ok (step s action) actions
    inferInstanceAs (Decidable (ok s action ∧ Along step ok (step s action) actions))

variable {step} {ok : σ → α → Prop}

variable {Inv : σ → Prop} {s : σ} {actions : List α}

/-- What actions that meet the condition keep, a run of them keeps. -/
theorem run_invariant
    (hstep : ∀ s action, ok s action → Inv s → Inv (step s action))
    (halong : Along step ok s actions) (hinit : Inv s) :
  Inv (run step s actions)
  := by
  induction actions generalizing s with
  | nil => apply hinit
  | cons action actions ih => apply ih halong.2 (hstep s action halong.1 hinit)

theorem run_append (s : σ) (actions actions' : List α) :
  run step s (actions ++ actions') = run step (run step s actions) actions'
  := List.foldl_append

theorem along_append
    {actions' : List α} :
  Along step ok s (actions ++ actions')
    ↔ Along step ok s actions ∧ Along step ok (run step s actions) actions'
  := by
  induction actions generalizing s with
  | nil => simp [Along, run]
  | cons action actions ih => rw [List.cons_append, Along, Along, ih, and_assoc]; rfl

theorem Along.and
    {ok' : σ → α → Prop} (h : Along step ok s actions) (h' : Along step ok' s actions) :
  Along step (fun s action => ok s action ∧ ok' s action) s actions
  := by
  induction actions generalizing s with
  | nil => trivial
  | cons action actions ih => exact ⟨⟨h.1, h'.1⟩, ih h.2 h'.2⟩

/-- What follows from the condition in the states that an invariant allows holds along the run. -/
theorem Along.of_invariant
    {ok' : σ → α → Prop} (hstep : ∀ s action, ok s action → Inv s → Inv (step s action))
    (hok : ∀ s action, ok s action → Inv s → ok' s action)
    (halong : Along step ok s actions) (hinit : Inv s) :
  Along step ok' s actions
  := by
  induction actions generalizing s with
  | nil => trivial
  | cons action actions ih =>
    exact ⟨hok s action halong.1 hinit, ih halong.2 (hstep s action halong.1 hinit)⟩

/-- What actions that meet the condition keep, once it holds, holds from then on. -/
theorem run_take_of_le
    (hstep : ∀ s action, ok s action → Inv s → Inv (step s action))
    (halong : Along step ok s actions) {i j : ℕ} (hij : i ≤ j) (h : Inv (run step s (actions.take i))) :
  Inv (run step s (actions.take j))
  := by
  have htake : actions.take i = (actions.take j).take i := by
    rw [List.take_take, Nat.min_eq_left hij]
  have hsplit : actions.take i ++ (actions.take j).drop i = actions.take j := by
    rw [htake, List.take_append_drop]
  rw [← List.take_append_drop j actions, along_append, ← hsplit, along_append] at halong
  rw [← hsplit, run_append]
  exact run_invariant hstep halong.1.2 h

/-- A condition that the actions of a run meet in every state is met along the run. -/
theorem along_of_forall_mem
    (h : ∀ action ∈ actions, ∀ s, ok s action) (s : σ) :
  Along step ok s actions
  := by
  induction actions generalizing s with
  | nil => trivial
  | cons action actions ih =>
    obtain ⟨haction, hactions⟩ := List.forall_mem_cons.mp h
    exact ⟨haction s, ih hactions _⟩

/-- If an action keeps a property exactly when it meets the condition, all states of a run have
the property exactly when all its actions meet the condition. -/
theorem forall_take_iff_along
    (hstep : ∀ s action, Inv s → (Inv (step s action) ↔ ok s action))
    (hinit : Inv s) (actions : List α) :
  (∀ n, Inv (run step s (actions.take n))) ↔ Along step ok s actions
  := by
  induction actions generalizing s with
  | nil =>
    refine ⟨fun _ => trivial, fun _ n => ?_⟩
    rw [List.take_nil]
    apply hinit
  | cons action actions ih =>
    constructor
    · intro h
      have hnext : Inv (step s action) := h 1
      exact ⟨(hstep s action hinit).mp hnext, (ih hnext).mp (fun n => h (n + 1))⟩
    · rintro ⟨hok, halong⟩ n
      cases n with
      | zero => apply hinit
      | succ n => apply (ih ((hstep s action hinit).mpr hok)).mpr halong n

end Transition
