import CorgiCoin.Lib.Transition
import Mathlib.Order.WellFounded

/-!
# Endless runs

A machine is given an endless schedule of actions, and each of its states has a description.  An action
lowers the rank, or it leaves the description as it is and is not one of those that help.  When actions that
help come again and again, the run ends up with a description that needs no help.
-/

namespace Transition

variable {σ α ι W : Type} (step : σ → α → σ)

/-- The state after so many actions of a schedule. -/
def stateAt (s : σ) (schedule : ℕ → α) : ℕ → σ
  | 0 => s
  | n + 1 => step (stateAt s schedule n) (schedule n)

variable {step} {Describes : ι → σ → Prop}

/-- What an action may do to a description. -/
def Advances [LT W] (rank : ι → σ → W) (Helps : ι → α → Prop) (p : ι) (s : σ) (a : α) (p' : ι) (s' : σ) :
    Prop :=
  rank p' s' < rank p s ∨ p' = p ∧ rank p s' = rank p s ∧ ¬Helps p a

/-- The descriptions of the states of a run can be chosen so that each follows from the one before it. -/
theorem exists_descriptions
    {Next : ι → σ → α → ι → Prop}
    (hstep : ∀ p s a, Describes p s → ∃ p', Describes p' (step s a) ∧ Next p s a p')
    {p : ι} {s : σ} (hinit : Describes p s) (schedule : ℕ → α) :
  ∃ f : ℕ → ι, f 0 = p ∧ ∀ n, Describes (f n) (stateAt step s schedule n)
    ∧ Next (f n) (stateAt step s schedule n) (schedule n) (f (n + 1))
  := by
  classical
  choose! next hnext using hstep
  set f : ℕ → ι := fun n => n.rec p (fun n q => next q (stateAt step s schedule n) (schedule n)) with hf
  have hdescribes : ∀ n, Describes (f n) (stateAt step s schedule n) := by
    intro n
    induction n with
    | zero => exact hinit
    | succ n ih => exact (hnext _ _ _ ih).1
  exact ⟨f, rfl, fun n => ⟨hdescribes n, (hnext _ _ _ (hdescribes n)).2⟩⟩

section Rank

variable [Preorder W] {rank : ι → σ → W} {Helps : ι → α → Prop} {Final : ι → Prop} {f : ℕ → ι}
variable {s : σ} {schedule : ℕ → α}

/-- Until the rank is lower, the description stays, and none of the actions helps. -/
theorem lower_or_waits
    (hnext : ∀ n, Advances rank Helps (f n) (stateAt step s schedule n) (schedule n) (f (n + 1))
      (stateAt step s schedule (n + 1))) (n d : ℕ) :
  (∃ m, n ≤ m ∧ rank (f m) (stateAt step s schedule m) < rank (f n) (stateAt step s schedule n))
    ∨ f (n + d) = f n
      ∧ rank (f n) (stateAt step s schedule (n + d)) = rank (f n) (stateAt step s schedule n)
      ∧ ∀ m, n ≤ m → m < n + d → ¬Helps (f n) (schedule m)
  := by
  induction d with
  | zero => exact .inr ⟨rfl, rfl, fun m hle hlt => absurd hlt (Nat.not_lt.mpr hle)⟩
  | succ d ih =>
    rcases ih with hlower | ⟨hsame, hrank, hwaits⟩
    · exact .inl hlower
    · rcases hnext (n + d) with hlower | ⟨hstays, hkept, hnot⟩
      · left
        refine ⟨n + d + 1, by omega, ?_⟩
        rw [hsame, hrank] at hlower
        exact hlower
      · right
        rw [hsame] at hstays hkept hnot
        refine ⟨hstays, hkept.trans hrank, ?_⟩
        intro m hle hlt
        rcases Nat.lt_succ_iff_lt_or_eq.mp hlt with hlt | rfl
        · exact hwaits m hle hlt
        · exact hnot

/-- A run whose schedule helps again and again ends up with a description that needs no help. -/
theorem eventually_final [WellFoundedLT W]
    (hnext : ∀ n, Advances rank Helps (f n) (stateAt step s schedule n) (schedule n) (f (n + 1))
      (stateAt step s schedule (n + 1)))
    (hfair : ∀ p n, ¬Final p → ∃ m, n ≤ m ∧ Helps p (schedule m))
    (hleast : ∀ p s w, Final p → ¬w < rank p s) :
  ∃ n, ∀ m, n ≤ m → Final (f m)
  := by
  have hreach : ∀ (w : W) (n : ℕ), rank (f n) (stateAt step s schedule n) = w → ∃ m, Final (f m) := by
    intro w
    induction w using WellFoundedLT.induction with
    | ind w ih =>
      intro n hw
      by_cases hfinal : Final (f n)
      · exact ⟨n, hfinal⟩
      · obtain ⟨m, hle, hhelps⟩ := hfair (f n) n hfinal
        rcases lower_or_waits hnext n (m + 1 - n) with ⟨j, -, hlower⟩ | ⟨-, -, hwaits⟩
        · rw [hw] at hlower
          exact ih _ hlower j rfl
        · exact absurd hhelps (hwaits m hle (by omega))
  obtain ⟨n, hn⟩ := hreach _ 0 rfl
  refine ⟨n, ?_⟩
  intro m hm
  induction m, hm using Nat.le_induction with
  | base => exact hn
  | succ m _ ih =>
    rcases hnext m with hlower | ⟨hstays, -, -⟩
    · exact absurd hlower (hleast _ _ _ ih)
    · rw [hstays]
      exact ih

end Rank

end Transition
