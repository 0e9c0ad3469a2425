/-!
# Programs that ask questions

A program that asks one question after the other, each depending on the answers before, and its runs with a
function and with a machine that answers.  A machine that answers as the function does, in the states that
an invariant allows, can stand in for the function in every program.
-/

namespace CorgiCoin.Lib

/-- A program that asks questions in `Q`, gets answers in `A` and ends in a result. -/
inductive Query (Q A α : Type) where
  | done (result : α)
  | ask (question : Q) (next : A → Query Q A α)

namespace Query

variable {Q A α S : Type}

/-- The result where a function answers. -/
def eval (answer : Q → A) : Query Q A α → α
  | done result => result
  | ask question next => (next (answer question)).eval answer

/-- The result and the last state where a machine answers. -/
def run (machine : S → Q → S × A) : Query Q A α → S → S × α
  | done result, s => (s, result)
  | ask question next, s => (next (machine s question).2).run machine (machine s question).1

/-- An invariant that the machine keeps, and under which it answers as the function, holds after every
program, and the program has the result that the function gives. -/
theorem run_eq_eval
    {answer : Q → A} {machine : S → Q → S × A} {Inv : S → Prop}
    (hstep : ∀ s question, Inv s → Inv (machine s question).1 ∧ (machine s question).2 = answer question)
    (program : Query Q A α) {s : S} (h : Inv s) :
  Inv (program.run machine s).1 ∧ (program.run machine s).2 = program.eval answer
  := by
  induction program generalizing s with
  | done result => exact ⟨h, rfl⟩
  | ask question next ih =>
    obtain ⟨hkept, hanswer⟩ := hstep s question h
    rw [run, eval, hanswer]
    exact ih (answer question) hkept

end Query

end CorgiCoin.Lib
