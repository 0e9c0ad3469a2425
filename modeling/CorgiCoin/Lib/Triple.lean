import Mathlib.Tactic.SplitIfs

/-!
# Triples

A computation with a state returns or stops with an exception; what it has done to the state stays
in both cases.  A triple says what holds of the value and the state when it returns and of the
exception and the state when it stops, from every state with the precondition.
-/

variable {σ ε α β : Type}

/-- From every state with the precondition `P` the computation returns with `Q` or stops with `E`. -/
def Triple (P : σ → Prop) (x : EStateM ε σ α) (Q : α → σ → Prop) (E : ε → σ → Prop) : Prop :=
  ∀ s, P s →
    match x s with
    | .ok a s' => Q a s'
    | .error e s' => E e s'

namespace Triple

variable {P P' : σ → Prop} {x y : EStateM ε σ α} {Q Q' : α → σ → Prop} {E : ε → σ → Prop}

theorem of_pure {a : α} (h : ∀ s, P s → Q a s) :
  Triple P (pure a) Q E
  := h

theorem of_modify {f : σ → σ} {R : Unit → σ → Prop} (h : ∀ s, P s → R () (f s)) :
  Triple P (modify f) R E
  := h

theorem of_bind
    {f : α → EStateM ε σ β} {R : β → σ → Prop} (hx : Triple P x Q E)
    (hf : ∀ a, Triple (Q a) (f a) R E) :
  Triple P (x >>= f) R E
  := by
  intro s hs
  have hfirst := hx s hs
  simp only [bind, EStateM.bind]
  cases hresult : x s with
  | ok a s' =>
    rw [hresult] at hfirst
    exact hf a s' hfirst
  | error e s' =>
    rw [hresult] at hfirst
    exact hfirst

/-- A state that is read is the one the rest starts from. -/
theorem of_get_bind
    {f : σ → EStateM ε σ α} (h : ∀ s, P s → Triple (fun s' => s' = s) (f s) Q E) :
  Triple P (get >>= f) Q E
  := fun s hs => h s hs s rfl

/-- What holds before a read holds after it, of the state that was read too. -/
theorem of_read {f : σ → EStateM ε σ α} (h : ∀ s, P s → Triple P (f s) Q E) :
  Triple P (get >>= f) Q E
  := fun s hs => h s hs s hs

theorem of_ite
    {c : Prop} [Decidable c] (hx : c → Triple P x Q E) (hy : ¬c → Triple P y Q E) :
  Triple P (if c then x else y) Q E
  := by
  split_ifs with h
  · exact hx h
  · exact hy h

theorem weaken (h : Triple P x Q E) (hP : ∀ s, P' s → P s) (hQ : ∀ a s, Q a s → Q' a s) :
  Triple P' x Q' E
  := by
  intro s hs
  have hx := h s (hP s hs)
  cases hresult : x s with
  | ok a s' =>
    rw [hresult] at hx
    exact hQ a s' hx
  | error e s' =>
    rw [hresult] at hx
    exact hx

theorem pre (h : Triple P x Q E) (hP : ∀ s, P' s → P s) :
  Triple P' x Q E
  := h.weaken hP (fun _ _ hq => hq)

theorem post (h : Triple P x Q E) (hQ : ∀ a s, Q a s → Q' a s) :
  Triple P x Q' E
  := h.weaken (fun _ hp => hp) hQ

/-- What two triples say of one computation. -/
theorem and
    (h : Triple P x Q E) (h' : Triple P' x Q' (fun _ _ => True)) :
  Triple (fun s => P s ∧ P' s) x (fun a s => Q a s ∧ Q' a s) E
  := by
  intro s hs
  have hx := h s hs.1
  have hx' := h' s hs.2
  cases hresult : x s with
  | ok a s' =>
    rw [hresult] at hx hx'
    exact ⟨hx, hx'⟩
  | error e s' =>
    rw [hresult] at hx
    exact hx

/-- A part of the precondition that is not about the state is a hypothesis. -/
theorem of_and {p : Prop} (h : p → Triple P x Q E) :
  Triple (fun s => p ∧ P s) x Q E
  := fun s hs => h hs.1 s hs.2

end Triple
