import Mathlib.Logic.Equiv.Basic
import Mathlib.Data.List.Nodup

/-!
# Partial shuffles

A partial shuffle of a list goes over its first positions and exchanges the element at each with
the one at a position `p i` drawn from there on.  What is drawn in a round stays where it is put,
and each round draws another element of the list.
-/

namespace Shuffle

variable {α : Type} (p : ℕ → ℕ)

/-- Exchange the elements at two positions. -/
def swapAt (l : List α) (i j : ℕ) : List α :=
  match l[i]?, l[j]? with
  | some a, some b => (l.set j a).set i b
  | _, _ => l

/-- The list after some rounds. -/
def shuffle (l : List α) : ℕ → List α
  | 0 => l
  | k + 1 => swapAt (shuffle l k) k (p k)

/-- The position in the list of what stands at a position after some rounds. -/
def origin : ℕ → ℕ → ℕ
  | 0, x => x
  | k + 1, x => origin k (Equiv.swap k (p k) x)

/-- The position in the list of what a round draws. -/
def drawn (i : ℕ) : ℕ := origin p i (p i)

theorem swapAt_eq {l : List α} {i j : ℕ} (hi : i < l.length) (hj : j < l.length) :
  swapAt l i j = (l.set j l[i]).set i l[j]
  := by
  rw [swapAt, List.getElem?_eq_getElem hi, List.getElem?_eq_getElem hj]

theorem swapAt_perm (l : List α) (i j : ℕ) : (swapAt l i j).Perm l
  := by
  rw [swapAt]
  split
  · rename_i a b ha hb
    obtain ⟨hi, rfl⟩ := List.getElem?_eq_some_iff.mp ha
    obtain ⟨hj, rfl⟩ := List.getElem?_eq_some_iff.mp hb
    apply List.set_set_perm hj hi
  · apply List.Perm.refl

theorem getElem?_swapAt {l : List α} {i j : ℕ} (hi : i < l.length) (hj : j < l.length) (x : ℕ) :
  (swapAt l i j)[x]? = l[Equiv.swap i j x]?
  := by
  rw [swapAt_eq hi hj, Equiv.swap_apply_def, List.getElem?_set, List.getElem?_set,
    List.length_set]
  split_ifs <;> grind

variable {p}

theorem shuffle_perm (l : List α) (k : ℕ) : (shuffle p l k).Perm l
  := by
  induction k with
  | zero => apply List.Perm.refl
  | succ k ih => apply (swapAt_perm _ _ _).trans ih

theorem length_shuffle (l : List α) (k : ℕ) : (shuffle p l k).length = l.length :=
  (shuffle_perm l k).length_eq

theorem getElem?_shuffle
    {l : List α} {k : ℕ} (hk : k ≤ l.length) (hp : ∀ i < k, p i < l.length) (x : ℕ) :
  (shuffle p l k)[x]? = l[origin p k x]?
  := by
  induction k generalizing x with
  | zero => rfl
  | succ k ih =>
    have hlength := length_shuffle (p := p) l k
    rw [shuffle, getElem?_swapAt (by omega) (by rw [hlength]; apply hp k (Nat.lt_succ_self k)),
      ih (by omega) (fun i hi => hp i (by omega)), origin]

theorem origin_injective (k : ℕ) : Function.Injective (origin p k)
  := by
  induction k with
  | zero => apply Function.injective_id
  | succ k ih => apply ih.comp (Equiv.injective _)

/-- What a round draws stays at the position of the round. -/
theorem origin_of_lt (hp : ∀ i, i ≤ p i) {i k : ℕ} (h : i < k) : origin p k i = drawn p i
  := by
  induction k with
  | zero => cases h
  | succ k ih =>
    rw [origin]
    rcases Nat.lt_succ_iff_lt_or_eq.mp h with hlt | rfl
    · have hne : i ≠ p k := Nat.ne_of_lt (Nat.lt_of_lt_of_le hlt (hp k))
      rw [Equiv.swap_apply_of_ne_of_ne (Nat.ne_of_lt hlt) hne, ih hlt]
    · rw [Equiv.swap_apply_left, drawn]

/-- What stands after all rounds at a position beyond them was not drawn. -/
theorem origin_ne_drawn (hp : ∀ i, i ≤ p i) {i k x : ℕ} (hi : i < k) (hx : k ≤ x) :
  origin p k x ≠ drawn p i
  := by
  rw [← origin_of_lt hp hi]
  intro h
  have heq := origin_injective k h
  omega

end Shuffle
