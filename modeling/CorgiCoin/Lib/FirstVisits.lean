import Mathlib.Data.List.Induction
import Mathlib.Data.List.Nodup
import Mathlib.Tactic.Common

/-!
# First visits

A list is gone through from the left.  An element that was met before is passed over, and of the others
those are kept that are accepted; whether an element is accepted may depend on what was met before it.
The elements that are kept stand in the order in which they were first met.
-/

namespace FirstVisits

open Classical

variable {α : Type} (accepts : List α → α → Prop)

/-- The elements that are kept, given what was met before. -/
noncomputable def kept : List α → List α → List α
  | _, [] => []
  | before, x :: xs =>
    if x ∉ before ∧ accepts before x then x :: kept (before ++ [x]) xs else kept (before ++ [x]) xs

variable {accepts} {before xs ys : List α} {x : α}

/-- What is kept of two lists after each other. -/
theorem kept_append :
  kept accepts before (xs ++ ys) = kept accepts before xs ++ kept accepts (before ++ xs) ys
  := by
  induction xs generalizing before with
  | nil =>
    rw [List.nil_append, List.append_nil]
    rfl
  | cons x xs ih =>
    rw [List.cons_append, kept, kept, ih, List.append_assoc, List.singleton_append]
    split_ifs
    · rfl
    · rfl

theorem kept_cons_of_accepts (hnew : x ∉ before) (h : accepts before x) :
  kept accepts before (x :: xs) = x :: kept accepts (before ++ [x]) xs
  := if_pos ⟨hnew, h⟩

theorem kept_cons_of_not (h : ¬(x ∉ before ∧ accepts before x)) :
  kept accepts before (x :: xs) = kept accepts (before ++ [x]) xs
  := if_neg h

/-- An element is kept when it is accepted where it is first met. -/
theorem mem_kept :
  x ∈ kept accepts before xs
    ↔ ∃ front back, xs = front ++ x :: back ∧ x ∉ before ++ front ∧ accepts (before ++ front) x
  := by
  constructor
  · intro h
    induction xs generalizing before with
    | nil => cases h
    | cons y xs ih =>
      have hlater : x ∈ kept accepts (before ++ [y]) xs → ∃ front back,
          y :: xs = front ++ x :: back ∧ x ∉ before ++ front ∧ accepts (before ++ front) x := by
        intro hmem
        obtain ⟨front, back, rfl, hnew, haccepts⟩ := ih hmem
        rw [List.append_assoc, List.singleton_append] at hnew haccepts
        use y :: front, back
        exact ⟨rfl, hnew, haccepts⟩
      rw [kept] at h
      split_ifs at h with hfirst
      · rcases List.mem_cons.mp h with rfl | hmem
        · use [], xs
          rw [List.append_nil]
          exact ⟨rfl, hfirst⟩
        · apply hlater hmem
      · apply hlater h
  · rintro ⟨front, back, rfl, hnew, haccepts⟩
    rw [kept_append, kept_cons_of_accepts hnew haccepts]
    apply List.mem_append_right _ List.mem_cons_self

theorem not_mem_before (h : x ∈ kept accepts before xs) :
  x ∉ before
  := by
  obtain ⟨front, back, rfl, hnew, -⟩ := mem_kept.mp h
  intro hmem
  apply hnew (List.mem_append_left front hmem)

theorem mem_of_mem_kept (h : x ∈ kept accepts before xs) :
  x ∈ xs
  := by
  obtain ⟨front, back, rfl, -, -⟩ := mem_kept.mp h
  apply List.mem_append_right _ List.mem_cons_self

/-- An element that is kept was accepted where it was first met. -/
theorem accepts_of_mem_kept {front back : List α} (hnew : x ∉ front)
    (h : x ∈ kept accepts before (front ++ x :: back)) :
  accepts (before ++ front) x
  := by
  rw [kept_append] at h
  rcases List.mem_append.mp h with hfront | hback
  · exact absurd (mem_of_mem_kept hfront) hnew
  · rw [kept] at hback
    split_ifs at hback with hfirst
    · exact hfirst.2
    · exact absurd (List.mem_append_right _ List.mem_cons_self) (not_mem_before hback)

/-- Nothing is kept twice. -/
theorem nodup_kept :
  (kept accepts before xs).Nodup
  := by
  induction xs generalizing before with
  | nil => apply List.nodup_nil
  | cons x xs ih =>
    rw [kept]
    split_ifs
    · rw [List.nodup_cons]
      refine ⟨fun hmem => ?_, ih⟩
      apply not_mem_before hmem
      apply List.mem_append_right _ List.mem_cons_self
    · apply ih

/-- A relation holds between any two that are kept, the earlier first, exactly when it holds between
each one and those that were kept before it was met. -/
theorem pairwise_kept {R : α → α → Prop} :
  (kept accepts [] xs).Pairwise R
    ↔ ∀ front x back, xs = front ++ x :: back → x ∉ front → accepts front x →
      ∀ y ∈ kept accepts [] front, R y x
  := by
  constructor
  · rintro h front x back rfl hnew haccepts y hy
    rw [kept_append, List.nil_append, kept_cons_of_accepts hnew haccepts, List.pairwise_append] at h
    apply h.2.2 y hy x List.mem_cons_self
  · intro h
    induction xs using List.reverseRecOn with
    | nil => apply List.Pairwise.nil
    | append_singleton xs x ih =>
      rw [kept_append, List.nil_append, List.pairwise_append]
      refine ⟨?_, ?_, ?_⟩
      · apply ih
        rintro front y back rfl
        apply h front y (back ++ [x])
        rw [List.append_assoc, List.cons_append]
      · rw [kept]
        split_ifs
        · apply List.pairwise_singleton
        · apply List.Pairwise.nil
      · intro y hy z hz
        obtain ⟨front, back, hxs, hnew, haccepts⟩ := mem_kept.mp hz
        obtain ⟨rfl, hz⟩ : front = [] ∧ x = z := by
          cases front with
          | nil => exact ⟨rfl, (List.cons.inj hxs).1⟩
          | cons a front => cases front <;> cases (List.cons.inj hxs).2
        subst hz
        rw [List.append_nil] at hnew haccepts
        apply h xs x [] rfl hnew haccepts y hy

end FirstVisits
