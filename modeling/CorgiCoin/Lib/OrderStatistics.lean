import Mathlib.Data.List.Sort
import Mathlib.Order.Basic

/-!
# Order statistics

The element at a position of a sorted list is bounded below by counting: it is at least `m`
exactly when no more elements than the position are less than `m`.  So an order statistic does not
decrease when elements that are not less than it are added, or when any elements are taken away.
-/

namespace OrderStatistics

variable {α : Type} [LinearOrder α]

/-- In a sorted list, the element at a position is at least `m` when no more elements than the
position are less than `m`. -/
theorem le_getElem_iff
    {l : List α} (h : l.Pairwise (· ≤ ·)) {k : ℕ} (hk : k < l.length) (m : α) :
  m ≤ l[k] ↔ l.countP (· < m) ≤ k
  := by
  induction l generalizing k with
  | nil => cases hk
  | cons a l ih =>
    obtain ⟨hfirst, hrest⟩ := List.pairwise_cons.mp h
    by_cases ha : a < m
    · rw [List.countP_cons, if_pos (decide_eq_true ha)]
      cases k with
      | zero => simp [ha]
      | succ k =>
        rw [List.getElem_cons_succ, ih hrest, Nat.succ_le_succ_iff]
    · -- nothing after an element that is not less than `m` is less than `m`
      have hle : ∀ b ∈ a :: l, m ≤ b := by
        intro b hb
        rcases List.mem_cons.mp hb with rfl | hb
        · exact not_lt.mp ha
        · exact (not_lt.mp ha).trans (hfirst b hb)
      have hnone : (a :: l).countP (· < m) = 0 := by
        rw [List.countP_eq_zero]
        intro b hb
        rw [decide_eq_true_iff]
        exact not_lt.mpr (hle b hb)
      rw [hnone]
      exact iff_of_true (hle _ (List.getElem_mem hk)) (Nat.zero_le k)

/-- The order statistic of a list, by counting in the list itself. -/
theorem le_getElem_insertionSort_iff
    {l : List α} {k : ℕ} (hk : k < (l.insertionSort (· ≤ ·)).length) (m : α) :
  m ≤ (l.insertionSort (· ≤ ·))[k] ↔ l.countP (· < m) ≤ k
  := by
  rw [le_getElem_iff (List.pairwise_insertionSort _ l) hk,
    (List.perm_insertionSort (· ≤ ·) l).countP_eq]

end OrderStatistics
