import Mathlib.Data.List.Basic
import Mathlib.Algebra.BigOperators.Group.List.Basic
import Mathlib.Tactic.Ring

/-!
# Finite maps

Lookup after insertion and erasure in an ordered map whose comparison decides equality, writing
one map over another, and sums over the entries of a map.
-/

namespace TreeMap

open Std

variable {α β : Type} {cmp : α → α → Ordering} [TransCmp cmp] [LawfulEqCmp cmp]

variable {m : ExtTreeMap α β cmp} {a k : α} {v : β}

theorem getElem?_insert_of_ne
    (h : k ≠ a) :
  (m.insert k v)[a]? = m[a]?
  := by
  rw [ExtTreeMap.getElem?_insert, if_neg]
  intro heq
  exact h (LawfulEqCmp.eq_of_compare heq)

theorem getElem?_erase_of_ne
    (h : k ≠ a) :
  (m.erase k)[a]? = m[a]?
  := by
  rw [ExtTreeMap.getElem?_erase, if_neg]
  intro heq
  exact h (LawfulEqCmp.eq_of_compare heq)

/-- Lookup after an insertion, by equality of keys. -/
theorem getElem?_insert_ite [DecidableEq α]
    (m : ExtTreeMap α β cmp) (k a : α) (v : β) :
  (m.insert k v)[a]? = if k = a then some v else m[a]?
  := by
  split_ifs with h
  · rw [h, ExtTreeMap.getElem?_insert_self]
  · apply getElem?_insert_of_ne h

/-- Lookup after an erasure, by equality of keys. -/
theorem getElem?_erase_ite [DecidableEq α]
    (m : ExtTreeMap α β cmp) (k a : α) :
  (m.erase k)[a]? = if k = a then none else m[a]?
  := by
  split_ifs with h
  · rw [h, ExtTreeMap.getElem?_erase_self]
  · apply getElem?_erase_of_ne h

/-- Membership after an insertion, by equality of keys. -/
theorem mem_insert_iff :
  a ∈ m.insert k v ↔ k = a ∨ a ∈ m
  := by
  rw [ExtTreeMap.mem_insert, LawfulEqCmp.compare_eq_iff_eq]

/-- Membership after an erasure, by equality of keys. -/
theorem mem_erase_iff :
  a ∈ m.erase k ↔ k ≠ a ∧ a ∈ m
  := by
  rw [ExtTreeMap.mem_erase, ne_eq, LawfulEqCmp.compare_eq_iff_eq]

theorem insert_erase [DecidableEq α]
    (m : ExtTreeMap α β cmp) (k : α) (v : β) :
  (m.erase k).insert k v = m.insert k v
  := by
  apply ExtTreeMap.ext_getElem?
  intro a
  rw [getElem?_insert_ite, getElem?_insert_ite]
  split_ifs with h
  · rfl
  · apply getElem?_erase_of_ne h

theorem insert_of_getElem? [DecidableEq α]
    (h : m[k]? = some v) :
  m.insert k v = m
  := by
  apply ExtTreeMap.ext_getElem?
  intro a
  rw [getElem?_insert_ite]
  split_ifs with hk
  · rw [← hk, h]
  · rfl

theorem insert_insert [DecidableEq α]
    (m : ExtTreeMap α β cmp) (k : α) (v w : β) :
  (m.insert k v).insert k w = m.insert k w
  := by
  apply ExtTreeMap.ext_getElem?
  intro a
  rw [getElem?_insert_ite, getElem?_insert_ite, getElem?_insert_ite]
  split_ifs with hk
  · rfl
  · rfl

theorem erase_insert [DecidableEq α]
    (h : m[k]? = none) (v : β) :
  (m.insert k v).erase k = m
  := by
  apply ExtTreeMap.ext_getElem?
  intro a
  rw [getElem?_erase_ite, getElem?_insert_ite]
  split_ifs with hk
  · rw [← hk, h]
  · rfl

/-! ## The first entry of some kind, or the first of all -/

theorem getElem?_of_first
    {p : α × β → Bool} {item : α × β} (h : (m.toList.find? p).or m.toList.head? = some item) :
  m[item.1]? = some item.2
  := by
  rw [← ExtTreeMap.mem_toList_iff_getElem?_eq_some]
  rw [Option.or_eq_some_iff] at h
  rcases h with h | ⟨-, h⟩
  · apply List.mem_of_find?_eq_some h
  · apply List.mem_of_head? h

omit [LawfulEqCmp cmp] in
theorem exists_first
    (h : m.isEmpty = false) (p : α × β → Bool) :
  ∃ item, (m.toList.find? p).or m.toList.head? = some item
  := by
  rw [← ExtTreeMap.isEmpty_toList, List.isEmpty_eq_false_iff] at h
  rw [← Option.isSome_iff_exists, Option.isSome_or, Bool.or_eq_true, List.isSome_head?]
  apply Or.inr h

/-! ## Overlays -/

/-- The entries of `q` written one by one over `m`. -/
def overlay (m q : ExtTreeMap α β cmp) : ExtTreeMap α β cmp :=
  q.foldl (fun m k v => m.insert k v) m

theorem getElem?_foldl_insert_of_not_mem
    {entries : List (α × β)} (h : ∀ e ∈ entries, e.1 ≠ a) :
  (entries.foldl (fun m e => m.insert e.1 e.2) m)[a]? = m[a]?
  := by
  induction entries generalizing m with
  | nil => rfl
  | cons e entries ih =>
    obtain ⟨he, hrest⟩ := List.forall_mem_cons.mp h
    rw [List.foldl_cons, ih hrest, getElem?_insert_of_ne he]

theorem getElem?_foldl_insert_of_mem
    {entries : List (α × β)} {e : α × β} (hnodup : (entries.map Prod.fst).Nodup) (h : e ∈ entries) :
  (entries.foldl (fun m e => m.insert e.1 e.2) m)[e.1]? = some e.2
  := by
  induction entries generalizing m with
  | nil => cases h
  | cons e' entries ih =>
    rw [List.map_cons, List.nodup_cons] at hnodup
    rw [List.foldl_cons]
    rcases List.mem_cons.mp h with rfl | h
    · rw [getElem?_foldl_insert_of_not_mem, ExtTreeMap.getElem?_insert_self]
      intro e' he' heq
      exact hnodup.1 (heq ▸ List.mem_map_of_mem he')
    · apply ih hnodup.2 h

theorem nodup_keys (m : ExtTreeMap α β cmp) :
  (m.toList.map Prod.fst).Nodup
  := by
  apply List.Pairwise.map (R := fun a b => ¬cmp a.1 b.1 = .eq) (S := (· ≠ ·))
  · intro a b hne heq
    apply hne
    rw [heq]
    apply ReflCmp.compare_self
  · apply ExtTreeMap.distinct_keys_toList

/-- An overlay is looked up first in the entries written, then in the map below. -/
theorem getElem?_overlay
    (m q : ExtTreeMap α β cmp) (a : α) :
  (overlay m q)[a]? = q[a]?.or m[a]?
  := by
  rw [overlay, ExtTreeMap.foldl_eq_foldl_toList]
  cases hq : q[a]? with
  | none =>
    apply getElem?_foldl_insert_of_not_mem
    rintro ⟨k, v⟩ hmem rfl
    rw [ExtTreeMap.mem_toList_iff_getElem?_eq_some, hq] at hmem
    cases hmem
  | some v =>
    apply getElem?_foldl_insert_of_mem (e := (a, v)) (nodup_keys q)
    rw [ExtTreeMap.mem_toList_iff_getElem?_eq_some, hq]

theorem overlay_insert [DecidableEq α]
    (m q : ExtTreeMap α β cmp) (k : α) (v : β) :
  overlay m (q.insert k v) = (overlay m q).insert k v
  := by
  apply ExtTreeMap.ext_getElem?
  intro a
  rw [getElem?_overlay, getElem?_insert_ite, getElem?_insert_ite, getElem?_overlay]
  split_ifs with h
  · rfl
  · rfl

theorem overlay_empty
    (m : ExtTreeMap α β cmp) :
  overlay m ∅ = m
  := by
  apply ExtTreeMap.ext_getElem?
  intro a
  rw [getElem?_overlay, ExtTreeMap.getElem?_empty]
  rfl

/-! ## Sums -/

/-- The sum of `f` over the entries of a map. -/
def sum (f : α → β → ℤ) (m : ExtTreeMap α β cmp) : ℤ :=
  (m.toList.map (fun e => f e.1 e.2)).sum

omit [LawfulEqCmp cmp] in
theorem sum_empty (f : α → β → ℤ) :
  sum f (∅ : ExtTreeMap α β cmp) = 0
  := by
  have hnil : (∅ : ExtTreeMap α β cmp).toList = [] := by
    rw [← List.isEmpty_iff, ExtTreeMap.isEmpty_toList]
    apply ExtTreeMap.isEmpty_empty
  rw [sum, hnil, List.map_nil, List.sum_nil]

theorem nodup_toList (m : ExtTreeMap α β cmp) :
  m.toList.Nodup
  := List.Pairwise.of_map Prod.fst (fun _ _ hne heq => hne (congrArg Prod.fst heq)) (nodup_keys m)

/-- Inserting at a key that is not there adds its term. -/
theorem sum_insert_of_not_mem [DecidableEq α]
    {f : α → β → ℤ} (h : m[k]? = none) (v : β) :
  sum f (m.insert k v) = f k v + sum f m
  := by
  have hperm : (m.insert k v).toList.Perm ((k, v) :: m.toList) := by
    have hnodup : ((k, v) :: m.toList).Nodup := by
      rw [List.nodup_cons]
      refine ⟨?_, nodup_toList m⟩
      intro hmem
      rw [ExtTreeMap.mem_toList_iff_getElem?_eq_some, h] at hmem
      cases hmem
    rw [List.perm_ext_iff_of_nodup (nodup_toList _) hnodup]
    rintro ⟨a, b⟩
    rw [List.mem_cons, ExtTreeMap.mem_toList_iff_getElem?_eq_some,
      ExtTreeMap.mem_toList_iff_getElem?_eq_some, getElem?_insert_ite]
    split_ifs with hk
    · subst hk
      simp [h, eq_comm]
    · simp [Ne.symm hk]
  rw [sum, sum, (hperm.map _).sum_eq, List.map_cons, List.sum_cons]

/-- Erasing takes away the term of the key. -/
theorem sum_erase_of_getElem? [DecidableEq α]
    (f : α → β → ℤ) (h : m[k]? = some v) :
  sum f m = f k v + sum f (m.erase k)
  := by
  have herase : (m.erase k)[k]? = none := ExtTreeMap.getElem?_erase_self
  rw [← sum_insert_of_not_mem herase, insert_erase, insert_of_getElem? h]

/-- Inserting replaces the term of the key. -/
theorem sum_insert [DecidableEq α]
    (f : α → β → ℤ) (m : ExtTreeMap α β cmp) (k : α) (v : β) :
  sum f (m.insert k v) = sum f m - (m[k]?.elim 0 (f k)) + f k v
  := by
  have herase : (m.erase k)[k]? = none := ExtTreeMap.getElem?_erase_self
  have hnew : sum f (m.insert k v) = f k v + sum f (m.erase k) := by
    rw [← insert_erase, sum_insert_of_not_mem herase]
  cases hm : m[k]? with
  | none =>
    rw [sum_insert_of_not_mem hm]
    simp only [Option.elim_none]
    ring
  | some w =>
    rw [hnew, sum_erase_of_getElem? f hm]
    simp only [Option.elim_some]
    ring

/-! ## Folds -/

section Folds

variable {γ : Type} [DecidableEq α] {keyOf : γ → α} {valueOf : γ → β}

/-- Lookup after inserting entries with different keys. -/
theorem getElem?_foldl_insert
    {xs : List γ} (hnodup : (xs.map keyOf).Nodup) {m : ExtTreeMap α β cmp} {a : α} {v : β} :
  (xs.foldl (fun m x => m.insert (keyOf x) (valueOf x)) m)[a]? = some v
    ↔ (∃ x ∈ xs, keyOf x = a ∧ valueOf x = v) ∨ ((∀ x ∈ xs, keyOf x ≠ a) ∧ m[a]? = some v)
  := by
  induction xs generalizing m with
  | nil => simp
  | cons x xs ih =>
    rw [List.map_cons, List.nodup_cons] at hnodup
    rw [List.foldl_cons, ih hnodup.2, getElem?_insert_ite]
    split_ifs with hkey
    · have hnone : ∀ y ∈ xs, keyOf y ≠ a := by
        intro y hmem heq
        apply hnodup.1
        rw [hkey, ← heq]
        apply List.mem_map_of_mem hmem
      simp only [List.exists_mem_cons_iff, List.forall_mem_cons, hkey, true_and, ne_eq,
        not_true_eq_false, false_and, or_false, Option.some.injEq]
      constructor
      · rintro (hlater | ⟨-, hvalue⟩)
        · right
          apply hlater
        · left
          apply hvalue
      · rintro (hvalue | hlater)
        · right
          exact ⟨hnone, hvalue⟩
        · left
          apply hlater
    · simp only [List.exists_mem_cons_iff, List.forall_mem_cons, hkey, false_and, false_or, ne_eq,
        not_false_eq_true, true_and]

/-- Lookup after erasing keys. -/
theorem getElem?_foldl_erase
    {xs : List γ} {m : ExtTreeMap α β cmp} {a : α} {v : β} :
  (xs.foldl (fun m x => m.erase (keyOf x)) m)[a]? = some v
    ↔ (∀ x ∈ xs, keyOf x ≠ a) ∧ m[a]? = some v
  := by
  induction xs generalizing m with
  | nil => simp
  | cons x xs ih =>
    rw [List.foldl_cons, ih, getElem?_erase_ite, List.forall_mem_cons]
    split_ifs with hkey
    · simp [hkey]
    · simp [hkey]

end Folds

end TreeMap
