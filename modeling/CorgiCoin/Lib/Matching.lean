import Mathlib.Data.List.Forall2
import Mathlib.Data.List.NodupEquivFin
import Mathlib.Data.List.Perm.Subperm

/-!
# Matching a list into another

Every element of a list is to be given a partner in another list, the partners in the order of the
elements.  The greedy search gives each element the first partner that accepts it and gives up when
fewer partners than elements are left.  It finds partners whenever there are some: an element that
takes an earlier partner leaves more to the elements after it.
-/

namespace Matching

variable {α β : Type}

/-- The greedy search for partners. -/
def search (accepts : α → β → Bool) : List α → List β → Bool
  | [], _ => true
  | _ :: _, [] => false
  | x :: xs, y :: ys =>
    if accepts x y then
      if xs.length > ys.length then false else search accepts xs ys
    else
      if xs.length + 1 > ys.length then false else search accepts (x :: xs) ys

/-! ## Partners in order -/

section Partners

variable {R : α → β → Prop} {x : α} {xs : List α} {y : β} {ys : List β}

theorem length_le (h : List.SublistForall₂ R xs ys) :
  xs.length ≤ ys.length
  := by
  obtain ⟨zs, hforall, hsub⟩ := List.sublistForall₂_iff.mp h
  rw [hforall.length_eq]
  exact hsub.length_le

/-- The partners of a list are partners of its tail. -/
theorem tail (h : List.SublistForall₂ R (x :: xs) ys) :
  List.SublistForall₂ R xs ys
  := by
  induction ys with
  | nil => cases h
  | cons y ys ih =>
    cases h with
    | cons _ hrest => exact hrest.cons_right
    | cons_right hrest => exact (ih hrest).cons_right

/-- Whatever partner the first element has, the others have theirs after the first one. -/
theorem tail_of_cons (h : List.SublistForall₂ R (x :: xs) (y :: ys)) :
  List.SublistForall₂ R xs ys
  := by
  cases h with
  | cons _ hrest => exact hrest
  | cons_right hrest => exact tail hrest

/-- Where the first partner refuses the first element, it is of no use. -/
theorem of_cons (h : List.SublistForall₂ R (x :: xs) (y :: ys)) (hrefuse : ¬R x y) :
  List.SublistForall₂ R (x :: xs) ys
  := by
  cases h with
  | cons haccept _ => exact absurd haccept hrefuse
  | cons_right hrest => exact hrest

/-- Partners in order are a strictly increasing map of positions. -/
theorem sublistForall₂_iff_exists_orderEmbedding :
  List.SublistForall₂ R xs ys ↔ ∃ f : Fin xs.length ↪o Fin ys.length, ∀ i, R (xs.get i) (ys.get (f i))
  := by
  rw [List.sublistForall₂_iff]
  constructor
  · rintro ⟨zs, hforall, hsub⟩
    obtain ⟨f, hf⟩ := List.sublist_iff_exists_fin_orderEmbedding_get_eq.mp hsub
    obtain ⟨hlength, hget⟩ := List.forall₂_iff_get.mp hforall
    refine ⟨(Fin.castOrderIso hlength).toOrderEmbedding.trans f, ?_⟩
    intro i
    rw [RelEmbedding.trans_apply, ← hf]
    exact hget i i.isLt (hlength ▸ i.isLt)
  · rintro ⟨f, hf⟩
    refine ⟨List.ofFn (fun i => ys.get (f i)), ?_, ?_⟩
    · rw [List.forall₂_iff_get]
      refine ⟨(List.length_ofFn).symm, ?_⟩
      intro i hi hi'
      rw [List.get_ofFn]
      exact hf ⟨i, hi⟩
    · rw [List.sublist_iff_exists_fin_orderEmbedding_get_eq]
      refine ⟨(Fin.castOrderIso List.length_ofFn).toOrderEmbedding.trans f, ?_⟩
      intro i
      rw [List.get_ofFn]
      rfl

/-- Reading both lists backwards makes no difference. -/
theorem sublistForall₂_reverse :
  List.SublistForall₂ R xs.reverse ys.reverse ↔ List.SublistForall₂ R xs ys
  := by
  rw [List.sublistForall₂_iff, List.sublistForall₂_iff]
  constructor
  · rintro ⟨zs, hforall, hsub⟩
    refine ⟨zs.reverse, ?_, ?_⟩
    · rwa [← List.forall₂_reverse_iff, List.reverse_reverse]
    · rwa [← List.reverse_sublist, List.reverse_reverse]
  · rintro ⟨zs, hforall, hsub⟩
    exact ⟨zs.reverse, List.forall₂_reverse_iff.mpr hforall, hsub.reverse⟩

end Partners

/-! ## One candidate each -/

section Candidates

variable {R C : α → β → Prop} {xs : List α} {ys : List β} [DecidablePred fun y => ∃ x ∈ xs, C x y]

/-- Where each element has one candidate only, no more are accepted than there are elements. -/
theorem length_accepted_le
    (hnodup : ys.Nodup) (hpartners : List.SublistForall₂ R xs ys)
    (hone : ∀ x ∈ xs, ∀ y, R x y → ∀ y' ∈ ys, C x y' → y' = y) :
  (ys.filter (fun y => ∃ x ∈ xs, C x y)).length ≤ xs.length
  := by
  obtain ⟨zs, hforall, -⟩ := List.sublistForall₂_iff.mp hpartners
  have hsubset : ys.filter (fun y => ∃ x ∈ xs, C x y) ⊆ zs := by
    intro y hy
    obtain ⟨hy, haccept⟩ := List.mem_filter.mp hy
    obtain ⟨x, hx, hxy⟩ := of_decide_eq_true haccept
    obtain ⟨i, hi, rfl⟩ := List.getElem_of_mem hx
    obtain ⟨hlength, hget⟩ := List.forall₂_iff_get.mp hforall
    rw [hone _ hx _ (hget i hi (hlength ▸ hi)) y hy hxy]
    apply List.getElem_mem
  rw [hforall.length_eq]
  exact (List.subperm_of_subset (hnodup.filter _) hsubset).length_le

/-- Where each element has one candidate only, they all have partners just when as many are accepted. -/
theorem sublistForall₂_iff_length_le
    (hnodup : ys.Nodup) (hpartners : List.SublistForall₂ R xs ys)
    (hone : ∀ x ∈ xs, ∀ y, R x y → ∀ y' ∈ ys, C x y' → y' = y) :
  List.SublistForall₂ C xs ys ↔ xs.length ≤ (ys.filter (fun y => ∃ x ∈ xs, C x y)).length
  := by
  constructor
  · intro h
    obtain ⟨zs, hforall, hsub⟩ := List.sublistForall₂_iff.mp h
    have hsubset : zs ⊆ ys.filter (fun y => ∃ x ∈ xs, C x y) := by
      intro z hz
      obtain ⟨i, hi, rfl⟩ := List.getElem_of_mem hz
      obtain ⟨hlength, hget⟩ := List.forall₂_iff_get.mp hforall
      have hi' : i < xs.length := hlength ▸ hi
      exact List.mem_filter.mpr ⟨hsub.subset hz,
        decide_eq_true ⟨xs[i], List.getElem_mem hi', hget i hi' hi⟩⟩
    rw [hforall.length_eq]
    exact (List.subperm_of_subset (hnodup.sublist hsub) hsubset).length_le
  · intro hle
    obtain ⟨zs, hforall, hsub⟩ := List.sublistForall₂_iff.mp hpartners
    obtain ⟨hlength, hget⟩ := List.forall₂_iff_get.mp hforall
    -- every accepted one is a candidate, and there are no more candidates
    have hcandidate : ∀ y ∈ ys, ∀ x ∈ xs, C x y →
        ∃ i, ∃ (hi : i < xs.length) (hi' : i < zs.length), xs[i] = x ∧ zs[i] = y := by
      intro y hy x hx hxy
      obtain ⟨i, hi, rfl⟩ := List.getElem_of_mem hx
      exact ⟨i, hi, hlength ▸ hi, rfl, (hone _ hx _ (hget i hi (hlength ▸ hi)) y hy hxy).symm⟩
    have hsubset : ys.filter (fun y => ∃ x ∈ xs, C x y) ⊆ zs := by
      intro y hy
      obtain ⟨hy, haccept⟩ := List.mem_filter.mp hy
      obtain ⟨x, hx, hxy⟩ := of_decide_eq_true haccept
      obtain ⟨i, _, hi, -, rfl⟩ := hcandidate y hy x hx hxy
      apply List.getElem_mem
    have hperm := (List.subperm_of_subset (hnodup.filter _) hsubset).perm_of_length_le (by rw [← hlength]; exact hle)
    apply List.sublistForall₂_iff.mpr ⟨zs, List.forall₂_iff_get.mpr ⟨hlength, ?_⟩, hsub⟩
    intro i hi hi'
    have hz := List.mem_filter.mp (hperm.mem_iff.mpr (List.getElem_mem hi'))
    obtain ⟨x, hx, hxy⟩ := of_decide_eq_true hz.2
    obtain ⟨j, hj, hj', rfl, hsame⟩ := hcandidate _ hz.1 x hx hxy
    obtain rfl := ((hnodup.sublist hsub).getElem_inj_iff).mp hsame
    exact hxy

end Candidates

/-! ## The search is complete -/

/-- The greedy search succeeds just when there are partners. -/
theorem search_iff (accepts : α → β → Bool) (xs : List α) (ys : List β) :
  search accepts xs ys = true ↔ List.SublistForall₂ (fun x y => accepts x y = true) xs ys
  := by
  induction ys generalizing xs with
  | nil =>
    cases xs with
    | nil => exact iff_of_true rfl .nil
    | cons x xs => exact iff_of_false nofun nofun
  | cons y ys ih =>
    cases xs with
    | nil => exact iff_of_true (by rw [search]) .nil
    | cons x xs =>
      rw [search]
      by_cases haccept : accepts x y = true
      · rw [if_pos haccept]
        split_ifs with hfew
        · refine iff_of_false nofun (fun h => ?_)
          have hle := length_le h
          simp only [List.length_cons] at hle
          omega
        · rw [ih]
          exact ⟨fun h => .cons haccept h, tail_of_cons⟩
      · rw [if_neg haccept]
        split_ifs with hfew
        · refine iff_of_false nofun (fun h => ?_)
          have hle := length_le (of_cons h haccept)
          simp only [List.length_cons] at hle
          omega
        · rw [ih]
          exact ⟨fun h => .cons_right h, fun h => of_cons h haccept⟩

end Matching
