import Mathlib.Data.Nat.Bitwise
import Mathlib.Data.Set.Function
import Mathlib.Data.List.Nodup
import Mathlib.Logic.Function.Iterate

/-!
# Trees of pairs

A list is combined level by level: neighbours are paired, and the last element of an odd level is
paired with itself.  A branch, the siblings of an element on the way up, folds to the root.  When
the pairs do not collide and no combination is an element of a list, the root determines the list,
among lists without duplicates.
-/

namespace PairTree

variable {α : Type}

/-! ## Levels -/

/-- Neighbours in pairs. -/
def pairs : List α → List (α × α)
  | [] => []
  | [a] => [(a, a)]
  | a :: b :: rest => (a, b) :: pairs rest

/-- The level above a level. -/
def next (f : α × α → α) (level : List α) : List α := (pairs level).map f

theorem length_pairs (level : List α) : (pairs level).length = (level.length + 1) / 2 := by
  induction level using pairs.induct with
  | case1 => simp [pairs]
  | case2 a => simp [pairs]
  | case3 a b rest ih =>
    rw [pairs, List.length_cons, ih, List.length_cons, List.length_cons]
    omega

theorem length_next (f : α × α → α) (level : List α) :
  (next f level).length = (level.length + 1) / 2
  := by
  rw [next, List.length_map, length_pairs]

/-- An element at an even position is paired with the one after it, or with itself. -/
theorem getElem?_pairs (level : List α) (k : ℕ) :
  (pairs level)[k]? = level[2 * k]?.map (fun a => (a, level[2 * k + 1]?.getD a))
  := by
  induction level using pairs.induct generalizing k with
  | case1 => rfl
  | case2 a =>
    cases k with
    | zero => rfl
    | succ k => simp [pairs, Nat.mul_add]
  | case3 a b rest ih =>
    cases k with
    | zero => rfl
    | succ k => exact ih k

/-- The levels from a level on, one after the other, as long as there are two elements to combine.
The first argument bounds the number of levels. -/
def levels (f : α × α → α) : ℕ → List α → List α
  | 0, level => level
  | n + 1, level => if 1 < level.length then level ++ levels f n (next f level) else level

variable {level : List α}

theorem levels_ne_nil (f : α × α → α) (n : ℕ) (h : level ≠ []) :
  levels f n level ≠ []
  := by
  cases n with
  | zero => exact h
  | succ n =>
    rw [levels]
    split_ifs
    · exact List.append_ne_nil_of_left_ne_nil h _
    · exact h

/-! ## Branches -/

/-- The position of the sibling of an element. -/
def sibling (level : List α) (i : ℕ) : ℕ := min (i ^^^ 1) (level.length - 1)

/-- The siblings on the way up. -/
def branch (f : α × α → α) : ℕ → List α → ℕ → List α
  | 0, _, _ => []
  | n + 1, level, i =>
    if 1 < level.length then
      level[sibling level i]?.toList ++ branch f n (next f level) (i / 2)
    else []

/-- An element with its sibling, in the order of their positions. -/
def combine (f : α × α → α) (i : ℕ) (a b : α) : α := if i % 2 = 1 then f (b, a) else f (a, b)

/-- Combine an element with the elements of a branch. -/
def fold (f : α × α → α) : α → List α → ℕ → α
  | a, [], _ => a
  | a, b :: branch, i => fold f (combine f i a b) branch (i / 2)

theorem xor_one (i : ℕ) : i ^^^ 1 = if i % 2 = 1 then i - 1 else i + 1 := by
  split_ifs with h
  · rw [Nat.xor_one_of_odd (Nat.odd_iff.mpr h)]
  · rw [Nat.xor_one_of_even (Nat.even_iff.mpr (by omega))]

variable {f : α × α → α} {i : ℕ} {a : α}

/-- Above an element and its sibling is their combination. -/
theorem getElem?_next (ha : level[i]? = some a) :
  ∃ b, level[sibling level i]? = some b ∧ (next f level)[i / 2]? = some (combine f i a b)
  := by
  obtain ⟨hlt, _⟩ := List.getElem?_eq_some_iff.mp ha
  rw [next, List.getElem?_map, getElem?_pairs, sibling, xor_one]
  unfold combine
  split_ifs with hodd
  · -- the sibling is before the element
    have hbefore : min (i - 1) (level.length - 1) = 2 * (i / 2) := by omega
    have hself : 2 * (i / 2) + 1 = i := by omega
    have hget : 2 * (i / 2) < level.length := by omega
    refine ⟨level[2 * (i / 2)], ?_, ?_⟩
    · rw [hbefore, List.getElem?_eq_getElem hget]
    · rw [List.getElem?_eq_getElem hget, hself, ha]
      rfl
  · have hself : 2 * (i / 2) = i := by omega
    rw [hself, ha]
    by_cases hlast : i + 1 < level.length
    · refine ⟨level[i + 1], ?_, ?_⟩
      · rw [min_eq_left (by omega), List.getElem?_eq_getElem hlast]
      · rw [List.getElem?_eq_getElem hlast]
        rfl
    · -- the last element of an odd level is its own sibling
      refine ⟨a, ?_, ?_⟩
      · rw [min_eq_right (by omega), ← ha]
        congr 1
        omega
      · rw [List.getElem?_eq_none (by omega)]
        rfl

theorem getLast?_of_short
    (h : level.length ≤ 1) (ha : level[i]? = some a) :
  level.getLast? = some a
  := by
  obtain ⟨hlt, _⟩ := List.getElem?_eq_some_iff.mp ha
  have hi : i = level.length - 1 := by omega
  rw [List.getLast?_eq_getElem?, ← hi, ha]

variable {n : ℕ}

/-- The branch of an element folds to the root. -/
theorem getLast?_levels
    (hn : level.length ≤ n + 1) (ha : level[i]? = some a) :
  (levels f n level).getLast? = some (fold f a (branch f n level i) i)
  := by
  induction n generalizing level i a with
  | zero => exact getLast?_of_short hn ha
  | succ n ih =>
    rw [levels, branch]
    split_ifs with hlength
    · obtain ⟨b, hb, hnext⟩ := @getElem?_next α level f i a ha
      obtain ⟨hlt', _⟩ := List.getElem?_eq_some_iff.mp hnext
      have hne : next f level ≠ [] := List.ne_nil_of_length_pos (by omega)
      have hlength' := length_next f level
      rw [hb, Option.toList_some, List.singleton_append, fold,
        List.getLast?_append_of_ne_nil _ (levels_ne_nil f n hne)]
      exact ih (by omega) hnext
    · exact getLast?_of_short (by omega) ha

/-! ## Lists with one root -/

/-- The pairs that are combined on all levels. -/
def treePairs (f : α × α → α) : ℕ → List α → List (α × α)
  | 0, _ => []
  | n + 1, level =>
    if 1 < level.length then pairs level ++ treePairs f n (next f level) else []

theorem fst_mem_of_mem_pairs {p : α × α} (h : p ∈ pairs level) : p.1 ∈ level := by
  induction level using pairs.induct with
  | case1 => cases h
  | case2 a =>
    obtain rfl := List.mem_singleton.mp h
    exact List.mem_singleton_self a
  | case3 a b rest ih =>
    rcases List.mem_cons.mp h with rfl | h
    · exact List.mem_cons_self
    · exact List.mem_cons_of_mem _ (List.mem_cons_of_mem _ (ih h))

theorem nodup_pairs (h : level.Nodup) : (pairs level).Nodup := by
  induction level using pairs.induct with
  | case1 => exact List.nodup_nil
  | case2 a => exact List.nodup_singleton _
  | case3 a b rest ih =>
    obtain ⟨ha, hrest⟩ := List.nodup_cons.mp h
    rw [pairs, List.nodup_cons]
    refine ⟨?_, ih (List.nodup_cons.mp hrest).2⟩
    intro hmem
    exact ha (List.mem_cons_of_mem _ (fst_mem_of_mem_pairs hmem))

/-- Pairs that do not collide keep a level without duplicates. -/
theorem nodup_next
    (h : level.Nodup) (hf : Set.InjOn f {p | p ∈ pairs level}) :
  (next f level).Nodup
  := List.Nodup.map_on (fun _ hp _ hq heq => hf hp hq heq) (nodup_pairs h)

variable {level' : List α}

/-- A level without duplicates is determined by its pairs: only a last element that is repeated
could go unnoticed. -/
theorem eq_of_pairs_eq
    (h : level.Nodup) (h' : level'.Nodup) (heq : pairs level = pairs level') :
  level = level'
  := by
  induction level using pairs.induct generalizing level' with
  | case1 =>
    match level' with
    | [] => rfl
    | [a'] => cases heq
    | a' :: b' :: rest' => cases heq
  | case2 a =>
    match level' with
    | [] => cases heq
    | [a'] =>
      cases heq
      rfl
    | a' :: b' :: rest' =>
      obtain ⟨hhead, _⟩ := List.cons.inj heq
      cases hhead
      exact absurd List.mem_cons_self (List.nodup_cons.mp h').1
  | case3 a b rest ih =>
    match level' with
    | [] => cases heq
    | [a'] =>
      obtain ⟨hhead, _⟩ := List.cons.inj heq
      cases hhead
      exact absurd List.mem_cons_self (List.nodup_cons.mp h).1
    | a' :: b' :: rest' =>
      obtain ⟨hhead, htail⟩ := List.cons.inj heq
      cases hhead
      have hrest := (List.nodup_cons.mp (List.nodup_cons.mp h).2).2
      have hrest' := (List.nodup_cons.mp (List.nodup_cons.mp h').2).2
      rw [ih hrest hrest' htail]

theorem map_eq_map_of_injOn
    {l l' : List (α × α)} (hf : Set.InjOn f {p | p ∈ l ∨ p ∈ l'}) (heq : l.map f = l'.map f) :
  l = l'
  := by
  induction l generalizing l' with
  | nil => exact (List.map_eq_nil_iff.mp heq.symm).symm
  | cons p l ih =>
    cases l' with
    | nil => cases heq
    | cons q l' =>
      obtain ⟨hhead, htail⟩ := List.cons.inj heq
      have hpq := hf (Or.inl List.mem_cons_self) (Or.inr List.mem_cons_self) hhead
      have hrest := ih (hf.mono (fun r hr =>
        hr.imp (List.mem_cons_of_mem _) (List.mem_cons_of_mem _))) htail
      rw [hpq, hrest]

/-- The root is a level of its own, and the pairs below it are those of the tree. -/
theorem exists_height
    (f : α × α → α) (hne : level ≠ []) (hn : level.length ≤ n + 1) :
  ∃ height root, (next f)^[height] level = [root]
    ∧ (levels f n level).getLast? = some root
    ∧ ∀ i < height, ∀ p ∈ pairs ((next f)^[i] level), p ∈ treePairs f n level
  := by
  have hshort : level.length ≤ 1 → ∃ root, level = [root] := by
    intro hle
    have hpos := List.length_pos_iff.mpr hne
    exact List.length_eq_one_iff.mp (by omega)
  induction n generalizing level with
  | zero =>
    obtain ⟨root, rfl⟩ := hshort (by omega)
    exact ⟨0, root, rfl, rfl, fun i hi => absurd hi (Nat.not_lt_zero i)⟩
  | succ n ih =>
    by_cases hlength : 1 < level.length
    · have hlength' := length_next f level
      have hne' : next f level ≠ [] := List.ne_nil_of_length_pos (by omega)
      have hshort' : (next f level).length ≤ 1 → ∃ root, next f level = [root] := by
        intro hle
        exact List.length_eq_one_iff.mp (by omega)
      obtain ⟨height, root, htop, hroot, hpairs⟩ := ih hne' (by omega) hshort'
      refine ⟨height + 1, root, htop, ?_, ?_⟩
      · rw [levels, if_pos hlength, List.getLast?_append_of_ne_nil _ (levels_ne_nil f n hne'), hroot]
      · intro i hi p hp
        rw [treePairs, if_pos hlength, List.mem_append]
        cases i with
        | zero => exact Or.inl hp
        | succ i => exact Or.inr (hpairs i (Nat.lt_of_succ_lt_succ hi) p hp)
    · obtain ⟨root, rfl⟩ := hshort (by omega)
      exact ⟨0, root, rfl, rfl, fun i hi => absurd hi (Nat.not_lt_zero i)⟩

variable {height : ℕ} {tree : Set (α × α)}

/-- When no pairs of a tree collide, no level has duplicates. -/
theorem nodup_iterate
    (h : level.Nodup) (hf : Set.InjOn f tree)
    (hpairs : ∀ i < height, ∀ p ∈ pairs ((next f)^[i] level), p ∈ tree) (hi : i ≤ height) :
  ((next f)^[i] level).Nodup
  := by
  induction i with
  | zero => exact h
  | succ i ih =>
    rw [Function.iterate_succ_apply']
    exact nodup_next (ih (Nat.le_of_succ_le hi)) (hf.mono (hpairs i hi))

/-- Below equal levels are equal levels. -/
theorem level_eq_of_next_eq
    (hf : Set.InjOn f tree) (h : level.Nodup) (h' : level'.Nodup) (hpairs : ∀ p ∈ pairs level, p ∈ tree)
    (hpairs' : ∀ p ∈ pairs level', p ∈ tree) (heq : next f level = next f level') :
  level = level'
  := by
  apply eq_of_pairs_eq h h'
  apply map_eq_map_of_injOn _ heq
  apply hf.mono
  rintro p (hp | hp)
  · exact hpairs p hp
  · exact hpairs' p hp

/-- Equal levels high up come from equal lists, when the heights are the same. -/
theorem eq_of_iterate_eq
    (hf : Set.InjOn f tree) (h : level.Nodup) (h' : level'.Nodup)
    (hpairs : ∀ i < height, ∀ p ∈ pairs ((next f)^[i] level), p ∈ tree)
    (hpairs' : ∀ i < height, ∀ p ∈ pairs ((next f)^[i] level'), p ∈ tree)
    (heq : (next f)^[height] level = (next f)^[height] level') :
  level = level'
  := by
  induction height with
  | zero => exact heq
  | succ height ih =>
    rw [Function.iterate_succ_apply', Function.iterate_succ_apply'] at heq
    have hbelow : ∀ i < height, ∀ p ∈ pairs ((next f)^[i] level), p ∈ tree :=
      fun i hi => hpairs i (Nat.lt_succ_of_lt hi)
    have hbelow' : ∀ i < height, ∀ p ∈ pairs ((next f)^[i] level'), p ∈ tree :=
      fun i hi => hpairs' i (Nat.lt_succ_of_lt hi)
    apply ih hbelow hbelow'
    apply level_eq_of_next_eq hf _ _ (hpairs height (Nat.lt_succ_self height))
      (hpairs' height (Nat.lt_succ_self height)) heq
    · exact nodup_iterate h hf hbelow le_rfl
    · exact nodup_iterate h' hf hbelow' le_rfl

/-- The elements above the first level are combinations. -/
theorem exists_pair_of_mem_next
    (ha : a ∈ next f level) :
  ∃ p ∈ pairs level, f p = a
  := List.mem_map.mp ha

/-- A taller tree above a list than above another has a combination among the elements of the
other. -/
theorem exists_pair_mem_of_taller
    {extra : ℕ} (hf : Set.InjOn f tree) (hne : level' ≠ []) (h : level.Nodup) (h' : level'.Nodup)
    (hpairs : ∀ i < height + (extra + 1), ∀ p ∈ pairs ((next f)^[i] level), p ∈ tree)
    (hpairs' : ∀ i < height, ∀ p ∈ pairs ((next f)^[i] level'), p ∈ tree)
    (heq : (next f)^[height + (extra + 1)] level = (next f)^[height] level') :
  ∃ p ∈ tree, f p ∈ level'
  := by
  -- descend to the other list: it is a level of the taller tree
  have hlower : (next f)^[extra + 1] level = level' := by
    apply eq_of_iterate_eq hf _ h' _ hpairs'
    · rw [← Function.iterate_add_apply, heq]
    · exact nodup_iterate h hf hpairs (Nat.le_add_left _ _)
    · intro i hi p hp
      rw [← Function.iterate_add_apply] at hp
      exact hpairs (i + (extra + 1)) (Nat.add_lt_add_right hi _) p hp
  rw [Function.iterate_succ_apply'] at hlower
  obtain ⟨a, ha⟩ := List.exists_mem_of_ne_nil level' hne
  rw [← hlower] at ha
  obtain ⟨p, hp, rfl⟩ := exists_pair_of_mem_next ha
  rw [hlower] at ha
  exact ⟨p, hpairs extra (by omega) p hp, ha⟩

/-- One root has one list below it, among lists without duplicates, when the pairs of the trees do
not collide and no combination is an element of the lists. -/
theorem eq_of_root_eq
    {n' : ℕ} (hn : level.length ≤ n + 1) (hn' : level'.length ≤ n' + 1) (hne : level ≠ [])
    (hne' : level' ≠ []) (h : level.Nodup) (h' : level'.Nodup) (hf : Set.InjOn f tree)
    (hpairs : ∀ p ∈ treePairs f n level, p ∈ tree) (hpairs' : ∀ p ∈ treePairs f n' level', p ∈ tree)
    (hleaf : ∀ p ∈ tree, f p ∉ level ∧ f p ∉ level')
    (hroot : (levels f n level).getLast? = (levels f n' level').getLast?) :
  level = level'
  := by
  obtain ⟨height, root, htop, hlast, hbelow⟩ := exists_height f hne hn
  obtain ⟨height', root', htop', hlast', hbelow'⟩ := exists_height f hne' hn'
  have hsame : root = root' := by
    rw [hlast, hlast'] at hroot
    exact Option.some.inj hroot
  have htree := fun i hi p hp => hpairs p (hbelow i hi p hp)
  have htree' := fun i hi p hp => hpairs' p (hbelow' i hi p hp)
  obtain hlt | rfl | hgt := Nat.lt_trichotomy height height'
  · obtain ⟨extra, rfl⟩ := Nat.exists_eq_add_of_lt hlt
    rw [Nat.add_assoc] at htop' htree'
    obtain ⟨p, hp, hmem⟩ := exists_pair_mem_of_taller hf hne h' h htree' htree
      (by rw [htop, htop', hsame])
    exact absurd hmem (hleaf p hp).1
  · exact eq_of_iterate_eq hf h h' htree htree' (by rw [htop, htop', hsame])
  · obtain ⟨extra, rfl⟩ := Nat.exists_eq_add_of_lt hgt
    rw [Nat.add_assoc] at htop htree
    obtain ⟨p, hp, hmem⟩ := exists_pair_mem_of_taller hf hne' h h' htree htree'
      (by rw [htop, htop', hsame])
    exact absurd hmem (hleaf p hp).2

end PairTree
