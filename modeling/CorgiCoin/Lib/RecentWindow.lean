import Mathlib.Data.List.Infix
import Mathlib.Data.List.Nodup

/-!
# Windows of recent elements

A window holds the elements that entered it last.  An element that the window holds does not enter; one
that enters a full window pushes out the oldest.  Then elements that enter are different from those that
entered shortly before.  A size of zero stands for a window without a limit.
-/

namespace CorgiCoin.Lib.RecentWindow

variable {α : Type} {n : ℕ}

/-- The window after an element is offered. -/
def push [DecidableEq α] (n : ℕ) (window : List α) (a : α) : List α :=
  if a ∈ window then window
  else if n ≠ 0 ∧ window.length = n then window.tail ++ [a]
  else window ++ [a]

/-- The window after elements are offered one after the other. -/
def offer [DecidableEq α] (n : ℕ) (window offered : List α) : List α := offered.foldl (push n) window

/-- Of the elements that are offered, those that enter the window. -/
def entered [DecidableEq α] (n : ℕ) (window : List α) : List α → List α
  | [] => []
  | a :: offered => if a ∈ window then entered n window offered else a :: entered n (push n window a) offered

section Offered

variable [DecidableEq α] {window offered offered' : List α}

end Offered

/-- Among elements that follow each other, one more than the window holds, none is there twice. -/
def Spaced (n : ℕ) (history : List α) : Prop :=
  ∀ l, l <:+: history → (n ≠ 0 → l.length ≤ n + 1) → l.Nodup

/-- The window is what entered last. -/
structure Recent (n : ℕ) (history window : List α) : Prop where
  suffix : window <:+ history
  length_eq : window.length = if n = 0 then history.length else min n history.length
  spaced : Spaced n history

theorem recent_nil : Recent n ([] : List α) []
  where
  suffix := List.suffix_rfl
  length_eq := by
    split_ifs
    · rfl
    · exact (Nat.min_zero n).symm
  spaced l hl _ := by
    rw [List.infix_nil.mp hl]
    exact List.nodup_nil

namespace Recent

variable {history window : List α}

theorem nodup (h : Recent n history window) :
  window.Nodup
  := by
  apply h.spaced _ h.suffix.isInfix
  intro hn
  have hlength := h.length_eq
  rw [if_neg hn] at hlength
  omega

/-- An element that is not in the window may follow. -/
theorem spaced_concat (h : Recent n history window) {a : α} (hmem : a ∉ window) :
  Spaced n (history ++ [a])
  := by
  intro l hl hlength
  rcases List.infix_concat_iff.mp hl with hsuffix | hinfix
  · rcases List.suffix_concat_iff.mp hsuffix with rfl | ⟨t, rfl, ht⟩
    · exact List.nodup_nil
    · rw [List.length_append, List.length_singleton] at hlength
      have hwindow : t <:+ window := by
        apply List.suffix_of_suffix_length_le ht h.suffix
        rw [h.length_eq]
        split_ifs with hn
        · exact ht.length_le
        · exact le_min (Nat.le_of_succ_le_succ (hlength hn)) ht.length_le
      have hnot : a ∉ t := fun hin => hmem (hwindow.subset hin)
      apply List.Nodup.append (hwindow.sublist.nodup h.nodup) (List.nodup_singleton a)
      rw [List.disjoint_singleton]
      exact hnot
  · exact h.spaced l hinfix hlength

/-- The window after an element that enters. -/
theorem push [DecidableEq α] (h : Recent n history window) {a : α} (hmem : a ∉ window) :
  Recent n (history ++ [a]) (push n window a)
  := by
  have hlength := h.length_eq
  have hle := h.suffix.length_le
  rw [RecentWindow.push, if_neg hmem]
  split_ifs with hfull
  · obtain ⟨hn, hfull⟩ := hfull
    rw [if_neg hn] at hlength
    constructor
    · exact List.suffix_append_inj_of_length_eq rfl |>.mpr ⟨(List.tail_suffix _).trans h.suffix, rfl⟩
    · rw [if_neg hn, List.length_append, List.length_append, List.length_tail, List.length_singleton]
      omega
    · exact h.spaced_concat hmem
  · constructor
    · exact List.suffix_append_inj_of_length_eq rfl |>.mpr ⟨h.suffix, rfl⟩
    · rw [List.length_append, List.length_append, List.length_singleton, hlength]
      split_ifs with hn
      · rfl
      · rw [if_neg hn] at hlength
        have hroom : window.length ≠ n := fun heq => hfull ⟨hn, heq⟩
        omega
    · exact h.spaced_concat hmem

/-- The window after elements that are offered, whether or not they enter. -/
theorem offer [DecidableEq α] (h : Recent n history window) (offered : List α) :
  Recent n (history ++ entered n window offered) (offer n window offered)
  := by
  induction offered generalizing history window with
  | nil => rwa [entered, List.append_nil]
  | cons a offered ih =>
    rw [entered, RecentWindow.offer, List.foldl_cons]
    split_ifs with hmem
    · rw [RecentWindow.push, if_pos hmem]
      exact ih h
    · rw [List.append_cons]
      exact ih (h.push hmem)

end Recent

/-- The window of what was offered from the beginning. -/
theorem recent_offer [DecidableEq α] (offered : List α) :
  Recent n (entered n [] offered) (offer n [] offered)
  := recent_nil.offer offered

end CorgiCoin.Lib.RecentWindow
