import Mathlib.Data.List.Basic

/-!
# Texts of tokens

A text is read token by token from its start.  Where the reader gives back what the writer wrote, whatever
comes after it, a text is the tokens that can be read and a tail that none can be read from, and it is so
in one way only.
-/

/-- A reader and a writer of tokens: what is written is read, and what is read was written. -/
structure Tokenizer {α β : Type} (P : α → Prop) (write : α → List β)
    (read : List β → Option (α × List β)) : Prop where
  read_write : ∀ a, P a → ∀ rest, read (write a ++ rest) = some (a, rest)
  of_read : ∀ text a rest, read text = some (a, rest) → P a ∧ text = write a ++ rest
  write_ne_nil : ∀ a, P a → write a ≠ []

/-- A text is some tokens and a tail without one. -/
structure Splits {α β : Type} (P : α → Prop) (write : α → List β) (read : List β → Option (α × List β))
    (text : List β) (tokens : List α) (tail : List β) : Prop where
  valid : ∀ a ∈ tokens, P a
  eq : text = tokens.flatMap write ++ tail
  stop : read tail = none

section Texts

variable {α β : Type} {P : α → Prop} {write : α → List β} {read : List β → Option (α × List β)}
variable {text tail : List β} {tokens : List α} {a : α}

theorem Splits.cons (ha : P a) (h : Splits P write read text tokens tail) :
  Splits P write read (write a ++ text) (a :: tokens) tail
  := by
  constructor
  · exact List.forall_mem_cons.mpr ⟨ha, h.valid⟩
  · rw [List.flatMap_cons, List.append_assoc, ← h.eq]
  · exact h.stop

/-- Some of the tokens and the tail. -/
theorem Splits.filter (h : Splits P write read text tokens tail) (keep : α → Bool) :
  Splits P write read ((tokens.filter keep).flatMap write ++ tail) (tokens.filter keep) tail
  := ⟨fun a ha => h.valid a (List.mem_of_mem_filter ha), rfl, h.stop⟩

namespace Tokenizer

/-- A text starts with a token just when the token is read from it. -/
theorem prefix_iff (h : Tokenizer P write read) (ha : P a) :
  write a <+: text ↔ ∃ rest, read text = some (a, rest)
  := by
  constructor
  · rintro ⟨rest, rfl⟩
    exact ⟨rest, h.read_write a ha rest⟩
  · rintro ⟨rest, hread⟩
    exact ⟨rest, (h.of_read text a rest hread).2.symm⟩

/-- Reading stops, as each token takes something. -/
theorem exists_splits (h : Tokenizer P write read) (text : List β) :
  ∃ tokens tail, Splits P write read text tokens tail
  := by
  generalize hn : text.length = n
  induction n using Nat.strongRecOn generalizing text with
  | ind n ih =>
    cases hread : read text with
    | none => exact ⟨[], text, List.forall_mem_nil _, rfl, hread⟩
    | some step =>
      obtain ⟨a, rest⟩ := step
      obtain ⟨ha, rfl⟩ := h.of_read _ _ _ hread
      have hpos := List.length_pos_iff.mpr (h.write_ne_nil a ha)
      rw [List.length_append] at hn
      obtain ⟨tokens, tail, hsplits⟩ := ih rest.length (by omega) rest rfl
      exact ⟨a :: tokens, tail, hsplits.cons ha⟩

end Tokenizer

end Texts
