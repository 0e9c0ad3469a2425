import CorgiCoin.Lib.Codec

/-!
# Prefix codes

A writer is a prefix code on the values with a property when what it writes can be told from what
comes after it: two writings that start one text are of one value.  What a reader gives back is such
a code, and so are values written one after another and lists written after their length.
-/

/-- Two values whose writings start one text are equal, and so is what comes after them. -/
def PrefixCode {α β : Type} (P : α → Prop) (write : α → List β) : Prop :=
  ∀ ⦃a b : α⦄ ⦃r s : List β⦄, P a → P b → write a ++ r = write b ++ s → a = b ∧ r = s

namespace PrefixCode

variable {α β γ δ : Type} {P : α → Prop} {Q : δ → Prop} {write : α → List β}

/-- What a reader gives back whatever comes after it. -/
theorem of_read
    {read : List β → Option (α × List β)}
    (h : ∀ a, P a → ∀ rest, read (write a ++ rest) = some (a, rest)) :
  PrefixCode P write
  := by
  intro a b r s ha hb heq
  have hread := h a ha r
  rw [heq, h b hb s, Option.some_inj, Prod.mk.injEq] at hread
  exact ⟨hread.1.symm, hread.2.symm⟩

/-- Lists of one length, their elements written one after another. -/
theorem flatMap
    (h : PrefixCode P write) {as bs : List α} {r s : List β} (hlength : as.length = bs.length)
    (has : ∀ a ∈ as, P a) (hbs : ∀ b ∈ bs, P b)
    (heq : as.flatMap write ++ r = bs.flatMap write ++ s) :
  as = bs ∧ r = s
  := by
  induction as generalizing bs with
  | nil =>
    obtain rfl := List.length_eq_zero_iff.mp hlength.symm
    exact ⟨rfl, heq⟩
  | cons a as ih =>
    cases bs with
    | nil => cases hlength
    | cons b bs =>
      obtain ⟨ha, has'⟩ := List.forall_mem_cons.mp has
      obtain ⟨hb, hbs'⟩ := List.forall_mem_cons.mp hbs
      rw [List.flatMap_cons, List.flatMap_cons, List.append_assoc, List.append_assoc] at heq
      obtain ⟨rfl, hrest⟩ := h ha hb heq
      obtain ⟨rfl, hrest'⟩ := ih (Nat.succ.inj hlength) has' hbs' hrest
      exact ⟨rfl, hrest'⟩

/-- Lists that are written after their length. -/
theorem counted
    {C : ℕ → Prop} {count : ℕ → List β} (hcount : PrefixCode C count) (h : PrefixCode P write) :
  PrefixCode (fun as : List α => C as.length ∧ ∀ a ∈ as, P a)
    (fun as => count as.length ++ as.flatMap write)
  := by
  intro as bs r s has hbs heq
  rw [List.append_assoc, List.append_assoc] at heq
  obtain ⟨hlength, hrest⟩ := hcount has.1 hbs.1 heq
  exact h.flatMap hlength has.2 hbs.2 hrest

end PrefixCode

theorem Codec.Lawful.prefixCode
    {α : Type} {P : α → Prop} {size : α → UInt32} {write : α → List UInt8} {read : Codec.Reader α}
    (h : Codec.Lawful P size write read) :
  PrefixCode P write
  := PrefixCode.of_read h.read_write
