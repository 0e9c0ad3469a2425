import Mathlib.Tactic.Ring
import Mathlib.Data.List.Basic

/-!
# Byte codecs

A value is written as a list of bytes and read back by a reader, which takes a list of bytes
and either fails or returns a value with the bytes it left unread.  `Codec.Lawful` says that a
size function, a writer and a reader of one type agree: the size is the number of bytes
written, as a 32-bit word, and on the values of a given predicate the reader inverts the
writer whatever bytes follow.  Little-endian words and counted lists of lawful codecs are
lawful.
-/

namespace Codec

/-- A reader takes bytes and returns a value with the bytes that follow it, or fails. -/
abbrev Reader (α : Type) := StateT (List UInt8) Option α

/-- `size`, `write` and `read` agree on the layout of `α`, the values satisfying `P` being
those the reader can return. -/
structure Lawful {α : Type} (P : α → Prop) (size : α → UInt32) (write : α → List UInt8)
    (read : Reader α) : Prop where
  /-- The size is the number of bytes written, as a 32-bit word. -/
  size_eq : ∀ a, size a = UInt32.ofNat (write a).length
  /-- Reading what was written gives the value back and leaves the following bytes. -/
  read_write : ∀ a, P a → ∀ rest, read.run (write a ++ rest) = some (a, rest)

variable {α β : Type} {f : α → Reader β} {x : Reader α} {bs rest : List UInt8}

/-- Reading the first of two parts and continuing. -/
theorem run_bind_of_run
    {a : α} (h : x.run bs = some (a, rest)) :
  (x >>= f).run bs = (f a).run rest
  := by
  rw [StateT.run_bind, h]
  rfl

/-- A successful sequence of two reads is a read of the first part and a read of the second. -/
theorem run_bind_eq_some
    {b : β} (h : (x >>= f).run bs = some (b, rest)) :
  ∃ a mid, x.run bs = some (a, mid) ∧ (f a).run mid = some (b, rest)
  := by
  rw [StateT.run_bind] at h
  obtain ⟨⟨a, mid⟩, hx, hf⟩ := Option.bind_eq_some_iff.mp h
  exact ⟨a, mid, hx, hf⟩

/-! ## Little-endian words -/

/-- The `k` low bytes of `n`, least significant first. -/
def toLE : ℕ → ℕ → List UInt8
  | 0, _ => []
  | k + 1, n => UInt8.ofNat n :: toLE k (n / 256)

/-- The number whose bytes, least significant first, are given. -/
def ofLE : List UInt8 → ℕ
  | [] => 0
  | b :: bs => b.toNat + 256 * ofLE bs

@[simp]
theorem length_toLE (k n : ℕ) :
  (toLE k n).length = k
  := by
  induction k generalizing n with
  | zero => rfl
  | succ k ih => simp [toLE, ih]

/-- The `k` low bytes of `n` are the number `n` modulo `256 ^ k`. -/
theorem ofLE_toLE (k n : ℕ) :
  ofLE (toLE k n) = n % 256 ^ k
  := by
  induction k generalizing n with
  | zero => simp [toLE, ofLE, Nat.mod_one]
  | succ k ih =>
    rw [toLE, ofLE, ih, pow_succ', Nat.mod_mul]
    simp

variable {k n : ℕ}

/-- A number is determined by its low bytes, up to the bytes cut off. -/
theorem ofLE_toLE_of_lt (h : n < 256 ^ k) :
  ofLE (toLE k n) = n
  := by
  rw [ofLE_toLE, Nat.mod_eq_of_lt h]

/-! ## Readers of bytes -/

/-- Read `k` bytes. -/
def takeBytes (k : ℕ) : Reader (List UInt8) :=
  fun bs => if k ≤ bs.length then some (bs.take k, bs.drop k) else none

theorem takeBytes_append (h : bs.length = k) (rest : List UInt8) :
  (takeBytes k).run (bs ++ rest) = some (bs, rest)
  := by
  subst h
  simp [takeBytes, StateT.run]

/-- Read a little-endian number of `k` bytes. -/
def readLE (k : ℕ) : Reader ℕ := do
  let bs ← takeBytes k
  return ofLE bs

theorem readLE_toLE (h : n < 256 ^ k) (rest : List UInt8) :
  (readLE k).run (toLE k n ++ rest) = some (n, rest)
  := by
  rw [readLE, run_bind_of_run (takeBytes_append (length_toLE k n) rest), ofLE_toLE_of_lt h]
  rfl

/-! ## Lists of a known length -/

/-- Read `n` values in a row. -/
def readMany {α : Type} (read : Reader α) : ℕ → Reader (List α)
  | 0 => return []
  | n + 1 => do
    let a ← read
    let as ← readMany read n
    return a :: as

variable {read : Reader α}

/-- Values written in a row are read back by reading as many values. -/
theorem readMany_flatMap
    {P : α → Prop} {write : α → List UInt8}
    (h : ∀ a, P a → ∀ rest, read.run (write a ++ rest) = some (a, rest))
    (as : List α) (hP : ∀ a ∈ as, P a) (rest : List UInt8) :
  (readMany read as.length).run (as.flatMap write ++ rest) = some (as, rest)
  := by
  induction as with
  | nil => rfl
  | cons a as ih =>
    have ha := h a (hP a List.mem_cons_self) (as.flatMap write ++ rest)
    have has := ih (fun b hb => hP b (List.mem_cons_of_mem a hb))
    rw [List.length_cons, readMany, List.flatMap_cons, List.append_assoc,
      run_bind_of_run ha, run_bind_of_run has]
    rfl

/-- The sizes of the values of a list add up to the number of bytes written for them. -/
theorem foldl_size_eq
    {size : α → UInt32} {write : α → List UInt8}
    (h : ∀ a, size a = UInt32.ofNat (write a).length) (as : List α) (n : ℕ) :
  as.foldl (fun s a => s + size a) (UInt32.ofNat n)
    = UInt32.ofNat (n + (as.flatMap write).length)
  := by
  induction as generalizing n with
  | nil => rfl
  | cons a as ih =>
    rw [List.foldl_cons, h a, ← UInt32.ofNat_add, ih, List.flatMap_cons, List.length_append,
      Nat.add_assoc]

/-! ## Loops -/

/-- Run a body for `k` indices from `n` on, passing a state along. -/
def forRange {σ : Type} (body : ℕ → σ → Reader σ) : ℕ → ℕ → σ → Reader σ
  | 0, _, s => return s
  | k + 1, n, s => do
    let s ← body n s
    forRange body k (n + 1) s

/-- The invariant rule of a loop that reads what was written for the elements of a list: the
invariant speaks of the elements that are read already. -/
theorem forRange_flatMap
    {σ : Type} (Inv : List β → σ → Prop) {body : ℕ → σ → Reader σ} {write : β → List UInt8}
    {bs : List β}
    (hstep : ∀ pre b post s, bs = pre ++ b :: post → Inv pre s → ∀ rest,
      ∃ s', (body pre.length s).run (write b ++ rest) = some (s', rest) ∧ Inv (pre ++ [b]) s')
    {s : σ} (h : Inv [] s) (rest : List UInt8) :
  ∃ s', (forRange body bs.length 0 s).run (bs.flatMap write ++ rest) = some (s', rest) ∧ Inv bs s'
  := by
  have hfrom : ∀ post pre s, bs = pre ++ post → Inv pre s →
      ∃ s', (forRange body post.length pre.length s).run (post.flatMap write ++ rest)
        = some (s', rest) ∧ Inv bs s' := by
    intro post
    induction post with
    | nil =>
      intro pre s hbs hpre
      rw [List.append_nil] at hbs
      subst hbs
      exact ⟨s, rfl, hpre⟩
    | cons b post ih =>
      intro pre s hbs hpre
      obtain ⟨s', hrun, hinv⟩ := hstep pre b post s hbs hpre (post.flatMap write ++ rest)
      obtain ⟨s'', hrest, hdone⟩ := ih (pre ++ [b]) s' (by rw [hbs, List.append_assoc]; rfl) hinv
      refine ⟨s'', ?_, hdone⟩
      rw [List.length_append] at hrest
      rw [List.length_cons, forRange, List.flatMap_cons, List.append_assoc, run_bind_of_run hrun]
      apply hrest
  exact hfrom bs [] s rfl h

/-! ## Bytes taken -/

/-- The reader takes at least `k` bytes whenever it succeeds. -/
def Takes {α : Type} (k : ℕ) (read : Reader α) : Prop :=
  ∀ bs a rest, read.run bs = some (a, rest) → rest.length + k ≤ bs.length

theorem Takes.zero (h : Takes k read) :
  Takes 0 read
  := by
  intro bs a rest hrun
  have htakes := h bs a rest hrun
  omega

theorem takes_pure (a : α) :
  Takes 0 (pure a : Reader α)
  := by
  intro bs b rest hrun
  cases hrun
  apply le_rfl

/-- A sequence of reads takes what its first part takes. -/
theorem Takes.bind
    (hx : Takes k x) (hf : ∀ a, Takes 0 (f a)) :
  Takes k (x >>= f)
  := by
  intro bs b rest hrun
  obtain ⟨a, mid, hfirst, hsecond⟩ := run_bind_eq_some hrun
  have htakes := hx bs a mid hfirst
  have htakes' := hf a mid b rest hsecond
  omega

theorem takes_takeBytes (k : ℕ) :
  Takes k (takeBytes k)
  := by
  intro bs a rest hrun
  simp only [takeBytes, StateT.run] at hrun
  split_ifs at hrun with hle
  cases hrun
  rw [List.length_drop]
  omega

theorem takes_readLE (k : ℕ) :
  Takes k (readLE k)
  := (takes_takeBytes k).bind (fun _ => takes_pure _)

/-- Reading values that take a byte at least gives no more values than bytes. -/
theorem length_of_readMany
    (h : Takes (k + 1) read) {as : List α} (hrun : (readMany read n).run bs = some (as, rest)) :
  as.length + rest.length ≤ bs.length
  := by
  induction n generalizing bs as with
  | zero =>
    cases hrun
    simp
  | succ n ih =>
    rw [readMany] at hrun
    obtain ⟨a, mid, hfirst, hrest⟩ := run_bind_eq_some hrun
    obtain ⟨as', rest', hmany, hpure⟩ := run_bind_eq_some hrest
    cases hpure
    have htakes := h bs a mid hfirst
    have hlength := ih hmany
    rw [List.length_cons]
    omega

end Codec
