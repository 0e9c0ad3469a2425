import CorgiCoin.Serialize

/-!
# Data streams

`CDataStream` is a vector of bytes with a read position.  The bytes before the position are
kept until the stream is compacted, so that bytes read can be put back without moving the others.
What the stream holds is `content`; each operation is described by what it does to the content.
-/

namespace CorgiCoin

structure CDataStream where
  vch : Bytes
  nReadPos : ℕ
  pos_le : nReadPos ≤ vch.length

namespace CDataStream

/-- The bytes from `begin()` to `end()`. -/
def content (stream : CDataStream) : Bytes := stream.vch.drop stream.nReadPos

def size (stream : CDataStream) : ℕ := stream.vch.length - stream.nReadPos

def empty : CDataStream := ⟨[], 0, le_rfl⟩

/-- The common part of `read`, `ignore` and `erase` at the front: whenever the end is reached,
the buffer is cleared. -/
def advance (stream : CDataStream) (nSize : ℕ) : CDataStream :=
  if h : stream.vch.length ≤ stream.nReadPos + nSize then empty
  else ⟨stream.vch, stream.nReadPos + nSize, Nat.le_of_not_le h⟩

/-- `read`, `none` where it throws. -/
def read (stream : CDataStream) (nSize : ℕ) : Option (Bytes × CDataStream) :=
  if stream.nReadPos + nSize > stream.vch.length then none
  else some (stream.content.take nSize, stream.advance nSize)

/-- `insert` at `begin()`, with the special case when there is room before it. -/
def insertFront (stream : CDataStream) (bytes : Bytes) : CDataStream :=
  if h : bytes.length ≤ stream.nReadPos then
    { vch := stream.vch.take (stream.nReadPos - bytes.length)
        ++ (bytes ++ stream.vch.drop stream.nReadPos)
      nReadPos := stream.nReadPos - bytes.length
      pos_le := by
        have hpos := stream.pos_le
        simp only [List.length_append, List.length_take, List.length_drop]
        omega }
  else
    { vch := stream.vch.take stream.nReadPos ++ (bytes ++ stream.vch.drop stream.nReadPos)
      nReadPos := stream.nReadPos
      pos_le := by
        have hpos := stream.pos_le
        simp only [List.length_append, List.length_take, List.length_drop]
        omega }

/-- `Compact`. -/
def compact (stream : CDataStream) : CDataStream :=
  ⟨stream.vch.drop stream.nReadPos, 0, Nat.zero_le _⟩

/-- What the socket thread does with bytes received: `resize` and `memcpy`. -/
def append (stream : CDataStream) (bytes : Bytes) : CDataStream where
  vch := stream.vch ++ bytes
  nReadPos := stream.nReadPos
  pos_le := by
    have hpos := stream.pos_le
    rw [List.length_append]
    omega

variable (stream : CDataStream)

@[simp]
theorem content_empty : empty.content = [] := rfl

@[simp]
theorem length_content :
  stream.content.length = stream.size
  := List.length_drop

@[simp]
theorem content_advance (nSize : ℕ) :
  (stream.advance nSize).content = stream.content.drop nSize
  := by
  have hdrop : stream.content.drop nSize = stream.vch.drop (stream.nReadPos + nSize) :=
    List.drop_drop
  rw [advance, hdrop]
  split
  case isTrue h => rw [content_empty, List.drop_eq_nil_of_le h]
  case isFalse => rfl

@[simp]
theorem size_advance (nSize : ℕ) :
  (stream.advance nSize).size = stream.size - nSize
  := by
  rw [← length_content, content_advance, List.length_drop, length_content]

theorem read_of_le
    {nSize : ℕ} (h : nSize ≤ stream.size) :
  stream.read nSize = some (stream.content.take nSize, stream.advance nSize)
  := by
  have hpos := stream.pos_le
  rw [size] at h
  rw [read, if_neg]
  omega

@[simp]
theorem content_insertFront (bytes : Bytes) :
  (stream.insertFront bytes).content = bytes ++ stream.content
  := by
  have hpos := stream.pos_le
  rw [insertFront]
  split
  case isTrue h =>
    apply List.drop_left'
    simp only [List.length_take]
    omega
  case isFalse =>
    apply List.drop_left'
    simp only [List.length_take]
    omega

@[simp]
theorem content_compact :
  stream.compact.content = stream.content
  := rfl

@[simp]
theorem content_append (bytes : Bytes) :
  (stream.append bytes).content = stream.content ++ bytes
  := by
  rw [content, append, content, List.drop_append_of_le_length stream.pos_le]

end CDataStream

end CorgiCoin
