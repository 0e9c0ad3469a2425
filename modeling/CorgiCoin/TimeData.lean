import CorgiCoin.NetAddr
import CorgiCoin.Lib.OrderStatistics
import CorgiCoin.Lib.Transition
import Mathlib.Data.Finset.Insert

/-!
# The time of other nodes

`AddTimeData` gathers how far the clocks of other nodes are from ours, and moves our time by the
median of the last samples when that median is less than 35 minutes.  All of it is arithmetic in
64 bits.
-/

namespace CorgiCoin

instance linearOrderInt64 : LinearOrder Int64 where
  le_refl := Int64.le_refl
  le_trans _ _ _ := Int64.le_trans
  le_antisymm _ _ := Int64.le_antisymm
  le_total := Int64.le_total
  lt_iff_le_not_ge a b := by
    rw [Int64.lt_iff_toInt_lt, Int64.le_iff_toInt_le, Int64.le_iff_toInt_le]
    omega
  toDecidableLE := Int64.decLe
  toDecidableLT := Int64.decLt

def abs64 (n : Int64) : Int64 := if n ≥ 0 then n else -n

/-! ## The median filter -/

/-- A median filter over a stream of values, which keeps the last `nSize` of them. -/
structure CMedianFilter (T : Type) [LinearOrder T] where
  vValues : List T
  vSorted : List T
  nSize : ℕ
  vValues_ne_nil : vValues ≠ []
  vSorted_eq : vSorted = vValues.insertionSort (· ≤ ·)

namespace CMedianFilter

variable {T : Type} [LinearOrder T]

def ofInitial (size : ℕ) (initial_value : T) : CMedianFilter T where
  vValues := [initial_value]
  vSorted := [initial_value]
  nSize := size
  vValues_ne_nil := List.cons_ne_nil _ _
  vSorted_eq := rfl

variable (filter : CMedianFilter T)

/-- The values that are kept once `value` comes in: the earliest gives way in a full filter. -/
def inputValues (value : T) : List T :=
  (if filter.vValues.length = filter.nSize then filter.vValues.drop 1 else filter.vValues)
    ++ [value]

def input (value : T) : CMedianFilter T where
  vValues := filter.inputValues value
  vSorted := (filter.inputValues value).insertionSort (· ≤ ·)
  nSize := filter.nSize
  vValues_ne_nil := List.concat_ne_nil _ _
  vSorted_eq := rfl

def size : ℕ := filter.vValues.length

def sorted : List T := filter.vSorted

theorem length_vSorted : filter.vSorted.length = filter.size := by
  rw [filter.vSorted_eq, List.length_insertionSort, size]

theorem size_pos : 0 < filter.size := List.length_pos_of_ne_nil filter.vValues_ne_nil

theorem half_lt_length : filter.vSorted.length / 2 < filter.vSorted.length := by
  rw [filter.length_vSorted]
  exact Nat.div_lt_self filter.size_pos (by decide)

theorem half_pred_lt_length : filter.vSorted.length / 2 - 1 < filter.vSorted.length :=
  lt_of_le_of_lt (Nat.sub_le _ _) filter.half_lt_length

def median [Add T] [Div T] [OfNat T 2] : T :=
  let size := filter.vSorted.length
  if size % 2 = 1 then filter.vSorted.get ⟨size / 2, filter.half_lt_length⟩
  else
    (filter.vSorted.get ⟨size / 2 - 1, filter.half_pred_lt_length⟩
      + filter.vSorted.get ⟨size / 2, filter.half_lt_length⟩) / 2

/-- The median of an odd number of values is at least `m` when at most half of them are less
than `m`. -/
theorem le_median_iff [Add T] [Div T] [OfNat T 2] (h : filter.size % 2 = 1) (m : T) :
  m ≤ filter.median ↔ filter.vValues.countP (· < m) ≤ filter.size / 2
  := by
  have hodd : filter.vSorted.length % 2 = 1 := by rwa [filter.length_vSorted]
  have hsorted : filter.vSorted.Pairwise (· ≤ ·) := by
    rw [filter.vSorted_eq]
    apply List.pairwise_insertionSort
  have hperm : filter.vSorted.Perm filter.vValues := by
    rw [filter.vSorted_eq]
    apply List.perm_insertionSort
  rw [median, if_pos hodd, List.get_eq_getElem, OrderStatistics.le_getElem_iff hsorted,
    hperm.countP_eq, ← filter.length_vSorted]

end CMedianFilter

/-! ## The offset of our clock -/

/-- What `AddTimeData` keeps between its calls. -/
structure TimeData where
  nTimeOffset : Int64
  setKnown : Finset CNetAddr
  vTimeOffsets : CMedianFilter Int64
  fDone : Bool
  strMiscWarning : String

namespace TimeData

def initial : TimeData where
  nTimeOffset := 0
  setKnown := ∅
  vTimeOffsets := .ofInitial 200 0
  fDone := false
  strMiscWarning := ""

/-- A call of `AddTimeData`, with what `GetTime` returns in it. -/
structure Call where
  ip : CNetAddr
  nTime : Int64
  getTime : Int64

def Call.nOffsetSample (call : Call) : Int64 := call.nTime - call.getTime

/-- Warn once if nobody has a time different than ours but within 5 minutes of ours. -/
def warn (s : TimeData) : TimeData :=
  if s.fDone then s
  else if s.vTimeOffsets.sorted.any fun nOffset => nOffset ≠ 0 ∧ abs64 nOffset < 5 * 60 then s
  else
    { s with
      fDone := true
      strMiscWarning := "Warning: Please check that your computer's date and time are correct.  "
        ++ "If your clock is wrong CorgiCoin will not work properly." }

/-- The offset after a new sample. -/
def adjust (s : TimeData) : TimeData :=
  if s.vTimeOffsets.size ≥ 5 ∧ s.vTimeOffsets.size % 2 = 1 then
    let nMedian := s.vTimeOffsets.median
    -- only let other nodes change our time by so much
    if abs64 nMedian < 35 * 60 then { s with nTimeOffset := nMedian }
    else { s with nTimeOffset := 0 }.warn
  else s

def addTimeData (s : TimeData) (call : Call) : TimeData :=
  -- ignore duplicates
  if call.ip ∈ s.setKnown then s
  else
    { s with
      setKnown := insert call.ip s.setKnown
      vTimeOffsets := s.vTimeOffsets.input call.nOffsetSample }.adjust

/-! ## How far the clock is moved

The absolute value of the least integer is that integer itself, which passes for a small one. -/

/-- The offset lies strictly between -35 and +35 minutes. -/
def InBounds (s : TimeData) : Prop :=
  -(35 * 60) < s.nTimeOffset.toInt ∧ s.nTimeOffset.toInt < 35 * 60

theorem abs64_lt_iff (n : Int64) :
  abs64 n < 35 * 60 ↔ n = Int64.minValue ∨ (-(35 * 60) < n.toInt ∧ n.toInt < 35 * 60)
  := by
  have hbound : (35 * 60 : Int64).toInt = 35 * 60 := by decide
  have hzero : (0 : Int64).toInt = 0 := rfl
  have hsign : n ≥ 0 ↔ 0 ≤ n.toInt := Int64.le_iff_toInt_le
  by_cases hmin : n = Int64.minValue
  · subst hmin
    decide
  · rw [or_iff_right hmin, Int64.lt_iff_toInt_lt, hbound, abs64]
    split_ifs with hn
    · have hpos := hsign.mp hn
      omega
    · have hneg : (-n).toInt = -n.toInt := BitVec.toInt_neg_of_ne_intMin fun h =>
        hmin (Int64.toBitVec.inj h)
      rw [hsign] at hn
      omega

/-- At most half of the values are the least integer. -/
def FewMinimal (values : List Int64) : Prop :=
  values.count Int64.minValue ≤ values.length / 2

/-- If a call comes from a new address and makes the number of samples odd, and that at least 5,
then at most half of the samples are the least integer, the new one included. -/
def CallWithin (s : TimeData) (call : Call) : Prop :=
  call.ip ∉ s.setKnown →
    let values := s.vTimeOffsets.inputValues call.nOffsetSample
    5 ≤ values.length → values.length % 2 = 1 → FewMinimal values

theorem lt_succ_minValue_iff (n : Int64) : n < Int64.minValue + 1 ↔ n = Int64.minValue
  := by
  have hlow := n.minValue_le_toInt
  have hsucc : (Int64.minValue + 1).toInt = Int64.minValue.toInt + 1 := by decide
  rw [← Int64.toInt_inj, Int64.lt_iff_toInt_lt, hsucc]
  omega

/-- The median of an odd number of values is the least integer unless few of the values are. -/
theorem median_ne_minValue_iff {filter : CMedianFilter Int64} (h : filter.size % 2 = 1) :
  filter.median ≠ Int64.minValue ↔ FewMinimal filter.vValues
  := by
  have hcount : filter.vValues.countP (· < Int64.minValue + 1)
      = filter.vValues.count Int64.minValue := by
    apply List.countP_congr
    intro n hn
    rw [decide_eq_true_iff, lt_succ_minValue_iff, beq_iff_eq]
  rw [← not_iff_not, not_not, ← lt_succ_minValue_iff, ← not_le, filter.le_median_iff h, hcount]
  rfl

theorem warn_nTimeOffset (s : TimeData) : s.warn.nTimeOffset = s.nTimeOffset
  := by
  rw [warn]
  split_ifs <;> rfl

/-- An adjustment keeps the bounds exactly when it does not take the least integer for the
offset. -/
theorem inBounds_adjust_iff {s : TimeData} (hs : s.InBounds) :
  s.adjust.InBounds ↔
    (5 ≤ s.vTimeOffsets.size → s.vTimeOffsets.size % 2 = 1 →
      FewMinimal s.vTimeOffsets.vValues)
  := by
  rw [adjust]
  by_cases hsize : s.vTimeOffsets.size ≥ 5 ∧ s.vTimeOffsets.size % 2 = 1
  · rw [if_pos hsize, forall_prop_of_true hsize.1, forall_prop_of_true hsize.2,
      ← median_ne_minValue_iff hsize.2]
    dsimp only
    split_ifs with hmedian
    · rcases (abs64_lt_iff _).mp hmedian with hmin | hbounds
      · have hout : ¬(-(35 * 60) < Int64.minValue.toInt ∧ Int64.minValue.toInt < 35 * 60) := by
          decide
        rw [hmin]
        apply iff_of_false hout (not_not_intro rfl)
      · apply iff_of_true hbounds
        intro hmin
        rw [hmin] at hbounds
        apply absurd hbounds (by decide)
    · have hzero : -(35 * 60) < (0 : Int64).toInt ∧ (0 : Int64).toInt < 35 * 60 := by decide
      rw [InBounds, warn_nTimeOffset]
      apply iff_of_true hzero
      intro hmin
      apply hmedian ((abs64_lt_iff _).mpr (Or.inl hmin))
  · rw [if_neg hsize]
    apply iff_of_true hs
    intro hfive hodd
    apply absurd ⟨hfive, hodd⟩ hsize

theorem inBounds_addTimeData_iff (s : TimeData) (call : Call) (hs : s.InBounds) :
  (s.addTimeData call).InBounds ↔ s.CallWithin call
  := by
  rw [addTimeData, CallWithin]
  split_ifs with hknown
  · apply iff_of_true hs (absurd hknown)
  · rw [forall_prop_of_true hknown]
    apply @inBounds_adjust_iff { s with
      setKnown := insert call.ip s.setKnown
      vTimeOffsets := s.vTimeOffsets.input call.nOffsetSample } hs

/-- Over any calls, the offset stays within 35 minutes exactly when at most half of the samples
that a median is taken of are the least integer, each time that one is taken. -/
theorem addTimeData_inBounds_iff (calls : List Call) :
  (∀ n, (Transition.run addTimeData initial (calls.take n)).InBounds) ↔
    Transition.Along addTimeData CallWithin initial calls
  := by
  apply Transition.forall_take_iff_along inBounds_addTimeData_iff
  rw [InBounds]
  decide

/-- The call of a node at the address `10.0.0.b`, with a time that is the least integer away from
ours. -/
def farCall (b : UInt8) (getTime : Int64) : Call where
  ip := ⟨pchIPv4 ++ [10, 0, 0, b], rfl⟩
  nTime := Int64.minValue + getTime
  getTime := getTime

/-- Four nodes move the clock by the least integer. -/
theorem addTimeData_outOfBounds :
  ¬∀ calls : List Call, ∀ n,
    (Transition.run addTimeData initial (calls.take n)).InBounds
  := by
  intro h
  have hfour := (h [farCall 1 1700000000, farCall 2 1700000000, farCall 3 1700000000,
    farCall 4 1700000000] 4).1
  revert hfour
  decide

end TimeData

end CorgiCoin
