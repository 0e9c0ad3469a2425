import CorgiCoin.AuxPow
import CorgiCoin.BlockIndex
import CorgiCoin.DataStream
import Mathlib.Data.List.Induction

/-!
# Message framing

`ProcessMessages` cuts the bytes received from a peer into messages: it scans for the message
start, reads a header, waits for the body and checks its checksum.  It runs after each read of
the socket, on what is in the buffer then, which the socket thread keeps far below `2 ^ 31` bytes
by disconnecting a peer that floods it.  A message may make `ProcessMessage` close the socket, which
also clears the buffer; a closed socket is not read.  The second part says what one turn of its loop
does to the contents of the buffer; the result of a run depends on the bytes received only, not on
how they were cut into reads.
-/

namespace CorgiCoin

/-- The size of a header: message start, command, size and checksum. -/
def nHeaderSize : ℕ := 24

/-- `pchMessageStart` of each network. -/
def Network.pchMessageStart : Network → Bytes
  | .main => [0xc0, 0xc0, 0xc0, 0xc0]
  | .test => [0xfc, 0xc1, 0xb7, 0xdc]
  | .regtest => [0xfa, 0xc0, 0xb6, 0xda]

structure CMessageHeader where
  pchMessageStart : Bytes
  pchCommand : Bytes
  nMessageSize : UInt32
  nChecksum : UInt32

namespace CMessageHeader

/-- `vRecv >> hdr`, `none` where it throws. -/
def unserialize (vRecv : CDataStream) : Option (CMessageHeader × CDataStream) := do
  let (pchMessageStart, vRecv) ← vRecv.read 4
  let (pchCommand, vRecv) ← vRecv.read 12
  let (nMessageSize, vRecv) ← vRecv.read 4
  let (nChecksum, vRecv) ← vRecv.read 4
  return (⟨pchMessageStart, pchCommand, UInt32.ofNat (Codec.ofLE nMessageSize),
    UInt32.ofNat (Codec.ofLE nChecksum)⟩, vRecv)

/-- The command up to its first zero, or all of it if it does not end in a zero. -/
def getCommand (hdr : CMessageHeader) : Bytes :=
  if hdr.pchCommand.getLast? = some 0 then hdr.pchCommand.takeWhile (· != 0)
  else hdr.pchCommand

/-- A printable command, with nothing but zeros after the first zero. -/
def commandValid (pchCommand : Bytes) : Bool :=
  (pchCommand.takeWhile (· != 0)).all (fun c => 0x20 ≤ c && c ≤ 0x7e)
    && (pchCommand.dropWhile (· != 0)).all (· == 0)

def isValid (network : Network) (hdr : CMessageHeader) : Bool :=
  if hdr.pchMessageStart != network.pchMessageStart then false
  else if !commandValid hdr.pchCommand then false
  else if hdr.nMessageSize.toNat > MAX_SIZE then false
  else true

end CMessageHeader

/-- What `ProcessMessage` is called with. -/
structure Message where
  strCommand : Bytes
  vMsg : Bytes

/-- What a node keeps of a peer: the receive buffer, whether the socket has been closed
(`hSocket == INVALID_SOCKET`), and the messages handed to `ProcessMessage` so far. -/
structure Connection where
  vRecv : CDataStream
  fClosed : Bool
  handled : List Message

namespace Connection

/-- A new connection. -/
def opened : Connection := ⟨CDataStream.empty, false, []⟩

/-- `CloseSocketDisconnect`; closing a socket again leaves the buffer alone. -/
def closeSocketDisconnect (pnode : Connection) : Connection :=
  if pnode.fClosed then pnode else { pnode with vRecv := CDataStream.empty, fClosed := true }

end Connection

/-- What `ProcessMessages` learns of the rest of the node after some messages: whether the send
buffer is too full, and whether `ProcessMessage` of the last one closed the socket, as `Misbehaving`
does at the ban score. -/
structure Responses where
  fSendFull : List Message → Bool
  fCloses : List Message → Bool

section Definitions

variable (crypto : Crypto) (network : Network) (responses : Responses)

/-- The first four bytes of `Hash` of the body, as a number. -/
def nChecksumOf (body : Bytes) : UInt32 := UInt32.ofNat (crypto.hash body).toNat

/-- Where the scan for the message start ends: at it, or at the end of the buffer. -/
def pstart (buffer : Bytes) : ℕ := (search network.pchMessageStart buffer).getD buffer.length

/-- `ProcessMessage` of the next message. -/
def Connection.processMessage (pnode : Connection) (msg : Message) : Connection :=
  let pnode := { pnode with handled := pnode.handled ++ [msg] }
  if responses.fCloses pnode.handled then pnode.closeSocketDisconnect else pnode

/-- The loop of `ProcessMessages`.  Each turn that goes on takes a header off the buffer, so that
the size of the buffer is fuel enough. -/
def processLoop : ℕ → Connection → Connection
  | 0, pnode => pnode
  | fuel + 1, pnode =>
    if responses.fSendFull pnode.handled then pnode
    else
      let vRecv := pnode.vRecv
      let nStart := pstart network vRecv.content
      if vRecv.size - nStart < nHeaderSize then
        { pnode with
          vRecv :=
            if vRecv.size > nHeaderSize then vRecv.advance (vRecv.size - nHeaderSize) else vRecv }
      else
        let vRecv := vRecv.advance nStart
        let vHeaderSave := vRecv.content.take nHeaderSize
        match CMessageHeader.unserialize vRecv with
        | none => { pnode with vRecv := vRecv }
        | some (hdr, vRecv) =>
          if !hdr.isValid network then processLoop fuel { pnode with vRecv := vRecv }
          else if hdr.nMessageSize.toNat > MAX_SIZE then processLoop fuel { pnode with vRecv := vRecv }
          else if hdr.nMessageSize.toNat > vRecv.size then
            -- rewind and wait for the rest of the message
            { pnode with vRecv := vRecv.insertFront vHeaderSave }
          else
            let vMsg := vRecv.content.take hdr.nMessageSize.toNat
            if nChecksumOf crypto vMsg != hdr.nChecksum then
              processLoop fuel { pnode with vRecv := vRecv }
            else
              let pnode := { pnode with vRecv := vRecv.advance hdr.nMessageSize.toNat }
              processLoop fuel (pnode.processMessage responses ⟨hdr.getCommand, vMsg⟩)

def processMessages (pnode : Connection) : Connection :=
  if pnode.vRecv.size = 0 then pnode
  else
    let pnode := processLoop crypto network responses pnode.vRecv.size pnode
    { pnode with vRecv := pnode.vRecv.compact }

/-- A read of the socket, unless it is closed, with `ProcessMessages` after it. -/
def receive (pnode : Connection) (bytes : Bytes) : Connection :=
  processMessages crypto network responses
    (if pnode.fClosed then pnode else { pnode with vRecv := pnode.vRecv.append bytes })

end Definitions

/-! ## Searching -/

section Search

variable {needle hay : Bytes}

/-- Where a search ends: at the first place where the bytes searched for stand. -/
theorem search_eq_some_iff (hne : needle ≠ []) {pc : ℕ} :
  search needle hay = some pc ↔ needle <+: hay.drop pc ∧ ∀ i < pc, ¬needle <+: hay.drop i
  := by
  induction hay generalizing pc with
  | nil =>
    rw [search, if_neg (by simpa using hne)]
    simp [hne]
  | cons b hay ih =>
    rw [search]
    split
    case isTrue h =>
      rw [List.isPrefixOf_iff_prefix] at h
      rw [Option.some_inj]
      constructor
      · rintro rfl
        exact ⟨h, fun i hi => absurd hi (Nat.not_lt_zero i)⟩
      · rintro ⟨-, hfirst⟩
        by_contra hpc
        exact hfirst 0 (Nat.pos_of_ne_zero (Ne.symm hpc)) h
    case isFalse h =>
      rw [List.isPrefixOf_iff_prefix] at h
      rw [Option.map_eq_some_iff]
      constructor
      · rintro ⟨pc, hpc, rfl⟩
        obtain ⟨hhere, hfirst⟩ := ih.mp hpc
        refine ⟨hhere, ?_⟩
        intro i hi
        cases i with
        | zero => apply h
        | succ i => apply hfirst i (Nat.lt_of_succ_lt_succ hi)
      · rintro ⟨hhere, hfirst⟩
        cases pc with
        | zero => exact absurd hhere h
        | succ pc =>
          refine ⟨pc, ih.mpr ⟨hhere, ?_⟩, rfl⟩
          intro i hi
          apply hfirst (i + 1) (Nat.succ_lt_succ hi)

theorem search_eq_none_iff (hne : needle ≠ []) :
  search needle hay = none ↔ ∀ i, ¬needle <+: hay.drop i
  := by
  constructor
  · intro hnone i
    induction i using Nat.strong_induction_on with
    | _ i ih =>
      -- the first place where the bytes stand would be found
      intro hi
      have hsome := (search_eq_some_iff hne).mpr ⟨hi, ih⟩
      rw [hnone] at hsome
      cases hsome
  · intro h
    cases hsearch : search needle hay with
    | none => rfl
    | some pc => exact absurd ((search_eq_some_iff hne).mp hsearch).1 (h pc)

/-- A search that finds nothing in the first `d` places goes on from there. -/
theorem search_drop
    (hne : needle ≠ []) {d : ℕ} (h : ∀ i < d, ¬needle <+: hay.drop i) :
  search needle hay = (search needle (hay.drop d)).map (· + d)
  := by
  cases hsearch : search needle (hay.drop d) with
  | none =>
    rw [search_eq_none_iff hne] at hsearch
    rw [Option.map_none, search_eq_none_iff hne]
    intro i
    by_cases hi : i < d
    · apply h i hi
    · have hrest := hsearch (i - d)
      rwa [List.drop_drop, Nat.add_sub_cancel' (Nat.le_of_not_lt hi)] at hrest
  | some pc =>
    rw [search_eq_some_iff hne, List.drop_drop] at hsearch
    rw [Option.map_some, search_eq_some_iff hne, Nat.add_comm]
    refine ⟨hsearch.1, ?_⟩
    intro i hi
    by_cases hid : i < d
    · apply h i hid
    · have hrest := hsearch.2 (i - d) (by omega)
      rwa [List.drop_drop, Nat.add_sub_cancel' (Nat.le_of_not_lt hid)] at hrest

/-- The bytes searched for stand in a longer string where they stand in its first part. -/
theorem prefix_drop_append_iff
    {i : ℕ} (rest : Bytes) (h : i + needle.length ≤ hay.length) :
  needle <+: (hay ++ rest).drop i ↔ needle <+: hay.drop i
  := by
  rw [List.drop_append_of_le_length (by omega)]
  constructor
  · intro hprefix
    apply List.prefix_of_prefix_length_le hprefix (List.prefix_append _ rest)
    rw [List.length_drop]
    omega
  · intro hprefix
    apply hprefix.trans (List.prefix_append _ rest)

end Search

/-! ## One turn of the loop -/

/-- What a turn of the loop makes of the contents of the buffer. -/
inductive Frame where
  /-- It stops, and leaves these bytes. -/
  | wait (left : Bytes)
  /-- It rejects a header and goes on behind it. -/
  | skip (rest : Bytes)
  /-- It hands over a message and goes on behind it. -/
  | message (msg : Message) (rest : Bytes)

/-- The header at the front of a string of bytes. -/
def headerOf (bytes : Bytes) : CMessageHeader where
  pchMessageStart := bytes.take 4
  pchCommand := (bytes.drop 4).take 12
  nMessageSize := UInt32.ofNat (Codec.ofLE ((bytes.drop 16).take 4))
  nChecksum := UInt32.ofNat (Codec.ofLE ((bytes.drop 20).take 4))

section Frames

variable (crypto : Crypto) (network : Network)

/-- What a turn does with a header and the bytes behind it. -/
def frameOf (hdr : CMessageHeader) (bytes rest : Bytes) : Frame :=
  if !hdr.isValid network then .skip rest
  else if hdr.nMessageSize.toNat > rest.length then .wait bytes
  else
    let vMsg := rest.take hdr.nMessageSize.toNat
    if nChecksumOf crypto vMsg != hdr.nChecksum then .skip rest
    else .message ⟨hdr.getCommand, vMsg⟩ (rest.drop hdr.nMessageSize.toNat)

def frame (buffer : Bytes) : Frame :=
  let nStart := pstart network buffer
  if buffer.length - nStart < nHeaderSize then
    .wait (buffer.drop (buffer.length - nHeaderSize))
  else
    let bytes := buffer.drop nStart
    frameOf crypto network (headerOf bytes) bytes (bytes.drop nHeaderSize)

/-- The messages in a buffer, and the bytes left. -/
def scan : ℕ → Bytes → List Message × Bytes
  | 0, buffer => ([], buffer)
  | fuel + 1, buffer =>
    match frame crypto network buffer with
    | .wait left => ([], left)
    | .skip rest => scan fuel rest
    | .message msg rest => (msg :: (scan fuel rest).1, (scan fuel rest).2)

def scanAll (buffer : Bytes) : List Message × Bytes :=
  scan crypto network buffer.length buffer

variable {crypto network}

/-! ### The loop and its turns -/

theorem unserialize_eq
    {vRecv : CDataStream} (h : nHeaderSize ≤ vRecv.size) :
  CMessageHeader.unserialize vRecv
    = some (headerOf vRecv.content, (((vRecv.advance 4).advance 12).advance 4).advance 4)
  := by
  rw [nHeaderSize] at h
  have hstart : vRecv.read 4 = some (vRecv.content.take 4, vRecv.advance 4) :=
    vRecv.read_of_le (by omega)
  have hcommand := @CDataStream.read_of_le (vRecv.advance 4) 12
    (by simp only [CDataStream.size_advance]; omega)
  have hsize := @CDataStream.read_of_le ((vRecv.advance 4).advance 12) 4
    (by simp only [CDataStream.size_advance]; omega)
  have hchecksum := @CDataStream.read_of_le (((vRecv.advance 4).advance 12).advance 4) 4
    (by simp only [CDataStream.size_advance]; omega)
  simp only [CMessageHeader.unserialize, hstart, hcommand, hsize, hchecksum,
    Option.bind_eq_bind, Option.bind_some]
  simp [headerOf, List.drop_drop]

theorem isValid_of_size
    {hdr : CMessageHeader} (h : hdr.isValid network = true) :
  ¬hdr.nMessageSize.toNat > MAX_SIZE
  := by
  rw [CMessageHeader.isValid] at h
  split_ifs at h with _ _ hsize
  exact hsize

/-- The messages that are handed over, after some others, up to one that closes the socket, and
whether there is one. -/
def upToClose (fCloses : List Message → Bool) : List Message → List Message → List Message × Bool
  | handled, [] => (handled, false)
  | handled, msg :: msgs =>
    if fCloses (handled ++ [msg]) then (handled ++ [msg], true)
    else upToClose fCloses (handled ++ [msg]) msgs

theorem upToClose_append (fCloses : List Message → Bool) (handled msgs msgs' : List Message) :
  upToClose fCloses handled (msgs ++ msgs')
    = if (upToClose fCloses handled msgs).2 then upToClose fCloses handled msgs
      else upToClose fCloses (upToClose fCloses handled msgs).1 msgs'
  := by
  induction msgs generalizing handled with
  | nil => simp [upToClose]
  | cons msg msgs ih =>
    rw [List.cons_append, upToClose, upToClose]
    by_cases hcloses : fCloses (handled ++ [msg]) = true
    · rw [if_pos hcloses, if_pos hcloses, if_pos rfl]
    · rw [if_neg hcloses, if_neg hcloses, ih]

/-- A connection after the turns of a scan: the messages it found were handed over until one closed
the socket, and without one the bytes it left are in the buffer. -/
def Scanned (responses : Responses) (handled : List Message) (scanned : List Message × Bytes)
    (pnode : Connection) : Prop :=
  (pnode.handled, pnode.fClosed) = upToClose responses.fCloses handled scanned.1
    ∧ pnode.vRecv.content = if pnode.fClosed then [] else scanned.2

variable {responses : Responses} {pnode : Connection}

/-- The loop leaves a connection without bytes as it is. -/
theorem processLoop_of_empty
    (h : pnode.vRecv = CDataStream.empty) (fuel : ℕ) :
  processLoop crypto network responses fuel pnode = pnode
  := by
  cases fuel with
  | zero => rfl
  | succ fuel =>
    have hshort : CDataStream.empty.size - pstart network CDataStream.empty.content < nHeaderSize := by
      change 0 - _ < 24
      omega
    obtain ⟨vRecv, fClosed, handled⟩ := pnode
    change vRecv = _ at h
    subst h
    rw [processLoop]
    split_ifs with hfull
    · rfl
    · dsimp only
      rw [if_pos hshort, if_neg (by decide)]

/-- The loop of the source goes through the turns of `scan`. -/
theorem processLoop_eq
    (crypto : Crypto) (network : Network)
    (hfull : ∀ handled, responses.fSendFull handled = false) (fuel : ℕ) (pnode : Connection)
    (hopen : pnode.fClosed = false) :
  Scanned responses pnode.handled (scan crypto network fuel pnode.vRecv.content)
    (processLoop crypto network responses fuel pnode)
  := by
  induction fuel generalizing pnode with
  | zero =>
    refine ⟨by rw [processLoop, hopen]; rfl, ?_⟩
    rw [processLoop, hopen]
    rfl
  | succ fuel ih =>
    obtain ⟨vRecv, fClosed, handled⟩ := pnode
    cases hopen
    rw [processLoop, scan, frame]
    simp only [hfull, Bool.false_eq_true, if_false, CDataStream.length_content]
    by_cases hshort : vRecv.size - pstart network vRecv.content < nHeaderSize
    · simp only [hshort, if_true]
      refine ⟨rfl, ?_⟩
      simp only [Bool.false_eq_true, if_false]
      split
      case isTrue => rw [CDataStream.content_advance]
      case isFalse hsmall => rw [Nat.sub_eq_zero_of_le (Nat.le_of_not_lt hsmall), List.drop_zero]
    · simp only [hshort, if_false]
      have hsize : nHeaderSize ≤ (vRecv.advance (pstart network vRecv.content)).size := by
        rw [CDataStream.size_advance]
        omega
      simp only [unserialize_eq hsize]
      generalize hrest : ((((vRecv.advance (pstart network vRecv.content)).advance 4).advance
        12).advance 4).advance 4 = rest
      simp only [CDataStream.content_advance]
      generalize hbytes : vRecv.content.drop (pstart network vRecv.content) = bytes
      have hcontent : rest.content = bytes.drop nHeaderSize := by
        rw [← hrest]
        simp only [CDataStream.content_advance, hbytes, List.drop_drop]
        rfl
      rw [frameOf]
      cases hvalid : (headerOf bytes).isValid network with
      | false =>
        simp only [Bool.not_false, if_true, ← hcontent]
        exact ih ⟨rest, false, handled⟩ rfl
      | true =>
        simp only [Bool.not_true, Bool.false_eq_true, if_false, isValid_of_size hvalid,
          ← hcontent, CDataStream.length_content]
        by_cases hwait : (headerOf bytes).nMessageSize.toNat > rest.size
        · simp only [hwait, if_true]
          refine ⟨rfl, ?_⟩
          simp only [Bool.false_eq_true, if_false]
          rw [CDataStream.content_insertFront, hcontent, List.take_append_drop]
        · simp only [hwait, if_false]
          by_cases hchecksum : nChecksumOf crypto
              (rest.content.take (headerOf bytes).nMessageSize.toNat) != (headerOf bytes).nChecksum
          · simp only [hchecksum, if_true]
            exact ih ⟨rest, false, handled⟩ rfl
          · simp only [hchecksum, Bool.false_eq_true, if_false]
            generalize (⟨(headerOf bytes).getCommand,
              rest.content.take (headerOf bytes).nMessageSize.toNat⟩ : Message) = msg
            rw [Connection.processMessage]
            dsimp only
            by_cases hcloses : responses.fCloses (handled ++ [msg]) = true
            · -- the rest of the buffer is cleared
              rw [if_pos hcloses, Connection.closeSocketDisconnect, if_neg Bool.false_ne_true,
                processLoop_of_empty rfl]
              refine ⟨?_, rfl⟩
              rw [upToClose, if_pos hcloses]
            · rw [if_neg hcloses, ← CDataStream.content_advance]
              obtain ⟨hhandled, hleft⟩ :=
                ih ⟨rest.advance (headerOf bytes).nMessageSize.toNat, false, handled ++ [msg]⟩ rfl
              refine ⟨?_, hleft⟩
              rw [upToClose, if_neg hcloses]
              exact hhandled

/-! ### Turns on a longer buffer -/

theorem length_pchMessageStart (network : Network) :
  network.pchMessageStart.length = 4
  := by
  cases network with
  | main => rfl
  | test => rfl
  | regtest => rfl

theorem pchMessageStart_ne_nil (network : Network) :
  network.pchMessageStart ≠ []
  := List.ne_nil_of_length_pos (by rw [length_pchMessageStart]; decide)

variable {buffer : Bytes}

/-- Before the end of the scan there is no message start. -/
theorem not_prefix_of_lt_pstart
    {i : ℕ} (h : i < pstart network buffer) :
  ¬network.pchMessageStart <+: buffer.drop i
  := by
  rw [pstart] at h
  cases hsearch : search network.pchMessageStart buffer with
  | none => apply (search_eq_none_iff (pchMessageStart_ne_nil network)).mp hsearch
  | some pc =>
    rw [hsearch, Option.getD_some] at h
    apply ((search_eq_some_iff (pchMessageStart_ne_nil network)).mp hsearch).2 i h

/-- Bytes at the front of the buffer without a message start can be dropped, as long as a header
remains. -/
theorem frame_drop
    {d : ℕ} (hd : d + nHeaderSize ≤ buffer.length)
    (h : ∀ i < d, ¬network.pchMessageStart <+: buffer.drop i) :
  frame crypto network (buffer.drop d) = frame crypto network buffer
  := by
  have hstart : pstart network buffer = pstart network (buffer.drop d) + d := by
    rw [pstart, pstart, search_drop (pchMessageStart_ne_nil network) h, List.length_drop]
    cases search network.pchMessageStart (buffer.drop d) with
    | none =>
      simp only [Option.map_none, Option.getD_none]
      omega
    | some pc => rfl
  have hwait : d + (buffer.length - d - nHeaderSize) = buffer.length - nHeaderSize := by
    omega
  rw [frame, frame]
  simp only [List.drop_drop, hstart, List.length_drop, Nat.add_comm _ d]
  rw [hwait, Nat.sub_sub]

/-- A message start stands in a longer buffer where it stands in its first part. -/
theorem pstart_append
    (h : nHeaderSize ≤ buffer.length - pstart network buffer) (more : Bytes) :
  pstart network (buffer ++ more) = pstart network buffer
  := by
  rw [nHeaderSize] at h
  rw [pstart] at h ⊢
  rw [pstart]
  cases hsearch : search network.pchMessageStart buffer with
  | none =>
    rw [hsearch, Option.getD_none] at h
    omega
  | some pc =>
    have hne := pchMessageStart_ne_nil network
    rw [hsearch, Option.getD_some] at h
    obtain ⟨hhere, hfirst⟩ := (search_eq_some_iff hne).mp hsearch
    have hlength := length_pchMessageStart network
    have hsome : search network.pchMessageStart (buffer ++ more) = some pc := by
      rw [search_eq_some_iff hne]
      constructor
      · rw [prefix_drop_append_iff more (by omega)]
        apply hhere
      · intro i hi
        rw [prefix_drop_append_iff more (by omega)]
        apply hfirst i hi
    rw [hsome, Option.getD_some, Option.getD_some]

/-- Before the end of the scan of its first part, a longer buffer has no message start either. -/
theorem not_prefix_append
    {d : ℕ} (hd : d + nHeaderSize ≤ buffer.length) (h : d ≤ pstart network buffer) (more : Bytes) :
  ∀ i < d, ¬network.pchMessageStart <+: (buffer ++ more).drop i
  := by
  intro i hi
  have hlength := length_pchMessageStart network
  rw [nHeaderSize] at hd
  rw [prefix_drop_append_iff more (by omega)]
  apply not_prefix_of_lt_pstart (hi.trans_le h)

theorem headerOf_append
    {bytes : Bytes} (h : nHeaderSize ≤ bytes.length) (more : Bytes) :
  headerOf (bytes ++ more) = headerOf bytes
  := by
  rw [nHeaderSize] at h
  rw [headerOf, headerOf, List.take_append_of_le_length (by omega),
    List.drop_append_of_le_length (by omega), List.drop_append_of_le_length (by omega),
    List.drop_append_of_le_length (by omega),
    List.take_append_of_le_length (by rw [List.length_drop]; omega),
    List.take_append_of_le_length (by rw [List.length_drop]; omega),
    List.take_append_of_le_length (by rw [List.length_drop]; omega)]

/-- What a turn does with a header on a longer buffer. -/
theorem frameOf_append
    (crypto : Crypto) (network : Network) (hdr : CMessageHeader) (bytes rest more : Bytes) :
  match frameOf crypto network hdr bytes rest with
  | .wait left => left = bytes
  | .skip rest' =>
    frameOf crypto network hdr (bytes ++ more) (rest ++ more) = .skip (rest' ++ more)
  | .message msg rest' =>
    frameOf crypto network hdr (bytes ++ more) (rest ++ more) = .message msg (rest' ++ more)
  := by
  rw [frameOf, frameOf]
  cases hdr.isValid network with
  | false => simp only [Bool.not_false, if_true]
  | true =>
    simp only [Bool.not_true, Bool.false_eq_true, if_false]
    by_cases hwait : hdr.nMessageSize.toNat > rest.length
    · simp only [hwait, if_true]
    · have hbody := Nat.le_of_not_lt hwait
      have hwait' : ¬hdr.nMessageSize.toNat > (rest ++ more).length := by
        rw [List.length_append]
        omega
      simp only [hwait, hwait', if_false]
      rw [List.take_append_of_le_length hbody, List.drop_append_of_le_length hbody]
      by_cases hchecksum : nChecksumOf crypto (rest.take hdr.nMessageSize.toNat) != hdr.nChecksum
      · simp only [hchecksum, if_true]
      · simp only [hchecksum, Bool.false_eq_true, if_false]

/-- A turn that goes on behind a header or a message does the same on a longer buffer; where it
waits, it might as well have started with the bytes it left. -/
theorem frame_append
    (crypto : Crypto) (network : Network) (buffer more : Bytes) :
  match frame crypto network buffer with
  | .wait left => frame crypto network (left ++ more) = frame crypto network (buffer ++ more)
  | .skip rest => frame crypto network (buffer ++ more) = .skip (rest ++ more)
  | .message msg rest => frame crypto network (buffer ++ more) = .message msg (rest ++ more)
  := by
  by_cases hshort : buffer.length - pstart network buffer < nHeaderSize
  · have hframe : frame crypto network buffer
        = .wait (buffer.drop (buffer.length - nHeaderSize)) := if_pos hshort
    rw [hframe]
    dsimp only
    by_cases hsmall : buffer.length ≤ nHeaderSize
    · rw [Nat.sub_eq_zero_of_le hsmall, List.drop_zero]
    · have hd : buffer.length - nHeaderSize + nHeaderSize ≤ buffer.length := by omega
      rw [← List.drop_append_of_le_length (Nat.sub_le _ _)]
      apply frame_drop
      · rw [List.length_append]
        omega
      · apply not_prefix_append hd
        omega
  · have hlong := Nat.le_of_not_lt hshort
    generalize hbytes : buffer.drop (pstart network buffer) = bytes
    have hlength : nHeaderSize ≤ bytes.length := by
      rw [← hbytes, List.length_drop]
      apply hlong
    have hle : pstart network buffer ≤ buffer.length := by
      rw [nHeaderSize] at hlong
      omega
    have hframe : frame crypto network buffer
        = frameOf crypto network (headerOf bytes) bytes (bytes.drop nHeaderSize) := by
      rw [frame]
      simp only [hshort, if_false, hbytes]
    have hmore : frame crypto network (buffer ++ more)
        = frameOf crypto network (headerOf bytes) (bytes ++ more)
          (bytes.drop nHeaderSize ++ more) := by
      rw [frame]
      simp only [pstart_append hlong]
      rw [if_neg, List.drop_append_of_le_length hle, hbytes, headerOf_append hlength,
        List.drop_append_of_le_length hlength]
      rw [List.length_append]
      omega
    have hdrop : frame crypto network (bytes ++ more) = frame crypto network (buffer ++ more) := by
      rw [← hbytes, ← List.drop_append_of_le_length hle]
      apply frame_drop
      · rw [List.length_append]
        omega
      · apply not_prefix_append (by omega) le_rfl
    have hturn := frameOf_append crypto network (headerOf bytes) bytes (bytes.drop nHeaderSize)
      more
    rw [hframe, hmore]
    cases hcase : frameOf crypto network (headerOf bytes) bytes (bytes.drop nHeaderSize) with
    | wait left =>
      rw [hcase] at hturn
      dsimp only at hturn ⊢
      rw [hturn, hdrop, hmore]
    | skip rest =>
      rw [hcase] at hturn
      apply hturn
    | message msg rest =>
      rw [hcase] at hturn
      apply hturn

/-! ### Whole buffers -/

/-- A turn that goes on takes a header off the buffer. -/
theorem length_of_frame
    (crypto : Crypto) (network : Network) (buffer : Bytes) :
  match frame crypto network buffer with
  | .wait _ => True
  | .skip rest => rest.length < buffer.length
  | .message _ rest => rest.length < buffer.length
  := by
  by_cases hshort : buffer.length - pstart network buffer < nHeaderSize
  · have hframe : frame crypto network buffer
        = .wait (buffer.drop (buffer.length - nHeaderSize)) := if_pos hshort
    rw [hframe]
    trivial
  · rw [frame]
    simp only [hshort, if_false]
    have hrest : ((buffer.drop (pstart network buffer)).drop nHeaderSize).length
        < buffer.length := by
      rw [nHeaderSize] at hshort
      rw [List.length_drop, List.length_drop, nHeaderSize]
      omega
    simp only [frameOf]
    generalize (buffer.drop (pstart network buffer)).drop nHeaderSize = rest at *
    generalize headerOf (buffer.drop (pstart network buffer)) = hdr
    split_ifs
    · apply hrest
    · trivial
    · apply hrest
    · dsimp only
      rw [List.length_drop]
      omega

theorem frame_nil (crypto : Crypto) (network : Network) :
  frame crypto network [] = .wait []
  := if_pos (by rw [List.length_nil, Nat.zero_sub]; decide)

/-- The size of the buffer is fuel enough. -/
theorem scan_eq_of_le
    {fuel fuel' : ℕ} (h : buffer.length ≤ fuel) (h' : buffer.length ≤ fuel') :
  scan crypto network fuel buffer = scan crypto network fuel' buffer
  := by
  induction fuel generalizing fuel' buffer with
  | zero =>
    obtain rfl := List.length_eq_zero_iff.mp (Nat.le_zero.mp h)
    cases fuel' with
    | zero => rfl
    | succ fuel' => rw [scan, scan, frame_nil]
  | succ fuel ih =>
    cases fuel' with
    | zero =>
      obtain rfl := List.length_eq_zero_iff.mp (Nat.le_zero.mp h')
      rw [scan, scan, frame_nil]
    | succ fuel' =>
      have hless := length_of_frame crypto network buffer
      rw [scan, scan]
      cases hframe : frame crypto network buffer with
      | wait left => rfl
      | skip rest =>
        rw [hframe] at hless
        apply ih (by omega) (by omega)
      | message msg rest =>
        rw [hframe] at hless
        dsimp only at hless ⊢
        rw [ih (by omega : rest.length ≤ fuel) (by omega : rest.length ≤ fuel')]

/-- The messages of a buffer, turn by turn. -/
theorem scanAll_eq (buffer : Bytes) :
  scanAll crypto network buffer
    = match frame crypto network buffer with
      | .wait left => ([], left)
      | .skip rest => scanAll crypto network rest
      | .message msg rest =>
        (msg :: (scanAll crypto network rest).1, (scanAll crypto network rest).2)
  := by
  have hless := length_of_frame crypto network buffer
  rw [scanAll, scan_eq_of_le le_rfl (Nat.le_succ _), scan]
  cases hframe : frame crypto network buffer with
  | wait left => rfl
  | skip rest =>
    rw [hframe] at hless
    apply scan_eq_of_le hless.le le_rfl
  | message msg rest =>
    rw [hframe] at hless
    dsimp only at hless ⊢
    rw [scanAll, scan_eq_of_le hless.le le_rfl]

/-- Scanning a buffer, and scanning what is left of it again once more bytes have come, finds
what scanning all the bytes at once finds. -/
theorem scanAll_append (buffer more : Bytes) :
  scanAll crypto network (buffer ++ more)
    = ((scanAll crypto network buffer).1
        ++ (scanAll crypto network ((scanAll crypto network buffer).2 ++ more)).1,
      (scanAll crypto network ((scanAll crypto network buffer).2 ++ more)).2)
  := by
  induction hlength : buffer.length using Nat.strong_induction_on generalizing buffer with
  | _ n ih =>
    subst hlength
    have happend := frame_append crypto network buffer more
    have hless := length_of_frame crypto network buffer
    rw [scanAll_eq buffer, scanAll_eq (buffer ++ more)]
    cases hframe : frame crypto network buffer with
    | wait left =>
      rw [hframe] at happend
      rw [← happend, ← scanAll_eq]
      rfl
    | skip rest =>
      rw [hframe] at happend hless
      rw [happend]
      apply ih rest.length hless rest rfl
    | message msg rest =>
      rw [hframe] at happend hless
      rw [happend]
      dsimp only at hless ⊢
      rw [ih rest.length hless rest rfl]
      rfl

/-! ## Runs -/

/-- A read with `ProcessMessages` after it scans the bytes left with those that came. -/
theorem receive_eq
    (hfull : ∀ handled, responses.fSendFull handled = false)
    (hopen : pnode.fClosed = false) (bytes : Bytes) :
  Scanned responses pnode.handled (scanAll crypto network (pnode.vRecv.content ++ bytes))
    (receive crypto network responses pnode bytes)
  := by
  obtain ⟨vRecv, fClosed, handled⟩ := pnode
  cases hopen
  rw [receive, if_neg Bool.false_ne_true, processMessages, ← CDataStream.content_append]
  dsimp only
  generalize vRecv.append bytes = vRecv
  split
  case isTrue hempty =>
    have hnil : vRecv.content = [] := by
      rw [← List.length_eq_zero_iff, CDataStream.length_content, hempty]
    rw [hnil, scanAll_eq, frame_nil]
    exact ⟨rfl, hnil⟩
  case isFalse =>
    obtain ⟨hhandled, hleft⟩ :=
      processLoop_eq crypto network hfull vRecv.size ⟨vRecv, false, handled⟩ rfl
    rw [← CDataStream.length_content] at hhandled hleft
    refine ⟨?_, ?_⟩
    · rw [← CDataStream.length_content]
      exact hhandled
    · rw [CDataStream.content_compact, ← CDataStream.length_content]
      exact hleft

/-- After the socket is closed nothing more is read. -/
theorem receive_of_closed
    (hclosed : pnode.fClosed = true) (hempty : pnode.vRecv.content = []) (bytes : Bytes) :
  receive crypto network responses pnode bytes = pnode
  := by
  have hsize : pnode.vRecv.size = 0 := by
    rw [← CDataStream.length_content, hempty, List.length_nil]
  rw [receive, if_pos hclosed, processMessages, if_pos hsize]

/-- A run of reads finds what scanning all the bytes at once finds. -/
theorem foldl_receive
    (crypto : Crypto) (network : Network)
    (hfull : ∀ handled, responses.fSendFull handled = false) (reads : List Bytes) :
  Scanned responses [] (scanAll crypto network reads.flatten)
    (reads.foldl (receive crypto network responses) Connection.opened)
  := by
  induction reads using List.reverseRecOn with
  | nil =>
    rw [List.flatten_nil, scanAll_eq, frame_nil]
    exact ⟨rfl, rfl⟩
  | append_singleton reads bytes ih =>
    rw [List.foldl_append, List.foldl_cons, List.foldl_nil, List.flatten_append,
      List.flatten_singleton, scanAll_append]
    generalize reads.foldl (receive crypto network responses) Connection.opened = pnode at *
    obtain ⟨hhandled, hleft⟩ := ih
    rw [Scanned, upToClose_append, ← hhandled]
    cases hclosed : pnode.fClosed with
    | true =>
      rw [hclosed, if_pos rfl] at hleft
      rw [receive_of_closed hclosed hleft, hclosed]
      exact ⟨rfl, hleft⟩
    | false =>
      rw [hclosed, if_neg Bool.false_ne_true] at hleft
      rw [← hleft]
      exact receive_eq hfull hclosed bytes

/-- Framing does not depend on how the bytes arrive: two ways of cutting a stream into reads,
with `ProcessMessages` run after each, hand over the same messages and leave the same bytes, as
long as the send buffer does not fill. -/
theorem framing_split_independent
    (crypto : Crypto) (network : Network) (responses : Responses)
    (hfull : ∀ handled, responses.fSendFull handled = false) (reads reads' : List Bytes)
    (hsame : reads.flatten = reads'.flatten) :
  let pnode := reads.foldl (receive crypto network responses) Connection.opened
  let pnode' := reads'.foldl (receive crypto network responses) Connection.opened
  pnode.handled = pnode'.handled ∧ pnode.fClosed = pnode'.fClosed
    ∧ pnode.vRecv.content = pnode'.vRecv.content
  := by
  obtain ⟨hhandled, hleft⟩ := foldl_receive crypto network hfull reads
  obtain ⟨hhandled', hleft'⟩ := foldl_receive crypto network hfull reads'
  rw [← hsame] at hhandled' hleft'
  obtain ⟨heq, hclosed⟩ := Prod.mk.inj (hhandled.trans hhandled'.symm)
  exact ⟨heq, hclosed, by rw [hleft, hleft', hclosed]⟩

/-- The answers of a node that closes the socket at the first message. -/
def closesAtOnce : Responses := ⟨fun _ => false, fun _ => true⟩

/-- A `verack` message behind a byte of garbage and before another one, in one read and cut within
its header, where the first closes the socket. -/
theorem verack_split_independent :
  let verack : Bytes :=
    [0xc0, 0x76, 0x65, 0x72, 0x61, 0x63, 0x6b, 0, 0, 0, 0, 0, 0, 0, 0, 0, 0, 0, 0, 0, 0]
  let pnode := [[1, 0xc0, 0xc0], 0xc0 :: verack, [0xc0, 0xc0, 0xc0] ++ verack].foldl
    (receive sampleCrypto .main closesAtOnce) Connection.opened
  let pnode' := [[1, 0xc0, 0xc0, 0xc0] ++ verack ++ [0xc0, 0xc0, 0xc0] ++ verack].foldl
    (receive sampleCrypto .main closesAtOnce) Connection.opened
  pnode.handled = pnode'.handled ∧ pnode.fClosed = pnode'.fClosed
    ∧ pnode.vRecv.content = pnode'.vRecv.content
  := framing_split_independent sampleCrypto .main closesAtOnce (fun _ => rfl) _ _ (by decide)

end Frames

end CorgiCoin
