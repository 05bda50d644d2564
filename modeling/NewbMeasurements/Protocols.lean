import NewbMeasurements.Actors
import NewbMeasurements.NewbOrdering

/-!
The protocol layers of the bundled CAF that the measured programs stack on each
other: `raw`, the two BASP layers, `ordering` and `reliability`, each of the last
two on top of any other layer. A layer is a record of its member functions; what
it asks of its `parent` is a list of requests, in source order.
-/

namespace NewbMeasurements.Protocols

open Words (Bytes encode decode)
open Layers (SequenceType encodeSequence decodeSequence orderingHeaderLen baspHeaderLen overwrite)
open NewbOrdering (Pending isGreater)
open Actors (Atom)

/-! ## What layers have in common -/

/-- `encoding_table` -/
def encodingTable (c : Char) : UInt64 :=
  if '0' ≤ c ∧ c ≤ '9' then UInt64.ofNat (c.toNat - 47)
  else if 'A' ≤ c ∧ c ≤ 'Z' then UInt64.ofNat (c.toNat - 54)
  else if c = '_' then 37
  else if 'a' ≤ c ∧ c ≤ 'z' then UInt64.ofNat (c.toNat - 59)
  else 0

/-- `atom_val`, six bits for each character. -/
def atomVal (cs : List Char) : UInt64 := cs.foldl (fun v c => v <<< 6 ||| encodingTable c) 0xF

def orderingAtom : Atom := .layer (atomVal ['o', 'r', 'd', 'e', 'r', 'i', 'n', 'g'])

def reliabilityAtom : Atom :=
  .layer (atomVal ['r', 'e', 'l', 'i', 'a', 'b', 'i', 'l', 'i', 't'])

inductive Sec
  | unexpectedMessage
  | runtimeError
  deriving DecidableEq, Repr

inductive ReceivePolicyFlag
  | atLeast
  | atMost
  | exactly
  deriving DecidableEq, Repr

/-- `receive_policy::config` -/
structure ReceiveConfig where
  flag : ReceivePolicyFlag
  size : Nat
  deriving DecidableEq, Repr

/-- A request of a layer to its parent. `packet` is `wr_buf()`, the bytes that go
into the buffer, and `flush()`. A delay is in milliseconds. -/
inductive Request (μ : Type)
  | packet (bytes : Bytes)
  | setTimeout (delay : Nat) (atm : Atom) (id : UInt32)
  | configureRead (config : ReceiveConfig)
  | handle (msg : μ)
  deriving DecidableEq, Repr

/-- What a call leaves behind. -/
structure Outcome (σ μ : Type) where
  state : σ
  requests : List (Request μ) := []
  error : Option Sec := none
  deriving DecidableEq, Repr

/-- The member functions of a layer. A header writer is the bytes that it appends;
the functions for writing are undefined where a layer needs one and gets none, or
where a buffer is overrun. -/
structure Layer (σ μ : Type) where
  init : Outcome σ μ
  read : σ → Bytes → Outcome σ μ
  timeout : σ → Atom → UInt32 → Outcome σ μ
  writeHeader : σ → Bytes → Option Bytes → Option (σ × Bytes)
  prepareForSending : σ → Bytes → Nat → Nat → Nat → Option (Outcome σ μ × Bytes)

variable {σ τ μ : Type}

namespace Outcome

/-- Put the state of an inner layer into that of an outer one. -/
def map (f : σ → τ) (r : Outcome σ μ) : Outcome τ μ :=
  { state := f r.state, requests := r.requests, error := r.error }

/-- Go on after a call unless it has returned an error. -/
def andThen (r : Outcome σ μ) (f : σ → Outcome σ μ) : Outcome σ μ :=
  match r.error with
  | some _ => r
  | none => { f r.state with requests := r.requests ++ (f r.state).requests }

/-- The messages that have been handed to the actor. -/
def handled (r : Outcome σ μ) : List μ :=
  r.requests.filterMap fun
    | .handle msg => some msg
    | _ => none

end Outcome

/-- `newb::wr_buf(hw)`, a payload that the caller puts into the buffer, and the
destructor of the `write_handle` up to its `flush`. The buffer may hold other
datagrams already. -/
def Layer.write (L : Layer σ μ) (s : σ) (buf : Bytes) (hw : Option Bytes) (payload : Bytes) :
    Option (Outcome σ μ × Bytes) := do
  let headerStart := buf.length
  let (s, buf) ← L.writeHeader s buf hw
  let headerLen := buf.length - headerStart
  let buf := buf ++ payload
  L.prepareForSending s buf headerStart 0 (buf.length - (headerStart + headerLen))

/-! ## `raw` -/

def raw : Layer Unit Bytes where
  init := { state := () }
  read _ bytes := { state := (), requests := [.handle bytes] }
  timeout _ _ _ := { state := () }
  writeHeader s buf _ := some (s, buf)
  prepareForSending s buf _ _ _ := some ({ state := s }, buf)

/-! ## BASP -/

/-- A `uint64_t` in network byte order. -/
def encode64 (x : UInt64) : Bytes := encode (x >>> 32).toUInt32 ++ encode x.toUInt32

def decode64 (bytes : Bytes) : Option UInt64 := do
  let high ← decode bytes
  let low ← decode (bytes.drop 4)
  return (high.toUInt64 <<< 32) + low.toUInt64

structure BaspHeader where
  payloadLen : UInt32 := 0
  fromId : UInt64 := 0
  toId : UInt64 := 0
  deriving DecidableEq, Repr

def encodeBasp (h : BaspHeader) : Bytes :=
  encode h.payloadLen ++ encode64 h.fromId ++ encode64 h.toId

def decodeBasp (bytes : Bytes) : Option BaspHeader := do
  let payloadLen ← decode bytes
  let fromId ← decode64 (bytes.drop 4)
  let toId ← decode64 (bytes.drop 12)
  return { payloadLen, fromId, toId }

structure NewBaspMsg where
  header : BaspHeader
  payload : Bytes
  deriving DecidableEq, Repr

/-- Both BASP layers leave the header to the caller. -/
def baspWriteHeader (s : σ) (buf : Bytes) (hw : Option Bytes) : Option (σ × Bytes) :=
  hw.map fun header => (s, buf ++ header)

/-- The length of the payload goes to the front of the header. -/
def baspPrepareForSending (s : σ) (buf : Bytes) (hstart offset plen : Nat) :
    Option (Outcome σ μ × Bytes) :=
  (overwrite (buf.drop (hstart + offset)) (encode (UInt32.ofNat plen))).map fun patched =>
    ({ state := s }, buf.take (hstart + offset) ++ patched)

def datagramBasp : Layer Unit NewBaspMsg where
  init := { state := () }
  read _ bytes :=
    if bytes.length < baspHeaderLen then { state := (), error := some .unexpectedMessage }
    else
      match decodeBasp bytes with
      | none => { state := (), error := some .unexpectedMessage }
      | some header =>
        if bytes.length - baspHeaderLen < header.payloadLen.toNat then
          { state := (), error := some .unexpectedMessage }
        else
          { state := ()
            requests := [.handle ⟨header, (bytes.drop baspHeaderLen).take header.payloadLen.toNat⟩] }
  timeout _ _ _ := { state := () }
  writeHeader := baspWriteHeader
  prepareForSending := baspPrepareForSending

/-- The header of the message that is being read. -/
structure StreamBasp where
  header : BaspHeader := {}
  expectingHeader : Bool := true
  deriving DecidableEq, Repr

namespace StreamBasp

def readHeader (s : StreamBasp) (bytes : Bytes) : Outcome StreamBasp NewBaspMsg :=
  if bytes.length < baspHeaderLen then { state := s, error := some .unexpectedMessage }
  else
    match decodeBasp bytes with
    | none => { state := s, error := some .unexpectedMessage }
    | some header =>
      { state := { header, expectingHeader := false }
        requests := [.configureRead ⟨.exactly, header.payloadLen.toNat⟩] }

def readPayload (s : StreamBasp) (bytes : Bytes) : Outcome StreamBasp NewBaspMsg :=
  if bytes.length < s.header.payloadLen.toNat then
    { state := s, error := some .unexpectedMessage }
  else
    { state := { s with expectingHeader := true }
      requests := [.handle ⟨s.header, bytes.take s.header.payloadLen.toNat⟩,
        .configureRead ⟨.exactly, baspHeaderLen⟩] }

end StreamBasp

def streamBasp : Layer StreamBasp NewBaspMsg where
  init := { state := {}, requests := [.configureRead ⟨.exactly, baspHeaderLen⟩] }
  read s bytes := if s.expectingHeader then s.readHeader bytes else s.readPayload bytes
  timeout s _ _ := { state := s }
  writeHeader := baspWriteHeader
  prepareForSending := baspPrepareForSending

/-! ## `ordering` -/

/-- The members of `ordering`. -/
structure OrderingState (σ : Type) extends NewbOrdering.Ordering where
  seqWrite : SequenceType := 0
  maxPendingMessages : Nat
  useTimeouts : Bool
  next : σ
  deriving DecidableEq, Repr

namespace OrderingState

/-- `pending_to` -/
def pendingTo : Nat := 100

variable (next : Layer σ μ)

/-- The loop of `deliver_pending`, with as many rounds as there are entries at most. -/
def deliverPending : Nat → OrderingState σ → Outcome (OrderingState σ) μ
  | 0, o => { state := o }
  | rounds + 1, o =>
    match o.pending.find? (Pending.same o.seqRead) with
    | none => { state := o }
    | some entry =>
      ((next.read o.next entry.2).map fun s =>
        { o with
          next := s
          pending := o.pending.eraseP (Pending.same o.seqRead)
          seqRead := o.seqRead + 1 }).andThen (deliverPending rounds)

/-- The timeout that `add_pending` sets. -/
def pendingTimeout (o : OrderingState σ) (seq : SequenceType) : List (Request μ) :=
  if o.useTimeouts then [.setTimeout pendingTo orderingAtom seq.toUInt32] else []

def addPending (o : OrderingState σ) (bytes : Bytes) (seq : SequenceType) :
    Outcome (OrderingState σ) μ :=
  let pending := Pending.insert seq (bytes.drop orderingHeaderLen) o.pending
  match pending with
  | [] => { state := { o with pending }, requests := o.pendingTimeout seq }
  | first :: _ =>
    if pending.length > o.maxPendingMessages then
      let r := deliverPending next pending.length { o with pending, seqRead := first.1 }
      { r with requests := o.pendingTimeout seq ++ r.requests }
    else { state := { o with pending }, requests := o.pendingTimeout seq }

/-- The error of `add_pending` is dropped. -/
def read (o : OrderingState σ) (bytes : Bytes) : Outcome (OrderingState σ) μ :=
  match decodeSequence bytes with
  | none => { state := o, error := some .unexpectedMessage }
  | some seq =>
    if seq = o.seqRead then
      ((next.read o.next (bytes.drop orderingHeaderLen)).map fun s =>
        { o with next := s, seqRead := o.seqRead + 1 }).andThen fun o =>
          deliverPending next o.pending.length o
    else if isGreater seq o.seqRead then { addPending next o bytes seq with error := none }
    else { state := o }

def timeout (o : OrderingState σ) (atm : Atom) (id : UInt32) : Outcome (OrderingState σ) μ :=
  if atm = orderingAtom then
    if o.pending.any (Pending.same id.toUInt16) then
      deliverPending next o.pending.length { o with seqRead := id.toUInt16 }
    else { state := o }
  else (next.timeout o.next atm id).map fun s => { o with next := s }

end OrderingState

/-- `init` turns the timeouts on. -/
def ordering (maxPendingMessages : Nat) (next : Layer σ μ) : Layer (OrderingState σ) μ where
  init := next.init.map fun s => { maxPendingMessages, useTimeouts := true, next := s }
  read := OrderingState.read next
  timeout := OrderingState.timeout next
  writeHeader o buf hw :=
    (next.writeHeader o.next (buf ++ encodeSequence o.seqWrite) hw).map fun (s, buf) =>
      ({ o with seqWrite := o.seqWrite + 1, next := s }, buf)
  prepareForSending o buf hstart offset plen :=
    (next.prepareForSending o.next buf hstart (offset + orderingHeaderLen) plen).map
      fun (r, buf) => (r.map fun s => { o with next := s }, buf)

/-! ## `reliability` -/

abbrev IdType := UInt16

structure ReliabilityHeader where
  id : IdType
  isAck : Bool
  deriving DecidableEq, Repr

def reliabilityHeaderLen : Nat := 3

def encodeReliability (h : ReliabilityHeader) : Bytes :=
  encodeSequence h.id ++ [if h.isAck then 1 else 0]

/-- Any byte but 0 is a true `bool`. -/
def decodeReliability : Bytes → Option ReliabilityHeader
  | a :: b :: c :: _ => (decodeSequence [a, b]).map fun id => ⟨id, c ≠ 0⟩
  | _ => none

/-- `unacked`, as the list of its entries. -/
abbrev Unacked := List (IdType × Bytes)

/-- An id that is there already keeps its packet. -/
def Unacked.emplace (id : IdType) (packet : Bytes) (u : Unacked) : Unacked :=
  if u.any (·.1 = id) then u else u ++ [(id, packet)]

def Unacked.erase (id : IdType) (u : Unacked) : Unacked := u.filter (·.1 ≠ id)

/-- The members of `reliability`. -/
structure ReliabilityState (σ : Type) where
  idWrite : IdType := 0
  unacked : Unacked := []
  next : σ
  deriving DecidableEq, Repr

namespace ReliabilityState

/-- `retransmit_to` -/
def retransmitTo : Nat := 40

variable (next : Layer σ μ)

def read (s : ReliabilityState σ) (bytes : Bytes) : Outcome (ReliabilityState σ) μ :=
  match decodeReliability bytes with
  | none => { state := s, error := some .unexpectedMessage }
  | some header =>
    if header.isAck then { state := { s with unacked := s.unacked.erase header.id } }
    else
      let r := next.read s.next (bytes.drop reliabilityHeaderLen)
      { state := { s with next := r.state }
        requests := .packet (encodeReliability ⟨header.id, true⟩) :: r.requests
        error := r.error }

def timeout (s : ReliabilityState σ) (atm : Atom) (id : UInt32) : Outcome (ReliabilityState σ) μ :=
  if atm = reliabilityAtom then
    match s.unacked.lookup id.toUInt16 with
    | some packet =>
      { state := s
        requests := [.packet packet,
          .setTimeout retransmitTo reliabilityAtom id.toUInt16.toUInt32] }
    | none => { state := s }
  else (next.timeout s.next atm id).map fun n => { s with next := n }

def prepareForSending (s : ReliabilityState σ) (buf : Bytes) (hstart offset plen : Nat) :
    Option (Outcome (ReliabilityState σ) μ × Bytes) :=
  (next.prepareForSending s.next buf hstart (offset + reliabilityHeaderLen) plen).map
    fun (r, buf) =>
      ({ state :=
          { idWrite := s.idWrite + 1
            unacked := s.unacked.emplace s.idWrite (buf.drop hstart)
            next := r.state }
         requests := r.requests ++ [.setTimeout retransmitTo reliabilityAtom s.idWrite.toUInt32]
         error := r.error }, buf)

end ReliabilityState

def reliability (next : Layer σ μ) : Layer (ReliabilityState σ) μ where
  init := next.init.map fun s => { next := s }
  read := ReliabilityState.read next
  timeout := ReliabilityState.timeout next
  writeHeader s buf hw :=
    (next.writeHeader s.next (buf ++ encodeReliability ⟨s.idWrite, false⟩) hw).map
      fun (n, buf) => ({ s with next := n }, buf)
  prepareForSending := ReliabilityState.prepareForSending next

end NewbMeasurements.Protocols
