import NewbMeasurements.Library.Words

/-!
The two transports of `layers.cpp`. They have the same write path, which gets
its own definitions here; each transport's write functions are those applied to
its members. Sizes are natural numbers with the subtraction of `size_t`; their
sums stay below the size of a buffer.
-/

namespace NewbMeasurements.Layers

open Words (Bytes encode)

/-- `a - b` on `size_t`. -/
def sizeSub (a b : Nat) : Nat := if b ≤ a then a - b else a + 2 ^ 64 - b

/-- The members for writing. -/
structure WritePath where
  writing : Bool := false
  written : Nat := 0
  offlineSum : Nat := 0
  sendSizes : List Nat := []
  offlineSizes : List Nat := []
  sendBuffer : Bytes := []
  offlineBuffer : Bytes := []
  deriving DecidableEq, Repr

namespace WritePath

/-- `written += send_sizes.front(); send_sizes.pop_front();`, which is undefined
on an empty queue. -/
def advance (p : WritePath) : Option WritePath :=
  match p.sendSizes with
  | [] => none
  | size :: rest => some { p with written := p.written + size, sendSizes := rest }

def prepareNextWrite (p : WritePath) : WritePath :=
  let p := { p with written := 0, sendBuffer := [], sendSizes := [] }
  if p.offlineBuffer = [] then { p with writing := false }
  else
    let offlineSizes := p.offlineSizes ++ [sizeSub p.offlineBuffer.length p.offlineSum]
    { p with
      sendBuffer := p.offlineBuffer, offlineBuffer := p.sendBuffer
      sendSizes := offlineSizes, offlineSizes := p.sendSizes
      offlineSum := 0 }

def writeSome (p : WritePath) : Option WritePath :=
  p.advance.map fun p =>
    if sizeSub p.sendBuffer.length p.written = 0 then p.prepareNextWrite else p

/-- The caller gets a reference to `offline_buffer`. -/
def wrBuf (p : WritePath) : WritePath :=
  if p.offlineBuffer = [] then p
  else
    let chunkSize := sizeSub p.offlineBuffer.length p.offlineSum
    { p with
      offlineSizes := p.offlineSizes ++ [chunkSize]
      offlineSum := p.offlineSum + chunkSize }

/-- What a caller of `wr_buf` does with the reference. -/
def append (p : WritePath) (payload : Bytes) : WritePath :=
  { p with offlineBuffer := p.offlineBuffer ++ payload }

def flush (p : WritePath) : WritePath :=
  if p.offlineBuffer ≠ [] ∧ p.writing = false then { p with writing := true }.prepareNextWrite
  else p

end WritePath

/-! ## The members for reading -/

abbrev SequenceType := UInt16

theorem toNat_sequence_succ {x : SequenceType} {n : Nat} (hx : x.toNat = n)
    (hn : n + 1 < 2 ^ 16) : (x + 1).toNat = n + 1 := by
  rw [UInt16.toNat_add, hx]
  exact Nat.mod_eq_of_lt hn

/-- A sequence number in network byte order. -/
def encodeSequence (n : SequenceType) : Bytes := [(n >>> 8).toUInt8, n.toUInt8]

/-- The sequence number in the first two bytes, or `none` where there are fewer. -/
def decodeSequence : Bytes → Option SequenceType
  | a :: b :: _ => some ((a.toUInt16 <<< 8) + b.toUInt16)
  | _ => none

@[simp] theorem length_encodeSequence (n : SequenceType) : (encodeSequence n).length = 2 := rfl

@[simp] theorem decodeSequence_encodeSequence_append (n : SequenceType) (rest : Bytes) :
    decodeSequence (encodeSequence n ++ rest) = some n := by
  have hn : n.toNat < 2 ^ 16 := n.toNat_lt
  simp only [encodeSequence, List.cons_append, decodeSequence, Option.some.injEq]
  apply UInt16.toNat_inj.mp
  simp [Nat.shiftRight_eq_div_pow, Nat.shiftLeft_eq]
  omega

def orderingHeaderLen : Nat := 2

def baspHeaderLen : Nat := 20

/-- Write to the front of a buffer; a buffer that is too small is overrun. -/
def overwrite (buffer bytes : Bytes) : Option Bytes :=
  if bytes.length ≤ buffer.length then some (bytes ++ buffer.drop bytes.length) else none

structure DummyTransport extends WritePath where
  receiveBuffer : Bytes := []
  receivedBytes : Nat := 0
  maximum : Nat := 65535
  writeSeq : Bool := false
  writeSize : Bool := false
  next : SequenceType := 0
  payloadLen : Nat
  upayloadLen : UInt32
  deriving DecidableEq, Repr

namespace DummyTransport

def init (payloadLen : Nat) : DummyTransport :=
  { payloadLen := payloadLen, upayloadLen := UInt32.ofNat payloadLen }

def readSome (t : DummyTransport) : Option DummyTransport :=
  let header := (if t.writeSeq then encodeSequence t.next else []) ++
    (if t.writeSize then encode t.upayloadLen else [])
  (overwrite t.receiveBuffer header).map fun receiveBuffer =>
    { t with
      receiveBuffer
      next := if t.writeSeq then t.next + 1 else t.next
      receivedBytes := t.payloadLen + (if t.writeSeq then orderingHeaderLen else 0) +
        (if t.writeSize then baspHeaderLen else 0) }

/-- `resize` fills up with zeros. -/
def prepareNextRead (t : DummyTransport) : DummyTransport :=
  { t with
    receivedBytes := 0
    receiveBuffer := t.receiveBuffer.take t.maximum ++
      List.replicate (t.maximum - t.receiveBuffer.length) 0 }

def writeSome (t : DummyTransport) : Option DummyTransport :=
  t.toWritePath.writeSome.map fun p => { t with toWritePath := p }

def prepareNextWrite (t : DummyTransport) : DummyTransport :=
  { t with toWritePath := t.toWritePath.prepareNextWrite }

def wrBuf (t : DummyTransport) : DummyTransport := { t with toWritePath := t.toWritePath.wrBuf }

def append (t : DummyTransport) (payload : Bytes) : DummyTransport :=
  { t with toWritePath := t.toWritePath.append payload }

def flush (t : DummyTransport) : DummyTransport := { t with toWritePath := t.toWritePath.flush }

end DummyTransport

inductive Instruction
  | next
  | skip
  | recover
  deriving DecidableEq, Repr

/-- The constructor sets no `payload_len`. -/
structure DummyOrderingTransport extends WritePath where
  receiveBuffer : Bytes := []
  receivedBytes : Nat := 0
  index : Nat := 0
  payloadLen : Nat
  nextSeq : SequenceType := 0
  instructions : List Instruction := []
  skipped : List SequenceType := []
  deriving DecidableEq, Repr

namespace DummyOrderingTransport

/-- The `switch` of `read_some`: the number that is handed out. `skip` falls
through to `next`; `recover` is undefined where nothing has been skipped. -/
def handOut (t : DummyOrderingTransport) :
    Instruction → Option (SequenceType × DummyOrderingTransport)
  | .skip => some (t.nextSeq + 1,
      { t with skipped := t.skipped ++ [t.nextSeq], nextSeq := t.nextSeq + 1 + 1 })
  | .next => some (t.nextSeq, { t with nextSeq := t.nextSeq + 1 })
  | .recover =>
    match t.skipped with
    | [] => none
    | n :: rest => some (n, { t with skipped := rest })

def readSome (t : DummyOrderingTransport) : Option DummyOrderingTransport := do
  let instruction ← t.instructions[t.index]?
  let (n, t) ← t.handOut instruction
  let receiveBuffer ← overwrite t.receiveBuffer (encodeSequence n)
  return { t with
    receiveBuffer
    receivedBytes := t.payloadLen + orderingHeaderLen
    index := if t.index + 1 ≥ t.instructions.length then 0 else t.index + 1 }

def writeSome (t : DummyOrderingTransport) : Option DummyOrderingTransport :=
  t.toWritePath.writeSome.map fun p => { t with toWritePath := p }

def prepareNextWrite (t : DummyOrderingTransport) : DummyOrderingTransport :=
  { t with toWritePath := t.toWritePath.prepareNextWrite }

def wrBuf (t : DummyOrderingTransport) : DummyOrderingTransport :=
  { t with toWritePath := t.toWritePath.wrBuf }

def append (t : DummyOrderingTransport) (payload : Bytes) : DummyOrderingTransport :=
  { t with toWritePath := t.toWritePath.append payload }

def flush (t : DummyOrderingTransport) : DummyOrderingTransport :=
  { t with toWritePath := t.toWritePath.flush }

/-- Reading does not touch the write path. -/
theorem toWritePath_readSome {t t' : DummyOrderingTransport} (h : t.readSome = some t') :
    t'.toWritePath = t.toWritePath := by
  simp only [readSome, Option.bind_eq_bind, Option.bind_eq_some_iff, Option.pure_def,
    Option.some.injEq] at h
  obtain ⟨instruction, _, ⟨n, u⟩, hu, receiveBuffer, _, rfl⟩ := h
  cases instruction with
  | next | skip =>
    cases hu
    rfl
  | recover =>
    simp only [handOut] at hu
    split at hu
    · cases hu
    · cases hu
      rfl

end DummyOrderingTransport

theorem DummyTransport.toWritePath_readSome {t t' : DummyTransport} (h : t.readSome = some t') :
    t'.toWritePath = t.toWritePath := by
  simp only [readSome, Option.map_eq_some_iff] at h
  obtain ⟨receiveBuffer, _, rfl⟩ := h
  rfl

end NewbMeasurements.Layers
