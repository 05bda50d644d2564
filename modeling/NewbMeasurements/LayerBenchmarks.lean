import NewbMeasurements.LayerLaws
import NewbMeasurements.Draining

/-!
The benchmarks `BM_send` and `BM_receive` of `layers.cpp`: a newb with one of the
protocol stacks on top of `dummy_transport`. Sending writes a packet, flushes it and
lets the transport write once; receiving reads until the actor has got a message.
Both are to do the same work in every iteration, however many there are.
-/

namespace NewbMeasurements.LayerBenchmarks

open Words (Bytes encode length_encode)
open Layers
open Protocols

variable {σ μ α : Type}

/-- The newb of a benchmark. `received` is the `dummy_state`; `handled`, `emitted` and
`events` record what has happened. -/
structure Bench (σ μ : Type) where
  transport : DummyTransport
  layer : σ
  received : Bool := false
  handled : List μ := []
  emitted : List Bytes := []
  events : Nat := 0
  deriving DecidableEq, Repr

namespace Bench

/-- Timeouts are dropped, and `configure_read` of the transport does nothing. -/
def request (b : Bench σ μ) : Request μ → Bench σ μ
  | .packet bytes => { b with transport := (b.transport.wrBuf.append bytes).flush }
  | .handle msg => { b with received := true, handled := b.handled ++ [msg] }
  | .setTimeout _ _ _ | .configureRead _ => b

def perform (b : Bench σ μ) (rs : List (Request μ)) : Bench σ μ := rs.foldl request b

variable (L : Layer σ μ)

/-- `wr_buf`, the payload, and the end of the `write_handle`. -/
def write (b : Bench σ μ) (hw : Option Bytes) (payload : Bytes) : Option (Bench σ μ) :=
  let transport := b.transport.wrBuf
  (L.write b.layer transport.offlineBuffer hw payload).map fun (r, buf) =>
    let b := { b with
      transport := { transport with offlineBuffer := buf }
      layer := r.state }.perform r.requests
    { b with transport := b.transport.flush }

def writeEvent (b : Bench σ μ) : Option (Bench σ μ) :=
  b.transport.writeSome.map fun transport =>
    { b with transport, emitted := b.emitted ++ [b.transport.toWritePath.emission] }

/-- With `max_consecutive_reads` of 1 it reads once. It is `none` where the layers look
beyond the end of the receive buffer, and where they refuse the datagram. -/
def readEvent (b : Bench σ μ) : Option (Bench σ μ) := do
  let transport ← b.transport.readSome
  let b := { b with transport, events := b.events + 1 }
  if transport.receivedBytes = 0 then some b
  else if transport.receiveBuffer.length < transport.receivedBytes then none
  else
    let r := L.read b.layer (transport.receiveBuffer.take transport.receivedBytes)
    match r.error with
    | some _ => none
    | none =>
      let b := { b with layer := r.state }.perform r.requests
      some { b with transport := b.transport.prepareNextRead }

/-- `while (!received) read_event();` with a bound on its rounds. -/
def readLoop : Nat → Bench σ μ → Option (Bench σ μ)
  | 0, _ => none
  | rounds + 1, b => if b.received then some b else (b.readEvent L).bind (readLoop rounds)

/-- The newb before the loop of a benchmark: its protocol is initialised, and
`newb::start` prepares the first read. -/
def start (transport : DummyTransport) : Bench σ μ :=
  let b := ({ transport, layer := L.init.state } : Bench σ μ).perform L.init.requests
  { b with transport := b.transport.prepareNextRead }

/-! ## `BM_send` -/

/-- The header that the benchmarks pass to `wr_buf`, and their payload. -/
def header : Bytes := encodeBasp {}

def payload (packetSize : Nat) : Bytes := List.replicate packetSize 97

def sendIteration (packetSize : Nat) (b : Bench σ μ) : Option (Bench σ μ) :=
  (b.write L (some header) (payload packetSize)).bind writeEvent

def bmSend (packetSize : Nat) : Nat → Option (Bench σ μ)
  | 0 => some (start L (.init packetSize))
  | k + 1 => (bmSend packetSize k).bind (sendIteration L packetSize)

/-! ## `BM_receive` -/

def prepare (wseq wsize : Bool) (packetSize : Nat) : Option (Bench σ μ) :=
  let transport := { DummyTransport.init packetSize with writeSeq := wseq, writeSize := wsize }
  ((start L transport).write L (some header) (payload packetSize)).map fun b =>
    { b with transport := { b.transport with receiveBuffer := b.transport.sendBuffer } }

def receiveIteration (rounds : Nat) (b : Bench σ μ) : Option (Bench σ μ) :=
  readLoop L rounds { b with received := false }

def bmReceiveImpl (wseq wsize : Bool) (packetSize rounds : Nat) : Nat → Option (Bench σ μ)
  | 0 => prepare L wseq wsize packetSize
  | k + 1 => (bmReceiveImpl wseq wsize packetSize rounds k).bind (receiveIteration L rounds)

end Bench

/-! ## Sending -/

open Bench

/-- A write to an idle transport that is written at once leaves it idle. -/
theorem writeSome_alone {frame : Bytes} (hframe : frame ≠ []) :
    ({ offlineBuffer := frame } : WritePath).flush.writeSome = some {} ∧
      ({ offlineBuffer := frame } : WritePath).flush.emission = frame := by
  cases frame with
  | nil => exact absurd rfl hframe
  | cons b bs =>
    simp [WritePath.flush, WritePath.prepareNextWrite, WritePath.writeSome, WritePath.advance,
      WritePath.emission, sizeSub]

theorem sendIteration_eq {L : Layer σ μ} (F : Framing L α) {x : α} {packetSize : Nat}
    (hhw : F.hw x = some header) (hpayload : F.payload x = payload packetSize) {b : Bench σ μ}
    (hidle : b.transport.toWritePath = {}) (hframe : F.frame b.layer x ≠ []) :
    sendIteration L packetSize b = some { b with
      layer := F.closed b.layer x
      emitted := b.emitted ++ [F.frame b.layer x] } := by
  have hwrite := F.write b.layer x []
  rw [hhw, hpayload, List.nil_append] at hwrite
  obtain ⟨hsome, hemission⟩ := writeSome_alone hframe
  obtain ⟨transport, layer, received, handled, emitted, events⟩ := b
  obtain ⟨path, receiveBuffer, receivedBytes, maximum, writeSeq, writeSize, next, payloadLen,
    upayloadLen⟩ := transport
  simp only at hidle
  subst hidle
  simp only [sendIteration, Bench.write, DummyTransport.wrBuf, WritePath.wrBuf, if_true] at hwrite ⊢
  rw [hwrite]
  simp only [Option.map_some, Option.bind_some, perform, List.foldl_nil, writeEvent,
    DummyTransport.flush, DummyTransport.writeSome]
  rw [hsome, hemission]
  rfl

/-- What the requests of a call without packets do to the newb. -/
theorem perform_eq {rs : List (Request μ)} (h : packets rs = []) (b : Bench σ μ) :
    b.perform rs = { b with
      received := b.received || !(Outcome.mk b.layer rs none).handled.isEmpty
      handled := b.handled ++ (Outcome.mk b.layer rs none).handled } := by
  induction rs generalizing b with
  | nil => simp [perform, Outcome.handled]
  | cons r rs ih =>
    cases r with
    | packet bytes => cases h
    | handle msg =>
      rw [perform, List.foldl_cons, ← perform, ih h]
      simp [request, Outcome.handled]
    | setTimeout delay atm id =>
      rw [perform, List.foldl_cons, ← perform, ih h]
      simp [request, Outcome.handled]
    | configureRead config =>
      rw [perform, List.foldl_cons, ← perform, ih h]
      simp [request, Outcome.handled]

/-- How a stack frames the packet of `BM_send`: the states that it goes through, and
the frames that it makes. -/
structure SendPlan (L : Layer σ μ) (packetSize : Nat) (α : Type) where
  framing : Framing L α
  x : α
  state : Nat → σ
  frame : Nat → Bytes
  hw : framing.hw x = some header
  payload : framing.payload x = payload packetSize
  quiet : packets L.init.requests = []
  init : state 0 = L.init.state
  closed : ∀ k, framing.closed (state k) x = state (k + 1)
  frame_eq : ∀ k, framing.frame (state k) x = frame k

namespace SendPlan

variable {L : Layer σ μ} {packetSize : Nat}

/-- Any number of iterations sends one frame each, and leaves nothing behind. -/
theorem exists_bmSend (P : SendPlan L packetSize α) (hframe : ∀ k, P.frame k ≠ []) (k : Nat) :
    ∃ b, bmSend L packetSize k = some b ∧ b.layer = P.state k ∧
      b.transport.toWritePath = {} ∧ b.emitted = (List.range k).map P.frame := by
  induction k with
  | zero =>
    refine ⟨_, rfl, ?_, ?_, ?_⟩ <;> rw [start, perform_eq P.quiet]
    · exact P.init.symm
    · rfl
    · rfl
  | succ k ih =>
    obtain ⟨b, hb, hlayer, hidle, hemitted⟩ := ih
    have hne : P.framing.frame b.layer P.x ≠ [] := by
      rw [hlayer, P.frame_eq]
      exact hframe k
    rw [bmSend, hb, Option.bind_some, sendIteration_eq P.framing P.hw P.payload hidle hne]
    refine ⟨_, rfl, ?_, hidle, ?_⟩
    · show P.framing.closed b.layer P.x = _
      rw [hlayer, P.closed]
    · rw [List.range_succ, List.map_append, ← hemitted, hlayer, P.frame_eq]
      rfl

/-- `raw` ignores the header writer. -/
def raw (packetSize : Nat) : SendPlan Protocols.raw packetSize Bytes where
  framing := { Framing.raw with
    hw := fun _ => some header
    writeHeader := fun s x buf => by
      show some (s, buf) = some (s, buf ++ [])
      rw [List.append_nil] }
  x := Bench.payload packetSize
  state _ := ()
  frame _ := Bench.payload packetSize
  hw := rfl
  payload := rfl
  quiet := rfl
  init := rfl
  closed _ := rfl
  frame_eq _ := rfl

/-- The frame of both BASP layers. -/
def baspFrame (packetSize : Nat) : Bytes :=
  encodeBasp { payloadLen := UInt32.ofNat packetSize } ++ Bench.payload packetSize

def basp (L : Layer σ NewBaspMsg) (hw : L.writeHeader = baspWriteHeader)
    (hp : L.prepareForSending = baspPrepareForSending) (hquiet : packets L.init.requests = [])
    (packetSize : Nat) : SendPlan L packetSize (BaspHeader × Bytes) where
  framing := Framing.basp L hw hp
  x := ({}, Bench.payload packetSize)
  state _ := L.init.state
  frame _ := baspFrame packetSize
  hw := rfl
  payload := rfl
  quiet := hquiet
  init := rfl
  closed _ := rfl
  frame_eq _ := by
    show encodeBasp { payloadLen := UInt32.ofNat (Bench.payload packetSize).length } ++ _ = _
    rw [Bench.payload, List.length_replicate]
    rfl

/-- `ordering` counts the packets, up to its wrap. -/
def ordering (P : SendPlan L packetSize α) (maxPendingMessages : Nat) :
    SendPlan (Protocols.ordering maxPendingMessages L) packetSize α where
  framing := P.framing.ordering maxPendingMessages
  x := P.x
  state k :=
    { maxPendingMessages, useTimeouts := true, seqWrite := UInt16.ofNat k, next := P.state k }
  frame k := encodeSequence (UInt16.ofNat k) ++ P.frame k
  hw := P.hw
  payload := P.payload
  quiet := P.quiet
  init := by
    rw [P.init]
    rfl
  closed k := by
    simp only [Framing.ordering, P.closed, InOrder.ofNat_succ]
  frame_eq k := by
    show encodeSequence _ ++ P.framing.frame (P.state k) P.x = _
    rw [P.frame_eq]

end SendPlan

/-- Any number of iterations of `BM_send` sends the frames of as many packets, one at a
time, and leaves the transport idle. -/
def Sends (L : Layer σ μ) (packetSize : Nat) (frame : Nat → Bytes) : Prop :=
  ∀ k, ∃ b, bmSend L packetSize k = some b ∧ b.emitted = (List.range k).map frame ∧
    b.transport.toWritePath = {}

theorem SendPlan.sends {L : Layer σ μ} {packetSize : Nat} (P : SendPlan L packetSize α)
    (hframe : ∀ k, P.frame k ≠ []) : Sends L packetSize P.frame := by
  intro k
  obtain ⟨b, hb, _, hidle, hemitted⟩ := P.exists_bmSend hframe k
  exact ⟨b, hb, hemitted, hidle⟩

/-- **`BM_send`.**  With every protocol stack that it is run with, every iteration sends
one datagram, which holds the headers of the stack and the payload, and the transport
is idle again; sequence numbers go on after their wrap. -/
theorem bm_send (packetSize : Nat) (h : 0 < packetSize) :
    Sends raw packetSize (fun _ => payload packetSize) ∧
    Sends streamBasp packetSize (fun _ => SendPlan.baspFrame packetSize) ∧
    Sends (ordering 5 raw) packetSize
      (fun k => encodeSequence (UInt16.ofNat k) ++ payload packetSize) ∧
    Sends datagramBasp packetSize (fun _ => SendPlan.baspFrame packetSize) ∧
    Sends (ordering 5 datagramBasp) packetSize
      (fun k => encodeSequence (UInt16.ofNat k) ++ SendPlan.baspFrame packetSize) := by
  have hpayload : payload packetSize ≠ [] := by
    rw [payload, Ne, List.replicate_eq_nil_iff]
    omega
  have hbasp : SendPlan.baspFrame packetSize ≠ [] := by simp [SendPlan.baspFrame, hpayload]
  have hseq : ∀ (k : Nat) (rest : Bytes), encodeSequence (UInt16.ofNat k) ++ rest ≠ [] := by
    intro k rest
    simp [encodeSequence]
  refine ⟨?_, ?_, ?_, ?_, ?_⟩
  · exact (SendPlan.raw packetSize).sends fun _ => hpayload
  · exact (SendPlan.basp streamBasp rfl rfl rfl packetSize).sends fun _ => hbasp
  · exact ((SendPlan.raw packetSize).ordering 5).sends fun k => hseq k _
  · exact (SendPlan.basp datagramBasp rfl rfl rfl packetSize).sends fun _ => hbasp
  · exact ((SendPlan.basp datagramBasp rfl rfl rfl packetSize).ordering 5).sends fun k => hseq k _

/-- The smallest packets that the benchmark is run with. -/
theorem bm_send_least : Sends (ordering 5 datagramBasp) 64
    (fun k => encodeSequence (UInt16.ofNat k) ++ SendPlan.baspFrame 64) :=
  (bm_send 64 (by decide)).2.2.2.2

/-! ## Receiving -/

/-- What `read_some` and the prepared buffer make of the `t`-th datagram. -/
def datagram (wseq wsize : Bool) (packetSize t : Nat) : Bytes :=
  (if wseq then encodeSequence (UInt16.ofNat t) else []) ++
    ((if wsize then encodeBasp { payloadLen := UInt32.ofNat packetSize } else []) ++
      payload packetSize)

/-- How a stack reads these datagrams: the states that it goes through, how many more it
takes before the one with which it hands a message to the actor, and the message. -/
structure ReadPlan (L : Layer σ μ) (wseq wsize : Bool) (packetSize : Nat) where
  state : Nat → σ
  extra : Nat
  wait : Nat → Nat
  msg : μ
  wait_zero : wait 0 = extra
  wait_succ : ∀ t, wait (t + 1) = if wait t = 0 then extra else wait t - 1
  state_read : ∀ t, (L.read (state t) (datagram wseq wsize packetSize t)).state = state (t + 1)
  error : ∀ t, (L.read (state t) (datagram wseq wsize packetSize t)).error = none
  quiet : ∀ t, packets (L.read (state t) (datagram wseq wsize packetSize t)).requests = []
  handled : ∀ t, (L.read (state t) (datagram wseq wsize packetSize t)).handled =
    if wait t = 0 then [msg] else []

/-- The transport of `BM_receive` before its `t`-th read: the packet is at the front of
the receive buffer, with the header of an earlier datagram. -/
structure Ready (wseq wsize : Bool) (packetSize t : Nat) (d : DummyTransport) : Prop where
  writeSeq : d.writeSeq = wseq
  writeSize : d.writeSize = wsize
  payloadLen : d.payloadLen = packetSize
  upayloadLen : d.upayloadLen = UInt32.ofNat packetSize
  maximum : d.maximum = 65535
  next : wseq = true → d.next = UInt16.ofNat t
  buffer : ∃ earlier rest, d.receiveBuffer = datagram wseq wsize packetSize earlier ++ rest

variable {wseq wsize : Bool} {packetSize t : Nat} {d : DummyTransport}

theorem length_datagram (wseq wsize : Bool) (packetSize t : Nat) :
    (datagram wseq wsize packetSize t).length = packetSize +
      (if wseq then orderingHeaderLen else 0) + (if wsize then baspHeaderLen else 0) := by
  cases wseq <;> cases wsize <;>
    simp [datagram, payload, orderingHeaderLen, baspHeaderLen] <;> omega

/-- `read_some` replaces the header. -/
theorem overwrite_datagram (wseq wsize : Bool) (packetSize earlier t : Nat) (rest : Bytes) :
    overwrite (datagram wseq wsize packetSize earlier ++ rest)
      ((if wseq then encodeSequence (UInt16.ofNat t) else []) ++
        (if wsize then encode (UInt32.ofNat packetSize) else [])) =
      some (datagram wseq wsize packetSize t ++ rest) := by
  have hroom : ((if wseq then encodeSequence (UInt16.ofNat t) else []) ++
      (if wsize then encode (UInt32.ofNat packetSize) else [])).length ≤
      (datagram wseq wsize packetSize earlier ++ rest).length := by
    simp only [List.length_append, length_datagram]
    cases wseq <;> cases wsize <;> simp [orderingHeaderLen, baspHeaderLen] <;> omega
  rw [overwrite, if_pos hroom]
  cases wseq <;> cases wsize <;> rfl

theorem exists_readSome (h : Ready wseq wsize packetSize t d) :
    ∃ rest, d.readSome = some { d with
      receiveBuffer := datagram wseq wsize packetSize t ++ rest
      next := if wseq then d.next + 1 else d.next
      receivedBytes := (datagram wseq wsize packetSize t).length } := by
  obtain ⟨earlier, rest, hbuffer⟩ := h.buffer
  have hheader : (if wseq then encodeSequence d.next else []) ++
      (if wsize then encode d.upayloadLen else []) =
      (if wseq then encodeSequence (UInt16.ofNat t) else []) ++
        (if wsize then encode (UInt32.ofNat packetSize) else []) := by
    rw [h.upayloadLen]
    cases wseq with
    | false => rfl
    | true => rw [h.next rfl]
  refine ⟨rest, ?_⟩
  simp only [DummyTransport.readSome, h.writeSeq, h.writeSize, h.payloadLen]
  rw [hheader, hbuffer, overwrite_datagram, Option.map_some, length_datagram]

/-- The transport after a read. -/
theorem ready_prepareNextRead (h : Ready wseq wsize packetSize t d) (rest : Bytes)
    (hroom : (datagram wseq wsize packetSize t).length ≤ 65535) :
    Ready wseq wsize packetSize (t + 1)
      ({ d with
        receiveBuffer := datagram wseq wsize packetSize t ++ rest
        next := if wseq then d.next + 1 else d.next
        receivedBytes := (datagram wseq wsize packetSize t).length } :
          DummyTransport).prepareNextRead where
  writeSeq := h.writeSeq
  writeSize := h.writeSize
  payloadLen := h.payloadLen
  upayloadLen := h.upayloadLen
  maximum := h.maximum
  next := by
    rintro rfl
    show d.next + 1 = _
    rw [h.next rfl, InOrder.ofNat_succ]
  buffer := by
    refine ⟨t, ?_⟩
    simp only [DummyTransport.prepareNextRead, h.maximum]
    rw [List.take_append, List.take_of_length_le hroom, List.append_assoc]
    exact ⟨_, rfl⟩

variable {L : Layer σ μ}

/-- One `read_event`. -/
theorem readEvent_eq (P : ReadPlan L wseq wsize packetSize) {b : Bench σ μ}
    (hready : Ready wseq wsize packetSize t b.transport) (hlayer : b.layer = P.state t)
    (hpos : 0 < packetSize) (hroom : (datagram wseq wsize packetSize t).length ≤ 65535) :
    ∃ b', b.readEvent L = some b' ∧ Ready wseq wsize packetSize (t + 1) b'.transport ∧
      b'.layer = P.state (t + 1) ∧ b'.events = b.events + 1 ∧
      b'.received = (b.received || P.wait t = 0) ∧
      b'.handled = b.handled ++ (if P.wait t = 0 then [P.msg] else []) := by
  obtain ⟨rest, hread⟩ := exists_readSome hready
  have hlen : (datagram wseq wsize packetSize t).length ≠ 0 := by
    rw [length_datagram]
    omega
  have hfits : ¬ (datagram wseq wsize packetSize t ++ rest).length <
      (datagram wseq wsize packetSize t).length := by
    rw [List.length_append]
    omega
  have hhandled : ∀ s : σ, (Outcome.mk s (L.read (P.state t)
      (datagram wseq wsize packetSize t)).requests none).handled =
      if P.wait t = 0 then [P.msg] else [] := fun _ => P.handled t
  simp only [readEvent, hread, Option.bind_eq_bind, Option.bind_some, if_neg hlen, if_neg hfits,
    List.take_left, hlayer, P.error, perform_eq (P.quiet t), hhandled]
  refine ⟨_, rfl, ready_prepareNextRead hready rest hroom, P.state_read t, rfl, ?_, rfl⟩
  by_cases hwait : P.wait t = 0 <;> simp [hwait]

/-- The loop of an iteration: it ends with the read that completes the message. -/
theorem readLoop_eq (P : ReadPlan L wseq wsize packetSize) (hpos : 0 < packetSize)
    (hroom : ∀ t, (datagram wseq wsize packetSize t).length ≤ 65535) (left : Nat) {t rounds : Nat}
    {b : Bench σ μ} (hready : Ready wseq wsize packetSize t b.transport)
    (hlayer : b.layer = P.state t) (hnone : b.received = false) (hwait : P.wait t = left)
    (hrounds : left + 1 < rounds) :
    ∃ b', readLoop L rounds b = some b' ∧
      Ready wseq wsize packetSize (t + left + 1) b'.transport ∧
      b'.layer = P.state (t + left + 1) ∧ P.wait (t + left + 1) = P.extra ∧
      b'.events = b.events + left + 1 ∧ b'.handled = b.handled ++ [P.msg] := by
  induction left generalizing t b rounds with
  | zero =>
    obtain ⟨rounds, rfl⟩ : ∃ n, rounds = n + 2 := ⟨rounds - 2, by omega⟩
    obtain ⟨b', hevent, hready', hlayer', hevents, hreceived, hhandled⟩ :=
      readEvent_eq P hready hlayer hpos (hroom t)
    rw [hwait, if_pos rfl] at hhandled
    refine ⟨b', ?_, hready', hlayer', ?_, hevents, hhandled⟩
    · simp [readLoop, hnone, hevent, hreceived, hwait]
    · rw [Nat.add_zero, P.wait_succ, if_pos hwait]
  | succ left ih =>
    obtain ⟨rounds, rfl⟩ : ∃ n, rounds = n + 1 := ⟨rounds - 1, by omega⟩
    obtain ⟨b', hevent, hready', hlayer', hevents, hreceived, hhandled⟩ :=
      readEvent_eq P hready hlayer hpos (hroom t)
    have hne : P.wait t ≠ 0 := by omega
    rw [if_neg hne, List.append_nil] at hhandled
    have hnone' : b'.received = false := by simp [hreceived, hnone, hne]
    have hwait' : P.wait (t + 1) = left := by
      rw [P.wait_succ, if_neg hne]
      omega
    have hrounds' : left + 1 < rounds := by omega
    obtain ⟨b'', hloop, hready'', hlayer'', hextra, hevents', hhandled'⟩ :=
      ih hready' hlayer' hnone' hwait' hrounds'
    have hindex : t + 1 + left + 1 = t + (left + 1) + 1 := by omega
    rw [hindex] at hready'' hlayer'' hextra
    refine ⟨b'', ?_, hready'', hlayer'', hextra, by omega, by rw [hhandled', hhandled]⟩
    simp only [readLoop, hnone, Bool.false_eq_true, if_false, hevent, Option.bind_some]
    exact hloop

/-- The newb after the preparation of `BM_receive`. -/
theorem exists_prepare (P : ReadPlan L wseq wsize packetSize) (S : SendPlan L packetSize α)
    (hinit : P.state 0 = S.state 1) (hframe : S.frame 0 = datagram wseq wsize packetSize 0)
    (hnone : (Outcome.mk L.init.state L.init.requests none).handled = []) (hpos : 0 < packetSize) :
    ∃ b, prepare L wseq wsize packetSize = some b ∧
      Ready wseq wsize packetSize 0 b.transport ∧ b.layer = P.state 0 ∧ b.events = 0 ∧
      b.handled = [] := by
  have hwrite := S.framing.write (S.state 0) S.x []
  rw [S.hw, S.payload, S.closed, S.frame_eq, hframe, List.nil_append, S.init] at hwrite
  have hne : datagram wseq wsize packetSize 0 ≠ [] := by
    intro hnil
    have hlen := length_datagram wseq wsize packetSize 0
    rw [hnil, List.length_nil] at hlen
    omega
  have hflush : ({ offlineBuffer := datagram wseq wsize packetSize 0 } : WritePath).flush.sendBuffer =
      datagram wseq wsize packetSize 0 := by
    simp [WritePath.flush, WritePath.prepareNextWrite, hne]
  simp only [prepare, start, perform_eq S.quiet, hnone, Bench.write, DummyTransport.init,
    DummyTransport.prepareNextRead, DummyTransport.wrBuf, WritePath.wrBuf, if_true]
  rw [hwrite]
  refine ⟨_, rfl, ?_, hinit.symm, rfl, rfl⟩
  exact
    { writeSeq := rfl
      writeSize := rfl
      payloadLen := rfl
      upayloadLen := rfl
      maximum := rfl
      next := fun _ => rfl
      buffer := ⟨0, [], hflush.trans (List.append_nil _).symm⟩ }

/-- Any number of iterations of `BM_receive` hands one message each to the actor, after
the same number of reads. -/
def Receives (L : Layer σ μ) (wseq wsize : Bool) (packetSize reads : Nat) (msg : μ) : Prop :=
  ∀ k rounds, reads < rounds → ∃ b, bmReceiveImpl L wseq wsize packetSize rounds k = some b ∧
    b.handled = List.replicate k msg ∧ b.events = reads * k

theorem ReadPlan.receives (P : ReadPlan L wseq wsize packetSize) (S : SendPlan L packetSize α)
    (hinit : P.state 0 = S.state 1) (hframe : S.frame 0 = datagram wseq wsize packetSize 0)
    (hnone : (Outcome.mk L.init.state L.init.requests none).handled = []) (hpos : 0 < packetSize)
    (hroom : packetSize + (if wseq then orderingHeaderLen else 0) +
      (if wsize then baspHeaderLen else 0) ≤ 65535) :
    Receives L wseq wsize packetSize (P.extra + 1) P.msg := by
  have hroom : ∀ t, (datagram wseq wsize packetSize t).length ≤ 65535 := by
    intro t
    rw [length_datagram]
    exact hroom
  intro k rounds hrounds
  suffices h : ∃ b, bmReceiveImpl L wseq wsize packetSize rounds k = some b ∧
      Ready wseq wsize packetSize ((P.extra + 1) * k) b.transport ∧
      b.layer = P.state ((P.extra + 1) * k) ∧ P.wait ((P.extra + 1) * k) = P.extra ∧
      b.handled = List.replicate k P.msg ∧ b.events = (P.extra + 1) * k by
    obtain ⟨b, hb, _, _, _, hhandled, hevents⟩ := h
    exact ⟨b, hb, hhandled, hevents⟩
  induction k with
  | zero =>
    obtain ⟨b, hb, hready, hlayer, hevents, hhandled⟩ := exists_prepare P S hinit hframe hnone hpos
    exact ⟨b, hb, hready, hlayer, P.wait_zero, hhandled, hevents⟩
  | succ k ih =>
    obtain ⟨b, hb, hready, hlayer, hwait, hhandled, hevents⟩ := ih
    obtain ⟨b', hloop, hready', hlayer', hwait', hevents', hhandled'⟩ :=
      readLoop_eq (b := { b with received := false }) P hpos hroom P.extra hready hlayer rfl hwait
        hrounds
    refine ⟨b', ?_, hready', hlayer', hwait', ?_, ?_⟩
    · rw [bmReceiveImpl, hb, Option.bind_some]
      exact hloop
    · rw [hhandled', hhandled, List.replicate_succ']
    · rw [hevents', hevents]
      rfl

namespace ReadPlan

def raw (packetSize : Nat) : ReadPlan Protocols.raw false false packetSize where
  state _ := ()
  extra := 0
  wait _ := 0
  msg := payload packetSize
  wait_zero := rfl
  wait_succ _ := rfl
  state_read _ := rfl
  error _ := rfl
  quiet _ := rfl
  handled _ := rfl

/-- The header of the packet, with its length. -/
def sized (packetSize : Nat) : BaspHeader := { payloadLen := UInt32.ofNat packetSize }

theorem datagramBasp_read (h : packetSize < 2 ^ 32) (t : Nat) :
    datagramBasp.read () (datagram false true packetSize t) =
      { state := (), requests := [.handle ⟨sized packetSize, payload packetSize⟩] } := by
  have hdec : decodeBasp (datagram false true packetSize t) = some (sized packetSize) :=
    decodeBasp_encodeBasp_append _ _
  have hlen := length_datagram false true packetSize t
  have hdrop : (datagram false true packetSize t).drop baspHeaderLen = payload packetSize := rfl
  have hsize : (sized packetSize).payloadLen.toNat = packetSize := Nat.mod_eq_of_lt h
  simp only [Bool.false_eq_true, if_false, if_true, Nat.add_zero] at hlen
  have htake : (payload packetSize).take packetSize = payload packetSize :=
    List.take_of_length_le (by simp [payload])
  simp only [datagramBasp, hdec, hsize, hdrop, htake]
  rw [if_neg (by omega), if_neg (by omega)]

def datagramBasp (packetSize : Nat) (h : packetSize < 2 ^ 32) :
    ReadPlan Protocols.datagramBasp false true packetSize where
  state _ := ()
  extra := 0
  wait _ := 0
  msg := ⟨sized packetSize, payload packetSize⟩
  wait_zero := rfl
  wait_succ _ := rfl
  state_read _ := rfl
  error t := by rw [datagramBasp_read h]
  quiet t := by rw [datagramBasp_read h]; rfl
  handled t := by rw [datagramBasp_read h]; rfl

theorem ordering_read {L : Layer σ μ} (P : ReadPlan L false wsize packetSize)
    (maxPendingMessages t : Nat) (seqWrite : SequenceType) :
    (Protocols.ordering maxPendingMessages L).read
      { maxPendingMessages, useTimeouts := true, seqWrite, seqRead := UInt16.ofNat t
        next := P.state t } (datagram true wsize packetSize t) =
      { state :=
          { maxPendingMessages, useTimeouts := true, seqWrite, seqRead := UInt16.ofNat (t + 1)
            next := P.state (t + 1) }
        requests := (L.read (P.state t) (datagram false wsize packetSize t)).requests } := by
  have hdec : decodeSequence (datagram true wsize packetSize t) = some (UInt16.ofNat t) :=
    decodeSequence_encodeSequence_append _ _
  have hdrop : (datagram true wsize packetSize t).drop orderingHeaderLen =
      datagram false wsize packetSize t := rfl
  simp only [Protocols.ordering, OrderingState.read, hdec, if_true, hdrop, Outcome.andThen,
    Outcome.map, P.error, List.length_nil, OrderingState.deliverPending, List.append_nil,
    P.state_read, InOrder.ofNat_succ]

def ordering {L : Layer σ μ} (P : ReadPlan L false wsize packetSize) (maxPendingMessages : Nat)
    (seqWrite : SequenceType) :
    ReadPlan (Protocols.ordering maxPendingMessages L) true wsize packetSize where
  state t :=
    { maxPendingMessages, useTimeouts := true, seqWrite, seqRead := UInt16.ofNat t
      next := P.state t }
  extra := P.extra
  wait := P.wait
  msg := P.msg
  wait_zero := P.wait_zero
  wait_succ := P.wait_succ
  state_read t := by rw [ordering_read]
  error t := by rw [ordering_read]
  quiet t := by rw [ordering_read]; exact P.quiet t
  handled t := by rw [ordering_read]; exact P.handled t

/-- The state of `stream_basp` before its `t`-th read: every second one is of a header. -/
def streamState (packetSize t : Nat) : StreamBasp where
  header := if t = 0 then {} else sized packetSize
  expectingHeader := t % 2 = 0

theorem streamBasp_header (packetSize : Nat) {t : Nat} (ht : t % 2 = 0) :
    Protocols.streamBasp.read (streamState packetSize t) (datagram false true packetSize t) =
      { state := streamState packetSize (t + 1)
        requests := [.configureRead ⟨.exactly, (sized packetSize).payloadLen.toNat⟩] } := by
  have hdec : decodeBasp (datagram false true packetSize t) = some (sized packetSize) :=
    decodeBasp_encodeBasp_append _ _
  have hlen := length_datagram false true packetSize t
  simp only [Bool.false_eq_true, if_false, if_true, Nat.add_zero] at hlen
  have hodd : ¬ (t + 1) % 2 = 0 := by omega
  simp only [Protocols.streamBasp, streamState, ht, decide_true, if_true, StreamBasp.readHeader,
    hdec, hodd, decide_false, Nat.add_eq_zero_iff, Nat.one_ne_zero, and_false, if_false]
  rw [if_neg (by omega)]

theorem streamBasp_payload (h : packetSize < 2 ^ 32) {t : Nat} (ht : t % 2 ≠ 0) :
    Protocols.streamBasp.read (streamState packetSize t) (datagram false true packetSize t) =
      { state := streamState packetSize (t + 1)
        requests :=
          [.handle ⟨sized packetSize, (datagram false true packetSize t).take packetSize⟩,
            .configureRead ⟨.exactly, baspHeaderLen⟩] } := by
  have hlen := length_datagram false true packetSize t
  simp only [Bool.false_eq_true, if_false, if_true, Nat.add_zero] at hlen
  have hzero : t ≠ 0 := by
    rintro rfl
    exact ht rfl
  have heven : (t + 1) % 2 = 0 := by omega
  have hsize : (sized packetSize).payloadLen.toNat = packetSize := Nat.mod_eq_of_lt h
  simp only [Protocols.streamBasp, streamState, ht, decide_false, Bool.false_eq_true, if_false,
    StreamBasp.readPayload, hzero, heven, decide_true, Nat.add_eq_zero_iff, Nat.one_ne_zero,
    and_false, hsize]
  rw [if_neg (by omega)]

/-- The payload is read where the header still is. -/
def streamBasp (packetSize : Nat) (h : packetSize < 2 ^ 32) :
    ReadPlan Protocols.streamBasp false true packetSize where
  state := streamState packetSize
  extra := 1
  wait t := if t % 2 = 0 then 1 else 0
  msg := ⟨sized packetSize, (datagram false true packetSize 0).take packetSize⟩
  wait_zero := rfl
  wait_succ t := by
    rcases Nat.mod_two_eq_zero_or_one t with ht | ht <;> simp [ht, Nat.add_mod]
  state_read t := by
    by_cases ht : t % 2 = 0
    · rw [streamBasp_header packetSize ht]
    · rw [streamBasp_payload h ht]
  error t := by
    by_cases ht : t % 2 = 0
    · rw [streamBasp_header packetSize ht]
    · rw [streamBasp_payload h ht]
  quiet t := by
    by_cases ht : t % 2 = 0
    · rw [streamBasp_header packetSize ht]
      rfl
    · rw [streamBasp_payload h ht]
      rfl
  handled t := by
    by_cases ht : t % 2 = 0
    · rw [streamBasp_header packetSize ht]
      simp [ht, Outcome.handled]
    · rw [streamBasp_payload h ht]
      simp [ht, Outcome.handled, datagram]

end ReadPlan

/-- **`BM_receive`.**  With every protocol stack that it is run with, and as long as a
packet and the headers of the stack fit into the receive buffer, the loop of every
iteration ends: after one read, or after two with `stream_basp`, which reads the header
and the payload apart and finds both at the front of the same buffer. -/
theorem bm_receive (packetSize : Nat) (h : 0 < packetSize) :
    (packetSize ≤ 65535 → Receives raw false false packetSize 1 (payload packetSize)) ∧
    (packetSize + orderingHeaderLen ≤ 65535 →
      Receives (ordering 5 raw) true false packetSize 1 (payload packetSize)) ∧
    (packetSize + baspHeaderLen ≤ 65535 → Receives datagramBasp false true packetSize 1
      ⟨ReadPlan.sized packetSize, payload packetSize⟩) ∧
    (packetSize + orderingHeaderLen + baspHeaderLen ≤ 65535 →
      Receives (ordering 5 datagramBasp) true true packetSize 1
        ⟨ReadPlan.sized packetSize, payload packetSize⟩) ∧
    (packetSize + baspHeaderLen ≤ 65535 → Receives streamBasp false true packetSize 2
      ⟨ReadPlan.sized packetSize, (SendPlan.baspFrame packetSize).take packetSize⟩) := by
  have hsize : packetSize ≤ 65535 → packetSize < 2 ^ 32 := fun hroom => by omega
  refine ⟨?_, ?_, ?_, ?_, ?_⟩
  · intro hroom
    exact (ReadPlan.raw packetSize).receives (SendPlan.raw packetSize) rfl rfl rfl h hroom
  · intro hroom
    exact ((ReadPlan.raw packetSize).ordering 5 1).receives ((SendPlan.raw packetSize).ordering 5)
      rfl rfl rfl h hroom
  · intro hroom
    exact (ReadPlan.datagramBasp packetSize (hsize (Nat.le_of_add_right_le hroom))).receives
      (SendPlan.basp datagramBasp rfl rfl rfl packetSize) rfl rfl rfl h hroom
  · intro hroom
    have hbasp := hsize (Nat.le_of_add_right_le (Nat.le_of_add_right_le hroom))
    exact ((ReadPlan.datagramBasp packetSize hbasp).ordering 5 1).receives
      ((SendPlan.basp datagramBasp rfl rfl rfl packetSize).ordering 5) rfl rfl rfl h hroom
  · intro hroom
    exact (ReadPlan.streamBasp packetSize (hsize (Nat.le_of_add_right_le hroom))).receives
      (SendPlan.basp streamBasp rfl rfl rfl packetSize) rfl rfl rfl h hroom

/-- The smallest packets that the benchmark is run with. -/
theorem bm_receive_least : Receives streamBasp false true 64 2
    ⟨ReadPlan.sized 64, (SendPlan.baspFrame 64).take 64⟩ :=
  (bm_receive 64 (by decide)).2.2.2.2 (by decide)

end NewbMeasurements.LayerBenchmarks
