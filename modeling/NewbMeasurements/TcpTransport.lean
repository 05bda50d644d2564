import NewbMeasurements.LayerLaws
import NewbMeasurements.Library.Blocks

/-!
`tcp_transport` of the bundled CAF under a newb: reading with a receive policy, and
writing through two buffers. How many bytes a call of `recv` or `send` moves is up to
the environment. With a policy of exactly as many bytes as its layer asks for next, a
newb reads the stream in these blocks, however it is cut.
-/

namespace NewbMeasurements.TcpTransport

open Words (Bytes)
open Layers (sizeSub)
open Protocols
open Blocks (BlockReader Progress)

inductive RwState
  | success
  | failure
  | indeterminate
  deriving DecidableEq, Repr

/-- What `recv` or `send` returns; 0 bytes received are the end of the stream, or come of
a buffer without room. -/
inductive IoResult
  | bytes (n : Nat)
  | wouldBlock
  | error
  deriving DecidableEq, Repr

/-- `collected` are the bytes that the transport has collected at the front of
`receive_buffer`, and `bufferSize` is the size of that buffer. -/
structure Transport where
  collected : Bytes := []
  bufferSize : Nat := 0
  receivedBytes : Nat := 0
  readThreshold : Nat := 1
  maximum : Nat := 1024
  rdFlag : ReceivePolicyFlag := .atMost
  writing : Bool := false
  written : Nat := 0
  sendBuffer : Bytes := []
  offlineBuffer : Bytes := []
  deriving DecidableEq, Repr

namespace Transport

/-! ## Reading -/

def configureRead (t : Transport) (config : ReceiveConfig) : Transport :=
  { t with rdFlag := config.flag, maximum := config.size }

def prepareNextRead (t : Transport) : Transport :=
  match t.rdFlag with
  | .exactly =>
    { t with collected := [], receivedBytes := 0, bufferSize := t.maximum, readThreshold := t.maximum }
  | .atMost =>
    { t with collected := [], receivedBytes := 0, bufferSize := t.maximum, readThreshold := 1 }
  | .atLeast =>
    { t with
      collected := [], receivedBytes := 0
      bufferSize := t.maximum + max 100 (t.maximum / 10), readThreshold := t.maximum }

def shouldDeliver (t : Transport) : Bool := t.collected.length ≥ t.readThreshold

/-- A `recv` into what room is left, from the bytes that have arrived; `closed` tells
whether the peer has shut down. -/
def readSome (t : Transport) (stream : Bytes) (closed : Bool) :
    IoResult → Option (Transport × Bytes × RwState)
  | .wouldBlock => some (t, stream, .indeterminate)
  | .error => some (t, stream, .failure)
  | .bytes n =>
    let len := t.bufferSize - t.collected.length
    if n = 0 then
      if len = 0 ∨ (closed = true ∧ stream = []) then some (t, stream, .failure) else none
    else if n ≤ len ∧ n ≤ stream.length then
      some ({ t with
        collected := t.collected ++ stream.take n
        receivedBytes := (t.collected ++ stream.take n).length }, stream.drop n, .success)
    else none

/-! ## Writing -/

def prepareNextWrite (t : Transport) : Transport :=
  if t.offlineBuffer = [] then { t with written := 0, sendBuffer := [], writing := false }
  else { t with written := 0, sendBuffer := t.offlineBuffer, offlineBuffer := [] }

def flush (t : Transport) : Transport :=
  if t.offlineBuffer ≠ [] ∧ t.writing = false then { t with writing := true }.prepareNextWrite
  else t

/-- What follows a `send` of this many bytes. -/
def advance (t : Transport) (n : Nat) : Transport :=
  if sizeSub t.sendBuffer.length (t.written + n) = 0 then
    { t with written := t.written + n }.prepareNextWrite
  else { t with written := t.written + n }

/-- The transport, and the bytes that go out. -/
def writeSome (t : Transport) : IoResult → Option (Transport × Bytes × RwState)
  | .error => some (t, [], .failure)
  | .wouldBlock => some (t.advance 0, [], .success)
  | .bytes n =>
    if n ≤ sizeSub t.sendBuffer.length t.written then
      some (t.advance n, (t.sendBuffer.drop t.written).take n, .success)
    else none

end Transport

/-! ## The newb -/

/-- `handled` are the messages that the actor has got. A failure stops the newb from
reading, or from writing. -/
structure Newb (σ μ : Type) where
  transport : Transport := {}
  layer : σ
  reading : Bool := true
  writable : Bool := true
  handled : List μ := []
  deriving DecidableEq, Repr

variable {σ μ : Type}

namespace Newb

def request (b : Newb σ μ) : Request μ → Newb σ μ
  | .packet bytes =>
    { b with
      transport :=
        { b.transport with offlineBuffer := b.transport.offlineBuffer ++ bytes }.flush }
  | .configureRead config => { b with transport := b.transport.configureRead config }
  | .handle msg => { b with handled := b.handled ++ [msg] }
  | .setTimeout _ _ _ => b

def perform (b : Newb σ μ) (rs : List (Request μ)) : Newb σ μ := rs.foldl request b

variable (L : Layer σ μ)

/-- `init` of the protocol, and `start`. -/
def start : Newb σ μ :=
  let b := ({ layer := L.init.state } : Newb σ μ).perform L.init.requests
  { b with transport := b.transport.prepareNextRead }

/-- `wr_buf`, a payload, and the end of the `write_handle`. -/
def write (b : Newb σ μ) (hw : Option Bytes) (payload : Bytes) : Option (Newb σ μ) :=
  (L.write b.layer b.transport.offlineBuffer hw payload).map fun (r, buf) =>
    let b := { b with
      transport := { b.transport with offlineBuffer := buf }
      layer := r.state }.perform r.requests
    { b with transport := b.transport.flush }

def writeEvent (b : Newb σ μ) (result : IoResult) : Option (Newb σ μ × Bytes) :=
  if b.writable = true ∧ b.transport.writing = true then
    (b.transport.writeSome result).map fun (transport, bytes, state) =>
      ({ b with transport, writable := state ≠ .failure }, bytes)
  else none

/-- A message goes to the layer, and the transport gets ready for the next one. An error
stops the reading, and the loop around. -/
def deliver (b : Newb σ μ) : Newb σ μ × Bool :=
  let r := L.read b.layer (b.transport.collected.take b.transport.receivedBytes)
  let b := { b with layer := r.state }.perform r.requests
  let b := { b with transport := b.transport.prepareNextRead }
  match r.error with
  | some _ => ({ b with reading := false }, false)
  | none => (b, true)

/-- One round of `read_some(parent, policy)`, and whether it is followed by another. -/
def readOnce (b : Newb σ μ) (stream : Bytes) (closed : Bool) (result : IoResult) :
    Option (Newb σ μ × Bytes × Bool) :=
  (b.transport.readSome stream closed result).map fun (transport, stream, state) =>
    let b := { b with transport }
    match state with
    | .indeterminate => (b, stream, false)
    | .failure => ({ b with reading := false }, stream, false)
    | .success =>
      if transport.receivedBytes = 0 then (b, stream, false)
      else if transport.shouldDeliver then ((b.deliver L).1, stream, (b.deliver L).2)
      else (b, stream, true)

/-- The loop of `read_some(parent, policy)`, with the rounds that are left of
`max_consecutive_reads` and the results of its calls to `recv`. -/
def readLoop (closed : Bool) : Nat → List IoResult → Newb σ μ → Bytes → Option (Newb σ μ × Bytes)
  | 0, [], b, stream => some (b, stream)
  | reads + 1, result :: results, b, stream =>
    (b.readOnce L stream closed result).bind fun (b, stream, goesOn) =>
      if goesOn then readLoop closed reads results b stream
      else if results = [] then some (b, stream)
      else none
  | _, _, _, _ => none

def maxConsecutiveReads : Nat := 50

def readEvent (b : Newb σ μ) (stream : Bytes) (closed : Bool) (results : List IoResult) :
    Option (Newb σ μ × Bytes) :=
  if b.reading then readLoop L closed maxConsecutiveReads results b stream else none

end Newb

/-! ## Reading in blocks -/

/-- The layer reads the blocks that `R` asks for, and has the transport configured for
the next one. -/
def Blockwise (L : Layer σ μ) (R : BlockReader σ UInt8 μ) : Prop :=
  ∀ s bytes, 0 < R.want s → bytes.length = R.want s →
    (L.read s bytes).state = (R.take s bytes).1 ∧ (L.read s bytes).error = none ∧
    ∀ b : Newb σ μ, b.transport.rdFlag = .exactly → b.transport.maximum = R.want s →
      b.perform (L.read s bytes).requests = { b with
        transport := { b.transport with maximum := R.want (R.take s bytes).1 }
        handled := b.handled ++ (R.take s bytes).2 }

/-- The newb has got as far as `p` in a stream that it reads in blocks. -/
structure Matches (R : BlockReader σ UInt8 μ) (b : Newb σ μ) (p : Progress σ UInt8 μ) : Prop where
  layer : b.layer = p.state
  handled : b.handled = p.messages
  collected : b.transport.collected = p.collected
  rdFlag : b.transport.rdFlag = .exactly
  maximum : b.transport.maximum = R.want p.state
  bufferSize : b.transport.bufferSize = R.want p.state
  readThreshold : b.transport.readThreshold = R.want p.state
  room : p.collected.length < R.want p.state ∨ R.want p.state = 0 ∧ p.collected = []

/-- Reading leaves alone what there is for writing. -/
structure SameWriter (b b' : Newb σ μ) : Prop where
  writable : b'.writable = b.writable
  writing : b'.transport.writing = b.transport.writing
  written : b'.transport.written = b.transport.written
  sendBuffer : b'.transport.sendBuffer = b.transport.sendBuffer
  offlineBuffer : b'.transport.offlineBuffer = b.transport.offlineBuffer

variable {L : Layer σ μ} {R : BlockReader σ UInt8 μ} {b b' : Newb σ μ} {p : Progress σ UInt8 μ}
  {stream stream' : Bytes} {closed goesOn : Bool} {result : IoResult}

theorem SameWriter.rfl : SameWriter b b := ⟨.refl _, .refl _, .refl _, .refl _, .refl _⟩

theorem SameWriter.trans {b'' : Newb σ μ} (h : SameWriter b b') (h' : SameWriter b' b'') :
    SameWriter b b'' where
  writable := h'.writable.trans h.writable
  writing := h'.writing.trans h.writing
  written := h'.written.trans h.written
  sendBuffer := h'.sendBuffer.trans h.sendBuffer
  offlineBuffer := h'.offlineBuffer.trans h.offlineBuffer

/-- A block that is complete is delivered. -/
theorem deliver_of_full (hL : Blockwise L R) {block : Bytes}
    (hlayer : b.layer = p.state) (hhandled : b.handled = p.messages)
    (hcollected : b.transport.collected = block) (hreceived : b.transport.receivedBytes = block.length)
    (hflag : b.transport.rdFlag = .exactly) (hmaximum : b.transport.maximum = R.want p.state)
    (hpos : 0 < R.want p.state) (hlen : block.length = R.want p.state) :
    (b.deliver L).2 = true ∧ (b.deliver L).1.reading = b.reading ∧ SameWriter b (b.deliver L).1 ∧
      Matches R (b.deliver L).1
        { state := (R.take p.state block).1, messages := p.messages ++ (R.take p.state block).2 } := by
  obtain ⟨hstate, herror, hperform⟩ := hL p.state block hpos hlen
  have hperform := hperform { b with layer := (R.take p.state block).1 } hflag hmaximum
  have hdeliver : b.deliver L =
      ({ b with
          layer := (R.take p.state block).1
          transport := { b.transport with maximum := R.want (R.take p.state block).1 }.prepareNextRead
          handled := b.handled ++ (R.take p.state block).2 }, true) := by
    simp only [Newb.deliver, hcollected, hreceived, List.take_length, hlayer, herror, hstate,
      hperform]
  simp only [hdeliver, Transport.prepareNextRead, hflag]
  refine ⟨trivial, trivial, ⟨rfl, rfl, rfl, rfl, rfl⟩, ?_⟩
  exact
    { layer := rfl
      handled := by rw [hhandled]
      collected := rfl
      rdFlag := rfl
      maximum := rfl
      bufferSize := rfl
      readThreshold := rfl
      room := by
        rcases Nat.eq_zero_or_pos (R.want (R.take p.state block).1) with hzero | hnext
        · exact .inr ⟨hzero, rfl⟩
        · exact .inl hnext }

/-- The newb with more bytes at the front of its buffer. -/
def Newb.collect (b : Newb σ μ) (bytes : Bytes) : Newb σ μ :=
  { b with transport := { b.transport with
      collected := b.transport.collected ++ bytes
      receivedBytes := (b.transport.collected ++ bytes).length } }

/-- A round that gets some bytes. -/
theorem readOnce_of_fits {n : Nat} (hpos : n ≠ 0)
    (hroom : n ≤ b.transport.bufferSize - b.transport.collected.length) (hstream : n ≤ stream.length) :
    b.readOnce L stream closed (.bytes n) = some
      (if b.transport.readThreshold ≤ b.transport.collected.length + n then
        (((b.collect (stream.take n)).deliver L).1, stream.drop n,
          ((b.collect (stream.take n)).deliver L).2)
      else (b.collect (stream.take n), stream.drop n, true)) := by
  have hlen : (b.transport.collected ++ stream.take n).length = b.transport.collected.length + n := by
    rw [List.length_append, List.length_take]
    omega
  have hne : ¬ b.transport.collected.length + n = 0 := by omega
  simp only [Newb.readOnce, Transport.readSome, if_neg hpos, if_pos (And.intro hroom hstream),
    Option.map_some, Transport.shouldDeliver, decide_eq_true_eq, ge_iff_le, hlen, if_neg hne,
    Newb.collect]

/-- What a round can do: it gets nothing, and may stop the reading, or it gets some bytes. -/
theorem readOnce_inv (hs : b.readOnce L stream closed result = some (b', stream', goesOn)) :
    ((∀ n, n ≠ 0 → result ≠ .bytes n) ∧ (∃ reading, b' = { b with reading }) ∧ stream' = stream ∧
      (b'.reading = b.reading ∨ goesOn = false ∧ (result = .error ∨
        b.transport.bufferSize - b.transport.collected.length = 0 ∨ closed = true ∧ stream = []))) ∨
    ∃ n, result = .bytes n ∧ n ≠ 0 ∧ n ≤ b.transport.bufferSize - b.transport.collected.length ∧
      n ≤ stream.length := by
  cases result with
  | wouldBlock =>
    cases hs
    exact .inl ⟨nofun, ⟨_, rfl⟩, rfl, .inl rfl⟩
  | error =>
    cases hs
    exact .inl ⟨nofun, ⟨_, rfl⟩, rfl, .inr ⟨rfl, .inl rfl⟩⟩
  | bytes n =>
    by_cases hpos : n = 0
    · subst hpos
      simp only [Newb.readOnce, Transport.readSome, if_true] at hs
      split at hs
      · rename_i hend
        cases hs
        refine .inl ⟨fun n hn heq => hn ?_, ⟨_, rfl⟩, rfl, .inr ⟨rfl, .inr hend⟩⟩
        cases heq
        rfl
      · cases hs
    · refine .inr ⟨n, rfl, hpos, ?_⟩
      by_contra hnot
      simp only [Newb.readOnce, Transport.readSome, if_neg hpos, if_neg hnot, Option.map_none,
        reduceCtorEq] at hs

/-- A round that gets bytes of the block that is being read. -/
theorem readOnce_bytes (closed : Bool) (hL : Blockwise L R) (h : Matches R b p) {n : Nat}
    (hpos : n ≠ 0) (hroom : p.collected.length + n ≤ R.want p.state) (hstream : n ≤ stream.length) :
    ∃ b', b.readOnce L stream closed (.bytes n) = some (b', stream.drop n, true) ∧
      b'.reading = b.reading ∧ SameWriter b b' ∧ Matches R b' (R.feeds p (stream.take n)) := by
  have hlen : (stream.take n).length = n := by
    rw [List.length_take]
    omega
  rw [readOnce_of_fits hpos (by rw [h.bufferSize, h.collected]; omega) hstream, h.readThreshold,
    h.collected]
  rcases Nat.lt_or_ge (p.collected.length + n) (R.want p.state) with hlt | hge
  · have hfeeds : R.feeds p (stream.take n) =
        { p with collected := p.collected ++ stream.take n } := by
      apply BlockReader.feeds_of_lt
      omega
    rw [if_neg (Nat.not_le.mpr hlt), hfeeds]
    refine ⟨_, rfl, rfl, ⟨rfl, rfl, rfl, rfl, rfl⟩, ?_⟩
    exact
      { layer := h.layer
        handled := h.handled
        collected := congrArg (· ++ stream.take n) h.collected
        rdFlag := h.rdFlag
        maximum := h.maximum
        bufferSize := h.bufferSize
        readThreshold := h.readThreshold
        room := .inl <| by
          show (p.collected ++ stream.take n).length < R.want p.state
          rw [List.length_append]
          omega }
  · have hfeeds : R.feeds p (stream.take n) = _ := BlockReader.feeds_of_eq
      (by intro hnil; rw [hnil, List.length_nil] at hlen; omega) (by omega)
    have hwhole : (p.collected ++ stream.take n).length = R.want p.state := by
      rw [List.length_append]
      omega
    have hblock : b.transport.collected ++ stream.take n = p.collected ++ stream.take n := by
      rw [h.collected]
    obtain ⟨hgo, hreading, hsame, hto⟩ := deliver_of_full (b := b.collect (stream.take n)) hL
      h.layer h.handled hblock (congrArg List.length hblock) h.rdFlag h.maximum (by omega) hwhole
    rw [if_pos hge, hfeeds, hgo]
    exact ⟨_, rfl, hreading, ⟨hsame.writable, hsame.writing, hsame.written, hsame.sendBuffer,
      hsame.offlineBuffer⟩, hto⟩

/-- What stops a newb from reading on: an error, a block of no bytes, which no `recv` can
fill, or the end of the stream. -/
def Stopped (R : BlockReader σ UInt8 μ) (p : Progress σ UInt8 μ) (stream : Bytes) (closed : Bool)
    (results : List IoResult) : Prop :=
  .error ∈ results ∨ R.want p.state = 0 ∨ closed = true ∧ stream = []

/-- Reading has taken a segment off the stream and has got on by just that. -/
structure ReadsOn (R : BlockReader σ UInt8 μ) (b : Newb σ μ) (p : Progress σ UInt8 μ)
    (stream : Bytes) (closed : Bool) (results : List IoResult) (b' : Newb σ μ) (segment : Bytes)
    (stream' : Bytes) : Prop where
  stream_eq : stream = segment ++ stream'
  same : SameWriter b b'
  reached : Matches R b' (R.feeds p segment)
  stopped : b'.reading = b.reading ∨ Stopped R (R.feeds p segment) stream' closed results

theorem readOnce_cases (hL : Blockwise L R) (h : Matches R b p)
    (hs : b.readOnce L stream closed result = some (b', stream', goesOn)) :
    ∃ segment, ReadsOn R b p stream closed [result] b' segment stream' ∧
      (goesOn = true → b'.reading = b.reading) := by
  rcases readOnce_inv hs with ⟨-, ⟨reading, rfl⟩, rfl, hreading⟩ | ⟨n, rfl, hpos, hroom, hstream⟩
  · refine ⟨[], ⟨rfl, ⟨rfl, rfl, rfl, rfl, rfl⟩, ?_, ?_⟩, ?_⟩
    · exact ⟨h.layer, h.handled, h.collected, h.rdFlag, h.maximum, h.bufferSize, h.readThreshold,
        h.room⟩
    · refine hreading.imp_right fun hstop => ?_
      rcases hstop.2 with rfl | hfull | hend
      · exact .inl (List.mem_singleton_self _)
      · rw [h.bufferSize, h.collected] at hfull
        rcases h.room with hlt | ⟨hzero, -⟩
        · omega
        · exact .inr (.inl hzero)
      · exact .inr (.inr hend)
    · rintro rfl
      exact hreading.resolve_right fun hstop => by cases hstop.1
  · rw [h.bufferSize, h.collected] at hroom
    obtain ⟨b₁, hb₁, hreading, hsame, hto⟩ := readOnce_bytes closed hL h hpos (by omega) hstream
    rw [hb₁] at hs
    cases hs
    exact ⟨stream.take n, ⟨(List.take_append_drop n stream).symm, hsame, hto, .inl hreading⟩,
      fun _ => hreading⟩

/-- The loop gets on by what it takes off the stream, whatever its calls return. -/
theorem readLoop_cases (hL : Blockwise L R) {reads : Nat} {results : List IoResult}
    (h : Matches R b p) (hs : Newb.readLoop L closed reads results b stream = some (b', stream')) :
    ∃ segment, ReadsOn R b p stream closed results b' segment stream' := by
  induction reads generalizing results b p stream with
  | zero =>
    cases results with
    | nil =>
      cases hs
      exact ⟨[], rfl, .rfl, h, .inl rfl⟩
    | cons => cases hs
  | succ reads ih =>
    cases results with
    | nil => cases hs
    | cons result results =>
      obtain ⟨⟨b₁, stream₁, goesOn⟩, honce, hs⟩ := Option.bind_eq_some_iff.mp hs
      obtain ⟨segment, first, hon⟩ := readOnce_cases hL h honce
      have hmore {p' : Progress σ UInt8 μ} {stream' : Bytes} {rs : List IoResult}
          (hsub : ∀ r ∈ rs, r ∈ result :: results) (hstop : Stopped R p' stream' closed rs) :
          Stopped R p' stream' closed (result :: results) := hstop.imp_left (hsub _)
      cases goesOn with
      | false =>
        simp only [Bool.false_eq_true, if_false] at hs
        split at hs
        · cases hs
          exact ⟨segment, first.stream_eq, first.same, first.reached,
            first.stopped.imp_right (hmore (by simp))⟩
        · cases hs
      | true =>
        simp only [if_true] at hs
        obtain ⟨segment', others⟩ := ih first.reached hs
        refine ⟨segment ++ segment', ?_, first.same.trans others.same, ?_, ?_⟩
        · rw [first.stream_eq, others.stream_eq, List.append_assoc]
        · rw [BlockReader.feeds_append]
          exact others.reached
        · rw [BlockReader.feeds_append]
          exact others.stopped.imp (fun h => h.trans (hon rfl)) (hmore (by simp +contextual))

/-- Whatever the layer does, a `recv` of some bytes shortens the stream by these. -/
theorem stream_of_readOnce {n : Nat}
    (hs : b.readOnce L stream closed (.bytes n) = some (b', stream', goesOn)) (hn : n ≠ 0) :
    stream' = stream.drop n ∧ n ≤ stream.length := by
  rcases readOnce_inv hs with ⟨hnone, -⟩ | ⟨_, ⟨⟩, hpos, hroom, hstream⟩
  · exact absurd rfl (hnone n hn)
  · rw [readOnce_of_fits hpos hroom hstream] at hs
    split at hs
    · cases hs
      exact ⟨rfl, hstream⟩
    · cases hs
      exact ⟨rfl, hstream⟩

/-- A read event that begins with bytes leaves fewer of them. -/
theorem readEvent_lt (hL : Blockwise L R) (h : Matches R b p) {n : Nat} {results : List IoResult}
    (hs : b.readEvent L stream closed (.bytes n :: results) = some (b', stream')) (hn : n ≠ 0) :
    stream'.length < stream.length := by
  rw [Newb.readEvent] at hs
  split at hs
  · obtain ⟨⟨b₁, stream₁, goesOn⟩, honce, hs⟩ := Option.bind_eq_some_iff.mp hs
    obtain ⟨hstream, hle⟩ := stream_of_readOnce honce hn
    obtain ⟨segment, first, -⟩ := readOnce_cases hL h honce
    have hlt : stream₁.length < stream.length := by
      rw [hstream, List.length_drop]
      omega
    simp only at hs
    split at hs
    · obtain ⟨segment', rest⟩ := readLoop_cases hL first.reached hs
      have hlen := congrArg List.length rest.stream_eq
      rw [List.length_append] at hlen
      omega
    · split at hs
      · cases hs
        exact hlt
      · cases hs
  · cases hs

/-- A read event can take any byte that a block still lacks. -/
theorem readEvent_bytes (closed : Bool) (hL : Blockwise L R) (h : Matches R b p) (hr : b.reading = true)
    (hwant : R.want p.state ≠ 0) (hne : stream ≠ []) :
    ∃ b' stream', b.readEvent L stream closed [.bytes 1, .wouldBlock] = some (b', stream') := by
  have hroom : p.collected.length + 1 ≤ R.want p.state := by
    rcases h.room with hlt | ⟨hzero, -⟩
    · exact hlt
    · exact absurd hzero hwant
  obtain ⟨b₁, honce, -⟩ := readOnce_bytes closed hL h (n := 1) (by decide) hroom
    (List.length_pos_iff.mpr hne)
  refine ⟨b₁, stream.drop 1, ?_⟩
  rw [Newb.readEvent, if_pos hr, Newb.maxConsecutiveReads, Newb.readLoop, honce, Option.bind_some]
  rfl

/-! ## What there is to write -/

/-- What the newb has been given to write and has not sent yet. -/
def Transport.outgoing (t : Transport) : Bytes := t.sendBuffer.drop t.written ++ t.offlineBuffer

/-- The transport writes exactly while it has something to write. -/
structure Transport.Sound (t : Transport) : Prop where
  busy : t.writing = true → t.written < t.sendBuffer.length
  idle : t.writing = false → t.sendBuffer = [] ∧ t.offlineBuffer = []

/-- Writing leaves alone what there is for reading. -/
structure Transport.SameReader (t t' : Transport) : Prop where
  collected : t'.collected = t.collected
  rdFlag : t'.rdFlag = t.rdFlag
  maximum : t'.maximum = t.maximum
  bufferSize : t'.bufferSize = t.bufferSize
  readThreshold : t'.readThreshold = t.readThreshold

structure SameReader (b b' : Newb σ μ) : Prop where
  layer : b'.layer = b.layer
  handled : b'.handled = b.handled
  reading : b'.reading = b.reading
  transport : b.transport.SameReader b'.transport

theorem SameReader.rfl : SameReader b b :=
  ⟨.refl _, .refl _, .refl _, ⟨.refl _, .refl _, .refl _, .refl _, .refl _⟩⟩

theorem Matches.of_sameReader (h : Matches R b p) (hs : SameReader b b') : Matches R b' p where
  layer := hs.layer.trans h.layer
  handled := hs.handled.trans h.handled
  collected := hs.transport.collected.trans h.collected
  rdFlag := hs.transport.rdFlag.trans h.rdFlag
  maximum := hs.transport.maximum.trans h.maximum
  bufferSize := hs.transport.bufferSize.trans h.bufferSize
  readThreshold := hs.transport.readThreshold.trans h.readThreshold
  room := h.room

namespace Transport

variable {t : Transport}

theorem outgoing_of_idle (h : t.Sound) (hw : t.writing = false) : t.outgoing = [] := by
  rw [outgoing, (h.idle hw).1, (h.idle hw).2, List.drop_nil, List.append_nil]

theorem writing_of_outgoing (h : t.Sound) (hne : t.outgoing ≠ []) : t.writing = true := by
  by_contra hw
  exact hne (outgoing_of_idle h (Bool.eq_false_iff.mpr hw))

theorem sameReader_prepareNextWrite : t.SameReader t.prepareNextWrite := by
  rw [prepareNextWrite]
  split
  · exact ⟨rfl, rfl, rfl, rfl, rfl⟩
  · exact ⟨rfl, rfl, rfl, rfl, rfl⟩

theorem sameReader_flush (buf : Bytes) : t.SameReader { t with offlineBuffer := buf }.flush := by
  rw [flush]
  split
  · have hnext := sameReader_prepareNextWrite (t := { t with offlineBuffer := buf, writing := true })
    exact ⟨hnext.collected, hnext.rdFlag, hnext.maximum, hnext.bufferSize, hnext.readThreshold⟩
  · exact ⟨rfl, rfl, rfl, rfl, rfl⟩

theorem sameReader_advance (n : Nat) : t.SameReader (t.advance n) := by
  rw [advance]
  split
  · have hnext := sameReader_prepareNextWrite (t := { t with written := t.written + n })
    exact ⟨hnext.collected, hnext.rdFlag, hnext.maximum, hnext.bufferSize, hnext.readThreshold⟩
  · exact ⟨rfl, rfl, rfl, rfl, rfl⟩

/-- Once everything in `send_buffer` has been sent, `offline_buffer` is next. -/
theorem sound_prepareNextWrite (hw : t.writing = true) :
    t.prepareNextWrite.Sound ∧ t.prepareNextWrite.outgoing = t.offlineBuffer := by
  rw [prepareNextWrite]
  split
  · rename_i hempty
    exact ⟨⟨nofun, fun _ => ⟨rfl, hempty⟩⟩, by simp [outgoing]⟩
  · rename_i hne
    refine ⟨⟨fun _ => List.length_pos_iff.mpr hne, fun hnot => ?_⟩, by simp [outgoing]⟩
    cases hw.symm.trans hnot

/-- Bytes that have been put into `offline_buffer` and flushed. -/
theorem sound_flush (h : t.Sound) (bytes : Bytes) :
    { t with offlineBuffer := t.offlineBuffer ++ bytes }.flush.Sound ∧
      { t with offlineBuffer := t.offlineBuffer ++ bytes }.flush.outgoing = t.outgoing ++ bytes := by
  rw [flush]
  split
  · rename_i hidle
    obtain ⟨hsound, houtgoing⟩ := sound_prepareNextWrite
      (t := { t with offlineBuffer := t.offlineBuffer ++ bytes, writing := true }) rfl
    refine ⟨hsound, houtgoing.trans ?_⟩
    simp only [outgoing, (h.idle hidle.2).1, (h.idle hidle.2).2, List.drop_nil, List.nil_append]
  · rename_i hnot
    refine ⟨⟨h.busy, fun hw => ⟨(h.idle hw).1, ?_⟩⟩, by simp only [outgoing, List.append_assoc]⟩
    by_contra hne
    exact hnot ⟨hne, hw⟩

/-- A `send` of some of the bytes. -/
theorem sound_advance (h : t.Sound) (hw : t.writing = true) {n : Nat}
    (hn : n ≤ t.sendBuffer.length - t.written) :
    (t.advance n).Sound ∧
      t.outgoing = (t.sendBuffer.drop t.written).take n ++ (t.advance n).outgoing := by
  have hbusy := h.busy hw
  have hle : t.written + n ≤ t.sendBuffer.length := by omega
  have hout : t.outgoing = (t.sendBuffer.drop t.written).take n ++
      (t.sendBuffer.drop (t.written + n) ++ t.offlineBuffer) := by
    rw [outgoing, ← List.append_assoc, ← List.drop_drop, List.take_append_drop]
  rw [advance, sizeSub, if_pos hle]
  split
  · rename_i hall
    obtain ⟨hsound, houtgoing⟩ := sound_prepareNextWrite (t := { t with written := t.written + n }) hw
    have hnil : t.sendBuffer.drop (t.written + n) = [] := List.drop_eq_nil_of_le (by omega)
    refine ⟨hsound, ?_⟩
    rw [hout, houtgoing, hnil, List.nil_append]
  · rename_i hmore
    refine ⟨⟨fun _ => ?_, fun hnot => ?_⟩, hout⟩
    · show t.written + n < t.sendBuffer.length
      omega
    · cases hw.symm.trans hnot

end Transport

theorem SameWriter.sound (hs : SameWriter b b') (h : b.transport.Sound) : b'.transport.Sound where
  busy hw := by
    rw [hs.writing] at hw
    rw [hs.written, hs.sendBuffer]
    exact h.busy hw
  idle hw := by
    rw [hs.writing] at hw
    rw [hs.sendBuffer, hs.offlineBuffer]
    exact h.idle hw

theorem SameWriter.outgoing (hs : SameWriter b b') :
    b'.transport.outgoing = b.transport.outgoing := by
  rw [Transport.outgoing, Transport.outgoing, hs.written, hs.sendBuffer, hs.offlineBuffer]

/-- The actor writes a message: its frame is the last of what there is to write. -/
theorem write_cases {α : Type} (F : Framing L α) {x : α} (hclosed : F.closed b.layer x = b.layer)
    (h : b.transport.Sound) :
    ∃ b', b.write L (F.hw x) (F.payload x) = some b' ∧ SameReader b b' ∧ b'.transport.Sound ∧
      b'.writable = b.writable ∧
      b'.transport.outgoing = b.transport.outgoing ++ F.frame b.layer x := by
  obtain ⟨hsound, houtgoing⟩ := Transport.sound_flush h (F.frame b.layer x)
  have hwrite : b.write L (F.hw x) (F.payload x) = some { b with
      transport := { b.transport with
        offlineBuffer := b.transport.offlineBuffer ++ F.frame b.layer x }.flush } := by
    rw [Newb.write, F.write, hclosed]
    rfl
  exact ⟨_, hwrite, ⟨rfl, rfl, rfl, Transport.sameReader_flush _⟩, hsound, rfl, houtgoing⟩

/-- What a write event sends is the first of what there is to write. -/
theorem writeEvent_cases {bytes : Bytes} (h : b.transport.Sound)
    (hs : b.writeEvent result = some (b', bytes)) :
    SameReader b b' ∧ b'.transport.Sound ∧ b.transport.outgoing = bytes ++ b'.transport.outgoing ∧
      (b'.writable = b.writable ∨ result = .error) := by
  rw [Newb.writeEvent] at hs
  split at hs
  · rename_i hwriting
    cases result with
    | error =>
      cases hs
      exact ⟨⟨rfl, rfl, rfl, ⟨rfl, rfl, rfl, rfl, rfl⟩⟩, h, rfl, .inr rfl⟩
    | wouldBlock =>
      cases hs
      obtain ⟨hsound, hout⟩ := Transport.sound_advance h hwriting.2 (Nat.zero_le _)
      exact ⟨⟨rfl, rfl, rfl, Transport.sameReader_advance 0⟩, hsound, hout, .inl hwriting.1.symm⟩
    | bytes n =>
      simp only [Transport.writeSome, sizeSub, if_pos (h.busy hwriting.2).le] at hs
      split at hs
      · rename_i hn
        cases hs
        obtain ⟨hsound, hout⟩ := Transport.sound_advance h hwriting.2 hn
        exact ⟨⟨rfl, rfl, rfl, Transport.sameReader_advance n⟩, hsound, hout, .inl hwriting.1.symm⟩
      · cases hs
  · cases hs

/-- A write event that sends bytes leaves fewer of them. -/
theorem writeEvent_lt {bytes : Bytes} {n : Nat}
    (hs : b.writeEvent (.bytes n) = some (b', bytes)) (h : b.transport.Sound) (hn : n ≠ 0) :
    b'.transport.outgoing.length + bytes.length = b.transport.outgoing.length ∧ bytes ≠ [] := by
  obtain ⟨-, -, hout, -⟩ := writeEvent_cases h hs
  rw [Newb.writeEvent] at hs
  split at hs
  · rename_i hwriting
    have hbusy := h.busy hwriting.2
    simp only [Transport.writeSome, sizeSub, if_pos hbusy.le] at hs
    split at hs
    · rename_i hle
      cases hs
      rw [hout, List.length_append, Nat.add_comm]
      refine ⟨rfl, fun hnil => ?_⟩
      have hlen := congrArg List.length hnil
      rw [List.length_take, List.length_drop, List.length_nil] at hlen
      omega
    · cases hs
  · cases hs

/-- A write event can send a byte. -/
theorem writeEvent_bytes (h : b.transport.Sound) (hw : b.writable = true)
    (hb : b.transport.writing = true) :
    ∃ b' bytes, b.writeEvent (.bytes 1) = some (b', bytes) := by
  have hbusy := h.busy hb
  have hone : 1 ≤ b.transport.sendBuffer.length - b.transport.written := by omega
  rw [Newb.writeEvent, if_pos ⟨hw, hb⟩]
  simp only [Transport.writeSome, sizeSub, if_pos hbusy.le, if_pos hone, Option.map_some]
  exact ⟨_, _, rfl⟩

end NewbMeasurements.TcpTransport
