import NewbMeasurements.ReliableLink
import NewbMeasurements.TcpTransport

/-!
Two newbs with `stream_basp` on `tcp_transport`, connected by a byte stream in each
direction. The actors write whenever they like, the events come in any order, and what
the calls of `send` and `recv` return is up to the environment.

Each actor gets the messages of the other, in order, up to the first without a payload:
`stream_basp` asks for its zero bytes, `recv` returns 0, and the transport takes that
for the end of the stream.
-/

namespace NewbMeasurements.TcpLink

open Words (Bytes encode decode)
open Layers (baspHeaderLen)
open Transitions (TransitionSystem)
open ReliableLink (Side Side.other_other Side.eq_or_eq_other)
open Protocols TcpTransport
open Blocks (BlockReader Progress)

/-- A message as it is written: the header of the caller, and a payload. -/
abbrev Message := BaspHeader × Bytes

/-- What is on its way to the newb, whether the other side has closed the connection, and
what the actor has written. -/
structure Endpoint where
  newb : Newb StreamBasp NewBaspMsg := .start streamBasp
  incoming : Bytes := []
  closed : Bool := false
  written : List Message := []
  deriving DecidableEq, Repr

structure World where
  client : Endpoint := {}
  server : Endpoint := {}
  deriving DecidableEq, Repr

/-- `stop` is `newb::stop`, and the end of the actor. -/
inductive Action
  | write (s : Side) (x : Message)
  | writeEvent (s : Side) (result : IoResult)
  | readEvent (s : Side) (results : List IoResult)
  | stop (s : Side)
  deriving DecidableEq, Repr

namespace World

def get (w : World) : Side → Endpoint
  | .client => w.client
  | .server => w.server

def set (w : World) (s : Side) (e : Endpoint) : World :=
  match s with
  | .client => { w with client := e }
  | .server => { w with server := e }

def step (w : World) : Action → Option World
  | .write s x =>
    let e := w.get s
    (e.newb.write streamBasp (some (encodeBasp x.1)) x.2).map fun newb =>
      w.set s { e with newb, written := e.written ++ [x] }
  | .writeEvent s result =>
    let e := w.get s
    (e.newb.writeEvent result).map fun (newb, bytes) =>
      let e' := w.get s.other
      (w.set s { e with newb }).set s.other { e' with incoming := e'.incoming ++ bytes }
  | .readEvent s results =>
    let e := w.get s
    (e.newb.readEvent streamBasp e.incoming e.closed results).map fun (newb, incoming) =>
      w.set s { e with newb, incoming }
  | .stop s =>
    let e := w.get s
    some ((w.set s { e with newb := { e.newb with reading := false, writable := false } }).set
      s.other { w.get s.other with closed := true })

end World

def link : TransitionSystem World Action where
  init := {}
  step := World.step

@[simp] theorem World.get_set_self (w : World) (s : Side) (e : Endpoint) :
    (w.set s e).get s = e := by cases s <;> rfl

@[simp] theorem World.get_set_other (w : World) (s : Side) (e : Endpoint) :
    (w.set s e).get s.other = w.get s.other := by cases s <;> rfl

@[simp] theorem World.get_other_set (w : World) (s : Side) (e : Endpoint) :
    (w.set s.other e).get s = w.get s := by cases s <;> rfl

/-! ## The blocks of `stream_basp` -/

/-- Headers and payloads in turn. -/
def baspBlocks : BlockReader StreamBasp UInt8 NewBaspMsg where
  want s := if s.expectingHeader then baspHeaderLen else s.header.payloadLen.toNat
  take s block :=
    if s.expectingHeader then
      ({ header := (decodeBasp block).getD {}, expectingHeader := false }, [])
    else ({ s with expectingHeader := true }, [⟨s.header, block⟩])

theorem exists_decode (bytes : Bytes) (h : 4 ≤ bytes.length) : ∃ x, decode bytes = some x := by
  match bytes, h with
  | _ :: _ :: _ :: _ :: _, _ => exact ⟨_, rfl⟩

theorem exists_decode64 (bytes : Bytes) (h : 8 ≤ bytes.length) : ∃ x, decode64 bytes = some x := by
  obtain ⟨high, hhigh⟩ := exists_decode bytes (by omega)
  obtain ⟨low, hlow⟩ := exists_decode (bytes.drop 4) (by rw [List.length_drop]; omega)
  exact ⟨_, by rw [decode64, hhigh, hlow]; rfl⟩

theorem exists_decodeBasp {bytes : Bytes} (h : baspHeaderLen ≤ bytes.length) :
    ∃ header, decodeBasp bytes = some header := by
  have h20 : 20 ≤ bytes.length := h
  obtain ⟨len, hlen⟩ := exists_decode bytes (by omega)
  obtain ⟨src, hsrc⟩ := exists_decode64 (bytes.drop 4) (by rw [List.length_drop]; omega)
  obtain ⟨dst, hdst⟩ := exists_decode64 (bytes.drop 12) (by rw [List.length_drop]; omega)
  exact ⟨_, by rw [decodeBasp, hlen, hsrc, hdst]; rfl⟩

theorem blockwise_streamBasp : Blockwise streamBasp baspBlocks := by
  rintro ⟨header, expectingHeader⟩ bytes - hlen
  cases expectingHeader with
  | true =>
    have hlen : bytes.length = baspHeaderLen := hlen
    obtain ⟨header', hdec⟩ := exists_decodeBasp hlen.ge
    have hread : streamBasp.read ⟨header, true⟩ bytes =
        { state := ⟨header', false⟩
          requests := [.configureRead ⟨.exactly, header'.payloadLen.toNat⟩] } := by
      simp only [streamBasp, StreamBasp.readHeader, if_neg (Nat.not_lt.mpr hlen.ge), hdec, if_true]
    have htake : baspBlocks.take ⟨header, true⟩ bytes = (⟨header', false⟩, []) := by
      simp only [baspBlocks, if_true, hdec, Option.getD_some]
    rw [hread, htake]
    refine ⟨rfl, rfl, fun b hflag _ => ?_⟩
    simp only [Newb.perform, List.foldl_cons, List.foldl_nil, Newb.request,
      Transport.configureRead, hflag, List.append_nil]
    rfl
  | false =>
    have hlen : bytes.length = header.payloadLen.toNat := hlen
    have hread : streamBasp.read ⟨header, false⟩ bytes =
        { state := ⟨header, true⟩
          requests := [.handle ⟨header, bytes⟩, .configureRead ⟨.exactly, baspHeaderLen⟩] } := by
      simp only [streamBasp, StreamBasp.readPayload, if_neg (Nat.not_lt.mpr hlen.ge),
        List.take_of_length_le hlen.le, Bool.false_eq_true, if_false]
    rw [hread]
    refine ⟨rfl, rfl, fun b hflag _ => ?_⟩
    simp only [Newb.perform, List.foldl_cons, List.foldl_nil, Newb.request,
      Transport.configureRead, hflag]
    rfl

theorem matches_start : Matches baspBlocks (.start streamBasp) { state := {} } :=
  ⟨rfl, rfl, rfl, rfl, rfl, rfl, rfl, .inl (by decide)⟩

/-! ## Frames -/

def framing : Framing streamBasp Message := .basp streamBasp rfl rfl

def frame (x : Message) : Bytes := framing.frame {} x

/-- What becomes of a message that is written. -/
def message (x : Message) : NewBaspMsg :=
  ⟨{ x.1 with payloadLen := UInt32.ofNat x.2.length }, x.2⟩

/-- The messages that are written before one without a payload. -/
def deliverable (xs : List Message) : List NewBaspMsg := (xs.takeWhile (·.2 ≠ [])).map message

/-- The length of the payload fits into its field of the header. -/
def Fits (x : Message) : Prop := x.2.length < 2 ^ 32

instance : DecidablePred Fits := fun _ => inferInstanceAs (Decidable (_ < _))

theorem length_payload {x : Message} (h : Fits x) :
    (message x).header.payloadLen.toNat = x.2.length := by
  have hmod : (UInt32.ofNat x.2.length).toNat = x.2.length % 2 ^ 32 := UInt32.toNat_ofNat'
  exact hmod.trans (Nat.mod_eq_of_lt h)

theorem feeds_header (header header' : BaspHeader) (ms : List NewBaspMsg) :
    baspBlocks.feeds { state := ⟨header, true⟩, messages := ms } (encodeBasp header') =
      { state := ⟨header', false⟩, messages := ms } := by
  have hdec := decodeBasp_encodeBasp_append header' []
  rw [List.append_nil] at hdec
  rw [BlockReader.feeds_of_eq (by intro hnil; cases hnil) rfl]
  simp only [baspBlocks, if_true, List.nil_append, hdec, Option.getD_some, List.append_nil]

theorem feeds_payload {header : BaspHeader} {payload : Bytes} (hne : payload ≠ [])
    (hlen : payload.length = header.payloadLen.toNat) (ms : List NewBaspMsg) :
    baspBlocks.feeds { state := ⟨header, false⟩, messages := ms } payload =
      { state := ⟨header, true⟩, messages := ms ++ [⟨header, payload⟩] } := by
  rw [BlockReader.feeds_of_eq hne (by rw [List.length_nil, Nat.zero_add, hlen]; rfl)]
  rfl

/-- Whole frames with payloads. -/
theorem feeds_frames (xs : List Message) (hfits : ∀ x ∈ xs, Fits x) (hne : ∀ x ∈ xs, x.2 ≠ [])
    (header : BaspHeader) (ms : List NewBaspMsg) :
    ∃ header', baspBlocks.feeds { state := ⟨header, true⟩, messages := ms } (xs.flatMap frame) =
      { state := ⟨header', true⟩, messages := ms ++ xs.map message } := by
  induction xs generalizing header ms with
  | nil => exact ⟨header, by rw [List.flatMap_nil, List.map_nil, List.append_nil]; rfl⟩
  | cons x xs ih =>
    have hx : x.2.length = (message x).header.payloadLen.toNat :=
      (length_payload (hfits x List.mem_cons_self)).symm
    have hframe : frame x = encodeBasp (message x).header ++ x.2 := rfl
    obtain ⟨header', hrest⟩ := ih (fun y hy => hfits y (List.mem_cons_of_mem _ hy))
      (fun y hy => hne y (List.mem_cons_of_mem _ hy)) (message x).header (ms ++ [message x])
    refine ⟨header', ?_⟩
    rw [List.flatMap_cons, hframe, List.append_assoc, BlockReader.feeds_append, feeds_header,
      BlockReader.feeds_append, feeds_payload (hne x List.mem_cons_self) hx]
    rw [List.append_assoc, List.singleton_append] at hrest
    exact hrest

/-- The reader of whole frames gets the messages up to the first without a payload. -/
theorem messages_feeds_frames (xs : List Message) (hfits : ∀ x ∈ xs, Fits x) :
    (baspBlocks.feeds { state := {} } (xs.flatMap frame)).messages = deliverable xs := by
  have hsplit : xs.takeWhile (·.2 ≠ []) ++ xs.dropWhile (·.2 ≠ []) = xs :=
    List.takeWhile_append_dropWhile
  obtain ⟨header, hfirst⟩ := feeds_frames (xs.takeWhile (·.2 ≠ []))
    (fun x hx => hfits x (List.takeWhile_subset _ hx))
    (fun x hx => by simpa using List.mem_takeWhile_imp hx) {} []
  rw [← hsplit, List.flatMap_append, BlockReader.feeds_append, hfirst, hsplit, List.nil_append]
  cases hrest : xs.dropWhile (·.2 ≠ []) with
  | nil => rfl
  | cons x rest =>
    have hempty : x.2 = [] := by
      have hhead := List.head?_dropWhile_not (·.2 ≠ []) xs
      rw [hrest] at hhead
      simpa using hhead
    have hframe : frame x = encodeBasp (message x).header := by
      show encodeBasp (message x).header ++ x.2 = _
      rw [hempty, List.append_nil]
    have hzero : baspBlocks.want ⟨(message x).header, false⟩ = 0 := by
      show (UInt32.ofNat x.2.length).toNat = 0
      rw [hempty]
      rfl
    rw [List.flatMap_cons, hframe, BlockReader.feeds_append, feeds_header,
      BlockReader.feeds_of_want_zero hzero]
    rfl

/-! ## One direction -/

/-- What has been read of the stream from `e` to `f`. -/
def progress (consumed : Bytes) : Progress StreamBasp UInt8 NewBaspMsg :=
  baspBlocks.feeds { state := {} } consumed

/-- The frames that `e` has written have been consumed, are on their way, or are still to
be sent. -/
structure Channel (e f : Endpoint) (consumed : Bytes) : Prop where
  sound : e.newb.transport.Sound
  reached : Matches baspBlocks f.newb (progress consumed)
  bytes : consumed ++ (f.incoming ++ e.newb.transport.outgoing) = e.written.flatMap frame

/-- Both ends work, unless the reader waits for a payload of no bytes. -/
structure Up (e f : Endpoint) (consumed : Bytes) : Prop where
  writable : e.newb.writable = true
  notClosed : f.closed = false
  reading : f.newb.reading = true ∨ baspBlocks.want (progress consumed).state = 0

/-- An action in which nothing fails. -/
def Undisturbed : Action → Prop
  | .write _ _ => True
  | .writeEvent _ result => result ≠ .error
  | .readEvent _ results => .error ∉ results
  | .stop _ => False

/-- The direction from `e` to `f`, in a run that may be known to be undisturbed. -/
def Direction (calm : Prop) (e f : Endpoint) : Prop :=
  ∃ consumed, Channel e f consumed ∧ (calm → Up e f consumed)

variable {calm : Prop} {e e' f : Endpoint}

/-- The writer may read, and the reader may write. -/
theorem Direction.of_same {f' : Endpoint} (h : Direction calm e f)
    (he : SameWriter e.newb e'.newb) (hwritten : e'.written = e.written)
    (hf : SameReader f.newb f'.newb) (hincoming : f'.incoming = f.incoming)
    (hclosed : f'.closed = f.closed) : Direction calm e' f' := by
  obtain ⟨consumed, hchannel, hup⟩ := h
  refine ⟨consumed, ⟨he.sound hchannel.sound, hchannel.reached.of_sameReader hf, ?_⟩,
    fun hcalm => ?_⟩
  · rw [hincoming, he.outgoing, hwritten]
    exact hchannel.bytes
  · exact ⟨he.writable.trans (hup hcalm).writable, hclosed.trans (hup hcalm).notClosed,
      (hup hcalm).reading.imp_left fun h => hf.reading.trans h⟩

theorem Direction.write (h : Direction calm e f) (x : Message) :
    ∃ newb, e.newb.write streamBasp (some (encodeBasp x.1)) x.2 = some newb ∧
      SameReader e.newb newb ∧
      Direction calm { e with newb, written := e.written ++ [x] } f := by
  obtain ⟨consumed, hchannel, hup⟩ := h
  obtain ⟨newb, hwrite, hsame, hsound, hwritable, hout⟩ :=
    write_cases framing (x := x) rfl hchannel.sound
  refine ⟨newb, hwrite, hsame, consumed, ⟨hsound, hchannel.reached, ?_⟩, fun hcalm => ?_⟩
  · rw [hout, ← List.append_assoc f.incoming, ← List.append_assoc consumed, hchannel.bytes,
      List.flatMap_append, List.flatMap_singleton]
    rfl
  · exact ⟨hwritable.trans (hup hcalm).writable, (hup hcalm).notClosed, (hup hcalm).reading⟩

theorem Direction.writeEvent (h : Direction calm e f) {result : IoResult}
    {newb : Newb StreamBasp NewBaspMsg} {bytes : Bytes}
    (hs : e.newb.writeEvent result = some (newb, bytes)) (hok : calm → result ≠ .error) :
    SameReader e.newb newb ∧
      Direction calm { e with newb } { f with incoming := f.incoming ++ bytes } := by
  obtain ⟨consumed, hchannel, hup⟩ := h
  obtain ⟨hsame, hsound, hout, hwritable⟩ := writeEvent_cases hchannel.sound hs
  refine ⟨hsame, consumed, ⟨hsound, hchannel.reached, ?_⟩, fun hcalm => ?_⟩
  · rw [List.append_assoc, ← hout]
    exact hchannel.bytes
  · rcases hwritable with hw | herror
    · exact ⟨hw.trans (hup hcalm).writable, (hup hcalm).notClosed, (hup hcalm).reading⟩
    · exact absurd herror (hok hcalm)

theorem Direction.readEvent (h : Direction calm e f) {results : List IoResult}
    {newb : Newb StreamBasp NewBaspMsg} {incoming : Bytes}
    (hs : f.newb.readEvent streamBasp f.incoming f.closed results = some (newb, incoming))
    (hok : calm → .error ∉ results) :
    SameWriter f.newb newb ∧ Direction calm e { f with newb, incoming } := by
  obtain ⟨consumed, hchannel, hup⟩ := h
  rw [Newb.readEvent] at hs
  split at hs
  · rename_i hreading
    obtain ⟨segment, hread⟩ := readLoop_cases blockwise_streamBasp hchannel.reached hs
    have hprogress : progress (consumed ++ segment) =
        baspBlocks.feeds (progress consumed) segment := BlockReader.feeds_append _ _ _ _
    refine ⟨hread.same, consumed ++ segment, ⟨hchannel.sound, ?_, ?_⟩, fun hcalm => ?_⟩
    · rw [hprogress]
      exact hread.reached
    · rw [List.append_assoc, ← List.append_assoc segment, ← hread.stream_eq]
      exact hchannel.bytes
    · refine ⟨(hup hcalm).writable, (hup hcalm).notClosed, ?_⟩
      rw [hprogress]
      rcases hread.stopped with hsame | herror | hzero | hend
      · exact .inl (hsame.trans hreading)
      · exact absurd herror (hok hcalm)
      · exact .inr hzero
      · rw [(hup hcalm).notClosed] at hend
        cases hend.1
  · cases hs

/-! ## Both directions -/

/-- What holds of every state that a run reaches. -/
def Inv (calm : Prop) (w : World) : Prop := ∀ s, Direction calm (w.get s) (w.get s.other)

theorem inv_initial : Inv calm {} := by
  have hdirection : Direction calm {} {} := by
    refine ⟨[], ⟨⟨nofun, fun _ => ⟨rfl, rfl⟩⟩, matches_start, rfl⟩, fun _ => ⟨rfl, rfl, .inl rfl⟩⟩
  intro s
  cases s
  · exact hdirection
  · exact hdirection

theorem inv_of_directions {w : World} (s : Side) (h : Direction calm (w.get s) (w.get s.other))
    (h' : Direction calm (w.get s.other) (w.get s)) : Inv calm w := by
  intro t
  rcases Side.eq_or_eq_other s t with rfl | rfl
  · exact h
  · rw [Side.other_other]
    exact h'

/-- Where one side stops, what is under way stays so. -/
theorem Direction.stop (h : Direction calm e f) (hcalm : ¬ calm) {reading writable : Bool} :
    Direction calm { e with newb := { e.newb with reading, writable } } { f with closed := true } ∧
      Direction calm { e with closed := true } { f with newb := { f.newb with reading, writable } } := by
  obtain ⟨consumed, ⟨hsound, hreached, hbytes⟩, -⟩ := h
  refine ⟨⟨consumed, ⟨hsound, hreached, hbytes⟩, fun h => absurd h hcalm⟩,
    ⟨consumed, ⟨hsound, ?_, hbytes⟩, fun h => absurd h hcalm⟩⟩
  exact ⟨hreached.layer, hreached.handled, hreached.collected, hreached.rdFlag, hreached.maximum,
    hreached.bufferSize, hreached.readThreshold, hreached.room⟩

theorem inv_step {w w' : World} {a : Action} (h : Inv calm w) (hok : calm → Undisturbed a)
    (hs : w.step a = some w') : Inv calm w' := by
  have hback (s : Side) : Direction calm (w.get s.other) (w.get s) := by
    have hother := h s.other
    rwa [Side.other_other] at hother
  cases a with
  | write s x =>
    obtain ⟨newb, hwrite, hsame, hforth⟩ := (h s).write x
    simp only [World.step, hwrite, Option.map_some, Option.some.injEq] at hs
    subst hs
    refine inv_of_directions s ?_ ?_ <;> simp only [World.get_set_self, World.get_set_other]
    · exact hforth
    · exact (hback s).of_same .rfl rfl hsame rfl rfl
  | writeEvent s result =>
    obtain ⟨⟨newb, bytes⟩, hevent, rfl⟩ := Option.map_eq_some_iff.mp hs
    obtain ⟨hsame, hforth⟩ := (h s).writeEvent hevent hok
    refine inv_of_directions s ?_ ?_ <;> simp only [World.get_set_self, World.get_other_set]
    · exact hforth
    · exact (hback s).of_same .rfl rfl hsame rfl rfl
  | readEvent s results =>
    obtain ⟨⟨newb, incoming⟩, hevent, rfl⟩ := Option.map_eq_some_iff.mp hs
    obtain ⟨hsame, hforth⟩ := (hback s).readEvent hevent hok
    refine inv_of_directions s ?_ ?_ <;> simp only [World.get_set_self, World.get_set_other]
    · exact (h s).of_same hsame rfl .rfl rfl rfl
    · exact hforth
  | stop s =>
    cases hs
    refine inv_of_directions s ?_ ?_ <;> simp only [World.get_set_self, World.get_other_set]
    · exact ((h s).stop hok).1
    · exact ((hback s).stop hok).2

theorem inv_run (calm : Prop) {as : List Action} {w : World} (hok : calm → ∀ a ∈ as, Undisturbed a)
    (hr : link.run as = some w) : Inv calm w := by
  have hstep (w : World) (a : Action) (w' : World) (h : Inv calm w) (ha : calm → Undisturbed a)
      (hs : link.step w a = some w') : Inv calm w' := inv_step h ha hs
  exact TransitionSystem.invariant_runFrom hstep inv_initial
    (TransitionSystem.meets_of_mem fun _ a ha hcalm => hok hcalm a ha) hr

/-! ## What is handled -/

/-- A reader that has stopped at a payload of no bytes has handled all that it can get, and
so has one that has consumed everything. -/
theorem handled_eq {consumed : Bytes} (h : Channel e f consumed)
    (hfits : ∀ x ∈ e.written, Fits x)
    (hend : baspBlocks.want (progress consumed).state = 0 ∨
      f.incoming = [] ∧ e.newb.transport.outgoing = []) :
    f.newb.handled = deliverable e.written := by
  rw [h.reached.handled, ← messages_feeds_frames e.written hfits, ← h.bytes,
    BlockReader.feeds_append]
  rcases hend with hzero | ⟨hincoming, hout⟩
  · exact (congrArg Progress.messages (BlockReader.feeds_of_want_zero hzero)).symm
  · rw [hincoming, hout]
    rfl

/-- A payload of no bytes is asked for only where one has been written. -/
theorem exists_empty {consumed : Bytes} (h : Channel e f consumed)
    (hfits : ∀ x ∈ e.written, Fits x)
    (hzero : baspBlocks.want (progress consumed).state = 0) : ∃ x ∈ e.written, x.2 = [] := by
  by_contra hnone
  obtain ⟨header, hall⟩ := feeds_frames e.written hfits (fun x hx he => hnone ⟨x, hx, he⟩) {} []
  have hstop : baspBlocks.want (baspBlocks.feeds (progress consumed)
      (f.incoming ++ e.newb.transport.outgoing)).state = 0 := by
    rw [BlockReader.feeds_of_want_zero hzero]
    exact hzero
  have hwhole : baspBlocks.feeds (progress consumed) (f.incoming ++ e.newb.transport.outgoing) =
      baspBlocks.feeds { state := {} } (e.written.flatMap frame) := by
    rw [progress, ← BlockReader.feeds_append, h.bytes]
  rw [hwhole, hall] at hstop
  cases hstop

/-- In every run, whatever fails and whoever stops, each actor has got the first messages of
the other, in order, and none from behind a message without a payload, if the lengths of all
payloads fit into the header. -/
theorem handled_in_order {as : List Action} {w : World} (hr : link.run as = some w) (s : Side)
    (hfits : ∀ x ∈ (w.get s).written, Fits x) :
    (w.get s.other).newb.handled <+: deliverable (w.get s).written := by
  obtain ⟨consumed, h, -⟩ := inv_run False False.elim hr s
  rw [h.reached.handled, ← messages_feeds_frames _ hfits, ← h.bytes]
  exact BlockReader.messages_feeds_prefix _ _ (List.prefix_append _ _)

/-- A `recv` that fails in the middle of the second message. -/
theorem handled_in_order_two : ∃ w,
    link.run [.write .client ({}, [7]), .write .client ({}, [8]), .writeEvent .client (.bytes 21),
      .writeEvent .client (.bytes 9), .readEvent .server [.bytes 20, .bytes 1, .bytes 9, .error]] =
      some w ∧ (w.get .server).newb.handled.length = 1 ∧
      (w.get .server).newb.handled <+: deliverable (w.get .client).written :=
  ⟨_, rfl, rfl, @handled_in_order [.write .client ({}, [7]), .write .client ({}, [8]),
    .writeEvent .client (.bytes 21), .writeEvent .client (.bytes 9),
    .readEvent .server [.bytes 20, .bytes 1, .bytes 9, .error]] _ rfl .client
    (show ∀ x ∈ ([({}, [7]), ({}, [8])] : List Message), Fits x by decide)⟩

/-- In a run without failures a newb stops reading only when it has got everything in front
of a message without a payload, if the lengths of all payloads fit into the header. -/
theorem reading_or_empty {as : List Action} {w : World} (hcalm : ∀ a ∈ as, Undisturbed a)
    (hr : link.run as = some w) (s : Side) (hfits : ∀ x ∈ (w.get s).written, Fits x) :
    (w.get s.other).newb.reading = true ∨ (∃ x ∈ (w.get s).written, x.2 = []) ∧
      (w.get s.other).newb.handled = deliverable (w.get s).written := by
  obtain ⟨consumed, h, hup⟩ := inv_run True (fun _ => hcalm) hr s
  rcases (hup trivial).reading with hreading | hzero
  · exact .inl hreading
  · exact .inr ⟨exists_empty h hfits hzero, handled_eq h hfits (.inl hzero)⟩

/-- The server gets its one message, and then stops at the second, which has no payload. -/
theorem reading_or_empty_two : ∃ w,
    link.run [.write .client ({}, [7]), .write .client ({}, []), .writeEvent .client (.bytes 21),
      .writeEvent .client (.bytes 20), .readEvent .server [.bytes 20, .bytes 1, .bytes 20, .bytes 0]] =
      some w ∧ (w.get .server).newb.reading = false ∧ ((w.get .server).newb.reading = true ∨
        (∃ x ∈ (w.get .client).written, x.2 = []) ∧
          (w.get .server).newb.handled = deliverable (w.get .client).written) :=
  ⟨_, rfl, rfl, @reading_or_empty [.write .client ({}, [7]), .write .client ({}, []),
    .writeEvent .client (.bytes 21), .writeEvent .client (.bytes 20),
    .readEvent .server [.bytes 20, .bytes 1, .bytes 20, .bytes 0]] _ (by simp [Undisturbed]) rfl .client
    (show ∀ x ∈ ([({}, [7]), ({}, [])] : List Message), Fits x by decide)⟩

/-! ## Delivery -/

/-- An event that sends or receives bytes, without a failure. -/
def Moves : Action → Prop
  | .writeEvent _ (.bytes n) => n ≠ 0
  | .readEvent _ (.bytes n :: results) => n ≠ 0 ∧ .error ∉ results
  | _ => False

theorem undisturbed_of_moves {a : Action} (h : Moves a) : Undisturbed a := by
  match a, h with
  | .writeEvent _ (.bytes _), _ => exact nofun
  | .readEvent _ (.bytes _ :: _), h =>
    intro hmem
    rcases List.mem_cons.mp hmem with heq | hmem
    · cases heq
    · exact h.2 hmem

/-- How often a byte has to be moved on the way to `f`. -/
def underWay (e f : Endpoint) : Nat := 2 * e.newb.transport.outgoing.length + f.incoming.length

def World.rank (w : World) : Nat := underWay w.client w.server + underWay w.server w.client

theorem World.rank_eq (w : World) (s : Side) :
    w.rank = underWay (w.get s) (w.get s.other) + underWay (w.get s.other) (w.get s) := by
  cases s
  · rfl
  · exact Nat.add_comm _ _

/-- A moving event takes bytes off the way, and the actors have written what they had. -/
theorem moves_step {w w' : World} {a : Action} (h : Inv True w) (ha : Moves a)
    (hs : w.step a = some w') :
    w'.rank < w.rank ∧ ∀ s, (w'.get s).written = (w.get s).written := by
  match a, ha with
  | .writeEvent s (.bytes n), hn =>
    obtain ⟨consumed, hchannel, -⟩ := h s
    obtain ⟨⟨newb, bytes⟩, hevent, rfl⟩ := Option.map_eq_some_iff.mp hs
    obtain ⟨hlen, hne⟩ := writeEvent_lt hevent hchannel.sound hn
    have hpos := List.length_pos_iff.mpr hne
    constructor
    · rw [World.rank_eq _ s, World.rank_eq w s]
      simp only [underWay, World.get_set_self, World.get_other_set, List.length_append]
      omega
    · intro t
      rcases Side.eq_or_eq_other s t with rfl | rfl
      · simp only [World.get_set_self, World.get_other_set]
      · simp only [World.get_set_self]
  | .readEvent s (.bytes n :: results), hn =>
    have hback := h s.other
    rw [Side.other_other] at hback
    obtain ⟨⟨newb, incoming⟩, hevent, rfl⟩ := Option.map_eq_some_iff.mp hs
    have hmoves : Moves (.readEvent s (.bytes n :: results)) := hn
    obtain ⟨hsame, -⟩ := hback.readEvent hevent fun _ => undisturbed_of_moves hmoves
    obtain ⟨consumed, hchannel, -⟩ := hback
    have hlt := readEvent_lt blockwise_streamBasp hchannel.reached hevent hn.1
    constructor
    · rw [World.rank_eq _ s, World.rank_eq w s]
      simp only [underWay, World.get_set_self, World.get_set_other, hsame.outgoing]
      omega
    · intro t
      rcases Side.eq_or_eq_other s t with rfl | rfl
      · simp only [World.get_set_self]
      · simp only [World.get_set_other]

theorem exists_moves {w : World} (h : Inv True w) (s : Side)
    (hfits : ∀ x ∈ (w.get s).written, Fits x)
    (hnot : (w.get s.other).newb.handled ≠ deliverable (w.get s).written) :
    ∃ a w', Moves a ∧ w.step a = some w' := by
  obtain ⟨consumed, hchannel, hup⟩ := h s
  have hup := hup trivial
  by_cases hout : (w.get s).newb.transport.outgoing = []
  · by_cases hincoming : (w.get s.other).incoming = []
    · exact absurd (handled_eq hchannel hfits (.inr ⟨hincoming, hout⟩)) hnot
    · have hwant : baspBlocks.want (progress consumed).state ≠ 0 :=
        fun hzero => hnot (handled_eq hchannel hfits (.inl hzero))
      obtain ⟨newb, incoming, hread⟩ := readEvent_bytes (w.get s.other).closed
        blockwise_streamBasp hchannel.reached (hup.reading.resolve_right hwant) hwant hincoming
      refine ⟨.readEvent s.other [.bytes 1, .wouldBlock],
        w.set s.other { w.get s.other with newb, incoming }, ⟨by decide, by decide⟩, ?_⟩
      simp only [World.step, hread, Option.map_some]
  · have hwriting := Transport.writing_of_outgoing hchannel.sound hout
    obtain ⟨newb, bytes, hwrite⟩ := writeEvent_bytes hchannel.sound hup.writable hwriting
    refine ⟨.writeEvent s (.bytes 1), (w.set s { w.get s with newb }).set s.other
      { w.get s.other with incoming := (w.get s.other).incoming ++ bytes }, Nat.one_ne_zero, ?_⟩
    simp only [World.step, hwrite, Option.map_some]

/-- What runs of moving events from `w` on keep. -/
structure Settles (w v : World) : Prop where
  inv : Inv True v
  written : ∀ s, (v.get s).written = (w.get s).written

theorem settles_step {w v v' : World} {b : Action} (h : Settles w v) (hb : Moves b)
    (hs : link.step v b = some v') : Settles w v' ∧ v'.rank < v.rank := by
  obtain ⟨hlt, hwritten⟩ := moves_step h.inv hb hs
  exact ⟨⟨inv_step h.inv (fun _ => undisturbed_of_moves hb) hs,
    fun s => (hwritten s).trans (h.written s)⟩, hlt⟩

/-- A run without failures can be brought to its end, and comes to it by itself: runs of
events that move bytes are no longer than the bytes have ways to go, and until both actors
have got all that they can get, there is one more such event. The lengths of all payloads
have to fit into the header. -/
theorem delivers {as bs : List Action} {w w' : World} (hcalm : ∀ a ∈ as, Undisturbed a)
    (hr : link.run as = some w) (hfits : ∀ s, ∀ x ∈ (w.get s).written, Fits x)
    (hmoves : ∀ b ∈ bs, Moves b) (hr' : link.runFrom w bs = some w') :
    bs.length + w'.rank ≤ w.rank ∧
      ((∀ s, (w'.get s.other).newb.handled = deliverable (w.get s).written) ∨
        ∃ b w'', Moves b ∧ link.step w' b = some w'') := by
  have hw : Settles w w := ⟨inv_run True (fun _ => hcalm) hr, fun _ => rfl⟩
  have hmeets : link.Meets (fun _ b => Moves b) w bs := TransitionSystem.meets_of_mem fun _ => hmoves
  have hstep (v : World) (b : Action) (v' : World) (h : Settles w v) (hb : Moves b)
      (hs : link.step v b = some v') : Settles w v' ∧ v'.rank < v.rank := settles_step h hb hs
  obtain ⟨hinv, hwritten⟩ := TransitionSystem.invariant_runFrom
    (fun v b v' h hb hs => (hstep v b v' h hb hs).1) hw hmeets hr'
  refine ⟨TransitionSystem.length_add_rank_le World.rank hstep hw hmeets hr', ?_⟩
  by_cases hdone : ∀ s, (w'.get s.other).newb.handled = deliverable (w.get s).written
  · exact .inl hdone
  · obtain ⟨s, hnot⟩ := not_forall.mp hdone
    rw [← hwritten s] at hnot
    exact .inr (exists_moves hinv s (by rw [hwritten s]; exact hfits s) hnot)

/-- One message each, the first in three pieces, the second still to be sent. -/
theorem delivers_one : ∃ w w',
    link.run [.write .client ({}, [7]), .writeEvent .client (.bytes 1), .write .server ({}, [8, 9])] =
      some w ∧
    link.runFrom w [.writeEvent .client (.bytes 20), .readEvent .server [.bytes 3, .bytes 17, .bytes 1,
      .wouldBlock]] = some w' ∧ 2 + w'.rank ≤ w.rank :=
  ⟨_, _, rfl, rfl, (@delivers [.write .client ({}, [7]), .writeEvent .client (.bytes 1),
    .write .server ({}, [8, 9])] [.writeEvent .client (.bytes 20), .readEvent .server [.bytes 3,
    .bytes 17, .bytes 1, .wouldBlock]] _ _ (by simp [Undisturbed]) rfl
    (fun
      | .client => show ∀ x ∈ ([({}, [7])] : List Message), Fits x by decide
      | .server => show ∀ x ∈ ([({}, [8, 9])] : List Message), Fits x by decide)
    (by simp [Moves]) rfl).1⟩

end NewbMeasurements.TcpLink
