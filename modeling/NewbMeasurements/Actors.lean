import NewbMeasurements.Library.ByteStreams
import NewbMeasurements.Library.Words

/-!
What the ping-pong programs share: the state of their actors, the messages their
handlers match on, and the requests a handler makes to the runtime, in source
order. A handler is a function from the state to the new state and these
requests; the systems built on it say what becomes of them.
-/

namespace NewbMeasurements.Actors

open Words (Bytes decode encode)
open ByteStreams (ReceivePolicy)

abbrev ActorId := Nat
abbrev ConnectionHandle := Nat

/-- `layer` stands for the atoms that the protocol layers use for their timeouts. -/
inductive Atom
  | start
  | quit
  | layer (value : UInt64)
  deriving DecidableEq, Repr

inductive Operation
  | read
  | write
  | propagateError
  deriving DecidableEq, Repr

def Operation.toString : Operation → String
  | .read => "read"
  | .write => "write"
  | .propagateError => "propagate_error"

/-- The `state` of both programs; a handle that is not set is `none`. -/
structure State where
  responder : Option ActorId := none
  other : Option ConnectionHandle := none
  messages : UInt64 := 0
  receivedMessages : UInt32 := 0
  deriving DecidableEq, Repr

inductive Message
  | timeout (atm : Atom) (id : UInt32)
  | start (messages : UInt64) (responder : ActorId)
  | newRaw (payload : Bytes)
  | ioError (op : Operation)
  | quit
  | actor (responder : ActorId)
  | newConnection (handle : ConnectionHandle)
  | newData (handle : ConnectionHandle) (buf : Bytes)
  | connectionClosed
  deriving DecidableEq, Repr

/-- A line on standard error. -/
inductive Line
  | got (n : UInt32)
  | gotAllMessages
  | clientError (op : Operation)
  | serverError (op : Operation)
  deriving DecidableEq, Repr

def Line.text : Line → String
  | .got n => "got " ++ n.toNat.repr
  | .gotAllMessages => "got all messages!"
  | .clientError op => "client got io error: " ++ op.toString
  | .serverError op => "server got io error: " ++ op.toString

/-- A request to the runtime. `wrBuf` is what a handler puts into the buffer of
`wr_buf(nullptr)`, which is flushed when the write handle goes out of scope;
`write`, `flush` and `configureReadOf` are the ones of a broker, which names the
connection. A delay is in milliseconds. -/
inductive Effect
  | cerr (line : Line)
  | protoTimeout (atm : Atom) (id : UInt32)
  | configureRead (policy : ReceivePolicy)
  | configureReadOf (handle : Option ConnectionHandle) (policy : ReceivePolicy)
  | wrBuf (payload : Bytes)
  | write (handle : Option ConnectionHandle) (data : Bytes)
  | flush (handle : Option ConnectionHandle)
  | send (dest : Option ActorId) (atm : Atom)
  | sendSelf (atm : Atom)
  | delayedSendSelf (delay : Nat) (atm : Atom)
  | quit
  | stop
  deriving DecidableEq, Repr

/-- A handler's outcome. -/
abbrev Reaction := State × List Effect

/-- What a client branch of `caf_main` does once its client actor is spawned:
`awaitDone` receives one `quit_atom`. -/
inductive Statement
  | sendStart
  | awaitDone
  | printDuration
  | abort
  deriving DecidableEq, Repr

/-- `bd(counter)` on an uninitialised `counter`: too short a payload leaves it as it was. -/
def readCounter (counter : UInt32) (payload : Bytes) : UInt32 :=
  (decode payload).getD counter

/-- The progress line after every hundredth message. -/
def progress (received : UInt32) : List Effect :=
  if received % 100 = 0 then [.cerr (.got received)] else []

@[simp] theorem readCounter_encode (counter x : UInt32) :
    readCounter counter (encode x) = x := by
  simp [readCounter]

/-! ## What the requests amount to -/

/-- What goes out on connection `handle`, message by message. An actor of the new
kind has one connection only and does not name it. -/
def writes (handle : ConnectionHandle) : List Effect → List Bytes
  | [] => []
  | .wrBuf payload :: es => payload :: writes handle es
  | .write h data :: es => if h = some handle then data :: writes handle es else writes handle es
  | _ :: es => writes handle es

/-- How many `quit_atom`s reach actor `dest`; one sent to a handle that is not set
reaches nobody. -/
def notices (dest : ActorId) : List Effect → Nat
  | [] => 0
  | .send h atm :: es => (if h = some dest ∧ atm = .quit then 1 else 0) + notices dest es
  | _ :: es => notices dest es

/-- How many `quit_atom`s the actor sends to itself, at once or with a delay. -/
def selfQuits : List Effect → Nat
  | [] => 0
  | .sendSelf atm :: es => (if atm = .quit then 1 else 0) + selfQuits es
  | .delayedSendSelf _ atm :: es => (if atm = .quit then 1 else 0) + selfQuits es
  | _ :: es => selfQuits es

/-- How often the completion line is printed. -/
def completions : List Effect → Nat
  | [] => 0
  | .cerr line :: es => (if line = .gotAllMessages then 1 else 0) + completions es
  | _ :: es => completions es

/-- The policy that a handler leaves on connection `handle`, where it sets one. -/
def policy (handle : ConnectionHandle) : List Effect → Option ReceivePolicy
  | [] => none
  | .configureRead p :: es => some ((policy handle es).getD p)
  | .configureReadOf h p :: es =>
    if h = some handle then some ((policy handle es).getD p) else policy handle es
  | _ :: es => policy handle es

section Progress

variable (received : UInt32) (es : List Effect)

@[simp] theorem writes_progress (handle : ConnectionHandle) :
    writes handle (progress received ++ es) = writes handle es := by
  unfold progress; split <;> rfl

@[simp] theorem notices_progress (dest : ActorId) :
    notices dest (progress received ++ es) = notices dest es := by
  unfold progress; split <;> rfl

@[simp] theorem selfQuits_progress : selfQuits (progress received ++ es) = selfQuits es := by
  unfold progress; split <;> rfl

@[simp] theorem completions_progress :
    completions (progress received ++ es) = completions es := by
  unfold progress; split <;> simp [completions]

@[simp] theorem policy_progress (handle : ConnectionHandle) :
    policy handle (progress received ++ es) = policy handle es := by
  unfold progress; split <;> rfl

@[simp] theorem quit_notMem_progress : Effect.quit ∉ progress received := by
  unfold progress; split <;> simp

end Progress

/-! ## An actor in a system -/

/-- The actor that runs `caf_main`. -/
def mainActor : ActorId := 0

/-- The one connection between a client and its server. -/
def connection : ConnectionHandle := 0

/-- An actor with the `quit_atom`s that it has sent to itself and not handled yet.
Once it has called `quit` it handles nothing any more. -/
structure Party where
  state : State
  alive : Bool := true
  selfQuits : Nat := 0
  deriving DecidableEq, Repr

def Party.after (p : Party) (r : Reaction) : Party where
  state := r.1
  alive := p.alive && !decide (.quit ∈ r.2)
  selfQuits := p.selfQuits + Actors.selfQuits r.2

@[simp] theorem Party.after_state (p : Party) (r : Reaction) : (p.after r).state = r.1 := rfl

/-- Nothing changes where a handler does nothing. -/
@[simp] theorem Party.after_nil (p : Party) : p.after (p.state, []) = p := by
  cases p
  simp [Party.after, Actors.selfQuits]

/-- Take one queued `quit_atom` of an actor that is still there. -/
def Party.takeQuit (p : Party) : Option Party :=
  if p.alive ∧ 0 < p.selfQuits then some { p with selfQuits := p.selfQuits - 1 } else none

theorem Party.takeQuit_cases {p p' : Party} (h : p.takeQuit = some p') :
    p'.state = p.state ∧ p'.alive = p.alive ∧ p.alive = true := by
  unfold Party.takeQuit at h
  split at h
  · rename_i hc
    cases h
    exact ⟨rfl, rfl, hc.1⟩
  · cases h

end NewbMeasurements.Actors
