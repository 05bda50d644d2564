import NewbMeasurements.Library.Datagrams
import NewbMeasurements.Library.Transitions
import NewbMeasurements.PingpongUdp

/-!
One `raw_client` and one `raw_server` of `pingpong_udp`, connected by a datagram
network in each direction. An action handles one message, or lets the network
duplicate or lose a copy; the actions of a run come in any order.

What the layers below the actors retransmit is a duplicate of a datagram here,
so that the timeout handlers of the actors need no action of their own.
-/

namespace NewbMeasurements.UdpSystem

open Words (Bytes encode)
open Datagrams (Network)
open Transitions (TransitionSystem)
open Actors PingpongUdp

/-- `startPending`: the `start_atom` of `caf_main` is not handled yet. The last
three fields record the counters of the accepted messages, and how often the
client printed its completion line. -/
structure World where
  client : Party
  server : Party
  pings : Network Bytes
  replies : Network Bytes
  startPending : Bool
  clientAccepted : List UInt32
  serverAccepted : List UInt32
  completed : Nat
  deriving DecidableEq, Repr

inductive Action
  | start
  | deliverPing (i : Nat) (counter₀ : UInt32)
  | deliverReply (i : Nat) (counter₀ : UInt32)
  | duplicatePing (i : Nat)
  | duplicateReply (i : Nat)
  | losePing (i : Nat)
  | loseReply (i : Nat)
  | clientError (op : Operation)
  | serverError (op : Operation)
  | clientQuit
  | serverQuit
  deriving DecidableEq, Repr

def World.initial : World where
  client := { state := {} }
  server := { state := rawServerInit mainActor }
  pings := []
  replies := []
  startPending := true
  clientAccepted := []
  serverAccepted := []
  completed := 0

namespace World

/-- The client has handled a message: what it wrote is on its way to the server. -/
def clientReacts (w : World) (r : Reaction) : World :=
  { w with
    client := w.client.after r
    pings := (writes connection r.2).foldl Network.send w.pings
    completed := w.completed + completions r.2 }

def serverReacts (w : World) (r : Reaction) : World :=
  { w with
    server := w.server.after r
    replies := (writes connection r.2).foldl Network.send w.replies }

/-- A handler has accepted a message if it has counted it. -/
def record (before after : State) (counter : UInt32) (log : List UInt32) : List UInt32 :=
  if after.receivedMessages = before.receivedMessages then log else log ++ [counter]

def serverReceives (w : World) (counter₀ : UInt32) (payload : Bytes) : World :=
  if w.server.alive then
    let r := rawServer counter₀ w.server.state (.newRaw payload)
    { w.serverReacts r with
      serverAccepted :=
        record w.server.state r.1 (readCounter counter₀ payload) w.serverAccepted }
  else w

def clientReceives (w : World) (counter₀ : UInt32) (payload : Bytes) : World :=
  if w.client.alive then
    let r := rawClient counter₀ w.client.state (.newRaw payload)
    { w.clientReacts r with
      clientAccepted :=
        record w.client.state r.1 (readCounter counter₀ payload) w.clientAccepted }
  else w

def step (messages : UInt64) (w : World) : Action → Option World
  | .start =>
    if w.client.alive ∧ w.startPending then
      some { w.clientReacts (rawClient 0 w.client.state (.start messages mainActor)) with
        startPending := false }
    else none
  | .deliverPing i counter₀ =>
    (w.pings.deliver i).map fun (payload, pings) =>
      { w with pings }.serverReceives counter₀ payload
  | .deliverReply i counter₀ =>
    (w.replies.deliver i).map fun (payload, replies) =>
      { w with replies }.clientReceives counter₀ payload
  | .duplicatePing i => (w.pings.duplicate i).map fun pings => { w with pings }
  | .duplicateReply i => (w.replies.duplicate i).map fun replies => { w with replies }
  | .losePing i => (w.pings.lose i).map fun pings => { w with pings }
  | .loseReply i => (w.replies.lose i).map fun replies => { w with replies }
  | .clientError op =>
    if w.client.alive then
      some (w.clientReacts (rawClient 0 w.client.state (.ioError op)))
    else none
  | .serverError op =>
    if w.server.alive then
      some (w.serverReacts (rawServer 0 w.server.state (.ioError op)))
    else none
  | .clientQuit =>
    w.client.takeQuit.map fun client =>
      { w with client }.clientReacts (rawClient 0 client.state .quit)
  | .serverQuit =>
    w.server.takeQuit.map fun server =>
      { w with server }.serverReacts (rawServer 0 server.state .quit)

end World

/-- The system in which the client is asked for `messages` messages. -/
def system (messages : UInt64) : TransitionSystem World Action where
  init := .initial
  step := World.step messages

/-! ## The four outcomes of a delivery -/

namespace World

theorem record_same (s : State) (counter : UInt32) (log : List UInt32) :
    record s s counter log = log := if_pos rfl

theorem record_counted (s : State) (counter : UInt32) (log : List UInt32) :
    record s { s with receivedMessages := s.receivedMessages + 1 } counter log =
      log ++ [counter] := by
  unfold record
  apply if_neg
  exact Words.succ_ne s.receivedMessages

theorem serverReceives_dead {w : World} (h : w.server.alive = false) (counter₀ : UInt32)
    (payload : Bytes) : w.serverReceives counter₀ payload = w := by
  simp [serverReceives, h]

theorem clientReceives_dead {w : World} (h : w.client.alive = false) (counter₀ : UInt32)
    (payload : Bytes) : w.clientReceives counter₀ payload = w := by
  simp [clientReceives, h]

theorem serverReceives_stale {w : World} {counter₀ x : UInt32}
    (hx : x ≠ w.server.state.receivedMessages) :
    w.serverReceives counter₀ (encode x) = w := by
  cases h : w.server.alive with
  | false => exact serverReceives_dead h _ _
  | true =>
    have hr : rawServer counter₀ w.server.state (.newRaw (encode x)) = (w.server.state, []) :=
      rawServer_stale (by simpa using hx)
    simp [serverReceives, h, hr, record_same, serverReacts, writes]

theorem clientReceives_stale {w : World} {counter₀ x : UInt32}
    (hx : x ≠ w.client.state.receivedMessages) :
    w.clientReceives counter₀ (encode x) = w := by
  cases h : w.client.alive with
  | false => exact clientReceives_dead h _ _
  | true =>
    have hr : rawClient counter₀ w.client.state (.newRaw (encode x)) = (w.client.state, []) :=
      rawClient_stale (by simpa using hx)
    simp [clientReceives, h, hr, record_same, clientReacts, writes, completions]

theorem serverReceives_accept {w : World} (h : w.server.alive = true) (counter₀ : UInt32) :
    w.serverReceives counter₀ (encode w.server.state.receivedMessages) =
      { w with
        server.state.receivedMessages := w.server.state.receivedMessages + 1
        replies := w.replies.send (encode w.server.state.receivedMessages)
        serverAccepted := w.serverAccepted ++ [w.server.state.receivedMessages] } := by
  have hr := rawServer_accept (readCounter_encode counter₀ w.server.state.receivedMessages)
  simp [serverReceives, h, hr, record_counted, serverReacts, Party.after, writes, selfQuits]

/-- The last reply: the completion line, a `quit_atom` to main and one to itself. -/
theorem clientReceives_last {w : World} (h : w.client.alive = true) (counter₀ : UInt32)
    (hm : w.client.state.messages ≤ (w.client.state.receivedMessages + 1).toUInt64) :
    w.clientReceives counter₀ (encode w.client.state.receivedMessages) =
      { w with
        client.state.receivedMessages := w.client.state.receivedMessages + 1
        client.selfQuits := w.client.selfQuits + 1
        clientAccepted := w.clientAccepted ++ [w.client.state.receivedMessages]
        completed := w.completed + 1 } := by
  have hr := rawClient_last (readCounter_encode counter₀ w.client.state.receivedMessages) hm
  simp [clientReceives, h, hr, record_counted, clientReacts, Party.after, writes, selfQuits,
    completions]

theorem clientReceives_next {w : World} (h : w.client.alive = true) (counter₀ : UInt32)
    (hm : ¬ w.client.state.messages ≤ (w.client.state.receivedMessages + 1).toUInt64) :
    w.clientReceives counter₀ (encode w.client.state.receivedMessages) =
      { w with
        client.state.receivedMessages := w.client.state.receivedMessages + 1
        pings := w.pings.send (encode (w.client.state.receivedMessages + 1))
        clientAccepted := w.clientAccepted ++ [w.client.state.receivedMessages] } := by
  have hr := rawClient_next (readCounter_encode counter₀ w.client.state.receivedMessages) hm
  simp [clientReceives, h, hr, record_counted, clientReacts, Party.after, writes, selfQuits,
    completions]

end World

end NewbMeasurements.UdpSystem
