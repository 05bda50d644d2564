import NewbMeasurements.Library.Transitions
import NewbMeasurements.PingpongTcp

/-!
A client and a server of `pingpong_tcp`, connected by a byte stream in each
direction. An action handles the `start_atom` of `caf_main`, or lets a segment of
any size arrive; the actions of a run come in any order. The pair of actors is a
parameter, so that the traditional pair and the new one run in the same system.
-/

namespace NewbMeasurements.TcpSystem

open Words (Bytes)
open ByteStreams (Link ReceivePolicy)
open Transitions (TransitionSystem)
open Actors PingpongTcp

/-- The handlers of the two actors for what arrives on the connection. `accepted`
is what the server does before the first bytes arrive, and `configure` what becomes of
a read policy that an actor sets. -/
structure Pair where
  configure : Link UInt8 → ReceivePolicy → Link UInt8
  accepted : Reaction
  serverReceives : UInt32 → State → Bytes → Reaction
  clientInit : State
  clientStart : State → UInt64 → ActorId → Reaction
  clientReceives : UInt32 → State → Bytes → Reaction

/-- `tcp_client` and `tcp_server`. The server knows its responder when a client connects.
A broker reads nothing before it has set its policy. -/
def traditionalPair : Pair where
  configure := Link.configure
  accepted := tcpServer (tcpServer {} (.actor mainActor)).1 (.newConnection connection)
  serverReceives _ s buf := tcpServer s (.newData connection buf)
  clientInit := tcpClientInit connection
  clientStart s messages responder := tcpClient 0 s (.start messages responder)
  clientReceives counter₀ s buf := tcpClient counter₀ s (.newData connection buf)

/-- `raw_client` and `raw_server`. A newb is ready for its first message when it has been
started, so that a policy set later is the one of the messages after it. -/
def newbPair : Pair where
  configure := Link.configureNext
  accepted := (rawServerInit mainActor, [])
  serverReceives counter₀ s payload := rawServer counter₀ s (.newRaw payload)
  clientInit := {}
  clientStart s messages responder := rawClient 0 s (.start messages responder)
  clientReceives counter₀ s payload := rawClient counter₀ s (.newRaw payload)

/-- The last five fields record the messages that reached the actors, what these
wrote, call by call, and how many `quit_atom`s the client's reply handler sent to
`caf_main`. -/
structure World where
  client : Party
  server : Party
  toServer : Link UInt8
  toClient : Link UInt8
  startPending : Bool
  clientFrames : List Bytes
  serverFrames : List Bytes
  pings : List Bytes
  echoes : List Bytes
  notices : Nat
  deriving DecidableEq, Repr

inductive Action
  | start
  | toServer (k : Nat) (counter₀ : UInt32)
  | toClient (k : Nat) (counter₀ : UInt32)
  deriving DecidableEq, Repr

/-- Apply the read policy that a handler sets, if it sets one. -/
def reconfigure (P : Pair) (l : Link UInt8) (es : List Effect) : Link UInt8 :=
  match policy connection es with
  | some p => P.configure l p
  | none => l

def World.initial (P : Pair) : World where
  client := { state := P.clientInit }
  server := { state := P.accepted.1 }
  toServer := reconfigure P {} P.accepted.2
  toClient := {}
  startPending := true
  clientFrames := []
  serverFrames := []
  pings := []
  echoes := []
  notices := 0

namespace World

def clientReacts (P : Pair) (w : World) (r : Reaction) : World :=
  { w with
    client := w.client.after r
    toClient := reconfigure P w.toClient r.2
    toServer := (writes connection r.2).foldl Link.write w.toServer
    pings := w.pings ++ writes connection r.2 }

def serverReacts (P : Pair) (w : World) (r : Reaction) : World :=
  { w with
    server := w.server.after r
    toServer := reconfigure P w.toServer r.2
    toClient := (writes connection r.2).foldl Link.write w.toClient
    echoes := w.echoes ++ writes connection r.2 }

def serverReceives (P : Pair) (w : World) (counter₀ : UInt32) (buf : Bytes) : World :=
  if w.server.alive then
    let w' := w.serverReacts P (P.serverReceives counter₀ w.server.state buf)
    { w' with
      toServer := w'.toServer.prepareNextRead
      serverFrames := w.serverFrames ++ [buf] }
  else w

def clientReceives (P : Pair) (w : World) (counter₀ : UInt32) (buf : Bytes) : World :=
  if w.client.alive then
    let r := P.clientReceives counter₀ w.client.state buf
    let w' := w.clientReacts P r
    { w' with
      toClient := w'.toClient.prepareNextRead
      clientFrames := w.clientFrames ++ [buf]
      notices := w.notices + Actors.notices mainActor r.2 }
  else w

def step (P : Pair) (messages : UInt64) (w : World) : Action → Option World
  | .start =>
    if w.client.alive ∧ w.startPending then
      some { w.clientReacts P (P.clientStart w.client.state messages mainActor) with
        startPending := false }
    else none
  | .toServer k counter₀ =>
    (w.toServer.arrive k).map fun (toServer, out) =>
      match out with
      | some buf => { w with toServer }.serverReceives P counter₀ buf
      | none => { w with toServer }
  | .toClient k counter₀ =>
    (w.toClient.arrive k).map fun (toClient, out) =>
      match out with
      | some buf => { w with toClient }.clientReceives P counter₀ buf
      | none => { w with toClient }

end World

/-- The system in which the client of the pair is asked for `messages` messages. -/
def system (P : Pair) (messages : UInt64) : TransitionSystem World Action where
  init := .initial P
  step := World.step P messages

end NewbMeasurements.TcpSystem
