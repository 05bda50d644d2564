import NewbMeasurements.Library.Transitions
import NewbMeasurements.PingpongTcp
import NewbMeasurements.PingpongUdp

/-!
A ping-pong client and the client branch of `caf_main` that spawned it. All that
`caf_main` gets to know of the client are the `quit_atom`s in its mailbox. The
network is left to the environment: once the client has written a ping, replies
with any content arrive, and failures come at any time.
-/

namespace NewbMeasurements.ClientSystem

open Words (Bytes encode)
open Transitions (TransitionSystem)
open Actors

inductive Mode
  | udpOrdered
  | udpUnordered
  | tcpNewb
  | tcpTraditional
  deriving DecidableEq, Repr

namespace Mode

/-- The client branch of `caf_main`. -/
def script : Mode → List Statement
  | udpOrdered => PingpongUdp.cafMainClient true
  | udpUnordered => PingpongUdp.cafMainClient false
  | tcpNewb | tcpTraditional => PingpongTcp.cafMainClient

def clientInit : Mode → State
  | tcpTraditional => PingpongTcp.tcpClientInit connection
  | _ => {}

/-- The handlers of the client. -/
def handle : Mode → UInt32 → State → Message → Reaction
  | udpOrdered | udpUnordered => PingpongUdp.rawClient
  | tcpNewb => PingpongTcp.rawClient
  | tcpTraditional => PingpongTcp.tcpClient

/-- How a reply reaches the client. -/
def reply (mode : Mode) (payload : Bytes) : Message :=
  match mode with
  | tcpTraditional => .newData connection payload
  | _ => .newRaw payload

/-- How a failure of the connection reaches the client. -/
def failure (mode : Mode) (op : Operation) : Message :=
  match mode with
  | tcpTraditional => .connectionClosed
  | _ => .ioError op

def isUdp : Mode → Bool
  | udpOrdered | udpUnordered => true
  | _ => false

end Mode

/-- `todo` and `executed` are the statements of `caf_main`, `mailbox` the `quit_atom`s
that it has not received yet. The last three fields count the pings the client wrote,
the replies it accepted and the `quit_atom`s it sent to `caf_main`. -/
structure World where
  client : Party
  startPending : Bool
  todo : List Statement
  executed : List Statement
  mailbox : Nat
  aborted : Bool
  pings : Nat
  accepted : Nat
  notices : Nat
  deriving DecidableEq, Repr

inductive Action
  | main
  | start
  | reply (payload : Bytes) (counter₀ : UInt32)
  | failure (op : Operation)
  | quit
  deriving DecidableEq, Repr

namespace World

def initial (mode : Mode) : World where
  client := { state := mode.clientInit }
  startPending := false
  todo := mode.script
  executed := []
  mailbox := 0
  aborted := false
  pings := 0
  accepted := 0
  notices := 0

/-- `caf_main` executes its next statement; `await_done` blocks on an empty mailbox. -/
def mainStep (w : World) : Option World :=
  match w.todo with
  | [] => none
  | statement :: rest =>
    let w' := { w with todo := rest, executed := w.executed ++ [statement] }
    match statement with
    | .sendStart => some { w' with startPending := true }
    | .awaitDone => if 0 < w.mailbox then some { w' with mailbox := w.mailbox - 1 } else none
    | .printDuration => some w'
    | .abort => some { w' with aborted := true }

/-- The client has handled a message. It has accepted a reply if it has counted it. -/
def reacts (w : World) (r : Reaction) : World :=
  { w with
    client := w.client.after r
    mailbox := w.mailbox + Actors.notices mainActor r.2
    notices := w.notices + Actors.notices mainActor r.2
    pings := w.pings + (writes connection r.2).length
    accepted :=
      if r.1.receivedMessages = w.client.state.receivedMessages then w.accepted
      else w.accepted + 1 }

def step (mode : Mode) (messages : UInt64) (w : World) (a : Action) : Option World :=
  if w.aborted then none
  else
    match a with
    | .main => w.mainStep
    | .start =>
      if w.client.alive ∧ w.startPending then
        some { w.reacts (mode.handle 0 w.client.state (.start messages mainActor)) with
          startPending := false }
      else none
    | .reply payload counter₀ =>
      if w.client.alive ∧ 0 < w.pings then
        some (w.reacts (mode.handle counter₀ w.client.state (mode.reply payload)))
      else none
    | .failure op =>
      if w.client.alive then some (w.reacts (mode.handle 0 w.client.state (mode.failure op)))
      else none
    | .quit =>
      w.client.takeQuit.map fun client =>
        { w with client }.reacts (mode.handle 0 client.state .quit)

end World

/-- The system in which the client is asked for `messages` messages. -/
def system (mode : Mode) (messages : UInt64) : TransitionSystem World Action where
  init := .initial mode
  step := World.step mode messages

/-! ## What each message can do -/

/-- The `quit_atom` that reaches `caf_main` if the client knows it. -/
def told (s : State) : Nat := if s.responder = some mainActor then 1 else 0

section Handlers

variable (mode : Mode) (counter₀ : UInt32) (s : State)

theorem handle_start (messages : UInt64) :
    (mode.handle counter₀ s (.start messages mainActor)).1 =
        { s with responder := some mainActor, messages := messages } ∧
      notices mainActor (mode.handle counter₀ s (.start messages mainActor)).2 = 0 ∧
      Effect.quit ∉ (mode.handle counter₀ s (.start messages mainActor)).2 := by
  cases mode with
  | udpOrdered | udpUnordered => exact ⟨rfl, rfl, by simp [Mode.handle, PingpongUdp.rawClient]⟩
  | tcpNewb => exact ⟨rfl, rfl, by simp [Mode.handle, PingpongTcp.rawClient]⟩
  | tcpTraditional => exact ⟨rfl, rfl, by simp [Mode.handle, PingpongTcp.tcpClient]⟩

/-- A reply is dropped, or it is the last one, or the next ping goes out. -/
theorem handle_reply (payload : Bytes) :
    mode.handle counter₀ s (mode.reply payload) = (s, []) ∨
      ((mode.handle counter₀ s (mode.reply payload)).1 =
          { s with receivedMessages := s.receivedMessages + 1 } ∧
        s.messages ≤ (s.receivedMessages + 1).toUInt64 ∧
        notices mainActor (mode.handle counter₀ s (mode.reply payload)).2 = told s ∧
        (Effect.quit ∈ (mode.handle counter₀ s (mode.reply payload)).2 → mode = .tcpNewb)) ∨
      ((mode.handle counter₀ s (mode.reply payload)).1 =
          { s with receivedMessages := s.receivedMessages + 1 } ∧
        ¬ s.messages ≤ (s.receivedMessages + 1).toUInt64 ∧
        notices mainActor (mode.handle counter₀ s (mode.reply payload)).2 = 0 ∧
        Effect.quit ∉ (mode.handle counter₀ s (mode.reply payload)).2) := by
  by_cases hm : s.messages ≤ (s.receivedMessages + 1).toUInt64
  · cases mode with
    | udpOrdered | udpUnordered =>
      by_cases hx : readCounter counter₀ payload = s.receivedMessages
      · refine .inr (.inl ?_)
        simp only [Mode.handle, Mode.reply, PingpongUdp.rawClient_last hx hm]
        exact ⟨trivial, hm, by simp [notices, told], by simp⟩
      · exact .inl (PingpongUdp.rawClient_stale hx)
    | tcpNewb =>
      refine .inr (.inl ?_)
      simp only [Mode.handle, Mode.reply, PingpongTcp.rawClient_last hm]
      exact ⟨trivial, hm, by simp [notices, told], fun _ => trivial⟩
    | tcpTraditional =>
      refine .inr (.inl ?_)
      simp only [Mode.handle, Mode.reply, PingpongTcp.tcpClient_last hm]
      exact ⟨trivial, hm, by simp [notices, told], by simp⟩
  · cases mode with
    | udpOrdered | udpUnordered =>
      by_cases hx : readCounter counter₀ payload = s.receivedMessages
      · refine .inr (.inr ?_)
        simp only [Mode.handle, Mode.reply, PingpongUdp.rawClient_next hx hm]
        exact ⟨trivial, hm, by simp [notices], by simp⟩
      · exact .inl (PingpongUdp.rawClient_stale hx)
    | tcpNewb =>
      refine .inr (.inr ?_)
      simp only [Mode.handle, Mode.reply, PingpongTcp.rawClient_next hm]
      exact ⟨trivial, hm, by simp [notices], by simp⟩
    | tcpTraditional =>
      refine .inr (.inr ?_)
      simp only [Mode.handle, Mode.reply, PingpongTcp.tcpClient_next hm]
      exact ⟨trivial, hm, by simp [notices], by simp⟩

/-- A failure only makes a UDP client ask itself to quit; a TCP client quits and
tells `caf_main`. -/
theorem handle_failure (op : Operation) :
    (mode.handle counter₀ s (mode.failure op)).1 = s ∧
      writes connection (mode.handle counter₀ s (mode.failure op)).2 = [] ∧
      (mode.isUdp = true → notices mainActor (mode.handle counter₀ s (mode.failure op)).2 = 0 ∧
        Effect.quit ∉ (mode.handle counter₀ s (mode.failure op)).2) ∧
      (mode.isUdp = false →
        notices mainActor (mode.handle counter₀ s (mode.failure op)).2 = told s) := by
  cases mode with
  | udpOrdered | udpUnordered =>
    refine ⟨rfl, rfl, fun _ => ⟨rfl, ?_⟩, Bool.noConfusion⟩
    simp [Mode.handle, Mode.failure, PingpongUdp.rawClient]
  | tcpNewb =>
    refine ⟨rfl, rfl, Bool.noConfusion, fun _ => ?_⟩
    simp [Mode.handle, Mode.failure, PingpongTcp.rawClient, notices, told]
  | tcpTraditional =>
    refine ⟨rfl, rfl, Bool.noConfusion, fun _ => ?_⟩
    simp [Mode.handle, Mode.failure, PingpongTcp.tcpClient, notices, told]

/-- A UDP client that handles its own `quit_atom` tells `caf_main`; a TCP client has
no handler for it. -/
theorem handle_quit :
    (mode.handle counter₀ s .quit).1 = s ∧
      writes connection (mode.handle counter₀ s .quit).2 = [] ∧
      (mode.isUdp = true → notices mainActor (mode.handle counter₀ s .quit).2 = told s) ∧
      (mode.isUdp = false → (mode.handle counter₀ s .quit).2 = []) := by
  cases mode with
  | udpOrdered | udpUnordered =>
    refine ⟨rfl, rfl, fun _ => ?_, Bool.noConfusion⟩
    simp [Mode.handle, PingpongUdp.rawClient, notices, told]
  | tcpNewb | tcpTraditional => exact ⟨rfl, rfl, Bool.noConfusion, fun _ => rfl⟩

end Handlers

end NewbMeasurements.ClientSystem
