import NewbMeasurements.PingpongUdp
import NewbMeasurements.ReliableLink
import NewbMeasurements.UdpSystem

/-!
`raw_client` and `raw_server` of `pingpong_udp` on top of their protocol layers and
a network that loses, duplicates and reorders datagrams: `reliability` on each
side, with the layers of `proto_t` or `ordered_proto_t` on top of it. The actions
are those of `UdpSystem` and the timeouts of the layers, which the actors hand on.
-/

namespace NewbMeasurements.StackSystem

open Words (Bytes)
open Datagrams (Network)
open Transitions (TransitionSystem)
open Actors PingpongUdp Protocols
open ReliableLink (Side Endpoint)

/-- An actor with its protocol layers. The last two fields record the counters of the
messages that it has accepted and how often it has printed its completion line. -/
structure Peer (σ : Type) where
  party : Party
  endpoint : Endpoint σ Bytes Bytes
  accepted : List UInt32 := []
  completed : Nat := 0

/-- A behavior, for a value that an uninitialised `counter` happens to have. -/
abbrev Behavior := UInt32 → State → Message → Reaction

variable {σ : Type} {next : Layer σ Bytes}

namespace Peer

/-- What a handler has written goes through the layers. -/
def reacts (F : Framing next Bytes) (p : Peer σ) (r : Reaction) : Option (Peer σ) :=
  ((writes connection r.2).foldlM (Endpoint.write F) p.endpoint).map fun endpoint =>
    { p with
      party := p.party.after r
      endpoint
      completed := p.completed + completions r.2 }

/-- The actor handles a message; a dead one does not. -/
def receives (F : Framing next Bytes) (actor : Behavior) (p : Peer σ) (counter₀ : UInt32)
    (payload : Bytes) : Option (Peer σ) :=
  if p.party.alive then
    let r := actor counter₀ p.party.state (.newRaw payload)
    (p.reacts F r).map fun q =>
      { q with
        accepted :=
          UdpSystem.World.record p.party.state r.1 (readCounter counter₀ payload) p.accepted }
  else some p

/-- The messages that the layers hand on, one after the other. -/
def receivesAll (F : Framing next Bytes) (actor : Behavior) :
    (Nat → UInt32) → List Bytes → Peer σ → Option (Peer σ)
  | _, [], p => some p
  | counter₀, payload :: payloads, p =>
    (p.receives F actor (counter₀ 0) payload).bind
      (receivesAll F actor (fun n => counter₀ (n + 1)) payloads)

/-- A datagram arrives at an actor that is still there. -/
def arrives (F : Framing next Bytes) (actor : Behavior) (p : Peer σ) (counter₀ : Nat → UInt32)
    (sent : Nat) (bytes : Bytes) : Option (Peer σ) :=
  if p.party.alive then
    receivesAll F actor counter₀ ((reliability next).read p.endpoint.layer bytes).handled
      { p with endpoint := p.endpoint.receive next sent bytes }
  else none

/-- What a handler asks of `proto->timeout`. -/
def protoTimeouts : List Effect → List (Atom × UInt32)
  | [] => []
  | .protoTimeout atm id :: es => (atm, id) :: protoTimeouts es
  | _ :: es => protoTimeouts es

/-- The `i`-th timeout of the layers fires: the actor gets the message. -/
def fires (F : Framing next Bytes) (actor : Behavior) (p : Peer σ) (counter₀ : Nat → UInt32)
    (i : Nat) : Option (Peer σ) :=
  match p.endpoint.timers[i]? with
  | none => none
  | some (atm, id) =>
    if p.party.alive then
      let q := { p with endpoint := { p.endpoint with timers := p.endpoint.timers.eraseIdx i } }
      (protoTimeouts (actor 0 p.party.state (.timeout atm id)).2).foldlM (fun q (atm, id) =>
        receivesAll F actor counter₀ ((reliability next).timeout q.endpoint.layer atm id).handled
          { q with endpoint := q.endpoint.after ((reliability next).timeout q.endpoint.layer atm id) }) q
    else none

end Peer

structure World (σ : Type) where
  client : Peer σ
  server : Peer σ
  startPending : Bool

/-- A datagram that reaches an actor which has quit is lost. -/
inductive Action
  | start
  | deliver (s : Side) (i : Nat) (counter₀ : Nat → UInt32)
  | duplicate (s : Side) (i : Nat)
  | lose (s : Side) (i : Nat)
  | fire (s : Side) (i : Nat) (counter₀ : Nat → UInt32)
  | error (s : Side) (op : Operation)
  | quit (s : Side)

/-- The behavior of each side. -/
def actor : Side → Behavior
  | .client => rawClient
  | .server => rawServer

namespace World

def get (w : World σ) : Side → Peer σ
  | .client => w.client
  | .server => w.server

def set (w : World σ) (s : Side) (p : Peer σ) : World σ :=
  match s with
  | .client => { w with client := p }
  | .server => { w with server := p }

/-- The network takes or adds copies of datagrams that `s` has sent. -/
def withOut (w : World σ) (s : Side) (out : Network Bytes) : World σ :=
  w.set s { w.get s with endpoint := { (w.get s).endpoint with out } }

def initial (next : Layer σ Bytes) : World σ where
  client := { party := { state := {} }, endpoint := { layer := (reliability next).init.state } }
  server :=
    { party := { state := rawServerInit mainActor }
      endpoint := { layer := (reliability next).init.state } }
  startPending := true

def step (F : Framing next Bytes) (messages : UInt64) (w : World σ) : Action → Option (World σ)
  | .start =>
    if w.client.party.alive ∧ w.startPending then
      (w.client.reacts F (rawClient 0 w.client.party.state (.start messages mainActor))).map
        fun client => { w with client, startPending := false }
    else none
  | .deliver s i counter₀ =>
    ((w.get s).endpoint.out.deliver i).bind fun (bytes, out) =>
      ((w.get s.other).arrives F (actor s.other) counter₀ (w.get s).endpoint.frames.length bytes).map
        ((w.withOut s out).set s.other)
  | .duplicate s i => ((w.get s).endpoint.out.duplicate i).map (w.withOut s)
  | .lose s i => ((w.get s).endpoint.out.lose i).map (w.withOut s)
  | .fire s i counter₀ => ((w.get s).fires F (actor s) counter₀ i).map (w.set s)
  | .error s op =>
    if (w.get s).party.alive then
      ((w.get s).reacts F (actor s 0 (w.get s).party.state (.ioError op))).map (w.set s)
    else none
  | .quit s =>
    (w.get s).party.takeQuit.bind fun party =>
      ({ w.get s with party }.reacts F (actor s 0 party.state .quit)).map (w.set s)

end World

/-- The system in which the client is asked for `messages` messages. -/
def system (F : Framing next Bytes) (messages : UInt64) : TransitionSystem (World σ) Action where
  init := .initial next
  step := World.step F messages

/-! ## What the actions come down to -/

section Sides

variable (w : World σ) (s : Side) (p q : Peer σ)

@[simp] theorem World.get_set_self : (w.set s p).get s = p := by cases s <;> rfl

@[simp] theorem World.get_set_other : (w.set s p).get s.other = w.get s.other := by cases s <;> rfl

@[simp] theorem World.get_other_set : (w.set s.other p).get s = w.get s := by cases s <;> rfl

@[simp] theorem World.set_set : (w.set s p).set s q = w.set s q := by cases s <;> rfl

theorem World.set_get : w.set s (w.get s) = w := by cases s <;> rfl

@[simp] theorem World.startPending_set : (w.set s p).startPending = w.startPending := by
  cases s <;> rfl

end Sides

section Peer

variable {F : Framing next Bytes}

theorem foldlM_write (e : Endpoint σ Bytes Bytes) (payloads : List Bytes) :
    payloads.foldlM (Endpoint.write F) e = some (payloads.foldl (Endpoint.wrote F) e) := by
  induction payloads generalizing e with
  | nil => rfl
  | cons payload payloads ih =>
    rw [List.foldlM_cons, Endpoint.write_eq, Option.bind_eq_bind, Option.bind_some, ih]
    rfl

/-- The actor after a handler. -/
def Peer.reacted (F : Framing next Bytes) (p : Peer σ) (r : Reaction) : Peer σ :=
  { p with
    party := p.party.after r
    endpoint := (writes connection r.2).foldl (Endpoint.wrote F) p.endpoint
    completed := p.completed + completions r.2 }

theorem Peer.reacts_eq (p : Peer σ) (r : Reaction) : p.reacts F r = some (p.reacted F r) := by
  rw [Peer.reacts, foldlM_write, Option.map_some]
  rfl

/-- The actor after a message of its layers. -/
def Peer.received (F : Framing next Bytes) (actor : Behavior) (p : Peer σ) (counter₀ : UInt32)
    (payload : Bytes) : Peer σ :=
  { p.reacted F (actor counter₀ p.party.state (.newRaw payload)) with
    accepted := UdpSystem.World.record p.party.state
      (actor counter₀ p.party.state (.newRaw payload)).1 (readCounter counter₀ payload) p.accepted }

theorem Peer.receives_alive {p : Peer σ} (h : p.party.alive = true) (actor : Behavior)
    (counter₀ : UInt32) (payload : Bytes) :
    p.receives F actor counter₀ payload = some (p.received F actor counter₀ payload) := by
  simp only [Peer.receives, if_pos h, Peer.reacts_eq, Option.map_some]
  rfl

theorem Peer.receives_dead {p : Peer σ} (h : ¬ p.party.alive = true) (actor : Behavior)
    (counter₀ : UInt32) (payload : Bytes) : p.receives F actor counter₀ payload = some p := by
  rw [Peer.receives, if_neg h]

/-- Both actors hand a timeout on to their layers. -/
theorem Peer.fires_eq {p : Peer σ} {i : Nat} {atm : Atom} {id : UInt32}
    {e : Endpoint σ Bytes Bytes} (ha : p.party.alive = true)
    (hi : p.endpoint.timers[i]? = some (atm, id)) (he : p.endpoint.fire next i = some e) (s : Side)
    (counter₀ : Nat → UInt32) :
    p.fires F (actor s) counter₀ i = Peer.receivesAll F (actor s) counter₀
      ((reliability next).timeout p.endpoint.layer atm id).handled { p with endpoint := e } := by
  have hone : Peer.protoTimeouts (actor s 0 p.party.state (.timeout atm id)).2 = [(atm, id)] := by
    cases s <;> rfl
  rw [Endpoint.fire, hi, Option.map_some, Option.some.injEq] at he
  subst he
  simp only [Peer.fires, hi, if_pos ha, hone, List.foldlM_cons, List.foldlM_nil,
    Option.bind_eq_bind, Option.pure_def, Option.bind_fun_some]

theorem Peer.fires_cases {p p' : Peer σ} {s : Side} {counter₀ : Nat → UInt32} {i : Nat}
    (h : p.fires F (actor s) counter₀ i = some p') :
    p.party.alive = true ∧ ∃ atm id e, p.endpoint.timers[i]? = some (atm, id) ∧
      p.endpoint.fire next i = some e ∧
      Peer.receivesAll F (actor s) counter₀
        ((reliability next).timeout p.endpoint.layer atm id).handled { p with endpoint := e } =
          some p' := by
  cases hi : p.endpoint.timers[i]? with
  | none => simp [Peer.fires, hi] at h
  | some timer =>
    obtain ⟨atm, id⟩ := timer
    by_cases ha : p.party.alive = true
    · obtain ⟨e, he⟩ : ∃ e, p.endpoint.fire next i = some e := by
        rw [Endpoint.fire, hi]
        exact ⟨_, rfl⟩
      rw [Peer.fires_eq ha hi he] at h
      exact ⟨ha, atm, id, e, rfl, he, h⟩
    · simp [Peer.fires, hi, ha] at h

theorem Peer.arrives_cases {p p' : Peer σ} {actor : Behavior} {counter₀ : Nat → UInt32}
    {sent : Nat} {bytes : Bytes} (h : p.arrives F actor counter₀ sent bytes = some p') :
    p.party.alive = true ∧ Peer.receivesAll F actor counter₀
      ((reliability next).read p.endpoint.layer bytes).handled
      { p with endpoint := p.endpoint.receive next sent bytes } = some p' := by
  unfold Peer.arrives at h
  split at h
  · rename_i ha
    exact ⟨ha, h⟩
  · cases h

end Peer

end NewbMeasurements.StackSystem
