import NewbMeasurements.StackSystem
import NewbMeasurements.UdpSafety

/-!
The ping-pong on top of its protocol layers does nothing that it does not do over a
bare datagram network: a copy that the layers send again, or keep for later, is a
duplicate there. So each run has a run of `UdpSystem` in which the actors end in the
same states, and what holds of all runs there holds here, whatever the network
does, however often ids and sequence numbers wrap, and also after errors.
-/

namespace NewbMeasurements.StackSystem

open Words (Bytes)
open Datagrams (Network)
open Transitions (TransitionSystem)
open Actors PingpongUdp Protocols
open ReliableLink (Side Side.other_other Side.eq_or_eq_other Endpoint fire_cases mem_of_lookup
  decodeReliability_packet drop_packet decodeReliability_ack)

section Carried

variable {σ μ α : Type} {next : Layer σ μ} {F : Framing next α} {message : α → μ}
  {T : Transparent F message} {p q : α → Prop} {P P' Q : Endpoint σ μ α}

/-- Nothing but messages of `p` is on its way from `P` to `Q`, kept by `P` or held by
the layers of `Q`. -/
structure Carried (T : Transparent F message) (p : α → Prop) (P Q : Endpoint σ μ α) : Prop where
  data : ∀ x id, P.out.InFlight x → decodeReliability x = some ⟨id, false⟩ →
    Framed F p (x.drop reliabilityHeaderLen)
  kept : ∀ entry ∈ P.layer.unacked, ∃ id f, entry.2 = Framing.packet id f ∧ Framed F p f
  holds : T.Holds p Q.layer.next

theorem Carried.mono (himp : ∀ x, p x → q x) (h : Carried T p P Q) : Carried T q P Q where
  data x id hx hdec := (h.data x id hx hdec).mono himp
  kept entry hentry := by
    obtain ⟨id, f, heq, hf⟩ := h.kept entry hentry
    exact ⟨id, f, heq, hf.mono himp⟩
  holds := T.mono himp h.holds

theorem Carried.wrote (h : Carried T p P Q) {x : α} (hx : p x) : Carried T p (P.wrote F x) Q where
  data y id hy hdec := by
    rcases Network.inFlight_send.mp hy with hy | rfl
    · exact h.data y id hy hdec
    · rw [drop_packet]
      exact ⟨_, x, hx, rfl⟩
  kept entry hentry := by
    have hor : entry ∈ P.layer.unacked ∨
        entry.2 = Framing.packet P.layer.idWrite (F.frame P.layer.next x) := by
      simp only [Endpoint.wrote, Framing.reliable, Unacked.emplace] at hentry
      split at hentry
      · exact .inl hentry
      · rcases List.mem_append.mp hentry with hentry | hentry
        · exact .inl hentry
        · exact .inr (List.mem_singleton.mp hentry ▸ rfl)
    rcases hor with hmem | heq
    · exact h.kept entry hmem
    · exact ⟨_, _, heq, _, x, hx, rfl⟩
  holds := h.holds

theorem Carried.wrote_other (h : Carried T p Q P) (x : α) : Carried T p Q (P.wrote F x) :=
  { h with holds := T.closed x h.holds }

theorem Carried.network (h : Carried T p P Q) {out : Network Bytes}
    (hout : ∀ x, out.InFlight x → P.out.InFlight x) : Carried T p { P with out } Q :=
  { h with data := fun x id hx => h.data x id (hout x hx) }

theorem Carried.network_other (h : Carried T p Q P) (out : Network Bytes) :
    Carried T p Q { P with out } :=
  { h with }

/-- What a datagram of the other side makes the layers hold and hand on. -/
theorem yields_read {s : ReliabilityState σ} (h : T.Holds p s.next) {x : Bytes}
    (hx : ∀ id, decodeReliability x = some ⟨id, false⟩ →
      Framed F p (x.drop reliabilityHeaderLen)) :
    Yields message p (fun s => T.Holds p s.next) ((reliability next).read s x) := by
  show Yields message p _ (ReliabilityState.read next s x)
  unfold ReliabilityState.read
  split
  · exact ⟨h, List.forall_mem_nil _⟩
  · rename_i header hdec
    obtain ⟨id, isAck⟩ := header
    cases isAck with
    | true => exact ⟨h, List.forall_mem_nil _⟩
    | false =>
      have hread := T.read h (hx id hdec)
      exact ⟨hread.state, hread.handled⟩

theorem yields_timeout {s : ReliabilityState σ} (h : T.Holds p s.next) (atm : Atom) (id : UInt32) :
    Yields message p (fun s => T.Holds p s.next) ((reliability next).timeout s atm id) := by
  show Yields message p _ (ReliabilityState.timeout next s atm id)
  unfold ReliabilityState.timeout
  split
  · split
    · exact ⟨h, List.forall_mem_nil _⟩
    · exact ⟨h, List.forall_mem_nil _⟩
  · exact (T.timeout atm id h).map fun _ hs => hs

theorem layer_receive (e : Endpoint σ μ α) (sent : Nat) (x : Bytes) :
    (e.receive next sent x).layer = ((reliability next).read e.layer x).state := by
  rw [← ReliableLink.readRecorded_fst]
  rfl

/-- A datagram arrives at `Q`. -/
theorem Carried.receive (h : Carried T p P Q) {x : Bytes}
    (hx : ∀ id, decodeReliability x = some ⟨id, false⟩ →
      Framed F p (x.drop reliabilityHeaderLen)) (sent : Nat) :
    Carried T p P (Q.receive next sent x) :=
  { h with holds := by rw [layer_receive]; exact (yields_read h.holds hx).state }

/-- A datagram arrives at `P`. -/
theorem Carried.receive_other (h : Carried T p P Q) (hq : Quiet next) (x : Bytes) (sent : Nat) :
    Carried T p (P.receive next sent x) Q := by
  cases hdec : decodeReliability x with
  | none => rwa [Endpoint.receive_malformed _ _ hdec]
  | some header =>
    obtain ⟨id, isAck⟩ := header
    cases isAck with
    | true =>
      rw [Endpoint.receive_ack next P _ hdec]
      refine { h with kept := ?_ }
      intro entry hentry
      exact h.kept entry (ReliableLink.mem_erase.mp hentry).1
    | false =>
      rw [Endpoint.receive_data next P _ hq hdec]
      refine { h with data := ?_ }
      intro y id' hy hdec'
      rcases Network.inFlight_send.mp hy with hy | rfl
      · exact h.data y id' hy hdec'
      · rw [decodeReliability_ack] at hdec'
        cases hdec'

/-- A timeout of `P` fires. -/
theorem Carried.fire (h : Carried T p P Q) (hq : Quiet next) {i : Nat}
    (hf : P.fire next i = some P') : Carried T p P' Q := by
  obtain ⟨atm, id, _, hcase⟩ := fire_cases hq hf
  rcases hcase with ⟨packet, _, hp, rfl⟩ | ⟨_, n, ts, hs, rfl⟩
  · refine { h with data := ?_ }
    intro y id' hy hdec
    rcases Network.inFlight_send.mp hy with hy | rfl
    · exact h.data y id' hy hdec
    · obtain ⟨id'', f, heq, hframed⟩ := h.kept _ (mem_of_lookup hp)
      rw [show y = Framing.packet id'' f from heq, drop_packet]
      exact hframed
  · exact { h with }

/-- A timeout of `Q` fires. -/
theorem Carried.fire_other (h : Carried T p P Q) {i : Nat} {Q' : Endpoint σ μ α}
    (hf : Q.fire next i = some Q') : Carried T p P Q' := by
  obtain ⟨⟨atm, id⟩, _, rfl⟩ := Option.map_eq_some_iff.mp hf
  exact { h with holds := (yields_timeout h.holds atm id).state }

end Carried

/-! ## The simulation -/

section Simulation

variable {σ : Type} {next : Layer σ Bytes} {F : Framing next Bytes} {T : Transparent F id}
  {w w' : World σ} {a : UdpSystem.World} {m : UInt64}

/-- The datagrams that one side has sent there, its actor and what it has accepted. -/
def sentBy (a : UdpSystem.World) : Side → Network Bytes
  | .client => a.pings
  | .server => a.replies

def partyOf (a : UdpSystem.World) : Side → Party
  | .client => a.client
  | .server => a.server

def acceptedBy (a : UdpSystem.World) : Side → List UInt32
  | .client => a.clientAccepted
  | .server => a.serverAccepted

/-- The world `a` of `UdpSystem` is in the state of `w`. Nothing is ever lost in `a`,
and all that travels in `w`, is kept or is held has been sent in `a`. -/
structure Simulates (T : Transparent F id) (w : World σ) (a : UdpSystem.World) : Prop where
  party : ∀ s, partyOf a s = (w.get s).party
  accepted : ∀ s, acceptedBy a s = (w.get s).accepted
  start : a.startPending = w.startPending
  completed : a.completed = w.client.completed
  kept : ∀ s, (sentBy a s).Kept
  carried : ∀ s, Carried T (· ∈ (sentBy a s).sent) (w.get s).endpoint (w.get s.other).endpoint

theorem Simulates.carried_other (h : Simulates T w a) (s : Side) :
    Carried T (· ∈ (sentBy a s.other).sent) (w.get s.other).endpoint (w.get s).endpoint := by
  have := h.carried s.other
  rwa [Side.other_other] at this

/-- A change of one endpoint alone. -/
theorem Simulates.endpoint (h : Simulates T w a) (s : Side) {e : Endpoint σ Bytes Bytes}
    (hout : Carried T (· ∈ (sentBy a s).sent) e (w.get s.other).endpoint)
    (hin : Carried T (· ∈ (sentBy a s.other).sent) (w.get s.other).endpoint e) :
    Simulates T (w.set s { w.get s with endpoint := e }) a where
  party t := by
    rcases Side.eq_or_eq_other s t with rfl | rfl
    · rw [World.get_set_self]
      exact h.party t
    · rw [World.get_set_other]
      exact h.party _
  accepted t := by
    rcases Side.eq_or_eq_other s t with rfl | rfl
    · rw [World.get_set_self]
      exact h.accepted t
    · rw [World.get_set_other]
      exact h.accepted _
  start := by
    rw [World.startPending_set]
    exact h.start
  completed := by
    cases s
    · exact h.completed
    · exact h.completed
  kept := h.kept
  carried t := by
    rcases Side.eq_or_eq_other s t with rfl | rfl
    · rw [World.get_set_self, World.get_set_other]
      exact hout
    · rw [Side.other_other, World.get_set_self, World.get_set_other]
      exact hin

theorem kept_sends {n : Network Bytes} (h : n.Kept) (payloads : List Bytes) :
    (payloads.foldl Network.send n).Kept := by
  induction payloads generalizing n with
  | nil => exact h
  | cons payload payloads ih => exact ih (Network.kept_send h payload)

theorem Carried.writes {P Q : Endpoint σ Bytes Bytes} {n : Network Bytes}
    (h : Carried T (· ∈ n.sent) P Q) (payloads : List Bytes) :
    Carried T (· ∈ (payloads.foldl Network.send n).sent) (payloads.foldl (Endpoint.wrote F) P) Q := by
  induction payloads generalizing P n with
  | nil => exact h
  | cons payload payloads ih =>
    have hmono : Carried T (· ∈ (n.send payload).sent) P Q := by
      apply h.mono
      intro x hx
      rw [Network.sent_send]
      exact List.mem_append_left _ hx
    apply ih
    apply hmono.wrote
    rw [Network.sent_send]
    exact List.mem_append_right _ (List.mem_singleton.mpr rfl)

theorem Carried.writes_other {P Q : Endpoint σ Bytes Bytes} {p : Bytes → Prop}
    (h : Carried T p Q P) (payloads : List Bytes) :
    Carried T p Q (payloads.foldl (Endpoint.wrote F) P) := by
  induction payloads generalizing P with
  | nil => exact h
  | cons payload payloads ih => exact ih (h.wrote_other payload)

/-- The actor of `s` has handled a message there. -/
def reactsThere (a : UdpSystem.World) : Side → Reaction → UdpSystem.World
  | .client, r => a.clientReacts r
  | .server, r => a.serverReacts r

theorem Simulates.reacted (h : Simulates T w a) (s : Side) {p : Peer σ} {r : Reaction}
    (hp : p.endpoint = (w.get s).endpoint) (haccepted : p.accepted = (w.get s).accepted)
    (hcompleted : p.completed = (w.get s).completed)
    (hparty : (p.party.after r) = ((partyOf a s).after r)) :
    Simulates T (w.set s (p.reacted F r)) (reactsThere a s r) where
  party t := by
    cases s <;> cases t
    · exact hparty.symm
    · exact h.party .server
    · exact h.party .client
    · exact hparty.symm
  accepted t := by
    cases s <;> cases t
    · exact (h.accepted .client).trans haccepted.symm
    · exact h.accepted .server
    · exact h.accepted .client
    · exact (h.accepted .server).trans haccepted.symm
  start := by
    rw [World.startPending_set, ← h.start]
    cases s <;> rfl
  completed := by
    cases s
    · show a.completed + completions r.2 = p.completed + completions r.2
      rw [hcompleted, h.completed]
      rfl
    · exact h.completed
  kept t := by
    cases s <;> cases t
    · exact kept_sends (h.kept .client) _
    · exact h.kept .server
    · exact h.kept .client
    · exact kept_sends (h.kept .server) _
  carried t := by
    have hout := (h.carried s).writes (writes connection r.2)
    have hin := (h.carried_other s).writes_other (writes connection r.2)
    rw [← hp] at hout hin
    cases s <;> cases t
    · exact hout
    · exact hin
    · exact hin
    · exact hout

/-- The log of accepted messages changes on both sides. -/
def logThere (a : UdpSystem.World) (s : Side) (log : List UInt32) : UdpSystem.World :=
  match s with
  | .client => { a with clientAccepted := log }
  | .server => { a with serverAccepted := log }

theorem Simulates.log {s : Side} {p : Peer σ} (h : Simulates T (w.set s p) a) (log : List UInt32) :
    Simulates T (w.set s { p with accepted := log }) (logThere a s log) where
  party t := by
    have := h.party t
    cases s <;> cases t <;> exact this
  accepted t := by
    have := h.accepted t
    cases s <;> cases t <;> first | rfl | exact this
  start := by
    have := h.start
    cases s <;> exact this
  completed := by
    have := h.completed
    cases s <;> exact this
  kept t := by
    have := h.kept t
    cases s <;> cases t <;> exact this
  carried t := by
    have := h.carried t
    cases s <;> cases t <;> exact this

/-- Copies of what `s` has sent there come and go. -/
def networkThere (a : UdpSystem.World) (s : Side) (n : Network Bytes) : UdpSystem.World :=
  match s with
  | .client => { a with pings := n }
  | .server => { a with replies := n }

theorem Simulates.network (h : Simulates T w a) (s : Side) {n : Network Bytes} (hk : n.Kept)
    (hs : n.sent = (sentBy a s).sent) : Simulates T w (networkThere a s n) where
  party t := by
    have := h.party t
    cases s <;> cases t <;> exact this
  accepted t := by
    have := h.accepted t
    cases s <;> cases t <;> exact this
  start := by
    have := h.start
    cases s <;> exact this
  completed := by
    have := h.completed
    cases s <;> exact this
  kept t := by
    have := h.kept t
    cases s <;> cases t <;> assumption
  carried t := by
    have hsame : (sentBy (networkThere a s n) t).sent = (sentBy a t).sent := by
      cases s <;> cases t <;> first | rfl | exact hs
    rw [hsame]
    exact h.carried t

def receivesThere (a : UdpSystem.World) (s : Side) (counter₀ : UInt32) (payload : Bytes) :
    UdpSystem.World :=
  match s with
  | .client => a.clientReceives counter₀ payload
  | .server => a.serverReceives counter₀ payload

theorem receivesThere_alive {s : Side} (h : (partyOf a s).alive = true) (counter₀ : UInt32)
    (payload : Bytes) :
    receivesThere a s counter₀ payload =
      logThere (reactsThere a s (actor s counter₀ (partyOf a s).state (.newRaw payload))) s
        (UdpSystem.World.record (partyOf a s).state
          (actor s counter₀ (partyOf a s).state (.newRaw payload)).1
          (readCounter counter₀ payload) (acceptedBy a s)) := by
  cases s
  · exact if_pos h
  · exact if_pos h

/-- The network there delivers a copy of what has been sent and keeps one. -/
theorem exists_deliverThere (hk : ∀ s, (sentBy a s).Kept) (s : Side) {payload : Bytes}
    (hp : payload ∈ (sentBy a s.other).sent) (counter₀ : UInt32) :
    ∃ bs n, (UdpSystem.system m).runFrom a bs =
        some (receivesThere (networkThere a s.other n) s counter₀ payload) ∧
      n.Kept ∧ n.sent = (sentBy a s.other).sent := by
  obtain ⟨i, n₁, n₂, hdup, hdel, hkept, hsent⟩ := (hk s.other).exists_deliver hp
  cases s with
  | client =>
    have hdup' : a.replies.duplicate i = some n₁ := hdup
    refine ⟨[.duplicateReply i, .deliverReply i counter₀], n₂, ?_, hkept, hsent⟩
    simp only [TransitionSystem.runFrom, UdpSystem.system, UdpSystem.World.step, hdup',
      Option.map_some, Option.bind_some, hdel]
    rfl
  | server =>
    have hdup' : a.pings.duplicate i = some n₁ := hdup
    refine ⟨[.duplicatePing i, .deliverPing i counter₀], n₂, ?_, hkept, hsent⟩
    simp only [TransitionSystem.runFrom, UdpSystem.system, UdpSystem.World.step, hdup',
      Option.map_some, Option.bind_some, hdel]
    rfl

/-- An actor handles a message that has been sent to it. -/
theorem simulates_receives (h : Simulates T w a) (s : Side) {payload : Bytes}
    (hpayload : payload ∈ (sentBy a s.other).sent) {counter₀ : UInt32} {p : Peer σ}
    (hr : (w.get s).receives F (actor s) counter₀ payload = some p) :
    ∃ bs a', (UdpSystem.system m).runFrom a bs = some a' ∧ Simulates T (w.set s p) a' ∧
      (sentBy a' s.other).sent = (sentBy a s.other).sent := by
  by_cases halive : (w.get s).party.alive = true
  · rw [Peer.receives_alive halive, Option.some.injEq] at hr
    subst hr
    obtain ⟨bs, n, hrun, hkept, hsent⟩ :=
      exists_deliverThere (m := m) h.kept s hpayload counter₀
    have hn := h.network s.other hkept hsent
    have hparty : partyOf (networkThere a s.other n) s = (w.get s).party := hn.party s
    have haccepted : acceptedBy (networkThere a s.other n) s = (w.get s).accepted := hn.accepted s
    refine ⟨bs, _, hrun, ?_, ?_⟩
    · rw [receivesThere_alive (by rw [hparty]; exact halive), hparty, haccepted]
      apply Simulates.log
      exact hn.reacted s rfl rfl rfl (by rw [hparty])
    · rw [receivesThere_alive (by rw [hparty]; exact halive), ← hsent]
      cases s <;> rfl
  · rw [Peer.receives_dead halive, Option.some.injEq] at hr
    subst hr
    rw [World.set_get]
    exact ⟨[], a, rfl, h, rfl⟩

/-- By induction on the messages that the layers hand on. -/
theorem simulates_receivesAll (h : Simulates T w a) (s : Side) {payloads : List Bytes}
    (hpayloads : ∀ payload ∈ payloads, payload ∈ (sentBy a s.other).sent)
    {counter₀ : Nat → UInt32} {p : Peer σ}
    (hr : Peer.receivesAll F (actor s) counter₀ payloads (w.get s) = some p) :
    ∃ bs a', (UdpSystem.system m).runFrom a bs = some a' ∧ Simulates T (w.set s p) a' := by
  induction payloads generalizing w a counter₀ with
  | nil =>
    cases hr
    rw [World.set_get]
    exact ⟨[], a, rfl, h⟩
  | cons payload payloads ih =>
    obtain ⟨q, hq, hrest⟩ := Option.bind_eq_some_iff.mp hr
    obtain ⟨bs, a₁, hrun, h₁, hsent⟩ :=
      simulates_receives (m := m) h s (hpayloads payload List.mem_cons_self) hq
    rw [← World.get_set_self w s q] at hrest
    have hlater : ∀ x ∈ payloads, x ∈ (sentBy a₁ s.other).sent := by
      intro x hx
      rw [hsent]
      exact hpayloads x (List.mem_cons_of_mem _ hx)
    obtain ⟨cs, a₂, hrun', h₂⟩ := ih h₁ hlater hrest
    rw [World.set_set] at h₂
    refine ⟨bs ++ cs, a₂, ?_, h₂⟩
    rw [TransitionSystem.runFrom_append, hrun, Option.bind_some, hrun']

/-! ## Every action -/

theorem Simulates.withOut (h : Simulates T w a) (s : Side) {out : Network Bytes}
    (hout : ∀ x, out.InFlight x → (w.get s).endpoint.out.InFlight x) :
    Simulates T (w.withOut s out) a :=
  h.endpoint s ((h.carried s).network hout) ((h.carried_other s).network_other out)

theorem simulates_deliver (hq : Quiet next) (h : Simulates T w a) {s : Side} {x : Bytes}
    {out : Network Bytes} {i : Nat} {counter₀ : Nat → UInt32} {p : Peer σ}
    (hd : (w.get s).endpoint.out.deliver i = some (x, out))
    (hp : (w.get s.other).arrives F (actor s.other) counter₀
      (w.get s).endpoint.frames.length x = some p) :
    ∃ bs a', (UdpSystem.system m).runFrom a bs = some a' ∧
      Simulates T ((w.withOut s out).set s.other p) a' := by
  obtain ⟨hx, hshrinks⟩ := Network.inFlight_of_deliver hd
  obtain ⟨_, hall⟩ := Peer.arrives_cases hp
  have hframed : ∀ id, decodeReliability x = some ⟨id, false⟩ →
      Framed F (· ∈ (sentBy a s).sent) (x.drop reliabilityHeaderLen) :=
    fun id hdec => (h.carried s).data x id hx hdec
  have h₁ := h.withOut s hshrinks
  have hget : (w.withOut s out).get s.other = w.get s.other := World.get_set_other _ _ _
  have h₂ := h₁.endpoint s.other
    ((h₁.carried s.other).receive_other hq x (w.get s).endpoint.frames.length)
    (by
      have hin := (h₁.carried s).receive hframed (w.get s).endpoint.frames.length
      rwa [Side.other_other])
  rw [hget] at h₂
  have hhandled : ∀ payload ∈ ((reliability next).read (w.get s.other).endpoint.layer x).handled,
      payload ∈ (sentBy a s.other.other).sent := by
    intro payload hpayload
    obtain ⟨y, hy, rfl⟩ := (yields_read (h.carried s).holds hframed).handled payload hpayload
    rw [Side.other_other]
    exact hy
  rw [← World.get_set_self (w.withOut s out) s.other
    { w.get s.other with
      endpoint := (w.get s.other).endpoint.receive next (w.get s).endpoint.frames.length x }] at hall
  obtain ⟨bs, a', hrun, h₃⟩ := simulates_receivesAll h₂ s.other hhandled hall
  rw [World.set_set] at h₃
  exact ⟨bs, a', hrun, h₃⟩

theorem simulates_fire (hq : Quiet next) (h : Simulates T w a) {s : Side} {i : Nat}
    {counter₀ : Nat → UInt32} {p : Peer σ}
    (hp : (w.get s).fires F (actor s) counter₀ i = some p) :
    ∃ bs a', (UdpSystem.system m).runFrom a bs = some a' ∧ Simulates T (w.set s p) a' := by
  obtain ⟨_, atm, id, e, _, hfire, hall⟩ := Peer.fires_cases hp
  have h₁ := h.endpoint s ((h.carried s).fire hq hfire) ((h.carried_other s).fire_other hfire)
  have hhandled : ∀ payload ∈ ((reliability next).timeout (w.get s).endpoint.layer atm id).handled,
      payload ∈ (sentBy a s.other).sent := by
    intro payload hpayload
    obtain ⟨y, hy, rfl⟩ :=
      (yields_timeout (h.carried_other s).holds atm id).handled payload hpayload
    exact hy
  rw [← World.get_set_self w s { w.get s with endpoint := e }] at hall
  obtain ⟨bs, a', hrun, h₂⟩ := simulates_receivesAll h₁ s hhandled hall
  rw [World.set_set] at h₂
  exact ⟨bs, a', hrun, h₂⟩

theorem Simulates.started (h : Simulates T w a) :
    Simulates T { w with startPending := false } { a with startPending := false } where
  party s := by
    have := h.party s
    cases s <;> exact this
  accepted s := by
    have := h.accepted s
    cases s <;> exact this
  start := rfl
  completed := h.completed
  kept s := by
    have := h.kept s
    cases s <;> exact this
  carried s := by
    have := h.carried s
    cases s <;> exact this

def errorOf : Side → Operation → UdpSystem.Action
  | .client, op => .clientError op
  | .server, op => .serverError op

theorem run_error {s : Side} (h : (partyOf a s).alive = true) (op : Operation) :
    (UdpSystem.system m).runFrom a [errorOf s op] =
      some (reactsThere a s (actor s 0 (partyOf a s).state (.ioError op))) := by
  cases s <;>
    simp only [TransitionSystem.runFrom, UdpSystem.system, UdpSystem.World.step, errorOf]
  · exact congrArg (Option.bind · _) (if_pos h)
  · exact congrArg (Option.bind · _) (if_pos h)

def quitOf : Side → UdpSystem.Action
  | .client => .clientQuit
  | .server => .serverQuit

def partyThere (a : UdpSystem.World) (s : Side) (party : Party) : UdpSystem.World :=
  match s with
  | .client => { a with client := party }
  | .server => { a with server := party }

theorem run_quit {s : Side} {party : Party} (h : (partyOf a s).takeQuit = some party) :
    (UdpSystem.system m).runFrom a [quitOf s] =
      some (reactsThere (partyThere a s party) s (actor s 0 party.state .quit)) := by
  cases s <;>
    simp only [TransitionSystem.runFrom, UdpSystem.system, UdpSystem.World.step, quitOf]
  · rw [show a.client.takeQuit = some party from h]
    rfl
  · rw [show a.server.takeQuit = some party from h]
    rfl

theorem Simulates.quits (h : Simulates T w a) (s : Side) (party : Party) :
    Simulates T (w.set s { w.get s with party }) (partyThere a s party) where
  party t := by
    cases s <;> cases t
    · rfl
    · exact h.party .server
    · exact h.party .client
    · rfl
  accepted t := by
    have := h.accepted t
    cases s <;> cases t <;> exact this
  start := by
    have := h.start
    cases s <;> exact this
  completed := by
    have := h.completed
    cases s <;> exact this
  kept t := by
    have := h.kept t
    cases s <;> cases t <;> exact this
  carried t := by
    have := h.carried t
    cases s <;> cases t <;> exact this

/-- **Step lemma.** -/
theorem simulates_step (hq : Quiet next) (h : Simulates T w a) {act : Action}
    (hstep : w.step F m act = some w') :
    ∃ bs a', (UdpSystem.system m).runFrom a bs = some a' ∧ Simulates T w' a' := by
  cases act with
  | start =>
    simp only [World.step, Peer.reacts_eq, Option.map_some] at hstep
    split at hstep
    · rename_i hen
      cases hstep
      have hclient : a.client = w.client.party := h.party .client
      have hreact := h.reacted .client (p := w.client)
        (r := rawClient 0 w.client.party.state (.start m mainActor)) rfl rfl rfl
        (by rw [h.party .client]; rfl)
      refine ⟨[.start], _, ?_, hreact.started⟩
      have hen' : a.client.alive = true ∧ a.startPending = true := by
        rw [hclient, h.start]
        exact hen
      rw [← hclient]
      simp only [TransitionSystem.runFrom, UdpSystem.system, UdpSystem.World.step]
      exact congrArg (Option.bind · _) (if_pos hen')
    · cases hstep
  | deliver s i counter₀ =>
    obtain ⟨⟨x, out⟩, hd, hmap⟩ := Option.bind_eq_some_iff.mp hstep
    obtain ⟨p, hp, rfl⟩ := Option.map_eq_some_iff.mp hmap
    exact simulates_deliver hq h hd hp
  | duplicate s i =>
    obtain ⟨out, hd, rfl⟩ := Option.map_eq_some_iff.mp hstep
    exact ⟨[], a, rfl, h.withOut s fun x => Network.inFlight_of_duplicate hd⟩
  | lose s i =>
    obtain ⟨out, hd, rfl⟩ := Option.map_eq_some_iff.mp hstep
    exact ⟨[], a, rfl, h.withOut s fun x => Network.inFlight_of_lose hd⟩
  | fire s i counter₀ =>
    obtain ⟨p, hp, rfl⟩ := Option.map_eq_some_iff.mp hstep
    exact simulates_fire hq h hp
  | error s op =>
    simp only [World.step, Peer.reacts_eq, Option.map_some] at hstep
    split at hstep
    · rename_i halive
      cases hstep
      have hparty := h.party s
      have hreact := h.reacted s (p := w.get s)
        (r := actor s 0 (w.get s).party.state (.ioError op)) rfl rfl rfl (by rw [hparty])
      refine ⟨[errorOf s op], _, ?_, hreact⟩
      rw [← hparty]
      apply run_error
      rwa [hparty]
    · cases hstep
  | quit s =>
    obtain ⟨party, hquit, hmap⟩ := Option.bind_eq_some_iff.mp hstep
    rw [Peer.reacts_eq, Option.map_some, Option.some.injEq] at hmap
    subst hmap
    have hreact := (h.quits s party).reacted s (p := { w.get s with party })
      (r := actor s 0 party.state .quit) (by rw [World.get_set_self]) (by rw [World.get_set_self])
      (by rw [World.get_set_self]) (by cases s <;> rfl)
    rw [World.set_set] at hreact
    refine ⟨[quitOf s], _, ?_, hreact⟩
    apply run_quit
    rwa [h.party s]

theorem simulates_initial (T : Transparent F id) :
    Simulates T (.initial next) .initial where
  party s := by cases s <;> rfl
  accepted s := by cases s <;> rfl
  start := rfl
  completed := rfl
  kept s := by cases s <;> exact List.forall_mem_nil _
  carried s := by
    have hempty : Carried (σ := σ) (α := Bytes) (μ := Bytes) T (· ∈ [])
        { layer := (reliability next).init.state } { layer := (reliability next).init.state } :=
      { data := fun x id hx => absurd hx.mem_sent List.not_mem_nil
        kept := List.forall_mem_nil _
        holds := T.init _ }
    cases s <;> exact hempty

/-! ## Main results -/

/-- **Refinement.**  Every run of the stack is one of the ping-pong over a bare
network, seen from the actors: with the same states, the same accepted messages and
as many completions. -/
theorem stack_refines (T : Transparent F id) (hq : Quiet next) {as : List Action}
    (hr : (system F m).run as = some w) :
    ∃ bs a, (UdpSystem.system m).run bs = some a ∧ a.client = w.client.party ∧
      a.server = w.server.party ∧ a.clientAccepted = w.client.accepted ∧
      a.serverAccepted = w.server.accepted ∧ a.startPending = w.startPending ∧
      a.completed = w.client.completed := by
  have hstep : ∀ s act s' t, Simulates T s t → (system F m).step s act = some s' →
      ∃ bs t', (UdpSystem.system m).runFrom t bs = some t' ∧ Simulates T s' t' :=
    fun _ _ _ _ hs hstep => simulates_step hq hs hstep
  obtain ⟨bs, a, hrun, h⟩ := TransitionSystem.simulation_runFrom hstep (simulates_initial T) hr
  exact ⟨bs, a, hrun, h.party .client, h.party .server, h.accepted .client, h.accepted .server,
    h.start, h.completed⟩

end Simulation

/-- A ping that is lost and sent again on top of `ordering`, and its answer. -/
theorem stack_refines_one : ∃ w, (system (Framing.raw.ordering 10) 1).run
    [.start, .lose .client 0, .fire .client 0 fun _ => 0, .deliver .client 1 fun _ => 0,
      .deliver .server 1 fun _ => 0] = some w ∧
    ∃ bs a, (UdpSystem.system 1).run bs = some a ∧ a.client = w.client.party ∧
      a.server = w.server.party ∧ a.clientAccepted = w.client.accepted ∧
      a.serverAccepted = w.server.accepted ∧ a.startPending = w.startPending ∧
      a.completed = w.client.completed := by
  obtain ⟨w, hr⟩ : ∃ w, (system (Framing.raw.ordering 10) 1).run [.start, .lose .client 0,
    .fire .client 0 fun _ => 0, .deliver .client 1 fun _ => 0,
    .deliver .server 1 fun _ => 0] = some w := ⟨_, rfl⟩
  exact ⟨w, hr, stack_refines (Transparent.raw.ordering 10) (quiet_raw.ordering 10) hr⟩

end NewbMeasurements.StackSystem
