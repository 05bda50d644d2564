import NewbMeasurements.StackSafety

/-!
The ping-pong on top of its protocol layers does not get stuck as long as neither the
ids of `reliability` nor the sequence numbers of `ordering` are used up: the message
that is needed has been sent once, and `reliability` keeps it until it has arrived.
Whatever the network has done so far, arrivals and timeouts alone complete the run.
-/

namespace NewbMeasurements.StackSystem

open Words (Bytes encode toNat_succ)
open Datagrams (Network)
open Transitions (TransitionSystem)
open Actors PingpongUdp Protocols
open ReliableLink (Side Side.other_other Side.eq_or_eq_other Endpoint Current Direction Known
  decodeReliability_packet drop_packet)

variable {σ : Type} {next : Layer σ Bytes} {F : Framing next Bytes} {T : Transparent F id}
  {limit : Nat} {O : InOrder F id limit} {m n k : Nat} {P P' Q Q' : Endpoint σ Bytes Bytes}

/-- The payload with counter `i`. -/
abbrev counterOf (i : Nat) : Bytes := encode (UInt32.ofNat i)

/-- `P` has written the counters below `n`, one frame each, and `Q` has got the first `k`
of them; of `m` in all, so that it waits for no more at the end. -/
structure Flow (T : Transparent F id) (O : InOrder F id limit) (m : Nat)
    (P Q : Endpoint σ Bytes Bytes) (n k : Nat) : Prop where
  length : P.frames.length = n
  frames : ∀ i f, P.frames[i]? = some f → ∃ s, O.Writes i s ∧ f = F.frame s (counterOf i)
  writes : O.Writes n P.layer.next
  expects : k < m → O.Expects k Q.layer.next
  passed : ∀ i f, (i, f) ∈ Q.passed → i < k
  carried : Carried T (fun x => ∃ i < n, x = counterOf i) P Q

/-! ## What keeps the flow -/

theorem Flow.wrote (h : Flow T O m P Q n k) : Flow T O m (P.wrote F (counterOf n)) Q (n + 1) k where
  length := by
    show (P.frames ++ [_]).length = n + 1
    rw [List.length_append, List.length_singleton, h.length]
  frames i f hi := by
    by_cases hlt : i < P.frames.length
    · apply h.frames
      rwa [← List.getElem?_append_left hlt]
    · obtain rfl : i = n := by
        have hlen := (List.getElem?_eq_some_iff.mp hi).1
        rw [Endpoint.wrote, List.length_append, List.length_singleton, h.length] at hlen
        rw [h.length] at hlt
        omega
      have hf : (P.frames ++ [F.frame P.layer.next (counterOf i)])[i]? =
          some (F.frame P.layer.next (counterOf i)) := by
        rw [List.getElem?_append_right (Nat.le_of_eq h.length), h.length, Nat.sub_self]
        rfl
      cases hf.symm.trans hi
      exact ⟨P.layer.next, h.writes, rfl⟩
  writes := O.writes_closed _ h.writes
  expects := h.expects
  passed := h.passed
  carried := by
    have hmono : Carried T (fun x => ∃ i < n + 1, x = counterOf i) P Q := by
      apply h.carried.mono
      rintro x ⟨i, hi, rfl⟩
      exact ⟨i, Nat.lt_succ_of_lt hi, rfl⟩
    exact hmono.wrote ⟨n, Nat.lt_succ_self n, rfl⟩

theorem Flow.wrote_other (h : Flow T O m Q P n k) (x : Bytes) :
    Flow T O m Q (P.wrote F x) n k :=
  { h with
    expects := fun hk => O.expects_closed x (h.expects hk)
    carried := h.carried.wrote_other x }

theorem Flow.network (h : Flow T O m P Q n k) {out : Network Bytes}
    (hout : ∀ x, out.InFlight x → P.out.InFlight x) : Flow T O m { P with out } Q n k :=
  { h with carried := h.carried.network hout }

theorem Flow.network_other (h : Flow T O m Q P n k) (out : Network Bytes) :
    Flow T O m Q { P with out } n k :=
  { h with carried := h.carried.network_other out }

/-- A datagram arrives at `P`. -/
theorem Flow.receive_other (h : Flow T O m P Q n k) (hq : Quiet next) (x : Bytes) (sent : Nat) :
    Flow T O m (P.receive next sent x) Q n k where
  length := by
    rw [(P.receive_writes sent x).2]
    exact h.length
  frames := by
    rw [(P.receive_writes sent x).2]
    exact h.frames
  writes := by
    rw [layer_receive]
    show O.Writes n (ReliabilityState.read next P.layer x).state.next
    unfold ReliabilityState.read
    split
    · exact h.writes
    · split
      · exact h.writes
      · exact O.writes_read _ h.writes
  expects := h.expects
  passed := h.passed
  carried := h.carried.receive_other hq x sent

/-- A timeout of `P` fires. -/
theorem Flow.fire (h : Flow T O m P Q n k) (hq : Quiet next) {i : Nat}
    (hf : P.fire next i = some P') : Flow T O m P' Q n k := by
  have hcarried := h.carried.fire hq hf
  obtain ⟨⟨atm, id⟩, _, rfl⟩ := Option.map_eq_some_iff.mp hf
  refine { h with writes := ?_, carried := hcarried }
  show O.Writes n (ReliabilityState.timeout next P.layer atm id).state.next
  unfold ReliabilityState.timeout
  split
  · split
    · exact h.writes
    · exact h.writes
  · exact O.writes_timeout _ _ h.writes

/-- Messages that have been got before. -/
def Stale (k : Nat) (payloads : List Bytes) : Prop := ∀ x ∈ payloads, ∃ i < k, x = counterOf i

/-- A timeout of `Q` fires. -/
theorem Flow.fire_other (h : Flow T O m P Q n k) (hn : n ≤ m) {i : Nat} {atm : Atom} {id : UInt32}
    (hi : Q.timers[i]? = some (atm, id)) (hf : Q.fire next i = some Q') :
    Flow T O m P Q' n k ∧ Stale k ((reliability next).timeout Q.layer atm id).handled := by
  have hcarried := h.carried.fire_other hf
  obtain ⟨⟨atm', id'⟩, hi', rfl⟩ := Option.map_eq_some_iff.mp hf
  rw [hi, Option.some.injEq, Prod.mk.injEq] at hi'
  obtain ⟨rfl, rfl⟩ := hi'
  have hnext : ∀ hk : k < m, ((reliability next).timeout Q.layer atm id).handled = [] ∧
      O.Expects k ((reliability next).timeout Q.layer atm id).state.next := by
    intro hk
    show (ReliabilityState.timeout next Q.layer atm id).handled = [] ∧
      O.Expects k (ReliabilityState.timeout next Q.layer atm id).state.next
    unfold ReliabilityState.timeout
    split
    · split
      · exact ⟨rfl, h.expects hk⟩
      · exact ⟨rfl, h.expects hk⟩
    · exact O.timeout atm id (h.expects hk)
  refine ⟨{ h with expects := fun hk => (hnext hk).2, carried := hcarried }, ?_⟩
  by_cases hk : k < m
  · rw [(hnext hk).1]
    exact List.forall_mem_nil _
  · intro x hx
    obtain ⟨_, ⟨j, hj, rfl⟩, rfl⟩ := (yields_timeout h.carried.holds atm id).handled x hx
    exact ⟨j, by omega, rfl⟩

theorem handled_read_packet (s : ReliabilityState σ) (id : IdType) (f : Bytes) :
    ((reliability next).read s (Framing.packet id f)).handled = (next.read s.next f).handled := by
  show (ReliabilityState.read next s (Framing.packet id f)).handled = _
  simp only [ReliabilityState.read, decodeReliability_packet, drop_packet, Bool.false_eq_true,
    if_false]
  rfl

section Arrival

variable {i : Nat} {f : Bytes}

/-- What a packet of `P` makes of the layers of `Q`, apart from the state of the flow. -/
theorem Flow.arrival (h : Flow T O m P Q n k) (hq : Quiet next) (hc : Current P i f)
    {k' : Nat} (hk : k ≤ k') (hi : i < k')
    (he : k' < m → O.Expects k' (next.read Q.layer.next f).state) :
    Flow T O m P (Q.receive next P.frames.length (Framing.packet (UInt16.ofNat i) f)) n k' := by
  have hdec := decodeReliability_packet (UInt16.ofNat i) f
  have hframed : ∀ id, decodeReliability (Framing.packet (UInt16.ofNat i) f) = some ⟨id, false⟩ →
      Framed F (fun x => ∃ i < n, x = counterOf i)
        ((Framing.packet (UInt16.ofNat i) f).drop reliabilityHeaderLen) := by
    intro _ _
    obtain ⟨s, _, hf⟩ := h.frames i f hc.1
    exact ⟨s, counterOf i, ⟨i, h.length ▸ hc.lt, rfl⟩, hf⟩
  have hcarried := h.carried.receive hframed P.frames.length
  have hpassed : (ReliableLink.latest P.frames.length (UInt16.ofNat i),
      (Framing.packet (UInt16.ofNat i) f).drop reliabilityHeaderLen) = (i, f) := by
    rw [ReliableLink.latest_ofNat hc.lt hc.2, drop_packet]
  rw [Endpoint.receive_data next Q _ hq hdec, hpassed, drop_packet] at hcarried ⊢
  refine { h with expects := he, passed := ?_, carried := hcarried }
  intro j g hj
  rcases List.mem_append.mp hj with hj | hj
  · exact Nat.lt_of_lt_of_le (h.passed j g hj) hk
  · cases List.mem_singleton.mp hj
    exact hi

/-- The packet whose turn it is arrives at `Q`. -/
theorem Flow.receive_next (h : Flow T O m P Q n k) (hq : Quiet next) (hn : n ≤ m)
    (hc : Current P k f) :
    ((reliability next).read Q.layer (Framing.packet (UInt16.ofNat k) f)).handled =
        [counterOf k] ∧
      Flow T O m P (Q.receive next P.frames.length (Framing.packet (UInt16.ofNat k) f)) n
        (k + 1) := by
  have hk : k < n := h.length ▸ hc.lt
  obtain ⟨s, hs, rfl⟩ := h.frames k f hc.1
  obtain ⟨hh, he⟩ := O.read_next (counterOf k) hs (h.expects (by omega))
  rw [handled_read_packet]
  exact ⟨hh, h.arrival hq hc (Nat.le_succ k) (Nat.lt_succ_self k) fun _ => he⟩

/-- An old packet arrives at `Q`. -/
theorem Flow.receive_old (h : Flow T O m P Q n k) (hq : Quiet next) (hn : n ≤ m)
    (hm : m ≤ limit + 1) (hc : Current P i f) (hi : i < k) :
    Stale k ((reliability next).read Q.layer (Framing.packet (UInt16.ofNat i) f)).handled ∧
      Flow T O m P (Q.receive next P.frames.length (Framing.packet (UInt16.ofNat i) f)) n k := by
  have hin : i < n := h.length ▸ hc.lt
  obtain ⟨s, hs, rfl⟩ := h.frames i f hc.1
  have hnext : ∀ hkm : k < m, Stale k (next.read Q.layer.next (F.frame s (counterOf i))).handled ∧
      O.Expects k (next.read Q.layer.next (F.frame s (counterOf i))).state := by
    intro hkm
    obtain ⟨hh | hh, he⟩ := O.read_old (counterOf i) hs (h.expects hkm) hi (by omega)
    · rw [hh]
      exact ⟨List.forall_mem_nil _, he⟩
    · rw [hh]
      exact ⟨List.forall_mem_singleton.mpr ⟨i, hi, rfl⟩, he⟩
  constructor
  · rw [handled_read_packet]
    by_cases hkm : k < m
    · exact (hnext hkm).1
    · intro x hx
      obtain ⟨_, ⟨j, hj, rfl⟩, rfl⟩ :=
        (T.read h.carried.holds ⟨s, counterOf i, ⟨i, hin, rfl⟩, rfl⟩).handled x hx
      exact ⟨j, by omega, rfl⟩
  · exact h.arrival hq hc (Nat.le_refl k) hi fun hkm => (hnext hkm).2

end Arrival

/-- Anything else than a packet passes the layers of `Q` without a trace in the flow. -/
theorem Flow.receive_rest (h : Flow T O m P Q n k) {x : Bytes}
    (hx : ∀ id, decodeReliability x ≠ some ⟨id, false⟩) :
    ((reliability next).read Q.layer x).handled = [] ∧
      Flow T O m P (Q.receive next P.frames.length x) n k := by
  cases hdec : decodeReliability x with
  | none =>
    refine ⟨by simp [reliability, ReliabilityState.read, hdec, Outcome.handled], ?_⟩
    rwa [Endpoint.receive_malformed _ _ hdec]
  | some header =>
    obtain ⟨id, isAck⟩ := header
    cases isAck with
    | false => exact absurd hdec (hx id)
    | true =>
      refine ⟨by simp [reliability, ReliabilityState.read, hdec, Outcome.handled], ?_⟩
      rw [Endpoint.receive_ack next Q _ hdec]
      exact { h with carried := { h.carried with } }

/-! ## What the actors make of it -/

section Actors

variable {p : Peer σ} {s : Side}

theorem ofNat_of_toNat {x : UInt32} (hx : x.toNat = k) : UInt32.ofNat k = x := by
  rw [← hx, UInt32.ofNat_toNat]

/-- An old message changes nothing. -/
theorem received_stale {i : Nat} (hk : p.party.state.receivedMessages.toNat = k) (hi : i < k)
    (counter₀ : UInt32) : p.received F (actor s) counter₀ (counterOf i) = p := by
  have hlt := p.party.state.receivedMessages.toNat_lt
  have hne : readCounter counter₀ (counterOf i) ≠ p.party.state.receivedMessages := by
    rw [Actors.readCounter_encode]
    exact UdpSystem.ofNat_ne hk (by omega) (by omega)
  have hr : actor s counter₀ p.party.state (.newRaw (counterOf i)) = (p.party.state, []) := by
    cases s
    · exact rawClient_stale hne
    · exact rawServer_stale hne
  simp [Peer.received, Peer.reacted, hr, UdpSystem.World.record_same, Actors.writes, completions]

theorem receivesAll_stale {payloads : List Bytes} (hs : Stale k payloads)
    (hk : p.party.state.receivedMessages.toNat = k) (ha : p.party.alive = true)
    (counter₀ : Nat → UInt32) :
    Peer.receivesAll F (actor s) counter₀ payloads p = some p := by
  induction payloads generalizing counter₀ with
  | nil => rfl
  | cons payload payloads ih =>
    obtain ⟨hfirst, hrest⟩ := List.forall_mem_cons.mp hs
    obtain ⟨i, hi, rfl⟩ := hfirst
    rw [Peer.receivesAll, Peer.receives_alive ha, received_stale hk hi, Option.bind_some]
    exact ih hrest _

theorem receivesAll_singleton (ha : p.party.alive = true) (counter₀ : Nat → UInt32)
    (payload : Bytes) : Peer.receivesAll F (actor s) counter₀ [payload] p =
      some (p.received F (actor s) (counter₀ 0) payload) := by
  rw [Peer.receivesAll, Peer.receives_alive ha]
  rfl

/-- What is kept stays kept, whatever a handler writes. -/
theorem unacked_received {entry : IdType × Bytes} (h : entry ∈ p.endpoint.layer.unacked)
    (act : Behavior) (counter₀ : UInt32) (payload : Bytes) :
    entry ∈ (p.received F act counter₀ payload).endpoint.layer.unacked := by
  show entry ∈ (List.foldl (Endpoint.wrote F) p.endpoint _).layer.unacked
  generalize p.endpoint = E at h
  generalize Actors.writes connection _ = payloads
  induction payloads generalizing E with
  | nil => exact h
  | cons x payloads ih => exact ih _ (ReliableLink.mem_emplace h _ _)

/-- The server takes the ping that it waits for and answers it. -/
theorem received_serve (hk : p.party.state.receivedMessages.toNat = k) (counter₀ : UInt32) :
    p.received F rawServer counter₀ (counterOf k) =
      { p with
        party.state.receivedMessages := p.party.state.receivedMessages + 1
        endpoint := p.endpoint.wrote F (counterOf k)
        accepted := p.accepted ++ [UInt32.ofNat k] } := by
  have hx := ofNat_of_toNat hk
  have hr := rawServer_accept (Actors.readCounter_encode counter₀ p.party.state.receivedMessages)
  rw [counterOf, hx]
  simp [Peer.received, Peer.reacted, hr, UdpSystem.World.record_counted, Actors.writes,
    Party.after, Actors.selfQuits, completions]

/-- The client takes the reply that it waits for and sends the next ping. -/
theorem received_answer (hk : p.party.state.receivedMessages.toNat = k)
    (hm : ¬ p.party.state.messages ≤ (p.party.state.receivedMessages + 1).toUInt64)
    (counter₀ : UInt32) :
    p.received F rawClient counter₀ (counterOf k) =
      { p with
        party.state.receivedMessages := p.party.state.receivedMessages + 1
        endpoint := p.endpoint.wrote F (encode (p.party.state.receivedMessages + 1))
        accepted := p.accepted ++ [UInt32.ofNat k] } := by
  have hx := ofNat_of_toNat hk
  have hr := rawClient_next (Actors.readCounter_encode counter₀ p.party.state.receivedMessages) hm
  rw [counterOf, hx]
  simp [Peer.received, Peer.reacted, hr, UdpSystem.World.record_counted, Actors.writes,
    Party.after, Actors.selfQuits, completions]

/-- The last reply completes the run. -/
theorem completed_answer (hk : p.party.state.receivedMessages.toNat = k)
    (hm : p.party.state.messages ≤ (p.party.state.receivedMessages + 1).toUInt64)
    (counter₀ : UInt32) : 1 ≤ (p.received F rawClient counter₀ (counterOf k)).completed := by
  have hr := rawClient_last (Actors.readCounter_encode counter₀ p.party.state.receivedMessages) hm
  rw [counterOf, ofNat_of_toNat hk]
  simp [Peer.received, Peer.reacted, hr, completions]

end Actors

/-! ## The exchange -/

section Exchange

variable {m : UInt64} {w w' : World σ} {e : Exchange m.toNat}

/-- How many counters `s` has written, and how many of them the other side has taken. -/
def writtenBy (e : Exchange m.toNat) : Side → Nat
  | .client => e.asked
  | .server => e.served

def takenFrom (e : Exchange m.toNat) : Side → Nat
  | .client => e.served
  | .server => e.answered

theorem writtenBy_le (e : Exchange m.toNat) (s : Side) : writtenBy e s ≤ m.toNat := by
  have h₁ := e.served_le
  cases s with
  | client =>
    show e.asked ≤ m.toNat
    unfold Exchange.asked
    split <;> omega
  | server => exact h₁

theorem writtenBy_le_succ (e : Exchange m.toNat) (s : Side) :
    writtenBy e s ≤ takenFrom e s + 1 := by
  have h₁ := e.answered_le_served
  cases s with
  | client =>
    have h₂ := e.asked_le_succ
    show e.asked ≤ e.served + 1
    omega
  | server => exact e.served_le_succ

/-- What the links between the two sides are in the state of. -/
def World.net (w : World σ) : ReliableLink.World σ Bytes Bytes :=
  ⟨w.client.endpoint, w.server.endpoint⟩

@[simp] theorem World.get_net (w : World σ) (s : Side) : w.net.get s = (w.get s).endpoint := by
  cases s <;> rfl

@[simp] theorem World.net_set (w : World σ) (s : Side) (p : Peer σ) :
    (w.set s p).net = w.net.set s p.endpoint := by cases s <;> rfl

/-- The world `w` in state `e` of an exchange that is not complete yet. -/
structure Tracks (T : Transparent F id) (O : InOrder F id limit) (w : World σ)
    (e : Exchange m.toNat) : Prop where
  inv : ReliableLink.Inv w.net
  flow : ∀ s, Flow T O m.toNat (w.get s).endpoint (w.get s.other).endpoint (writtenBy e s)
    (takenFrom e s)
  counter : ∀ s, (w.get s).party.state.receivedMessages.toNat = takenFrom e s.other
  alive : ∀ s, (w.get s).party.alive = true
  noQuits : ∀ s, (w.get s).party.selfQuits = 0
  start : w.startPending = !e.started
  messages : e.started = true → w.client.party.state.messages = m
  running : e.answered < m.toNat
  completed : w.client.completed = 0

/-- An action ends in a state of the exchange, the same or the next one, or in a run
that is complete. -/
def Moves (T : Transparent F id) (O : InOrder F id limit) (w : World σ) (e : Exchange m.toNat) :
    Prop :=
  (∃ e', (e' = e ∨ Exchange.Step e e') ∧ Tracks T O w e') ∨ 1 ≤ w.client.completed

/-- A packet with which the other side answers one of `s` takes an id for the first time. -/
def Room (e : Exchange m.toNat) (s : Side) : Prop :=
  writtenBy e s.other < 2 ^ 16 ∨ m.toNat ≤ 2 ^ 16

/-- The state of the exchange is the next one, or the run is complete. -/
def Advances (T : Transparent F id) (O : InOrder F id limit) (w : World σ)
    (e : Exchange m.toNat) : Prop :=
  (∃ e', Exchange.Step e e' ∧ Tracks T O w e') ∨
    e.answered + 1 = m.toNat ∧ 1 ≤ w.client.completed

theorem Tracks.flow_other (h : Tracks T O w e) (s : Side) :
    Flow T O m.toNat (w.get s.other).endpoint (w.get s).endpoint (writtenBy e s.other)
      (takenFrom e s.other) := by
  have := h.flow s.other
  rwa [Side.other_other] at this

/-- A change of one endpoint alone. -/
theorem Tracks.endpoint (h : Tracks T O w e) (s : Side) {E : Endpoint σ Bytes Bytes}
    (hinv : ReliableLink.Inv (w.net.set s E))
    (hout : Flow T O m.toNat E (w.get s.other).endpoint (writtenBy e s) (takenFrom e s))
    (hin : Flow T O m.toNat (w.get s.other).endpoint E (writtenBy e s.other)
      (takenFrom e s.other)) : Tracks T O (w.set s { w.get s with endpoint := E }) e where
  inv := by rwa [World.net_set]
  flow t := by
    rcases Side.eq_or_eq_other s t with rfl | rfl
    · rwa [World.get_set_self, World.get_set_other]
    · rwa [Side.other_other, World.get_set_self, World.get_set_other]
  counter t := by
    have := h.counter t
    cases s <;> cases t <;> exact this
  alive t := by
    have := h.alive t
    cases s <;> cases t <;> exact this
  noQuits t := by
    have := h.noQuits t
    cases s <;> cases t <;> exact this
  start := by
    rw [World.startPending_set]
    exact h.start
  messages := by
    cases s <;> exact h.messages
  running := h.running
  completed := by
    cases s <;> exact h.completed

theorem Tracks.network (h : Tracks T O w e) (s : Side) {out : Network Bytes}
    (hout : ∀ x, out.InFlight x → (w.get s).endpoint.out.InFlight x) :
    Tracks T O (w.withOut s out) e := by
  refine h.endpoint s ?_ ((h.flow s).network hout) ((h.flow_other s).network_other out)
  rw [← World.get_net] at hout ⊢
  exact ReliableLink.inv_network h.inv s hout

/-- A write of one of the sides: fewer than `2 ^ 16` packets have been sent. -/
theorem inv_wrote {v : ReliableLink.World σ Bytes Bytes} (h : ReliableLink.Inv v) (s : Side)
    (hlen : (v.get s).frames.length < 2 ^ 16) (x : Bytes) :
    ReliableLink.Inv (v.set s ((v.get s).wrote F x)) :=
  ReliableLink.inv_set s ((h s).write ((h s).idFree hlen) x) ((h.other s).write_other x)

end Exchange

/-! ## Deliveries -/

section Steps

variable {m : UInt64} {w w' : World σ} {e : Exchange m.toNat} {E : Endpoint σ Bytes Bytes}

/-- The server has got the ping that it waits for. -/
theorem tracks_serve (hroom : Room e .client) (h : Tracks T O w e) (hs : e.served < e.asked)
    (hinv : ReliableLink.Inv (w.net.set .server E))
    (hin : Flow T O m.toNat w.client.endpoint E e.asked (e.served + 1))
    (hout : Flow T O m.toNat E w.client.endpoint e.served e.answered) (counter₀ : UInt32) :
    Tracks T O (w.set .server
      (Peer.received F rawServer { w.server with endpoint := E } counter₀ (counterOf e.served)))
      (e.serve hs) := by
  have hcounter : w.server.party.state.receivedMessages.toNat = e.served := h.counter .server
  have hle : e.served + 1 ≤ m.toNat := (e.serve hs).served_le
  have hserved : e.served < 2 ^ 16 := by
    rcases hroom with hserved | hm
    · exact hserved
    · omega
  rw [received_serve (by exact hcounter)]
  refine
    { inv := ?_
      flow := ?_
      counter := ?_
      alive := ?_
      noQuits := ?_
      start := h.start
      messages := h.messages
      running := h.running
      completed := h.completed }
  · have hlen : ((w.net.set .server E).get .server).frames.length < 2 ^ 16 := by
      rw [ReliableLink.World.get_set_self, hout.length]
      omega
    have hwrote := inv_wrote (F := F) hinv .server hlen (counterOf e.served)
    rwa [ReliableLink.World.get_set_self, ReliableLink.World.set_set] at hwrote
  · intro s
    cases s
    · exact hin.wrote_other _
    · exact hout.wrote
  · intro s
    cases s
    · exact h.counter .client
    · exact toNat_succ hcounter (by omega)
  · intro s
    cases s
    · exact h.alive .client
    · exact h.alive .server
  · intro s
    cases s
    · exact h.noQuits .client
    · exact h.noQuits .server

/-- The client has got the reply that it waits for. -/
theorem tracks_answer (hroom : Room e .server) (h : Tracks T O w e) (hs : e.answered < e.served)
    (hinv : ReliableLink.Inv (w.net.set .client E))
    (hin : Flow T O m.toNat w.server.endpoint E e.served (e.answered + 1))
    (hout : Flow T O m.toNat E w.server.endpoint e.asked e.served) (counter₀ : UInt32) :
    Advances T O (w.set .client
      (Peer.received F rawClient { w.client with endpoint := E } counter₀
        (counterOf e.answered))) e := by
  have hcounter : w.client.party.state.receivedMessages.toNat = e.answered := h.counter .client
  have hrunning := h.running
  have hmsg := h.messages (Exchange.started_of_answered_lt hs)
  have hask := Exchange.asked_of_turn hs
  have hroom' : e.asked < 2 ^ 16 ∨ m.toNat ≤ 2 ^ 16 := hroom
  have hsmall : e.answered + 1 ≤ 2 ^ 16 := by
    rcases hroom' with hasked | hm <;> omega
  have hsucc := toNat_succ hcounter (show e.answered + 1 < 2 ^ 32 by omega)
  have hask' := Exchange.answer_asked hs
  by_cases hlast : w.client.party.state.messages ≤
      (w.client.party.state.receivedMessages + 1).toUInt64
  · have hall : e.answered + 1 = m.toNat := by
      rw [hmsg, UInt64.le_iff_toNat_le, UInt32.toNat_toUInt64, hsucc] at hlast
      omega
    exact .inr ⟨hall,
      completed_answer (p := { w.client with endpoint := E }) hcounter hlast counter₀⟩
  · have hmore : e.answered + 1 ≠ m.toNat := by
      rw [hmsg, UInt64.le_iff_toNat_le, UInt32.toNat_toUInt64, hsucc] at hlast
      omega
    rw [if_neg hmore, ← hask] at hask'
    have hnext : e.asked = e.answered + 1 := by
      have := e.served_le_succ
      omega
    have hasked : e.asked < 2 ^ 16 := by
      rcases hroom' with hasked | hm <;> omega
    have hpayload : encode (w.client.party.state.receivedMessages + 1) = counterOf e.asked := by
      rw [counterOf, hnext, ← hsucc, UInt32.ofNat_toNat]
    rw [received_answer (p := { w.client with endpoint := E }) hcounter hlast]
    refine .inl ⟨e.answer hs, .answer e hs, ?_⟩
    rw [hpayload]
    refine
      { inv := ?_
        flow := ?_
        counter := ?_
        alive := ?_
        noQuits := ?_
        start := h.start
        messages := h.messages
        running := ?_
        completed := h.completed }
    · have hlen : ((w.net.set .client E).get .client).frames.length < 2 ^ 16 := by
        rw [ReliableLink.World.get_set_self, hout.length]
        omega
      have hwrote := inv_wrote (F := F) hinv .client hlen (counterOf e.asked)
      rwa [ReliableLink.World.get_set_self, ReliableLink.World.set_set] at hwrote
    · intro s
      cases s
      · have hflow := hout.wrote
        rw [← hask'] at hflow
        exact hflow
      · exact hin.wrote_other _
    · intro s
      cases s
      · exact hsucc
      · exact h.counter .server
    · intro s
      cases s
      · exact h.alive .client
      · exact h.alive .server
    · intro s
      cases s
      · exact h.noQuits .client
      · exact h.noQuits .server
    · show e.answered + 1 < m.toNat
      omega

/-- The packet whose turn it is arrives at the other side. -/
theorem advances_arrives (hq : Quiet next) {s : Side} (hroom : Room e s) (h : Tracks T O w e)
    {f : Bytes} (hc : Current (w.get s).endpoint (takenFrom e s) f)
    (hx : Known w.net s (Framing.packet (UInt16.ofNat (takenFrom e s)) f))
    (counter₀ : Nat → UInt32) :
    ∃ p, (w.get s.other).arrives F (actor s.other) counter₀ (w.get s).endpoint.frames.length
      (Framing.packet (UInt16.ofNat (takenFrom e s)) f) = some p ∧
      Advances T O (w.set s.other p) e ∧
      ∀ entry ∈ (w.get s.other).endpoint.layer.unacked, entry ∈ p.endpoint.layer.unacked := by
  have hlt : takenFrom e s < writtenBy e s := (h.flow s).length ▸ hc.lt
  have hinv := ReliableLink.inv_receive h.inv hq hx
  rw [World.get_net, World.get_net] at hinv
  have hback := (h.flow_other s).receive_other hq
    (Framing.packet (UInt16.ofNat (takenFrom e s)) f) (w.get s).endpoint.frames.length
  obtain ⟨hone, hflow⟩ := (h.flow s).receive_next hq (writtenBy_le e s) hc
  refine ⟨Peer.received F (actor s.other)
    { w.get s.other with
      endpoint := (w.get s.other).endpoint.receive next (w.get s).endpoint.frames.length
        (Framing.packet (UInt16.ofNat (takenFrom e s)) f) }
    (counter₀ 0) (counterOf (takenFrom e s)), ?_, ?_, ?_⟩
  · rw [Peer.arrives, if_pos (h.alive s.other), hone]
    apply receivesAll_singleton
    exact h.alive s.other
  · cases s with
    | client => exact .inl ⟨e.serve hlt, .serve e hlt, tracks_serve hroom h hlt hinv hflow hback _⟩
    | server => exact tracks_answer hroom h hlt hinv hflow hback _
  · intro entry hentry
    apply unacked_received
    have hdata := Endpoint.receive_data next (w.get s.other).endpoint
      (w.get s).endpoint.frames.length hq
      (decodeReliability_packet (UInt16.ofNat (takenFrom e s)) f)
    rw [hdata]
    exact hentry

/-- A datagram of `s` arrives at the other side. -/
theorem moves_arrives (hq : Quiet next) (hm' : m.toNat ≤ 2 ^ 16) (hl : m.toNat ≤ limit + 1)
    (h : Tracks T O w e) {s : Side} {x : Bytes} (hx : Known w.net s x)
    {counter₀ : Nat → UInt32} {p : Peer σ}
    (hp : (w.get s.other).arrives F (actor s.other) counter₀
      (w.get s).endpoint.frames.length x = some p) : Moves T O (w.set s.other p) e := by
  have hinv := ReliableLink.inv_receive h.inv hq hx
  rw [World.get_net, World.get_net] at hinv
  have hback := (h.flow_other s).receive_other hq x (w.get s).endpoint.frames.length
  have hcounter : (w.get s.other).party.state.receivedMessages.toNat = takenFrom e s := by
    have := h.counter s.other
    rwa [Side.other_other] at this
  -- an old packet or an acknowledgement leaves the actor alone
  have hidle : ∀ hstale : Stale (takenFrom e s)
        ((reliability next).read (w.get s.other).endpoint.layer x).handled,
      ∀ hflow : Flow T O m.toNat (w.get s).endpoint
        ((w.get s.other).endpoint.receive next (w.get s).endpoint.frames.length x)
        (writtenBy e s) (takenFrom e s), Moves T O (w.set s.other p) e := by
    intro hstale hflow
    obtain ⟨halive, hall⟩ := Peer.arrives_cases hp
    rw [receivesAll_stale hstale (by exact hcounter) (by exact halive), Option.some.injEq] at hall
    subst hall
    refine .inl ⟨e, .inl rfl, h.endpoint s.other hinv ?_ ?_⟩
    · rwa [Side.other_other]
    · rwa [Side.other_other]
  by_cases hdata : ∃ id, decodeReliability x = some ⟨id, false⟩
  · obtain ⟨id, hdec⟩ := hdata
    obtain ⟨i, f, hc, rfl, rfl⟩ := hx.data id hdec
    rw [World.get_net] at hc
    have hle := writtenBy_le_succ e s
    have hlt := hc.lt
    rw [(h.flow s).length] at hlt
    rcases Nat.lt_or_eq_of_le (show i ≤ takenFrom e s by omega) with hi | rfl
    · obtain ⟨hstale, hflow⟩ := (h.flow s).receive_old hq (writtenBy_le e s) hl hc hi
      exact hidle hstale hflow
    · obtain ⟨q, hq', hadv, _⟩ := advances_arrives hq (.inr hm') h hc hx counter₀
      obtain rfl : q = p := Option.some.inj (hq'.symm.trans hp)
      rcases hadv with ⟨e', he', ht⟩ | ⟨_, hdone⟩
      · exact .inl ⟨e', .inr he', ht⟩
      · exact .inr hdone
  · obtain ⟨hnone, hflow⟩ := (h.flow s).receive_rest (x := x) fun id hdec => hdata ⟨id, hdec⟩
    refine hidle ?_ hflow
    rw [hnone]
    exact List.forall_mem_nil _

/-- A datagram of `s` is still known when it has left the network. -/
theorem Tracks.known_withOut (h : Tracks T O w e) {s : Side} {x : Bytes}
    (hx : (w.get s).endpoint.out.InFlight x) (out : Network Bytes) :
    Known (w.withOut s out).net s x := by
  have hk : Known w.net s x := h.inv.known (by rwa [World.get_net])
  have hnet := hk.network out
  rw [World.get_net] at hnet
  rwa [World.withOut, World.net_set]

theorem moves_deliver (hq : Quiet next) (hm' : m.toNat ≤ 2 ^ 16) (hl : m.toNat ≤ limit + 1)
    (h : Tracks T O w e) {s : Side} {i : Nat} {x : Bytes} {out : Network Bytes}
    {counter₀ : Nat → UInt32} {p : Peer σ}
    (hd : (w.get s).endpoint.out.deliver i = some (x, out))
    (hp : (w.get s.other).arrives F (actor s.other) counter₀
      (w.get s).endpoint.frames.length x = some p) :
    Moves T O ((w.withOut s out).set s.other p) e := by
  obtain ⟨hx, hshrinks⟩ := Network.inFlight_of_deliver hd
  have hknown := h.known_withOut hx out
  have hp' : ((w.withOut s out).get s.other).arrives F (actor s.other) counter₀
      ((w.withOut s out).get s).endpoint.frames.length x = some p := by
    rwa [World.withOut, World.get_set_other, World.get_set_self]
  exact moves_arrives hq hm' hl (h.network s hshrinks) hknown hp'

/-- A timeout makes the layers send a packet again, or hand on old messages. -/
theorem tracks_fire (hq : Quiet next) (h : Tracks T O w e) {s : Side} {i : Nat}
    {counter₀ : Nat → UInt32} {p : Peer σ}
    (hp : (w.get s).fires F (actor s) counter₀ i = some p) : Tracks T O (w.set s p) e := by
  obtain ⟨halive, atm, id, E, hi, hfire, hall⟩ := Peer.fires_cases hp
  obtain ⟨hin, hstale⟩ := (h.flow_other s).fire_other (writtenBy_le e s.other) hi hfire
  rw [receivesAll_stale hstale (by exact h.counter s) (by exact halive), Option.some.injEq] at hall
  subst hall
  have hdir := h.inv s
  have hdir' := h.inv.other s
  rw [World.get_net, World.get_net] at hdir hdir'
  refine h.endpoint s (ReliableLink.inv_set s ?_ ?_) ((h.flow s).fire hq hfire) hin
  · rw [World.get_net]
    exact hdir.fire hq hfire
  · rw [World.get_net]
    exact hdir'.fire_other hdir hq hfire

theorem step_start (ha : w.client.party.alive = true) (hp : w.startPending = true) :
    w.step F m .start = some { w.set .client
      (w.client.reacted F (rawClient 0 w.client.party.state (.start m mainActor))) with
        startPending := false } := by
  simp only [World.step, if_pos (And.intro ha hp), Peer.reacts_eq, Option.map_some]
  rfl

theorem tracks_start (hm : 1 ≤ m.toNat) (h : Tracks T O w e) (hs : e.started = false) :
    Tracks T O { w.set .client
      (w.client.reacted F (rawClient 0 w.client.party.state (.start m mainActor))) with
        startPending := false } e.start := by
  have hask : e.asked = 0 := by simp [Exchange.asked, hs]
  have hflow := h.flow .client
  have hback := h.flow .server
  have hreact : w.client.reacted F (rawClient 0 w.client.party.state (.start m mainActor)) =
      { w.client with
        party := { w.client.party with
          state := { w.client.party.state with responder := some mainActor, messages := m } }
        endpoint := w.client.endpoint.wrote F (counterOf 0) } := by
    simp [counterOf, Peer.reacted, rawClient, Actors.writes, Party.after, Actors.selfQuits,
      completions]
  rw [hreact]
  refine
    { inv := ?_
      flow := ?_
      counter := ?_
      alive := ?_
      noQuits := ?_
      start := rfl
      messages := fun _ => rfl
      running := h.running
      completed := h.completed }
  · have hlen : (w.net.get .client).frames.length < 2 ^ 16 := by
      rw [World.get_net, show (w.get .client).endpoint.frames.length = 0 from
        hflow.length.trans hask]
      decide
    exact inv_wrote (F := F) h.inv .client hlen (counterOf 0)
  · intro s
    cases s
    · have hfirst : Flow T O m.toNat w.client.endpoint w.server.endpoint 0 e.served := by
        have hlater := hflow
        rw [show writtenBy e .client = 0 from hask] at hlater
        exact hlater
      have hwrote := hfirst.wrote
      rw [Nat.zero_add] at hwrote
      show Flow T O m.toNat _ w.server.endpoint e.start.asked e.served
      rw [Exchange.start_asked hs hm]
      exact hwrote
    · exact hback.wrote_other _
  · intro s
    cases s
    · exact h.counter .client
    · exact h.counter .server
  · intro s
    cases s
    · exact h.alive .client
    · exact h.alive .server
  · intro s
    cases s
    · exact h.noQuits .client
    · exact h.noQuits .server

/-- No actor meets an error. -/
def ErrorFree (_ : World σ) : Action → Prop
  | .error _ _ => False
  | _ => True

/-- **Step lemma.** -/
theorem moves_step (hq : Quiet next) (hm : 1 ≤ m.toNat) (hm' : m.toNat ≤ 2 ^ 16)
    (hl : m.toNat ≤ limit + 1) (h : Tracks T O w e) {a : Action} (hok : ErrorFree w a)
    (hstep : w.step F m a = some w') : Moves T O w' e := by
  cases a with
  | start =>
    simp only [World.step, Peer.reacts_eq, Option.map_some] at hstep
    split at hstep
    · rename_i hen
      cases hstep
      have hs : e.started = false := by simpa [hen.2] using h.start.symm
      exact .inl ⟨e.start, .inr (.start e hs), tracks_start hm h hs⟩
    · cases hstep
  | deliver s i counter₀ =>
    obtain ⟨⟨x, out⟩, hd, hmap⟩ := Option.bind_eq_some_iff.mp hstep
    obtain ⟨p, hp, rfl⟩ := Option.map_eq_some_iff.mp hmap
    exact moves_deliver hq hm' hl h hd hp
  | duplicate s i =>
    obtain ⟨out, hd, rfl⟩ := Option.map_eq_some_iff.mp hstep
    exact .inl ⟨e, .inl rfl, h.network s fun x => Network.inFlight_of_duplicate hd⟩
  | lose s i =>
    obtain ⟨out, hd, rfl⟩ := Option.map_eq_some_iff.mp hstep
    exact .inl ⟨e, .inl rfl, h.network s fun x => Network.inFlight_of_lose hd⟩
  | fire s i counter₀ =>
    obtain ⟨p, hp, rfl⟩ := Option.map_eq_some_iff.mp hstep
    exact .inl ⟨e, .inl rfl, tracks_fire hq h hp⟩
  | error s op => exact hok.elim
  | quit s =>
    obtain ⟨party, hquit, _⟩ := Option.bind_eq_some_iff.mp hstep
    unfold Party.takeQuit at hquit
    rw [h.noQuits s] at hquit
    simp at hquit

/-! ## Runs -/

theorem completed_receivesAll {act : Behavior} {payloads : List Bytes} {counter₀ : Nat → UInt32}
    {p p' : Peer σ} (h : Peer.receivesAll F act counter₀ payloads p = some p') :
    p.completed ≤ p'.completed := by
  induction payloads generalizing p counter₀ with
  | nil =>
    cases h
    exact Nat.le_refl _
  | cons payload payloads ih =>
    obtain ⟨q, hq, hrest⟩ := Option.bind_eq_some_iff.mp h
    refine Nat.le_trans ?_ (ih hrest)
    by_cases ha : p.party.alive = true
    · rw [Peer.receives_alive ha] at hq
      cases hq
      exact Nat.le_add_right _ _
    · rw [Peer.receives_dead ha] at hq
      cases hq
      exact Nat.le_refl _

/-- A completed run stays completed. -/
theorem completed_step {a : Action} (h : w.step F m a = some w') :
    w.client.completed ≤ w'.client.completed := by
  have hset : ∀ s (v : World σ) (p : Peer σ), v.client.completed = w.client.completed →
      (v.get s).completed ≤ p.completed → w.client.completed ≤ (v.set s p).client.completed := by
    intro s v p hv hp
    cases s
    · rw [← hv]
      exact hp
    · exact Nat.le_of_eq hv.symm
  have hout : ∀ s out, (w.withOut s out).client.completed = w.client.completed := by
    intro s out
    cases s <;> rfl
  cases a with
  | start =>
    simp only [World.step, Peer.reacts_eq, Option.map_some] at h
    split at h
    · cases h
      exact Nat.le_add_right _ _
    · cases h
  | deliver s i counter₀ =>
    obtain ⟨⟨x, out⟩, _, hmap⟩ := Option.bind_eq_some_iff.mp h
    obtain ⟨p, hp, rfl⟩ := Option.map_eq_some_iff.mp hmap
    apply hset _ _ _ (hout s out)
    rw [World.withOut, World.get_set_other]
    have hmono := completed_receivesAll (Peer.arrives_cases hp).2
    exact hmono
  | duplicate s i =>
    obtain ⟨out, _, rfl⟩ := Option.map_eq_some_iff.mp h
    exact Nat.le_of_eq (hout s out).symm
  | lose s i =>
    obtain ⟨out, _, rfl⟩ := Option.map_eq_some_iff.mp h
    exact Nat.le_of_eq (hout s out).symm
  | fire s i counter₀ =>
    obtain ⟨p, hp, rfl⟩ := Option.map_eq_some_iff.mp h
    obtain ⟨_, _, _, E, _, _, hall⟩ := Peer.fires_cases hp
    have hmono := completed_receivesAll hall
    exact hset _ _ _ rfl hmono
  | error s op =>
    simp only [World.step, Peer.reacts_eq, Option.map_some] at h
    split at h
    · cases h
      exact hset _ _ _ rfl (Nat.le_add_right _ _)
    · cases h
  | quit s =>
    obtain ⟨party, _, hmap⟩ := Option.bind_eq_some_iff.mp h
    rw [Peer.reacts_eq, Option.map_some, Option.some.injEq] at hmap
    subst hmap
    exact hset _ _ _ rfl (Nat.le_add_right _ _)

theorem tracks_initial (T : Transparent F id) (O : InOrder F id limit) (hm : 1 ≤ m.toNat) :
    Tracks T O (.initial next) (Exchange.initial m.toNat) where
  inv := ReliableLink.inv_initial
  flow s := by
    have hempty : Flow T O m.toNat { layer := (reliability next).init.state }
        { layer := (reliability next).init.state } 0 0 :=
      { length := rfl
        frames := fun i f hi => by simp at hi
        writes := O.writes_init
        expects := fun _ => O.expects_init
        passed := fun i f hp => absurd hp List.not_mem_nil
        carried :=
          { data := fun x id hx => absurd hx.mem_sent List.not_mem_nil
            kept := List.forall_mem_nil _
            holds := T.init _ } }
    cases s <;> exact hempty
  counter s := by cases s <;> rfl
  alive s := by cases s <;> rfl
  noQuits s := by cases s <;> rfl
  start := rfl
  messages h := by simp at h
  running := hm
  completed := rfl

/-- **Run lemma.**  A run without errors is in a state of the exchange or complete. -/
theorem tracks_run (T : Transparent F id) (O : InOrder F id limit) (hq : Quiet next)
    (hm : 1 ≤ m.toNat) (hm' : m.toNat ≤ 2 ^ 16) (hl : m.toNat ≤ limit + 1) {as : List Action}
    (hok : (system F m).Meets ErrorFree (.initial next) as) (hr : (system F m).run as = some w) :
    (∃ e : Exchange m.toNat, Tracks T O w e) ∨ 1 ≤ w.client.completed := by
  have hstep : ∀ v a v', ((∃ e : Exchange m.toNat, Tracks T O v e) ∨ 1 ≤ v.client.completed) →
      ErrorFree v a → (system F m).step v a = some v' →
      (∃ e : Exchange m.toNat, Tracks T O v' e) ∨ 1 ≤ v'.client.completed := by
    rintro v a v' (⟨e, he⟩ | hdone) ha hs
    · rcases moves_step hq hm hm' hl he ha hs with ⟨e', _, he'⟩ | hdone
      · exact .inl ⟨e', he'⟩
      · exact .inr hdone
    · exact .inr (Nat.le_trans hdone (completed_step hs))
  exact TransitionSystem.invariant_runFrom hstep (.inl ⟨_, tracks_initial T O hm⟩) hok hr

/-! ## Progress -/

/-- The start, arrivals and timeouts. -/
inductive Action.IsOnward : Action → Prop
  | start : IsOnward .start
  | deliver (s : Side) (i : Nat) (counter₀ : Nat → UInt32) : IsOnward (.deliver s i counter₀)
  | fire (s : Side) (i : Nat) (counter₀ : Nat → UInt32) : IsOnward (.fire s i counter₀)

/-- The message that is needed has not arrived yet, so that it is kept and its timeout
sends it again. -/
theorem exists_resend (hq : Quiet next) (h : Tracks T O w e) {s : Side}
    (hs : takenFrom e s < writtenBy e s) :
    ∃ i w' f, w.step F m (.fire s i fun _ => 0) = some w' ∧ Tracks T O w' e ∧
      Current (w'.get s).endpoint (takenFrom e s) f ∧
      (w'.get s).endpoint.out.InFlight (Framing.packet (UInt16.ofNat (takenFrom e s)) f) ∧
      ∀ t, (w'.get t).endpoint.layer = (w.get t).endpoint.layer := by
  have hflow := h.flow s
  have hdir := h.inv s
  rw [World.get_net, World.get_net] at hdir
  obtain ⟨f, hf⟩ : ∃ f, (w.get s).endpoint.frames[takenFrom e s]? = some f := by
    rw [← hflow.length] at hs
    exact ⟨_, List.getElem?_eq_getElem hs⟩
  obtain ⟨hc, hmem⟩ : Current (w.get s).endpoint (takenFrom e s) f ∧
      (UInt16.ofNat (takenFrom e s), Framing.packet (UInt16.ofNat (takenFrom e s)) f) ∈
        (w.get s).endpoint.layer.unacked := by
    rcases hdir.kept _ f hf with hkept | hpassed
    · exact hkept
    · exact absurd (hflow.passed _ f hpassed) (Nat.lt_irrefl _)
  obtain ⟨i, E, hi, hfire, hlayer, hx⟩ := hdir.exists_fire hq hc hmem
  have hhandled : ((reliability next).timeout (w.get s).endpoint.layer reliabilityAtom
      (UInt16.ofNat (takenFrom e s)).toUInt32).handled = [] := by
    show (ReliabilityState.timeout next _ _ _).handled = []
    unfold ReliabilityState.timeout
    rw [if_pos rfl]
    split <;> rfl
  have hfires : (w.get s).fires F (actor s) (fun _ => 0) i =
      some { w.get s with endpoint := E } := by
    rw [Peer.fires_eq (h.alive s) hi hfire, hhandled]
    rfl
  have hframes : E.frames = (w.get s).endpoint.frames := by
    obtain ⟨_, _, rfl⟩ := Option.map_eq_some_iff.mp hfire
    rfl
  refine ⟨i, w.set s { w.get s with endpoint := E }, f, ?_, tracks_fire hq h hfires, ?_, ?_, ?_⟩
  · simp only [World.step, hfires, Option.map_some]
  · rw [World.get_set_self]
    unfold Current
    rw [hframes]
    exact hc
  · rwa [World.get_set_self]
  · intro t
    rcases Side.eq_or_eq_other s t with rfl | rfl
    · rw [World.get_set_self, hlayer]
    · rw [World.get_set_other]

/-- It arrives then. -/
theorem exists_arrival (hq : Quiet next) {s : Side} (hroom : Room e s) (h : Tracks T O w e)
    {f : Bytes} (hc : Current (w.get s).endpoint (takenFrom e s) f)
    (hx : (w.get s).endpoint.out.InFlight
      (Framing.packet (UInt16.ofNat (takenFrom e s)) f)) :
    ∃ i w', w.step F m (.deliver s i fun _ => 0) = some w' ∧ Advances T O w' e ∧
      ∀ t, ∀ entry ∈ (w.get t).endpoint.layer.unacked,
        entry ∈ (w'.get t).endpoint.layer.unacked := by
  obtain ⟨i, out, hd⟩ := hx.exists_deliver
  obtain ⟨_, hshrinks⟩ := Network.inFlight_of_deliver hd
  have hknown := h.known_withOut hx out
  have hc' : Current ((w.withOut s out).get s).endpoint (takenFrom e s) f := by
    rw [World.withOut, World.get_set_self]
    exact hc
  obtain ⟨p, hp, hadv, hkeeps⟩ :=
    advances_arrives hq hroom (h.network s hshrinks) hc' hknown fun _ => 0
  rw [World.withOut, World.get_set_other, World.get_set_self] at hp
  rw [World.withOut, World.get_set_other] at hkeeps
  refine ⟨i, (w.withOut s out).set s.other p, ?_, hadv, ?_⟩
  · simp only [World.step, hd, Option.bind_some, hp, Option.map_some]
  · intro t entry hentry
    rcases Side.eq_or_eq_other s t with rfl | rfl
    · rw [World.get_other_set, World.withOut, World.get_set_self]
      exact hentry
    · rw [World.get_set_self]
      exact hkeeps entry hentry

/-- Every state of the exchange is left by actions of these kinds. -/
theorem exists_advance (hq : Quiet next) (hm : 1 ≤ m.toNat) (hm' : m.toNat ≤ 2 ^ 16)
    (h : Tracks T O w e) :
    ∃ as w', (system F m).Meets (fun _ a => a.IsOnward) w as ∧
      (system F m).runFrom w as = some w' ∧ Advances T O w' e := by
  cases hs : e.started with
  | false =>
    have hp : w.startPending = true := by
      rw [h.start, hs]
      rfl
    refine ⟨[.start], _, ⟨.start, fun _ _ => trivial⟩, ?_,
      .inl ⟨e.start, .start e hs, tracks_start hm h hs⟩⟩
    exact TransitionSystem.runFrom_cons.mpr ⟨_, step_start (h.alive .client) hp, rfl⟩
  | true =>
    obtain ⟨s, hturn⟩ : ∃ s, takenFrom e s < writtenBy e s := by
      rcases e.turn hs h.running with ⟨_, hlt⟩ | ⟨hserved, _⟩
      · exact ⟨.client, hlt⟩
      · refine ⟨.server, ?_⟩
        show e.answered < e.served
        omega
    obtain ⟨i, w₁, f, hs₁, h₁, hc, hx, _⟩ := exists_resend hq h hturn
    obtain ⟨j, w₂, hs₂, hadv, _⟩ := exists_arrival hq (.inr hm') h₁ hc hx
    refine ⟨[.fire s i fun _ => 0, .deliver s j fun _ => 0], w₂, ?_, ?_, hadv⟩
    · exact ⟨.fire s i _, fun _ _ => ⟨.deliver s j _, fun _ _ => trivial⟩⟩
    · refine TransitionSystem.runFrom_cons.mpr ⟨w₁, hs₁, ?_⟩
      exact TransitionSystem.runFrom_cons.mpr ⟨w₂, hs₂, rfl⟩

/-- By induction on what is left to do. -/
theorem completes_of_tracks (hq : Quiet next) (hm : 1 ≤ m.toNat) (hm' : m.toNat ≤ 2 ^ 16)
    (n : Nat) (hn : e.remaining ≤ n) (h : Tracks T O w e) :
    ∃ as w', (system F m).Meets (fun _ a => a.IsOnward) w as ∧
      (system F m).runFrom w as = some w' ∧ 1 ≤ w'.client.completed := by
  induction n generalizing w e with
  | zero =>
    obtain ⟨as, w', hm₁, hr₁, ⟨e', he', _⟩ | ⟨_, hdone⟩⟩ := exists_advance hq hm hm' h
    · have := Exchange.remaining_step he'
      omega
    · exact ⟨as, w', hm₁, hr₁, hdone⟩
  | succ n ih =>
    obtain ⟨as, w₁, hm₁, hr₁, ⟨e', he', h₁⟩ | ⟨_, hdone⟩⟩ := exists_advance hq hm hm' h
    · have hlt := Exchange.remaining_step he'
      obtain ⟨bs, w₂, hm₂, hr₂, hdone⟩ := ih (by omega) h₁
      refine ⟨as ++ bs, w₂, TransitionSystem.meets_append hm₁ hr₁ hm₂, ?_, hdone⟩
      rw [TransitionSystem.runFrom_append, hr₁, Option.bind_some, hr₂]
    · exact ⟨as, w₁, hm₁, hr₁, hdone⟩

/-- **Progress.**  Whatever has been lost, duplicated and reordered in a run without
errors, the start, arrivals and timeouts alone can complete it, if all ids and
sequence numbers that it needs can be told apart. -/
theorem stack_completes (T : Transparent F id) (O : InOrder F id limit) (hq : Quiet next)
    (hm : 1 ≤ m.toNat) (hm' : m.toNat ≤ 2 ^ 16) (hl : m.toNat ≤ limit + 1) {as : List Action}
    (hok : (system F m).Meets ErrorFree (.initial next) as) (hr : (system F m).run as = some w) :
    ∃ bs w', (system F m).Meets (fun _ a => a.IsOnward) w bs ∧
      (system F m).runFrom w bs = some w' ∧ 1 ≤ w'.client.completed := by
  rcases tracks_run T O hq hm hm' hl hok hr with ⟨e, he⟩ | hdone
  · exact completes_of_tracks hq hm hm' _ (Nat.le_refl _) he
  · exact ⟨[], w, trivial, rfl, hdone⟩

end Steps

/-! ## The two stacks of the program -/

/-- With `proto_t` that is every run of at most `2 ^ 16` messages. -/
theorem proto_completes {m : UInt64} {w : World Unit} (hm : 1 ≤ m.toNat) (hm' : m.toNat ≤ 2 ^ 16)
    {as : List Action} (hok : (system Framing.raw m).Meets ErrorFree (.initial raw) as)
    (hr : (system Framing.raw m).run as = some w) :
    ∃ bs w', (system Framing.raw m).Meets (fun _ a => a.IsOnward) w bs ∧
      (system Framing.raw m).runFrom w bs = some w' ∧ 1 ≤ w'.client.completed :=
  stack_completes .raw (.raw (2 ^ 16)) quiet_raw hm hm' (by omega) hok hr

/-- With `ordered_proto_t`, whose sequence numbers are compared within half their range,
that is every run of at most `2 ^ 15` messages. -/
theorem orderedProto_completes {m : UInt64} {w : World (OrderingState Unit)} (hm : 1 ≤ m.toNat)
    (hm' : m.toNat ≤ 2 ^ 15) {max : Nat} {as : List Action}
    (hok : (system (Framing.raw.ordering max) m).Meets ErrorFree
      (.initial (ordering max raw)) as)
    (hr : (system (Framing.raw.ordering max) m).run as = some w) :
    ∃ bs w', (system (Framing.raw.ordering max) m).Meets (fun _ a => a.IsOnward) w bs ∧
      (system (Framing.raw.ordering max) m).runFrom w bs = some w' ∧ 1 ≤ w'.client.completed :=
  stack_completes (Transparent.raw.ordering max)
    ((InOrder.raw 32767).ordering max (Nat.le_refl _)) (quiet_raw.ordering max) hm (by omega)
    (by omega) hok hr

/-- A ping that has been lost and one that has been duplicated. -/
theorem orderedProto_completes_two : ∃ w, (system (Framing.raw.ordering 10) 2).run
    [.start, .duplicate .client 0, .deliver .client 0 fun _ => 0, .lose .client 0] = some w ∧
    ∃ bs w', (system (Framing.raw.ordering 10) 2).Meets (fun _ a => a.IsOnward) w bs ∧
      (system (Framing.raw.ordering 10) 2).runFrom w bs = some w' ∧ 1 ≤ w'.client.completed := by
  obtain ⟨w, hr⟩ : ∃ w, (system (Framing.raw.ordering 10) 2).run
    [.start, .duplicate .client 0, .deliver .client 0 fun _ => 0, .lose .client 0] = some w :=
    ⟨_, rfl⟩
  refine ⟨w, hr, orderedProto_completes (by decide) (by decide) ?_ hr⟩
  simp [TransitionSystem.Meets, ErrorFree]

end NewbMeasurements.StackSystem
