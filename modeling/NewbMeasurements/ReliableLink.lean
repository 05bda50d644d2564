import NewbMeasurements.LayerLaws
import NewbMeasurements.Library.Datagrams
import NewbMeasurements.Library.Transitions

/-!
Two actors that talk through `reliability` over an unreliable datagram network, in
both directions at once. What the actors write and when is up to whoever runs the
system, and so is what the network does and which timeout fires next.

As long as no packet takes an id that is still in use, no frame is lost: it is kept
for retransmission, with a timeout to come, until it has reached the other side.
-/

namespace NewbMeasurements.ReliableLink

open Words (Bytes)
open Datagrams (Network)
open Transitions (TransitionSystem)
open Actors (Atom)
open Protocols

inductive Side
  | client
  | server
  deriving DecidableEq, Repr

def Side.other : Side → Side
  | .client => .server
  | .server => .client

/-- The latest of `n` packets that was sent with this id. -/
def latest (n : Nat) (id : IdType) : Nat := n - 1 - (n - 1 + 2 ^ 16 - id.toNat) % 2 ^ 16

/-! ## What `reliability` passes up -/

section Recording

variable {σ μ : Type}

/-- The state of a layer, and the calls of its `read` so far. -/
structure Recorded (σ : Type) where
  state : σ
  calls : List Bytes := []

/-- A layer that records the calls of its `read`. -/
def recording (next : Layer σ μ) : Layer (Recorded σ) μ where
  init := next.init.map fun s => { state := s }
  read r bytes := (next.read r.state bytes).map fun s => { state := s, calls := r.calls ++ [bytes] }
  timeout r atm id := (next.timeout r.state atm id).map fun s => { r with state := s }
  writeHeader r buf hw :=
    (next.writeHeader r.state buf hw).map fun (s, buf) => ({ r with state := s }, buf)
  prepareForSending r buf hstart offset plen :=
    (next.prepareForSending r.state buf hstart offset plen).map fun (o, buf) =>
      (o.map fun s => { r with state := s }, buf)

/-- `reliability::read`, with the frames that it calls `next.read` for. -/
def readRecorded (next : Layer σ μ) (s : ReliabilityState σ) (bytes : Bytes) :
    Outcome (ReliabilityState σ) μ × List Bytes :=
  let r := (reliability (recording next)).read
    { idWrite := s.idWrite, unacked := s.unacked, next := { state := s.next } } bytes
  (r.map fun s => { idWrite := s.idWrite, unacked := s.unacked, next := s.next.state },
    r.state.next.calls)

/-- The recording changes nothing. -/
theorem readRecorded_fst (next : Layer σ μ) (s : ReliabilityState σ) (bytes : Bytes) :
    (readRecorded next s bytes).1 = (reliability next).read s bytes := by
  simp only [readRecorded, reliability, ReliabilityState.read]
  split
  · rfl
  · split <;> simp [recording, Outcome.map]

end Recording

/-- One side of the link: its protocol layers, the timeouts that are set, and every
datagram that it has sent. The last four fields record what the actor has written,
the frames that `reliability` got for that from the layers above it, the frames
for which it has called their `read`, each with the index of the packet that it goes
back to, and the messages that reached the actor. -/
structure Endpoint (σ μ α : Type) where
  layer : ReliabilityState σ
  timers : List (Atom × UInt32) := []
  out : Network Bytes := []
  written : List α := []
  frames : List Bytes := []
  passed : List (Nat × Bytes) := []
  handled : List μ := []

variable {σ μ α : Type}

namespace Endpoint

/-- A datagram transport ignores the read policy. -/
def after (e : Endpoint σ μ α) (r : Outcome (ReliabilityState σ) μ) : Endpoint σ μ α :=
  { e with
    layer := r.state
    timers := e.timers ++ timeouts r.requests
    out := (packets r.requests).foldl Network.send e.out
    handled := e.handled ++ r.handled }

def write {next : Layer σ μ} (F : Framing next α) (e : Endpoint σ μ α) (x : α) :
    Option (Endpoint σ μ α) :=
  ((reliability next).write e.layer [] (F.hw x) (F.payload x)).map fun (r, packet) =>
    let e := e.after r
    { e with
      out := e.out.send packet
      written := e.written ++ [x]
      frames := e.frames ++ [packet.drop reliabilityHeaderLen] }

/-- A datagram arrives; the other side has sent `sent` packets so far. -/
def receive (next : Layer σ μ) (e : Endpoint σ μ α) (sent : Nat) (bytes : Bytes) :
    Endpoint σ μ α :=
  let (r, calls) := readRecorded next e.layer bytes
  let packet := latest sent ((decodeReliability bytes).elim 0 ReliabilityHeader.id)
  { e.after r with passed := e.passed ++ calls.map fun frame => (packet, frame) }

/-- The `i`-th timeout fires. -/
def fire (next : Layer σ μ) (e : Endpoint σ μ α) (i : Nat) : Option (Endpoint σ μ α) :=
  e.timers[i]?.map fun (atm, id) =>
    { e with timers := e.timers.eraseIdx i }.after ((reliability next).timeout e.layer atm id)

end Endpoint

structure World (σ μ α : Type) where
  client : Endpoint σ μ α
  server : Endpoint σ μ α

namespace World

def get (w : World σ μ α) : Side → Endpoint σ μ α
  | .client => w.client
  | .server => w.server

def set (w : World σ μ α) (s : Side) (e : Endpoint σ μ α) : World σ μ α :=
  match s with
  | .client => { w with client := e }
  | .server => { w with server := e }

end World

/-- The network actions name the side that has sent the datagram. -/
inductive Action (α : Type)
  | write (s : Side) (x : α)
  | deliver (s : Side) (i : Nat)
  | duplicate (s : Side) (i : Nat)
  | lose (s : Side) (i : Nat)
  | fire (s : Side) (i : Nat)
  deriving DecidableEq, Repr

namespace World

variable {next : Layer σ μ}

def step (F : Framing next α) (w : World σ μ α) : Action α → Option (World σ μ α)
  | .write s x => ((w.get s).write F x).map (w.set s)
  | .deliver s i =>
    ((w.get s).out.deliver i).map fun (bytes, out) =>
      (w.set s { w.get s with out }).set s.other
        ((w.get s.other).receive next (w.get s).frames.length bytes)
  | .duplicate s i =>
    ((w.get s).out.duplicate i).map fun out => w.set s { w.get s with out }
  | .lose s i => ((w.get s).out.lose i).map fun out => w.set s { w.get s with out }
  | .fire s i => ((w.get s).fire next i).map (w.set s)

def initial (next : Layer σ μ) : World σ μ α where
  client := { layer := (reliability next).init.state }
  server := { layer := (reliability next).init.state }

end World

def link {next : Layer σ μ} (F : Framing next α) : TransitionSystem (World σ μ α) (Action α) where
  init := .initial next
  step := World.step F

@[simp] theorem Side.other_other (s : Side) : s.other.other = s := by cases s <;> rfl

theorem Side.eq_or_eq_other (s t : Side) : t = s ∨ t = s.other := by
  cases s <;> cases t <;> simp [Side.other]

@[simp] theorem World.get_set_self (w : World σ μ α) (s : Side) (e : Endpoint σ μ α) :
    (w.set s e).get s = e := by cases s <;> rfl

@[simp] theorem World.get_set_other (w : World σ μ α) (s : Side) (e : Endpoint σ μ α) :
    (w.set s e).get s.other = w.get s.other := by cases s <;> rfl

@[simp] theorem World.get_other_set (w : World σ μ α) (s : Side) (e : Endpoint σ μ α) :
    (w.set s.other e).get s = w.get s := by cases s <;> rfl

@[simp] theorem World.set_set (w : World σ μ α) (s : Side) (e e' : Endpoint σ μ α) :
    (w.set s e).set s e' = w.set s e' := by cases s <;> rfl

/-! ## Ids -/

theorem latest_ofNat {n i : Nat} (hi : i < n) (hn : n ≤ i + 2 ^ 16) :
    latest n (UInt16.ofNat i) = i := by
  have hid : (UInt16.ofNat i).toNat = i % 2 ^ 16 := UInt16.toNat_ofNat'
  unfold latest
  omega

/-- Of the last `2 ^ 16` packets no two have the same id. -/
theorem index_unique {n i j : Nat} (hi : i < n) (hj : j < n) (hni : n ≤ i + 2 ^ 16)
    (hnj : n ≤ j + 2 ^ 16) (h : UInt16.ofNat i = UInt16.ofNat j) : i = j := by
  rw [← latest_ofNat hi hni, h, latest_ofNat hj hnj]

theorem toUInt16_toUInt32 (id : IdType) : id.toUInt32.toUInt16 = id := by simp

theorem decodeReliability_packet (id : IdType) (f : Bytes) :
    decodeReliability (Framing.packet id f) = some ⟨id, false⟩ :=
  decodeReliability_encodeReliability_append ⟨id, false⟩ f

theorem drop_packet (id : IdType) (f : Bytes) :
    (Framing.packet id f).drop reliabilityHeaderLen = f := rfl

theorem decodeReliability_ack (id : IdType) :
    decodeReliability (encodeReliability ⟨id, true⟩) = some ⟨id, true⟩ := by
  have h := decodeReliability_encodeReliability_append ⟨id, true⟩ []
  rwa [List.append_nil] at h

theorem emplace_of_fresh {u : Unacked} {id : IdType} (h : ∀ entry ∈ u, entry.1 ≠ id)
    (p : Bytes) : u.emplace id p = u ++ [(id, p)] := by
  have hany : u.any (fun entry => decide (entry.1 = id)) = false := by
    rw [List.any_eq_false]
    intro entry hentry
    simpa using h entry hentry
  simp [Unacked.emplace, hany]

theorem mem_emplace {u : Unacked} {entry : IdType × Bytes} (h : entry ∈ u) (id : IdType)
    (p : Bytes) : entry ∈ u.emplace id p := by
  unfold Unacked.emplace
  split
  · exact h
  · exact List.mem_append_left _ h

theorem mem_erase {u : Unacked} {id : IdType} {entry : IdType × Bytes} :
    entry ∈ u.erase id ↔ entry ∈ u ∧ entry.1 ≠ id := by
  simp [Unacked.erase]

theorem mem_of_lookup {u : Unacked} {id : IdType} {p : Bytes} (h : u.lookup id = some p) :
    (id, p) ∈ u := by
  obtain ⟨u₁, u₂, rfl, _⟩ := List.lookup_eq_some_iff.mp h
  exact List.mem_append_right _ List.mem_cons_self

/-- An id that is in use is found. -/
theorem lookup_of_mem {u : Unacked} {entry : IdType × Bytes} (h : entry ∈ u) :
    ∃ p, u.lookup entry.1 = some p := by
  cases hl : u.lookup entry.1 with
  | some p => exact ⟨p, rfl⟩
  | none =>
    rw [List.lookup_eq_none_iff] at hl
    exact absurd (hl entry h) (by simp)

/-! ## The invariant of one direction -/

/-- Packet `i` carries the frame `f`, and its id has not been given to another one since. -/
def Current (P : Endpoint σ μ α) (i : Nat) (f : Bytes) : Prop :=
  P.frames[i]? = some f ∧ P.frames.length ≤ i + 2 ^ 16

theorem Current.lt {P : Endpoint σ μ α} {i : Nat} {f : Bytes} (h : Current P i f) :
    i < P.frames.length := (List.getElem?_eq_some_iff.mp h.1).1

theorem Current.unique {P : Endpoint σ μ α} {i j : Nat} {f g : Bytes} (hi : Current P i f)
    (hj : Current P j g) (h : UInt16.ofNat i = UInt16.ofNat j) : i = j ∧ f = g := by
  obtain rfl := index_unique hi.lt hj.lt hi.2 hj.2 h
  have heq := hi.1.symm.trans hj.1
  exact ⟨rfl, Option.some.inj heq⟩

/-- What `P` sends to `Q`: everything that is on its way or kept goes back to a
packet whose id is not in use again, and every frame is kept or has been passed up. -/
structure Direction (P Q : Endpoint σ μ α) : Prop where
  idWrite : P.layer.idWrite = UInt16.ofNat P.frames.length
  unacked : ∀ entry ∈ P.layer.unacked, ∃ i f, Current P i f ∧
    entry = (UInt16.ofNat i, Framing.packet (UInt16.ofNat i) f)
  data : ∀ x id, P.out.InFlight x → decodeReliability x = some ⟨id, false⟩ →
    ∃ i f, Current P i f ∧ id = UInt16.ofNat i ∧ x = Framing.packet id f
  acks : ∀ x id, Q.out.InFlight x → decodeReliability x = some ⟨id, true⟩ →
    ∃ i f, Current P i f ∧ id = UInt16.ofNat i ∧ (i, f) ∈ Q.passed
  kept : ∀ i f, P.frames[i]? = some f → (Current P i f ∧
    (UInt16.ofNat i, Framing.packet (UInt16.ofNat i) f) ∈ P.layer.unacked) ∨ (i, f) ∈ Q.passed
  passed : ∀ i f, (i, f) ∈ Q.passed → P.frames[i]? = some f
  timers : ∀ entry ∈ P.layer.unacked, (reliabilityAtom, entry.1.toUInt32) ∈ P.timers

def Inv (w : World σ μ α) : Prop := ∀ s, Direction (w.get s) (w.get s.other)

/-- The id of the next packet is not in use: no packet with it is kept or on its
way, and no acknowledgement for one. -/
structure IdFree (P Q : Endpoint σ μ α) : Prop where
  unacked : ∀ entry ∈ P.layer.unacked, entry.1 ≠ P.layer.idWrite
  data : ∀ x, P.out.InFlight x → decodeReliability x ≠ some ⟨P.layer.idWrite, false⟩
  acks : ∀ x, Q.out.InFlight x → decodeReliability x ≠ some ⟨P.layer.idWrite, true⟩

variable {next : Layer σ μ} {F : Framing next α} {P P' Q Q' : Endpoint σ μ α}

/-- The first `2 ^ 16` packets all find their id free. -/
theorem Direction.idFree (h : Direction P Q) (hn : P.frames.length < 2 ^ 16) : IdFree P Q := by
  have hne : ∀ i f, Current P i f → UInt16.ofNat i ≠ P.layer.idWrite := by
    intro i f hc heq
    have hlt := hc.lt
    rw [h.idWrite] at heq
    have hnat := congrArg UInt16.toNat heq
    rw [UInt16.toNat_ofNat_of_lt' hn, UInt16.toNat_ofNat_of_lt' (hlt.trans hn)] at hnat
    omega
  refine ⟨?_, ?_, ?_⟩
  · intro entry hentry
    obtain ⟨i, f, hc, rfl⟩ := h.unacked entry hentry
    exact hne i f hc
  · intro x hx hdec
    obtain ⟨i, f, hc, hid, _⟩ := h.data x _ hx hdec
    exact hne i f hc hid.symm
  · intro x hx hdec
    obtain ⟨i, f, hc, hid, _⟩ := h.acks x _ hx hdec
    exact hne i f hc hid.symm

/-! ## Writing -/

/-- The endpoint after a write. -/
def Endpoint.wrote (F : Framing next α) (e : Endpoint σ μ α) (x : α) : Endpoint σ μ α :=
  { e with
    layer := F.reliable e.layer x
    timers := e.timers ++ [(reliabilityAtom, e.layer.idWrite.toUInt32)]
    out := e.out.send (Framing.packet e.layer.idWrite (F.frame e.layer.next x))
    written := e.written ++ [x]
    frames := e.frames ++ [F.frame e.layer.next x] }

theorem Endpoint.write_eq (e : Endpoint σ μ α) (x : α) : e.write F x = some (e.wrote F x) := by
  rw [Endpoint.write, Framing.write_reliability, Option.map_some, List.nil_append]
  simp [Endpoint.after, Endpoint.wrote, packets, timeouts, Outcome.handled, drop_packet]

theorem Current.wrote {i : Nat} {f : Bytes} (h : Current P i f) {x : α}
    (hne : UInt16.ofNat i ≠ P.layer.idWrite)
    (hid : P.layer.idWrite = UInt16.ofNat P.frames.length) : Current (P.wrote F x) i f := by
  refine ⟨?_, ?_⟩
  · show (P.frames ++ _)[i]? = some f
    rw [List.getElem?_append_left h.lt]
    exact h.1
  · show (P.frames ++ [_]).length ≤ i + 2 ^ 16
    have hle := h.2
    rw [List.length_append, List.length_singleton]
    by_contra hlt
    -- the frame that is overtaken has the id of the new one
    have heq : P.frames.length = i + 2 ^ 16 := by omega
    apply hne
    rw [hid, heq]
    apply UInt16.toNat_inj.mp
    rw [UInt16.toNat_ofNat', UInt16.toNat_ofNat']
    omega

theorem Current.last (P : Endpoint σ μ α) (x : α) :
    Current (P.wrote F x) P.frames.length (F.frame P.layer.next x) := by
  refine ⟨?_, ?_⟩
  · show (P.frames ++ _)[P.frames.length]? = _
    rw [List.getElem?_append_right (Nat.le_refl _), Nat.sub_self]
    rfl
  · show (P.frames ++ [_]).length ≤ _
    rw [List.length_append, List.length_singleton]
    omega

/-- A write in this direction. -/
theorem Direction.write (h : Direction P Q) (hfree : IdFree P Q) (x : α) :
    Direction (P.wrote F x) Q := by
  have hcur : ∀ i f, Current P i f → UInt16.ofNat i ≠ P.layer.idWrite →
      Current (P.wrote F x) i f := fun i f hc hne => hc.wrote hne h.idWrite
  have hunacked : (P.wrote F x).layer.unacked =
      P.layer.unacked ++ [(P.layer.idWrite,
        Framing.packet P.layer.idWrite (F.frame P.layer.next x))] :=
    emplace_of_fresh hfree.unacked _
  have hlast := Current.last (F := F) P x
  refine
    { idWrite := ?_
      unacked := ?_
      data := ?_
      acks := ?_
      kept := ?_
      passed := ?_
      timers := ?_ }
  · show P.layer.idWrite + 1 = UInt16.ofNat (P.frames ++ [_]).length
    rw [List.length_append, List.length_singleton, h.idWrite]
    simp
  · intro entry hentry
    rw [hunacked, List.mem_append, List.mem_singleton] at hentry
    rcases hentry with hmem | rfl
    · have hne := hfree.unacked entry hmem
      obtain ⟨i, f, hc, rfl⟩ := h.unacked entry hmem
      exact ⟨i, f, hcur i f hc hne, rfl⟩
    · exact ⟨P.frames.length, _, hlast, by rw [h.idWrite]⟩
  · intro y id hy hdec
    rcases Network.inFlight_send.mp hy with hy | rfl
    · obtain ⟨i, f, hc, rfl, rfl⟩ := h.data y id hy hdec
      refine ⟨i, f, hcur i f hc ?_, rfl, rfl⟩
      intro heq
      exact hfree.data _ hy (heq ▸ hdec)
    · rw [decodeReliability_packet] at hdec
      cases hdec
      exact ⟨P.frames.length, _, hlast, h.idWrite, rfl⟩
  · intro y id hy hdec
    obtain ⟨i, f, hc, rfl, hp⟩ := h.acks y id hy hdec
    refine ⟨i, f, hcur i f hc ?_, rfl, hp⟩
    intro heq
    exact hfree.acks _ hy (heq ▸ hdec)
  · intro i f hi
    by_cases hlt : i < P.frames.length
    · have hold : P.frames[i]? = some f := by
        rw [← List.getElem?_append_left hlt]
        exact hi
      rcases h.kept i f hold with ⟨hc, hmem⟩ | hp
      · refine .inl ⟨hcur i f hc (hfree.unacked _ hmem), ?_⟩
        rw [hunacked]
        exact List.mem_append_left _ hmem
      · exact .inr hp
    · have hlen : i < P.frames.length + 1 := by
        have := (List.getElem?_eq_some_iff.mp hi).1
        rwa [Endpoint.wrote, List.length_append, List.length_singleton] at this
      obtain rfl : i = P.frames.length := by omega
      have hf := hlast.1.symm.trans hi
      cases hf
      refine .inl ⟨hlast, ?_⟩
      rw [hunacked, ← h.idWrite]
      exact List.mem_append_right _ (List.mem_singleton.mpr rfl)
  · intro i f hp
    have hold := h.passed i f hp
    show (P.frames ++ _)[i]? = some f
    rw [List.getElem?_append_left (List.getElem?_eq_some_iff.mp hold).1]
    exact hold
  · intro entry hentry
    rw [hunacked, List.mem_append, List.mem_singleton] at hentry
    rcases hentry with hmem | rfl
    · exact List.mem_append_left _ (h.timers entry hmem)
    · exact List.mem_append_right _ (List.mem_singleton.mpr rfl)

/-- A write in the other direction. -/
theorem Direction.write_other (h : Direction Q P) (x : α) : Direction Q (P.wrote F x) := by
  refine { h with acks := ?_ }
  intro y id hy hdec
  rcases Network.inFlight_send.mp hy with hy | rfl
  · exact h.acks y id hy hdec
  · rw [decodeReliability_packet] at hdec
    cases hdec

/-! ## Arrivals -/

/-- A datagram that is lost, duplicated or taken from the network. -/
theorem Direction.network (h : Direction P Q) {out : Network Bytes}
    (hout : ∀ x, out.InFlight x → P.out.InFlight x) : Direction { P with out } Q :=
  { h with data := fun x id hx => h.data x id (hout x hx) }

theorem Direction.network_other (h : Direction Q P) {out : Network Bytes}
    (hout : ∀ x, out.InFlight x → P.out.InFlight x) : Direction Q { P with out } :=
  { h with acks := fun x id hx => h.acks x id (hout x hx) }

section Receive

variable (next : Layer σ μ) (e : Endpoint σ μ α) (sent : Nat) {x : Bytes} {id : IdType}

theorem Endpoint.receive_ack (h : decodeReliability x = some ⟨id, true⟩) :
    e.receive next sent x = { e with layer.unacked := e.layer.unacked.erase id } := by
  simp [Endpoint.receive, readRecorded, Outcome.map, Endpoint.after, reliability,
    ReliabilityState.read, h, packets, timeouts, Outcome.handled]

/-- Everything that a data packet does to the endpoint. -/
theorem Endpoint.receive_data (hq : Quiet next) (h : decodeReliability x = some ⟨id, false⟩) :
    e.receive next sent x =
      { e with
        layer.next := (next.read e.layer.next (x.drop reliabilityHeaderLen)).state
        timers := e.timers ++
          timeouts (next.read e.layer.next (x.drop reliabilityHeaderLen)).requests
        out := e.out.send (encodeReliability ⟨id, true⟩)
        passed := e.passed ++ [(latest sent id, x.drop reliabilityHeaderLen)]
        handled := e.handled ++ (next.read e.layer.next (x.drop reliabilityHeaderLen)).handled } := by
  have hnone := hq.read e.layer.next (x.drop reliabilityHeaderLen)
  simp [Endpoint.receive, readRecorded, recording, Outcome.map, Endpoint.after, reliability,
    ReliabilityState.read, h, packets, timeouts, Outcome.handled] at hnone ⊢
  simp [hnone]

end Receive

/-- A packet arrives at `Q`. -/
theorem Direction.receive_data (h : Direction P Q) (hq : Quiet next) {x : Bytes} {id : IdType}
    {i : Nat} {f : Bytes} (hc : Current P i f) (hid : id = UInt16.ofNat i)
    (hx : x = Framing.packet id f) :
    Direction P (Q.receive next P.frames.length x) := by
  have hdec : decodeReliability x = some ⟨id, false⟩ := hx ▸ decodeReliability_packet id f
  have hpass : (latest P.frames.length id, x.drop reliabilityHeaderLen) = (i, f) := by
    rw [hid, latest_ofNat hc.lt hc.2, hx, drop_packet]
  rw [Endpoint.receive_data next Q _ hq hdec, hpass]
  refine { h with acks := ?_, kept := ?_, passed := ?_ }
  · intro y id' hy hdec'
    rcases Network.inFlight_send.mp hy with hy | rfl
    · obtain ⟨j, g, hcj, hidj, hp⟩ := h.acks y id' hy hdec'
      exact ⟨j, g, hcj, hidj, List.mem_append_left _ hp⟩
    · rw [decodeReliability_ack] at hdec'
      cases hdec'
      exact ⟨i, f, hc, hid, List.mem_append_right _ (List.mem_singleton.mpr rfl)⟩
  · intro j g hj
    exact (h.kept j g hj).imp_right fun hp => List.mem_append_left _ hp
  · intro j g hp
    rcases List.mem_append.mp hp with hp | hp
    · exact h.passed j g hp
    · cases List.mem_singleton.mp hp
      exact hc.1

theorem Direction.receive_data_other (h : Direction Q P) (hq : Quiet next) {x : Bytes}
    {id : IdType} (hdec : decodeReliability x = some ⟨id, false⟩) (sent : Nat) :
    Direction (Q.receive next sent x) P := by
  rw [Endpoint.receive_data next Q _ hq hdec]
  refine { h with data := ?_, timers := ?_ }
  · intro y id' hy hdec'
    rcases Network.inFlight_send.mp hy with hy | rfl
    · exact h.data y id' hy hdec'
    · rw [decodeReliability_ack] at hdec'
      cases hdec'
  · intro entry hentry
    exact List.mem_append_left _ (h.timers entry hentry)

/-- An acknowledgement arrives at `Q`: what it is for has been passed up. -/
theorem Direction.receive_ack (h : Direction Q P) {x : Bytes} {id : IdType} {i : Nat} {f : Bytes}
    (hdec : decodeReliability x = some ⟨id, true⟩) (hc : Current Q i f)
    (hid : id = UInt16.ofNat i) (hp : (i, f) ∈ P.passed) (sent : Nat) :
    Direction (Q.receive next sent x) P := by
  rw [Endpoint.receive_ack next Q _ hdec]
  refine { h with unacked := ?_, kept := ?_, timers := ?_ }
  · intro entry hentry
    exact h.unacked entry (mem_erase.mp hentry).1
  · intro j g hj
    rcases h.kept j g hj with ⟨hcj, hmem⟩ | hpj
    · by_cases hsame : UInt16.ofNat j = id
      · obtain ⟨rfl, rfl⟩ := hcj.unique hc (hsame.trans hid)
        exact .inr hp
      · exact .inl ⟨hcj, mem_erase.mpr ⟨hmem, hsame⟩⟩
    · exact .inr hpj
  · intro entry hentry
    exact h.timers entry (mem_erase.mp hentry).1

theorem Direction.receive_ack_other (h : Direction P Q) {x : Bytes} {id : IdType}
    (hdec : decodeReliability x = some ⟨id, true⟩) (sent : Nat) :
    Direction P (Q.receive next sent x) := by
  rw [Endpoint.receive_ack next Q _ hdec]
  exact { h with }

/-! ## Timeouts -/

/-- The endpoint after a timeout: a packet that is kept is sent again and its
timeout is set again, and nothing else happens to what is kept. -/
theorem fire_cases (hq : Quiet next) {i : Nat} (h : P.fire next i = some P') :
    ∃ atm id, P.timers[i]? = some (atm, id) ∧
      ((∃ p, atm = reliabilityAtom ∧ P.layer.unacked.lookup id.toUInt16 = some p ∧
        P' = { P with
          timers := P.timers.eraseIdx i ++ [(reliabilityAtom, id.toUInt16.toUInt32)]
          out := P.out.send p }) ∨
      ((atm = reliabilityAtom → P.layer.unacked.lookup id.toUInt16 = none) ∧
        ∃ n ts hs, P' = { P with
          layer.next := n
          timers := P.timers.eraseIdx i ++ ts
          handled := P.handled ++ hs })) := by
  obtain ⟨⟨atm, id⟩, hi, rfl⟩ := Option.map_eq_some_iff.mp h
  refine ⟨atm, id, hi, ?_⟩
  by_cases hatm : atm = reliabilityAtom
  · cases hl : P.layer.unacked.lookup id.toUInt16 with
    | some p =>
      refine .inl ⟨p, hatm, rfl, ?_⟩
      simp [Endpoint.after, reliability, ReliabilityState.timeout, hatm, hl, packets, timeouts,
        Outcome.handled]
    | none =>
      refine .inr ⟨fun _ => rfl, P.layer.next, [], [], ?_⟩
      simp [Endpoint.after, reliability, ReliabilityState.timeout, hatm, hl, packets, timeouts,
        Outcome.handled]
  · have hnone := hq.timeout P.layer.next atm id
    refine .inr ⟨fun h => absurd h hatm, (next.timeout P.layer.next atm id).state,
      timeouts (next.timeout P.layer.next atm id).requests,
      (next.timeout P.layer.next atm id).handled, ?_⟩
    simp [Endpoint.after, reliability, ReliabilityState.timeout, hatm, Outcome.map, hnone,
      Outcome.handled]

/-- A timeout other than the one that fires is still to come. -/
theorem mem_eraseIdx_of_ne {ts : List (Atom × UInt32)} {t t' : Atom × UInt32} {i : Nat}
    (hi : ts[i]? = some t') (h : t ∈ ts) (hne : t ≠ t') : t ∈ ts.eraseIdx i := by
  obtain ⟨j, hj⟩ := List.mem_iff_getElem?.mp h
  rw [List.mem_eraseIdx_iff_getElem?]
  refine ⟨j, ?_, hj⟩
  rintro rfl
  rw [hi] at hj
  exact hne (Option.some.inj hj).symm

theorem Direction.fire (h : Direction P Q) (hq : Quiet next) {i : Nat}
    (hf : P.fire next i = some P') : Direction P' Q := by
  obtain ⟨atm, id, hi, hcase⟩ := fire_cases hq hf
  rcases hcase with ⟨p, rfl, hp, rfl⟩ | ⟨hnone, n, ts, hs, rfl⟩
  · refine { h with data := ?_, timers := ?_ }
    · intro y id' hy hdec
      rcases Network.inFlight_send.mp hy with hy | rfl
      · exact h.data y id' hy hdec
      · obtain ⟨j, f, hc, heq⟩ := h.unacked _ (mem_of_lookup hp)
        rw [Prod.mk.injEq] at heq
        rw [heq.2, decodeReliability_packet] at hdec
        cases hdec
        exact ⟨j, f, hc, rfl, heq.2⟩
    · intro entry hentry
      by_cases hsame : entry.1.toUInt32 = id.toUInt16.toUInt32
      · rw [hsame]
        exact List.mem_append_right _ (List.mem_singleton.mpr rfl)
      · apply List.mem_append_left
        refine mem_eraseIdx_of_ne hi (h.timers entry hentry) ?_
        intro heq
        apply hsame
        rw [← (Prod.mk.inj heq).2, toUInt16_toUInt32]
  · refine { h with timers := ?_ }
    intro entry hentry
    apply List.mem_append_left
    refine mem_eraseIdx_of_ne hi (h.timers entry hentry) ?_
    intro heq
    obtain ⟨hatm, hid⟩ := Prod.mk.inj heq
    obtain ⟨p, hp⟩ := lookup_of_mem hentry
    rw [← toUInt16_toUInt32 entry.1, hid, hnone hatm.symm] at hp
    cases hp

theorem Direction.fire_other (h : Direction Q P) (hdir : Direction P Q) (hq : Quiet next) {i : Nat}
    (hf : P.fire next i = some P') : Direction Q P' := by
  obtain ⟨atm, id, _, hcase⟩ := fire_cases hq hf
  rcases hcase with ⟨p, rfl, hp, rfl⟩ | ⟨_, n, ts, hs, rfl⟩
  · refine { h with acks := ?_ }
    intro y id' hy hdec
    rcases Network.inFlight_send.mp hy with hy | rfl
    · exact h.acks y id' hy hdec
    · obtain ⟨j, f, _, heq⟩ := hdir.unacked _ (mem_of_lookup hp)
      rw [Prod.mk.injEq] at heq
      rw [heq.2, decodeReliability_packet] at hdec
      cases hdec
  · exact { h with }

/-! ## Runs -/

/-- No packet takes an id that is in use. -/
def IdsFree (w : World σ μ α) : Action α → Prop
  | .write s _ => IdFree (w.get s) (w.get s.other)
  | _ => True

/-- An action that is not one of the actors' and loses nothing. -/
inductive Action.IsTransport : Action α → Prop
  | deliver (s : Side) (i : Nat) : IsTransport (.deliver s i)
  | fire (s : Side) (i : Nat) : IsTransport (.fire s i)

variable {w w' : World σ μ α}

theorem inv_initial : Inv (.initial next : World σ μ α) := by
  have hempty : Direction (σ := σ) (μ := μ) (α := α)
      { layer := (reliability next).init.state } { layer := (reliability next).init.state } :=
    { idWrite := rfl
      unacked := List.forall_mem_nil _
      data := fun x id hx => absurd hx.mem_sent List.not_mem_nil
      acks := fun x id hx => absurd hx.mem_sent List.not_mem_nil
      kept := fun i f hi => by simp at hi
      passed := fun i f hp => absurd hp List.not_mem_nil
      timers := List.forall_mem_nil _ }
  intro s
  cases s <;> exact hempty

/-- A change of one endpoint. -/
theorem inv_set (s : Side) (hout : Direction P' (w.get s.other))
    (hin : Direction (w.get s.other) P') : Inv (w.set s P') := by
  intro t
  rcases Side.eq_or_eq_other s t with rfl | rfl
  · rw [World.get_set_self, World.get_set_other]
    exact hout
  · rw [Side.other_other, World.get_set_self, World.get_set_other]
    exact hin

theorem Inv.other (h : Inv w) (s : Side) : Direction (w.get s.other) (w.get s) := by
  have := h s.other
  rwa [Side.other_other] at this

theorem inv_network (h : Inv w) (s : Side) {out : Network Bytes}
    (hout : ∀ x, out.InFlight x → (w.get s).out.InFlight x) :
    Inv (w.set s { w.get s with out }) :=
  inv_set s ((h s).network hout) ((h.other s).network_other hout)

/-- What is known of a datagram on its way from `s` to the other side. -/
structure Known (w : World σ μ α) (s : Side) (x : Bytes) : Prop where
  data : ∀ id, decodeReliability x = some ⟨id, false⟩ →
    ∃ i f, Current (w.get s) i f ∧ id = UInt16.ofNat i ∧ x = Framing.packet id f
  acks : ∀ id, decodeReliability x = some ⟨id, true⟩ →
    ∃ i f, Current (w.get s.other) i f ∧ id = UInt16.ofNat i ∧ (i, f) ∈ (w.get s).passed

theorem Inv.known (h : Inv w) {s : Side} {x : Bytes} (hx : (w.get s).out.InFlight x) :
    Known w s x where
  data id hdec := (h s).data x id hx hdec
  acks id hdec := (h.other s).acks x id hx hdec

theorem Known.network {s : Side} {x : Bytes} (h : Known w s x) (out : Network Bytes) :
    Known (w.set s { w.get s with out }) s x := by
  constructor
  · rw [World.get_set_self]
    exact h.data
  · rw [World.get_set_self, World.get_set_other]
    exact h.acks

theorem Endpoint.receive_malformed (e : Endpoint σ μ α) (sent : Nat) {x : Bytes}
    (h : decodeReliability x = none) : e.receive next sent x = e := by
  simp [Endpoint.receive, readRecorded, Outcome.map, Endpoint.after, reliability,
    ReliabilityState.read, h, packets, timeouts, Outcome.handled]

/-- A datagram reaches the other side. -/
theorem inv_receive (h : Inv w) (hq : Quiet next) {s : Side} {x : Bytes} (hx : Known w s x) :
    Inv (w.set s.other ((w.get s.other).receive next (w.get s).frames.length x)) := by
  apply inv_set
  · rw [Side.other_other]
    cases hdec : decodeReliability x with
    | none =>
      rw [Endpoint.receive_malformed _ _ hdec]
      exact h.other s
    | some header =>
      obtain ⟨id, isAck⟩ := header
      cases isAck with
      | false => exact (h.other s).receive_data_other hq hdec _
      | true =>
        obtain ⟨i, f, hc, hid, hp⟩ := hx.acks id hdec
        exact (h.other s).receive_ack hdec hc hid hp _
  · rw [Side.other_other]
    cases hdec : decodeReliability x with
    | none =>
      rw [Endpoint.receive_malformed _ _ hdec]
      exact h s
    | some header =>
      obtain ⟨id, isAck⟩ := header
      cases isAck with
      | false =>
        obtain ⟨i, f, hc, hid, hpacket⟩ := hx.data id hdec
        exact (h s).receive_data hq hc hid hpacket
      | true => exact (h s).receive_ack_other hdec _

theorem inv_deliver (h : Inv w) (hq : Quiet next) {s : Side} {i : Nat} {x : Bytes}
    {out : Network Bytes} (hd : (w.get s).out.deliver i = some (x, out)) :
    Inv ((w.set s { w.get s with out }).set s.other
      ((w.get s.other).receive next (w.get s).frames.length x)) := by
  obtain ⟨hx, hout⟩ := Network.inFlight_of_deliver hd
  have hinv := inv_receive (inv_network h s hout) hq ((h.known hx).network out)
  rwa [World.get_set_self, World.get_set_other] at hinv

/-- **Step lemma.** -/
theorem inv_step (hq : Quiet next) (h : Inv w) {a : Action α} (hok : IdsFree w a)
    (hstep : w.step F a = some w') : Inv w' := by
  cases a with
  | write s x =>
    obtain ⟨P', hP', rfl⟩ := Option.map_eq_some_iff.mp hstep
    rw [Endpoint.write_eq, Option.some.injEq] at hP'
    subst hP'
    exact inv_set s ((h s).write hok x) ((h.other s).write_other x)
  | deliver s i =>
    obtain ⟨⟨x, out⟩, hd, rfl⟩ := Option.map_eq_some_iff.mp hstep
    exact inv_deliver h hq hd
  | duplicate s i =>
    obtain ⟨out, hd, rfl⟩ := Option.map_eq_some_iff.mp hstep
    exact inv_network h s fun x => Network.inFlight_of_duplicate hd
  | lose s i =>
    obtain ⟨out, hd, rfl⟩ := Option.map_eq_some_iff.mp hstep
    exact inv_network h s fun x => Network.inFlight_of_lose hd
  | fire s i =>
    obtain ⟨P', hP', rfl⟩ := Option.map_eq_some_iff.mp hstep
    exact inv_set s ((h s).fire hq hP') ((h.other s).fire_other (h s) hq hP')

/-- **Run lemma.** -/
theorem inv_run (hq : Quiet next) {as : List (Action α)}
    (hm : (link F).Meets IdsFree (.initial next) as) (hr : (link F).run as = some w) : Inv w := by
  refine TransitionSystem.invariant_runFrom ?_ inv_initial hm hr
  intro v a v' hv hok hs
  exact inv_step hq hv hok hs

/-! ## Everything arrives in the end -/

theorem Action.IsTransport.idsFree {a : Action α} (h : a.IsTransport) : IdsFree w a := by
  cases h <;> trivial

theorem Endpoint.receive_writes (e : Endpoint σ μ α) (sent : Nat) (x : Bytes) :
    (e.receive next sent x).written = e.written ∧ (e.receive next sent x).frames = e.frames := by
  exact ⟨rfl, rfl⟩

/-- Nothing that the actors have written changes. -/
def SameWrites (w w' : World σ μ α) : Prop :=
  ∀ s, (w'.get s).written = (w.get s).written ∧ (w'.get s).frames = (w.get s).frames

theorem SameWrites.trans {w₁ w₂ w₃ : World σ μ α} (h : SameWrites w₁ w₂) (h' : SameWrites w₂ w₃) :
    SameWrites w₁ w₃ :=
  fun s => ⟨(h' s).1.trans (h s).1, (h' s).2.trans (h s).2⟩

/-- A packet that is kept is found under its id. -/
theorem Direction.lookup (h : Direction P Q) {i : Nat} {f : Bytes} (hc : Current P i f)
    (hmem : (UInt16.ofNat i, Framing.packet (UInt16.ofNat i) f) ∈ P.layer.unacked) :
    P.layer.unacked.lookup (UInt16.ofNat i) = some (Framing.packet (UInt16.ofNat i) f) := by
  obtain ⟨p, hp⟩ := lookup_of_mem hmem
  obtain ⟨j, g, hcj, heq⟩ := h.unacked _ (mem_of_lookup hp)
  obtain ⟨hid, rfl⟩ := Prod.mk.inj heq
  obtain ⟨rfl, rfl⟩ := hc.unique hcj hid
  exact hp

/-- A packet that is kept is sent again when its timeout fires. -/
theorem Direction.exists_fire (h : Direction P Q) (hq : Quiet next) {i : Nat} {f : Bytes}
    (hc : Current P i f)
    (hmem : (UInt16.ofNat i, Framing.packet (UInt16.ofNat i) f) ∈ P.layer.unacked) :
    ∃ j P', P.timers[j]? = some (reliabilityAtom, (UInt16.ofNat i).toUInt32) ∧
      P.fire next j = some P' ∧ P'.layer = P.layer ∧
      P'.out.InFlight (Framing.packet (UInt16.ofNat i) f) := by
  obtain ⟨j, hj⟩ := List.mem_iff_getElem?.mp (h.timers _ hmem)
  obtain ⟨P', hP'⟩ : ∃ P', P.fire next j = some P' := by
    rw [Endpoint.fire, hj]
    exact ⟨_, rfl⟩
  refine ⟨j, P', hj, hP', ?_⟩
  obtain ⟨atm, id, hj', hcase⟩ := fire_cases hq hP'
  rw [hj, Option.some.injEq, Prod.mk.injEq] at hj'
  obtain ⟨rfl, rfl⟩ := hj'
  rw [toUInt16_toUInt32, h.lookup hc hmem] at hcase
  rcases hcase with ⟨p, _, hp, rfl⟩ | ⟨hnone, _⟩
  · exact ⟨rfl, Network.inFlight_send.mpr (.inr (Option.some.inj hp))⟩
  · exact absurd (hnone rfl) (by simp)

/-- `w'` comes after `w` by actions of the network and of timeouts alone. -/
def Carries (F : Framing next α) (w w' : World σ μ α) : Prop :=
  ∃ as, (link F).Meets (fun _ a => a.IsTransport) w as ∧ (link F).runFrom w as = some w'

theorem Carries.refl (w : World σ μ α) : Carries F w w := ⟨[], trivial, rfl⟩

theorem Carries.head {w₁ w₂ w₃ : World σ μ α} {a : Action α} (ha : a.IsTransport)
    (hs : w₁.step F a = some w₂) (h : Carries F w₂ w₃) : Carries F w₁ w₃ := by
  obtain ⟨as, hm, hr⟩ := h
  refine ⟨a :: as, ⟨ha, ?_⟩, TransitionSystem.runFrom_cons.mpr ⟨w₂, hs, hr⟩⟩
  intro t ht
  obtain rfl : w₂ = t := Option.some.inj (hs.symm.trans ht)
  exact hm

theorem Carries.trans {w₁ w₂ w₃ : World σ μ α} (h : Carries F w₁ w₂) (h' : Carries F w₂ w₃) :
    Carries F w₁ w₃ := by
  obtain ⟨as, hm, hr⟩ := h
  obtain ⟨bs, hm', hr'⟩ := h'
  refine ⟨as ++ bs, TransitionSystem.meets_append hm hr hm', ?_⟩
  rw [TransitionSystem.runFrom_append, hr, Option.bind_some, hr']

theorem Carries.inv (hq : Quiet next) (h : Carries F w w') (hi : Inv w) : Inv w' := by
  obtain ⟨as, hm, hr⟩ := h
  refine TransitionSystem.invariant_runFrom ?_ hi hm hr
  intro v a v' hv ha hs
  exact inv_step hq hv ha.idsFree hs

/-- The packets of both sides that wait for an acknowledgement. -/
def World.kept (w : World σ μ α) : Nat :=
  w.client.layer.unacked.length + w.server.layer.unacked.length

variable {as : List (Action α)}

end NewbMeasurements.ReliableLink
