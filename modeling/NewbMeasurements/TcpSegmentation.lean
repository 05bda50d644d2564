import NewbMeasurements.TcpLockstep

/-!
What the two pairs of `pingpong_tcp` do under every segmentation of the two byte
streams. The traditional pair collects frames on both sides and is correct
throughout. `raw_server` does not, and `raw_client` does from its second message on
only, so that the new pair makes the same runs only as long as every ping, and the
first reply, arrives in one segment.
-/

namespace NewbMeasurements.TcpSystem

open Words (Bytes encode decode consecutive take_consecutive)
open ByteStreams (Link)
open Transitions (TransitionSystem)
open Actors PingpongTcp

variable {P : Pair} {m : UInt64} {w : World} {e : Exchange m.toNat}

theorem policy_traditional : traditionalPair.policy = .exactly 4 := rfl

theorem policy_newb : newbPair.policy = .segments := rfl

theorem map_decode_encode (xs : List UInt32) : (xs.map encode).map decode = xs.map some := by
  simp [Function.comp_def]

/-! ## The traditional pair -/

/-- What a reachable state looks like once the client has been started. -/
structure Lockstep (m : UInt64) (w : World) : Prop where
  received_le : w.client.state.receivedMessages.toNat ≤ m.toNat
  oneDirection : w.client.state.receivedMessages.toNat < m.toNat →
    (w.toServer.held = encode (w.client.state.receivedMessages + 1) ∧ w.toClient.held = []) ∨
      (w.toServer.held = [] ∧ w.toClient.held = encode (w.client.state.receivedMessages + 1))
  clientFrames : w.clientFrames.map decode =
    (consecutive 1 w.client.state.receivedMessages.toNat).map some
  serverFrames : w.serverFrames.map decode = (consecutive 1 w.serverFrames.length).map some
  served : w.serverFrames.length = w.client.state.receivedMessages.toNat ∨
    w.serverFrames.length = w.client.state.receivedMessages.toNat + 1
  notices : w.notices = if w.client.state.receivedMessages.toNat = m.toNat then 1 else 0
  quiet : w.client.state.receivedMessages.toNat = m.toNat →
    w.toServer.held = [] ∧ w.toClient.held = []

theorem lockstep_of_refines (h : Refines P w e) (hs : e.started = true) : Lockstep m w := by
  have hle := e.answered_le_served
  have hsucc := e.served_le_succ
  have hserved : w.serverFrames.length = e.served := by simp [h.serverFrames]
  have hx : w.client.state.receivedMessages + 1 = UInt32.ofNat (e.answered + 1) := by
    rw [UInt32.ofNat_add, ← h.received, UInt32.ofNat_toNat]
    rfl
  refine ⟨?_, ?_, ?_, ?_, ?_, ?_, ?_⟩
  · rw [h.received]
    exact Nat.le_trans hle e.served_le
  · intro hlt
    rw [h.received] at hlt
    rw [hx]
    rcases e.turn hs hlt with ⟨heq, hask⟩ | ⟨heq, hask⟩
    · refine .inl ⟨?_, (h.toClient.empty (by omega)).1⟩
      rw [(h.toServer.full hask).held, heq]
    · exact .inr ⟨(h.toServer.empty hask).1, (h.toClient.full (by omega)).held⟩
  · rw [h.clientFrames, map_decode_encode, h.received]
  · rw [hserved, h.serverFrames, map_decode_encode]
  · rw [hserved, h.received]
    omega
  · rw [h.notices, h.received]
  · intro heq
    rw [h.received] at heq
    have hdone := Exchange.served_of_complete heq
    have hasked : e.asked ≤ m.toNat := by
      rw [Exchange.asked_of_started hs]
      omega
    exact ⟨(h.toServer.empty (by omega)).1, (h.toClient.empty (by omega)).1⟩

/-- The traditional pair collects frames from the start on. -/
theorem frameOk_traditional (w : World) (a : Action) : FrameOk traditionalPair w a := by
  cases a with
  | start => trivial
  | toServer k counter₀ => exact .inl policy_traditional
  | toClient k counter₀ => exact .inl rfl

theorem refines_run_traditional (hm : 1 ≤ m.toNat) (hm' : m.toNat < 2 ^ 32) {as : List Action}
    (h : (system traditionalPair m).run as = some w) : ∃ e : Exchange m.toNat,
      Relation.ReflTransGen Exchange.Step (Exchange.initial m.toNat) e ∧
        Refines traditionalPair w e := by
  exact refines_run contract_traditional hm hm'
    (TransitionSystem.meets_of_forall frameOk_traditional _ as) h

/-- **The traditional pair is in lock-step** under every segmentation. -/
theorem lockstep_traditional {m : UInt64} (hm : 1 ≤ m.toNat) (hm' : m.toNat < 2 ^ 32)
    {as : List Action} {w : World} (h : (system traditionalPair m).run as = some w)
    (hs : w.startPending = false) : Lockstep m w := by
  obtain ⟨e, _, hr⟩ := refines_run_traditional hm hm' h
  apply lockstep_of_refines hr
  have hstart := hr.start
  rw [hs] at hstart
  simpa using hstart

/-- A ping in two segments, and its echo in three. -/
theorem lockstep_traditional_one : ∃ w, (system traditionalPair 1).run
    [.start, .toServer 1 0, .toServer 3 0, .toClient 2 0, .toClient 1 0, .toClient 1 0] = some w ∧
      Lockstep 1 w ∧ w.notices = 1 :=
  ⟨_, rfl, @lockstep_traditional 1 (by decide) (by decide) [.start, .toServer 1 0, .toServer 3 0,
    .toClient 2 0, .toClient 1 0, .toClient 1 0] _ rfl rfl, rfl⟩

/-! ## The new pair -/

/-- What can be seen of a run: the messages that the client got, what the client
and the server wrote, call by call, and the notices of completion. -/
structure Observation where
  replies : List Bytes
  pings : List Bytes
  echoes : List Bytes
  notices : Nat
  deriving DecidableEq

def World.observe (w : World) : Observation where
  replies := w.clientFrames
  pings := w.pings
  echoes := w.echoes
  notices := w.notices

/-- The segments that reach the server are the pings themselves, and the first one that
reaches the client is a reply. -/
def Unsplit (w : World) : Action → Prop
  | .toServer k _ => k = 4
  | .toClient k _ => w.clientFrames = [] → k = 4
  | .start => True

instance (w : World) : ∀ a, Decidable (Unsplit w a)
  | .toServer _ _ => inferInstanceAs (Decidable (_ = _))
  | .toClient _ _ => inferInstanceAs (Decidable (_ → _))
  | .start => isTrue trivial

/-- The run that `caf_main` asks for, as far as it has come after `replies` replies. -/
structure Orderly (m : UInt64) (o : Observation) : Prop where
  replies : o.replies = (consecutive 1 o.replies.length).map encode
  pings : o.pings = (consecutive 1 o.pings.length).map encode
  echoes : o.echoes = o.pings.take o.echoes.length
  pings_le : o.pings.length ≤ m.toNat
  notices : o.notices = if o.replies.length = m.toNat then 1 else 0
  complete : o.replies.length = m.toNat → o.pings.length = m.toNat ∧ o.echoes.length = m.toNat

/-- The whole run. -/
def Observation.whole (m : UInt64) : Observation where
  replies := (consecutive 1 m.toNat).map encode
  pings := (consecutive 1 m.toNat).map encode
  echoes := (consecutive 1 m.toNat).map encode
  notices := 1

/-- Every run that keeps `ok` comes to its end, and has then been the whole run. -/
structure Completes (P : Pair) (ok : World → Action → Prop) (m : UInt64) : Prop where
  inevitable : (system P m).Inevitable ok Noticed
  whole : ∀ as w, (system P m).Meets ok (.initial P) as → (system P m).run as = some w →
    Noticed w → w.observe = .whole m

theorem observe_of_refines (h : Refines P w e) :
    w.observe =
      { replies := (consecutive 1 e.answered).map encode
        pings := (consecutive 1 e.asked).map encode
        echoes := (consecutive 1 e.served).map encode
        notices := if e.answered = m.toNat then 1 else 0 } := by
  rw [World.observe, h.clientFrames, h.pings, h.echoes, h.notices]

theorem orderly_of_refines (hm : 1 ≤ m.toNat) (h : Refines P w e) : Orderly m w.observe := by
  have hserved := e.served_le_asked
  have hasked : e.asked ≤ m.toNat := by
    unfold Exchange.asked
    split <;> omega
  rw [observe_of_refines h]
  constructor <;> simp only [List.length_map, Words.length_consecutive]
  · rw [← List.map_take, take_consecutive hserved]
  · exact hasked
  · exact fun hdone => ⟨Exchange.asked_of_complete hm hdone, Exchange.served_of_complete hdone⟩

/-- What one pair shows in a run that keeps `ok`, the other shows in some run too,
if the first one's runs follow the exchange. -/
theorem observed_by {Q : Pair} (hQ : Contract Q) (hpQ : Q.policy = .exactly 4 ∨ Q.policy = .segments)
    (hm : 1 ≤ m.toNat) (hm' : m.toNat < 2 ^ 32)
    (hpath : Relation.ReflTransGen Exchange.Step (Exchange.initial m.toNat) e)
    (h : Refines P w e) : ∃ as v, (system Q m).Meets Whole (.initial Q) as ∧
      (system Q m).run as = some v ∧ v.observe = w.observe := by
  obtain ⟨as, v, hok, hrun, hv⟩ := TransitionSystem.realisation_runFrom (T := system Q m)
    (R := Aligned Q) (fun _ _ _ hR hS => realises_step hQ hpQ hm hm' hR hS)
    (aligned_initial hQ hm) hpath
  exact ⟨as, v, hok, hrun, by rw [observe_of_refines hv.refines, observe_of_refines h]⟩

/-- The new pair gets the frames that it needs exactly if nothing is split there. -/
theorem frameOk_newb : FrameOk newbPair = Unsplit := by
  funext w a
  apply propext
  cases a with
  | start => exact Iff.rfl
  | toServer k counter₀ => simp [FrameOk, Unsplit, policy_newb]
  | toClient k counter₀ =>
    have hfirst : newbPair.first ≠ .exactly 4 := by decide
    simp [FrameOk, Unsplit, hfirst]

/-- Both pairs complete every run in which they get the frames that they need. -/
theorem completes_frames (hP : Contract P) (hp : P.policy = .exactly 4 ∨ P.policy = .segments)
    (hm : 1 ≤ m.toNat) (hm' : m.toNat < 2 ^ 32) : Completes P (FrameOk P) m where
  inevitable := inevitable_frames hP hp hm hm'
  whole as w hok h hdone := by
    obtain ⟨e, _, hr⟩ := refines_run hP hm hm' hok h
    have hall := (noticed_of_refines hr).mp hdone
    rw [observe_of_refines hr, hall, Exchange.served_of_complete hall,
      Exchange.asked_of_complete hm hall, if_pos rfl]
    rfl

/-- A pair that keeps the contract makes the runs of the traditional one, as long as it
gets the frames that it needs. -/
theorem observations_frames (hP : Contract P) (hp : P.policy = .exactly 4 ∨ P.policy = .segments)
    (hm : 1 ≤ m.toNat) (hm' : m.toNat < 2 ^ 32) :
    (∀ as w, (system P m).Meets (FrameOk P) (.initial P) as → (system P m).run as = some w →
      Orderly m w.observe ∧
        ∃ bs v, (system traditionalPair m).run bs = some v ∧ v.observe = w.observe) ∧
    ∀ bs v, (system traditionalPair m).run bs = some v →
      ∃ as w, (system P m).Meets (FrameOk P) (.initial P) as ∧ (system P m).run as = some w ∧
        w.observe = v.observe := by
  constructor
  · intro as w hok h
    obtain ⟨e, hpath, hr⟩ := refines_run hP hm hm' hok h
    obtain ⟨bs, v, _, hrun, hobs⟩ :=
      observed_by contract_traditional (.inl policy_traditional) hm hm' hpath hr
    exact ⟨orderly_of_refines hm hr, bs, v, hrun, hobs⟩
  · intro bs v h
    obtain ⟨e, hpath, hr⟩ := refines_run_traditional hm hm' h
    obtain ⟨as, w, hok, hrun, hobs⟩ := observed_by hP hp hm hm' hpath hr
    exact ⟨as, w, TransitionSystem.meets_mono (frameOk_of_whole hp) hok, hrun, hobs⟩

/-- **The new pair makes the runs of the traditional one** where each ping, and the first
reply, arrives in one segment: it shows nothing else, it shows all that they show, and like
them it always gets to the end. -/
theorem newb_observations {m : UInt64} (hm : 1 ≤ m.toNat) (hm' : m.toNat < 2 ^ 32) :
    (∀ as w, (system newbPair m).Meets Unsplit (.initial newbPair) as →
      (system newbPair m).run as = some w → Orderly m w.observe ∧
        ∃ bs v, (system traditionalPair m).run bs = some v ∧ v.observe = w.observe) ∧
    (∀ bs v, (system traditionalPair m).run bs = some v →
      ∃ as w, (system newbPair m).Meets Unsplit (.initial newbPair) as ∧
        (system newbPair m).run as = some w ∧ w.observe = v.observe) ∧
    Completes newbPair Unsplit m ∧ Completes traditionalPair (fun _ _ => True) m := by
  obtain ⟨hshows, hall⟩ := observations_frames contract_newb (.inr policy_newb) hm hm'
  have hnewb := completes_frames contract_newb (.inr policy_newb) hm hm'
  rw [frameOk_newb] at hshows hall hnewb
  refine ⟨hshows, hall, hnewb, ?_⟩
  have hsame : FrameOk traditionalPair = fun _ _ => True := by
    funext w a
    exact propext ⟨fun _ => trivial, fun _ => frameOk_traditional w a⟩
  exact hsame ▸ completes_frames contract_traditional (.inl policy_traditional) hm hm'

/-- The second reply is cut, and the run is complete all the same. -/
theorem newb_observations_two :
    ∃ w, (system newbPair 2).run [.start, .toServer 4 0, .toClient 4 0, .toServer 4 0,
      .toClient 1 0, .toClient 3 0] = some w ∧ Orderly 2 w.observe ∧ w.observe = .whole 2 := by
  have hok : (system newbPair 2).Meets Unsplit (.initial newbPair) [.start, .toServer 4 0,
      .toClient 4 0, .toServer 4 0, .toClient 1 0, .toClient 3 0] := by decide
  have hall := newb_observations (m := 2) (by decide) (by decide)
  exact ⟨_, rfl, (hall.1 _ _ hok rfl).1, hall.2.2.1.whole _ _ hok rfl (Nat.le_refl 1)⟩

/-- A ping in two segments is answered twice, which the traditional pair never does. -/
theorem newb_split_ping : ¬ ∀ (m : UInt64) (as : List Action) (w : World),
    1 ≤ m.toNat → m.toNat < 2 ^ 32 → (system newbPair m).run as = some w →
    ∃ bs v, (system traditionalPair m).run bs = some v ∧ v.observe = w.observe := by
  intro h
  obtain ⟨bs, v, hrun, hobs⟩ :=
    h 2 [.start, .toServer 1 0, .toServer 3 0] _ (by decide) (by decide) rfl
  obtain ⟨e, _, hr⟩ := refines_run_traditional (by decide) (by decide) hrun
  -- one ping and two answers
  have hlen := congrArg (fun o : Observation => (o.pings.length, o.echoes.length)) hobs
  rw [observe_of_refines hr] at hlen
  simp only [List.length_map, Words.length_consecutive, Prod.mk.injEq] at hlen
  have hpings : e.asked = 1 := hlen.1
  have hechoes : e.served = 2 := hlen.2
  have := e.served_le_asked
  omega

/-- So does a first reply in two segments: the client takes each of them for a message. -/
theorem newb_split_reply : ¬ ∀ (m : UInt64) (as : List Action) (w : World),
    1 ≤ m.toNat → m.toNat < 2 ^ 32 → (system newbPair m).run as = some w →
    ∃ bs v, (system traditionalPair m).run bs = some v ∧ v.observe = w.observe := by
  intro h
  obtain ⟨bs, v, hrun, hobs⟩ :=
    h 2 [.start, .toServer 4 0, .toClient 1 0] _ (by decide) (by decide) rfl
  obtain ⟨e, _, hr⟩ := refines_run_traditional (by decide) (by decide) hrun
  have hreplies := congrArg Observation.replies hobs
  rw [observe_of_refines hr] at hreplies
  -- a message of one byte, where the traditional client gets four
  have hframe : [0] ∈ (consecutive 1 e.answered).map encode := by
    rw [show (consecutive 1 e.answered).map encode = [[0]] from hreplies]
    exact List.mem_singleton_self _
  obtain ⟨x, _, hx⟩ := List.mem_map.mp hframe
  have hlen := congrArg List.length hx
  rw [Words.length_encode] at hlen
  cases hlen

/-! ## A policy that applies at once -/

/-- The new pair, if a read policy were the one of the very next message. -/
def newbPairAtOnce : Pair := { newbPair with configure := Link.configure }

/-- The segments that reach the server are the pings themselves. -/
def WholePings (_ : World) : Action → Prop
  | .toServer k _ => k = 4
  | .toClient _ _ | .start => True

theorem contract_newbAtOnce : Contract newbPairAtOnce :=
  { contract_newb with
    configure := fun _ _ => rfl
    accepted := rfl
    first := .inl rfl }

theorem frameOk_newbAtOnce : FrameOk newbPairAtOnce = WholePings := by
  have hpolicy : newbPairAtOnce.policy = .segments := rfl
  have hfirst : newbPairAtOnce.first = .exactly 4 := rfl
  funext w a
  apply propext
  cases a <;> simp [FrameOk, WholePings, hpolicy, hfirst]

/-- The first reply, too, could be cut then, and only the pings have to arrive whole. -/
theorem newbAtOnce_observations {m : UInt64} (hm : 1 ≤ m.toNat) (hm' : m.toNat < 2 ^ 32) :
    (∀ as w, (system newbPairAtOnce m).Meets WholePings (.initial newbPairAtOnce) as →
      (system newbPairAtOnce m).run as = some w → Orderly m w.observe ∧
        ∃ bs v, (system traditionalPair m).run bs = some v ∧ v.observe = w.observe) ∧
    Completes newbPairAtOnce WholePings m := by
  have hp : newbPairAtOnce.policy = .exactly 4 ∨ newbPairAtOnce.policy = .segments := .inr rfl
  obtain ⟨hshows, -⟩ := observations_frames contract_newbAtOnce hp hm hm'
  have hall := completes_frames contract_newbAtOnce hp hm hm'
  rw [frameOk_newbAtOnce] at hshows hall
  exact ⟨hshows, hall⟩

end NewbMeasurements.TcpSystem
