import NewbMeasurements.UdpSafety

/-!
Over a network that delivers every datagram at least once the UDP ping-pong does
not get stuck. Nobody sends a ping or a reply a second time, so what has to be
shown is that the one message that is needed has never arrived before and been
discarded then: exactly the accepted messages have arrived.
-/

namespace NewbMeasurements.UdpSystem

open Words (Bytes encode)
open Datagrams (Network)
open Transitions (TransitionSystem)
open Actors PingpongUdp

variable {m : UInt64} {w w' : World} {e : Exchange m.toNat}

/-- How many deliveries have been accepted, by either side. -/
def World.acceptances (w : World) : Nat := w.serverAccepted.length + w.clientAccepted.length

def World.receivedTotal (w : World) : Nat :=
  w.client.state.receivedMessages.toNat + w.server.state.receivedMessages.toNat

inductive Action.IsDelivery : Action → Prop
  | ping (i : Nat) (counter₀ : UInt32) : IsDelivery (.deliverPing i counter₀)
  | reply (i : Nat) (counter₀ : UInt32) : IsDelivery (.deliverReply i counter₀)

/-- Every datagram arrives once, in the order in which they were sent, and no actor
meets an error. -/
def Undisturbed (w : World) : Action → Prop
  | .deliverPing i _ => w.pings.InOrder i
  | .deliverReply i _ => w.replies.InOrder i
  | .start | .clientQuit | .serverQuit => True
  | _ => False

instance (w : World) (a : Action) : Decidable (Undisturbed w a) :=
  match a with
  | .deliverPing i _ => inferInstanceAs (Decidable (w.pings.InOrder i))
  | .deliverReply i _ => inferInstanceAs (Decidable (w.replies.InOrder i))
  | .start | .clientQuit | .serverQuit => isTrue trivial
  | .duplicatePing _ | .duplicateReply _ | .losePing _ | .loseReply _ => isFalse id
  | .clientError _ | .serverError _ => isFalse id

/-- The world is in state `e` of the exchange, and what has arrived is what has
been accepted. -/
structure Faithful (w : World) (e : Exchange m.toNat) : Prop where
  refines : Refines w e
  tight : Tight w e.served e.answered

theorem faithful_step (hm : 1 ≤ m.toNat) (hm' : m.toNat < 2 ^ 32) (h : Faithful w e) {a : Action}
    (hrel : Reliable w a) (hstep : w.step m a = some w') :
    Faithful w' e ∨ ∃ e', Exchange.Step e e' ∧ Faithful w' e' := by
  obtain ⟨e', hor, hr, ht⟩ := follows_step hm hm' h.refines hstep
  have hf : Faithful w' e' := ⟨hr, ht hrel h.tight⟩
  rcases hor with rfl | he
  · exact .inl hf
  · exact .inr ⟨e', he, hf⟩

theorem faithful_run (hm : 1 ≤ m.toNat) (hm' : m.toNat < 2 ^ 32) {as : List Action}
    (hok : (system m).Meets Reliable .initial as) (h : (system m).run as = some w) :
    ∃ e : Exchange m.toNat, Faithful w e := by
  have hinit : Faithful .initial (Exchange.initial m.toNat) := ⟨refines_initial hm, tight_initial⟩
  obtain ⟨e, _, he⟩ := TransitionSystem.refinement_runFrom (T := system m) (R := Faithful)
    (fun _ _ _ _ hs hrel hstep => faithful_step hm hm' hs hrel hstep) hinit hok h
  exact ⟨e, he⟩

theorem acceptances_of_refines (h : Refines w e) : w.acceptances = e.progress := by
  rw [World.acceptances, h.serverAccepted, h.clientAccepted, Words.length_consecutive,
    Words.length_consecutive, Exchange.progress]

theorem receivedTotal_of_refines (h : Refines w e) : w.receivedTotal = e.progress := by
  rw [World.receivedTotal, h.client, h.server, Exchange.progress, Nat.add_comm]

/-! ## The needed message -/

theorem outstanding_ping (h : Faithful w e) (hs : e.served < e.asked) :
    ∃ d, w.pings[e.served]? = some d ∧ 0 < d.copies ∧ d.delivered = false ∧
      d.content = encode w.server.state.receivedMessages := by
  obtain ⟨d, hd, hc, hf⟩ := h.tight.pings.next (by rwa [h.refines.length_pings])
  have hx := payload_of_deliver h.refines.pings (Network.deliver_of_getElem? hd hc)
  exact ⟨d, hd, hc, hf, by rw [hx.2, ← h.refines.server, UInt32.ofNat_toNat]⟩

theorem outstanding_reply (h : Faithful w e) (hs : e.answered < e.served) :
    ∃ d, w.replies[e.answered]? = some d ∧ 0 < d.copies ∧ d.delivered = false ∧
      d.content = encode w.client.state.receivedMessages := by
  obtain ⟨d, hd, hc, hf⟩ := h.tight.replies.next (by rwa [h.refines.length_replies])
  have hx := payload_of_deliver h.refines.replies (Network.deliver_of_getElem? hd hc)
  exact ⟨d, hd, hc, hf, by rw [hx.2, ← h.refines.client, UInt32.ofNat_toNat]⟩

/-- A delivery of the needed ping. -/
theorem faithful_serve (hm' : m.toNat < 2 ^ 32) (h : Faithful w e) (hs : e.served < e.asked) :
    ∃ a w', a.IsDelivery ∧ (Reliable w a ∧ Undisturbed w a) ∧ w.step m a = some w' ∧
      Faithful w' (e.serve hs) := by
  obtain ⟨d, hd, hc, _, _⟩ := outstanding_ping h hs
  have hdel := Network.deliver_of_getElem? hd hc
  have hacc := accept_ping hm' h.refines h.tight.server hs hdel 0
  have hnext := h.tight.pings.inOrder
  refine ⟨.deliverPing e.served 0, _, .ping _ _, ⟨trivial, hnext⟩, ?_, hacc.1, hacc.2 h.tight⟩
  simp only [World.step, hdel, Option.map_some]

/-- A delivery of the needed reply. -/
theorem faithful_answer (hm' : m.toNat < 2 ^ 32) (h : Faithful w e) (hs : e.answered < e.served) :
    ∃ a w', a.IsDelivery ∧ (Reliable w a ∧ Undisturbed w a) ∧ w.step m a = some w' ∧
      Faithful w' (e.answer hs) := by
  obtain ⟨d, hd, hc, _, _⟩ := outstanding_reply h hs
  have hdel := Network.deliver_of_getElem? hd hc
  have hacc := accept_reply hm' h.refines h.tight.client hs hdel 0
  have hnext := h.tight.replies.inOrder
  refine ⟨.deliverReply e.answered 0, _, .reply _ _, ⟨trivial, hnext⟩, ?_, hacc.1, hacc.2 h.tight⟩
  simp only [World.step, hdel, Option.map_some]

/-- Every step of the exchange can be taken, also by a delivery in order. -/
theorem realises_step (hm : 1 ≤ m.toNat) (hm' : m.toNat < 2 ^ 32) {e e' : Exchange m.toNat}
    (h : Faithful w e) (he : Exchange.Step e e') :
    ∃ a w', (Reliable w a ∧ Undisturbed w a) ∧ (system m).step w a = some w' ∧
      Faithful w' e' := by
  cases he with
  | start hs =>
    have hp : w.startPending = true := by rw [h.refines.start, hs]; rfl
    have hacc := accept_start hm h.refines hs
    have hstep : w.step m .start = some _ := if_pos ⟨h.tight.client, hp⟩
    exact ⟨.start, _, ⟨trivial, trivial⟩, hstep, hacc.1, hacc.2 h.tight⟩
  | serve hs =>
    obtain ⟨a, w', _, hrel, hstep, hf⟩ := faithful_serve hm' h hs
    exact ⟨a, w', hrel, hstep, hf⟩
  | answer hs =>
    obtain ⟨a, w', _, hrel, hstep, hf⟩ := faithful_answer hm' h hs
    exact ⟨a, w', hrel, hstep, hf⟩

/-! ## Progress -/

/-- What a reachable state offers once the client has been started. -/
structure Live (m : UInt64) (w : World) : Prop where
  outstanding : w.client.state.receivedMessages.toNat < m.toNat →
    (w.server.state.receivedMessages.toNat = w.client.state.receivedMessages.toNat ∧
      w.pings.Outstanding (encode w.client.state.receivedMessages)) ∨
    (w.server.state.receivedMessages.toNat = w.client.state.receivedMessages.toNat + 1 ∧
      w.replies.Outstanding (encode w.client.state.receivedMessages))
  accepting : w.client.state.receivedMessages.toNat < m.toNat →
    ∃ a w', Action.IsDelivery a ∧ w.step m a = some w' ∧ w'.acceptances = w.acceptances + 1
  counted : ∀ a w', w.step m a = some w' → w'.acceptances ≠ w.acceptances →
    w'.acceptances = w.acceptances + 1 ∧ w'.receivedTotal = w.receivedTotal + 1
  completed : 1 ≤ w.completed ↔ w.acceptances = 2 * m.toNat
  completes : ∃ as w', (system m).Meets Reliable w as ∧ (system m).runFrom w as = some w' ∧
    1 ≤ w'.completed

theorem outstanding_of_faithful (h : Faithful w e) (hs : e.started = true)
    (hlt : e.answered < m.toNat) :
    (w.server.state.receivedMessages.toNat = w.client.state.receivedMessages.toNat ∧
      w.pings.Outstanding (encode w.client.state.receivedMessages)) ∨
    (w.server.state.receivedMessages.toNat = w.client.state.receivedMessages.toNat + 1 ∧
      w.replies.Outstanding (encode w.client.state.receivedMessages)) := by
  have hclient := h.refines.client
  have hserver := h.refines.server
  rw [hclient, hserver]
  rcases e.turn hs hlt with ⟨heq, hask⟩ | ⟨heq, _⟩
  · obtain ⟨d, hd, hc, hf, hx⟩ := outstanding_ping h hask
    have hsame : w.server.state.receivedMessages = w.client.state.receivedMessages := by
      apply UInt32.toNat_inj.mp
      rw [hclient, hserver, heq]
    exact .inl ⟨heq, d, List.mem_of_getElem? hd, hsame ▸ hx, hc, hf⟩
  · obtain ⟨d, hd, hc, hf, hx⟩ := outstanding_reply h (by omega)
    exact .inr ⟨heq, d, List.mem_of_getElem? hd, hx, hc, hf⟩

theorem accepting_of_faithful (hm' : m.toNat < 2 ^ 32) (h : Faithful w e) (hs : e.started = true)
    (hlt : e.answered < m.toNat) :
    ∃ a w', Action.IsDelivery a ∧ w.step m a = some w' ∧ w'.acceptances = w.acceptances + 1 := by
  rcases e.turn hs hlt with ⟨_, hask⟩ | ⟨heq, _⟩
  · obtain ⟨a, w', hdel, _, hstep, hf⟩ := faithful_serve hm' h hask
    refine ⟨a, w', hdel, hstep, ?_⟩
    rw [acceptances_of_refines hf.refines, acceptances_of_refines h.refines]
    simp only [Exchange.progress, Exchange.serve_served, Exchange.serve_answered]
    omega
  · have hans : e.answered < e.served := by omega
    obtain ⟨a, w', hdel, _, hstep, hf⟩ := faithful_answer hm' h hans
    refine ⟨a, w', hdel, hstep, ?_⟩
    rw [acceptances_of_refines hf.refines, acceptances_of_refines h.refines]
    simp only [Exchange.progress, Exchange.answer_served, Exchange.answer_answered]
    omega

/-- A step that accepts a message accepts one, and raises one of the two counters. -/
theorem counted_of_refines (hm : 1 ≤ m.toNat) (hm' : m.toNat < 2 ^ 32) (h : Refines w e)
    {a : Action} (hstep : w.step m a = some w') (hne : w'.acceptances ≠ w.acceptances) :
    w'.acceptances = w.acceptances + 1 ∧ w'.receivedTotal = w.receivedTotal + 1 := by
  obtain ⟨e', hor, hr, _⟩ := follows_step hm hm' h hstep
  rw [acceptances_of_refines hr, acceptances_of_refines h] at hne ⊢
  rw [receivedTotal_of_refines hr, receivedTotal_of_refines h]
  rcases hor with rfl | he
  · exact absurd rfl hne
  · have := Exchange.progress_step he
    omega

theorem completes_of_faithful (hm : 1 ≤ m.toNat) (hm' : m.toNat < 2 ^ 32) (h : Faithful w e) :
    ∃ as w', (system m).Meets Reliable w as ∧ (system m).runFrom w as = some w' ∧
      1 ≤ w'.completed := by
  obtain ⟨e', hpath, hdone⟩ := e.exists_complete
  obtain ⟨as, w', hok, hrun, hf⟩ := TransitionSystem.realisation_runFrom (T := system m)
    (R := Faithful) (fun s e₁ e₂ hR hS => realises_step hm hm' hR hS) h hpath
  exact ⟨as, w', TransitionSystem.meets_mono (fun _ _ ha => ha.1) hok, hrun,
    (completed_of_refines hf.refines).mpr hdone⟩

theorem live_of_faithful (hm : 1 ≤ m.toNat) (hm' : m.toNat < 2 ^ 32) (h : Faithful w e)
    (hs : e.started = true) : Live m w where
  outstanding hlt := outstanding_of_faithful h hs (h.refines.client ▸ hlt)
  accepting hlt := accepting_of_faithful hm' h hs (h.refines.client ▸ hlt)
  counted _ _ hstep hne := counted_of_refines hm hm' h.refines hstep hne
  completed := by
    rw [completed_of_refines h.refines, acceptances_of_refines h.refines, Exchange.progress]
    have h₁ := e.answered_le_served
    have h₂ := e.served_le
    omega
  completes := completes_of_faithful hm hm' h

/-- **Progress.**  Over a network that delivers every datagram at least once the
needed message is always under way, each accepting delivery counts for one, and
after `2 * m` of them the run is complete. -/
theorem live_run {m : UInt64} (hm : 1 ≤ m.toNat) (hm' : m.toNat < 2 ^ 32) {as : List Action}
    {w : World} (hok : (system m).Meets Reliable .initial as) (h : (system m).run as = some w)
    (hs : w.startPending = false) : Live m w := by
  obtain ⟨e, he⟩ := faithful_run hm hm' hok h
  apply live_of_faithful hm hm' he
  have hstart := he.refines.start
  rw [hs] at hstart
  simpa using hstart

/-- In the middle of a run of two messages, with a copy of the first ping to come. -/
theorem live_run_two : ∃ w, (system 2).run
    [.start, .duplicatePing 0, .deliverPing 0 0, .deliverReply 0 0] = some w ∧ Live 2 w ∧
      w.acceptances = 2 := by
  refine ⟨_, rfl, @live_run 2 (by decide) (by decide)
    [.start, .duplicatePing 0, .deliverPing 0 0, .deliverReply 0 0] _ ?_ rfl rfl, rfl⟩
  simp [TransitionSystem.Meets, Reliable]

end NewbMeasurements.UdpSystem
