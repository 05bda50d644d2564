import NewbMeasurements.Exchange
import NewbMeasurements.UdpSystem

/-!
Every run of the UDP ping-pong follows the lock-step exchange, whatever the
network loses, duplicates and reorders. One lemma per kind of action says which
step of the exchange it takes, if any; it also says how the arrivals advance
where the network is reliable, which `UdpProgress` builds on.
-/

namespace NewbMeasurements.UdpSystem

open Words (Bytes encode toNat_succ consecutive consecutive_succ getElem?_consecutive
  mem_consecutive)
open Datagrams (Network)
open Transitions (TransitionSystem)
open Relation (ReflTransGen)
open Actors PingpongUdp

variable {m : UInt64} {w w' : World} {e : Exchange m.toNat}

/-- The world `w` as a state `e` of the exchange. -/
structure Refines (w : World) (e : Exchange m.toNat) : Prop where
  client : w.client.state.receivedMessages.toNat = e.answered
  server : w.server.state.receivedMessages.toNat = e.served
  start : w.startPending = !e.started
  messages : e.started = true → w.client.state.messages = m
  pings : w.pings.sent = (consecutive 0 e.asked).map encode
  replies : w.replies.sent = (consecutive 0 e.served).map encode
  clientAccepted : w.clientAccepted = consecutive 0 e.answered
  serverAccepted : w.serverAccepted = consecutive 0 e.served
  completed : w.completed = if e.answered = m.toNat then 1 else 0

/-- Both actors are there, and exactly the first messages that they are sent have
arrived, `served` and `answered` of them. -/
structure Tight (w : World) (served answered : Nat) : Prop where
  client : w.client.alive = true
  server : w.server.alive = true
  pings : w.pings.ArrivedUpTo served
  replies : w.replies.ArrivedUpTo answered

/-- The layer below loses a copy only if another one is left or has arrived; no
actor meets an error or quits. -/
def Reliable (w : World) : Action → Prop
  | .losePing i => w.pings.Spare i
  | .loseReply i => w.replies.Spare i
  | .clientError _ | .serverError _ | .clientQuit | .serverQuit => False
  | _ => True

/-- An action from `w` to `w'` takes a step of the exchange, or none. Where it is
a `reliable` one, what has arrived is still what has been accepted. -/
def Follows (w w' : World) (e : Exchange m.toNat) (reliable : Prop) : Prop :=
  ∃ e', (e' = e ∨ Exchange.Step e e') ∧ Refines w' e' ∧
    (reliable → Tight w e.served e.answered → Tight w' e'.served e'.answered)

theorem refines_initial (hm : 1 ≤ m.toNat) : Refines .initial (Exchange.initial m.toNat) where
  client := rfl
  server := rfl
  start := rfl
  messages h := by simp at h
  pings := rfl
  replies := rfl
  clientAccepted := rfl
  serverAccepted := rfl
  completed := by
    rw [Exchange.initial_answered, if_neg (by omega)]
    rfl

theorem tight_initial : Tight .initial 0 0 where
  client := rfl
  server := rfl
  pings := Network.arrivedUpTo_nil
  replies := Network.arrivedUpTo_nil

/-- A change of the networks that sends nothing. -/
theorem Refines.networks (h : Refines w e) {pings replies : Network Bytes}
    (hp : pings.sent = w.pings.sent) (hr : replies.sent = w.replies.sent) :
    Refines { w with pings, replies } e :=
  { h with
    pings := hp.trans h.pings
    replies := hr.trans h.replies }

/-- A handler that counts, sends and prints nothing. -/
theorem Refines.parties (h : Refines w e) {client server : Party}
    (hc : client.state = w.client.state) (hs : server.state = w.server.state) :
    Refines { w with client, server } e :=
  { h with
    client := hc ▸ h.client
    server := hs ▸ h.server
    messages := hc ▸ h.messages }

theorem Refines.length_pings (h : Refines w e) : w.pings.length = e.asked := by
  have hlen := congrArg List.length h.pings
  simpa [Network.sent] using hlen

theorem Refines.length_replies (h : Refines w e) : w.replies.length = e.served := by
  have hlen := congrArg List.length h.replies
  simpa [Network.sent] using hlen

/-! ## Deliveries -/

/-- The datagram with index `i` carries counter `i`. -/
theorem payload_of_deliver {i n : Nat} {payload : Bytes} {sender network : Network Bytes}
    (hsent : sender.sent = (consecutive 0 n).map encode)
    (hd : sender.deliver i = some (payload, network)) :
    i < n ∧ payload = encode (UInt32.ofNat i) := by
  have hi := (Network.sent_deliver hd).2
  rw [hsent, List.getElem?_map, Option.map_eq_some_iff] at hi
  obtain ⟨x, hx, rfl⟩ := hi
  obtain ⟨hlt, hx⟩ := getElem?_consecutive hx
  exact ⟨hlt, by rw [hx, Nat.zero_add]⟩

theorem ofNat_ne {i n : Nat} {x : UInt32} (hx : x.toNat = n) (hi : i < 2 ^ 32) (hne : i ≠ n) :
    UInt32.ofNat i ≠ x := by
  rintro rfl
  exact hne ((UInt32.toNat_ofNat_of_lt' hi).symm.trans hx)

theorem refines_serve (hm : m.toNat < 2 ^ 32) (h : Refines w e) (ha : w.server.alive = true)
    (hs : e.served < e.asked) (counter₀ : UInt32) :
    Refines (w.serverReceives counter₀ (encode (UInt32.ofNat e.served))) (e.serve hs) := by
  have hx : UInt32.ofNat e.served = w.server.state.receivedMessages := by
    rw [← h.server, UInt32.ofNat_toNat]
  have hbound : e.served + 1 ≤ m.toNat := (e.serve hs).served_le
  rw [hx, World.serverReceives_accept ha]
  refine { h with server := ?_, replies := ?_, serverAccepted := ?_ }
  · exact toNat_succ h.server (by omega)
  · simp [h.replies, ← hx, consecutive_succ]
  · simp [h.serverAccepted, ← hx, consecutive_succ]

theorem tight_serve {served answered : Nat} (ht : Tight w served answered)
    (hr : answered ≤ w.replies.length) (counter₀ : UInt32) :
    Tight (w.serverReceives counter₀ (encode w.server.state.receivedMessages)) served answered := by
  rw [World.serverReceives_accept ht.server]
  exact ⟨ht.client, ht.server, ht.pings, Network.arrivedUpTo_send ht.replies hr _⟩

theorem refines_answer (hm : m.toNat < 2 ^ 32) (h : Refines w e) (ha : w.client.alive = true)
    (hs : e.answered < e.served) (counter₀ : UInt32) :
    Refines (w.clientReceives counter₀ (encode (UInt32.ofNat e.answered))) (e.answer hs) := by
  have hx : UInt32.ofNat e.answered = w.client.state.receivedMessages := by
    rw [← h.client, UInt32.ofNat_toNat]
  have hbound : e.answered + 1 ≤ m.toNat := Nat.le_trans hs e.served_le
  have hsucc := toNat_succ h.client (show e.answered + 1 < 2 ^ 32 by omega)
  have hmsg := h.messages (Exchange.started_of_answered_lt hs)
  have hask := Exchange.asked_of_turn hs
  have hask' := Exchange.answer_asked hs
  rw [hx]
  by_cases hlast : w.client.state.messages ≤ (w.client.state.receivedMessages + 1).toUInt64
  · -- the last answer: nothing more is sent
    have hcomplete : e.answered + 1 = m.toNat := by
      rw [hmsg, UInt64.le_iff_toNat_le, UInt32.toNat_toUInt64, hsucc] at hlast
      omega
    rw [World.clientReceives_last ha counter₀ hlast]
    rw [if_pos hcomplete, ← hask] at hask'
    refine { h with client := hsucc, pings := ?_, clientAccepted := ?_, completed := ?_ }
    · rw [hask']
      exact h.pings
    · simp [h.clientAccepted, ← hx, consecutive_succ]
    · rw [Exchange.answer_answered, if_pos hcomplete, h.completed, if_neg (by omega)]
  · have hmore : e.answered + 1 ≠ m.toNat := by
      rw [hmsg, UInt64.le_iff_toNat_le, UInt32.toNat_toUInt64, hsucc] at hlast
      omega
    rw [World.clientReceives_next ha counter₀ hlast]
    rw [if_neg hmore, ← hask] at hask'
    refine { h with client := hsucc, pings := ?_, clientAccepted := ?_, completed := ?_ }
    · have hserved : e.asked = e.answered + 1 := by
        have := e.served_le_succ
        omega
      rw [hask', consecutive_succ, Network.sent_send, h.pings, Nat.zero_add, hserved, ← hsucc,
        UInt32.ofNat_toNat]
      simp
    · simp [h.clientAccepted, ← hx, consecutive_succ]
    · rw [Exchange.answer_answered, if_neg hmore, h.completed, if_neg (by omega)]

theorem tight_answer {served answered : Nat} (ht : Tight w served answered)
    (hp : served ≤ w.pings.length) (counter₀ : UInt32) :
    Tight (w.clientReceives counter₀ (encode w.client.state.receivedMessages))
      served answered := by
  by_cases hlast : w.client.state.messages ≤ (w.client.state.receivedMessages + 1).toUInt64
  · rw [World.clientReceives_last ht.client counter₀ hlast]
    exact ⟨ht.client, ht.server, ht.pings, ht.replies⟩
  · rw [World.clientReceives_next ht.client counter₀ hlast]
    exact ⟨ht.client, ht.server, Network.arrivedUpTo_send ht.pings hp _, ht.replies⟩

/-- The ping the server waits for arrives. -/
theorem accept_ping (hm : m.toNat < 2 ^ 32) (h : Refines w e) (ha : w.server.alive = true)
    (hs : e.served < e.asked) {payload : Bytes} {network : Network Bytes}
    (hd : w.pings.deliver e.served = some (payload, network)) (counter₀ : UInt32) :
    Refines ({ w with pings := network }.serverReceives counter₀ payload) (e.serve hs) ∧
      (Tight w e.served e.answered →
        Tight ({ w with pings := network }.serverReceives counter₀ payload)
          (e.served + 1) e.answered) := by
  obtain ⟨_, rfl⟩ := payload_of_deliver h.pings hd
  have hv : Refines { w with pings := network } e :=
    h.networks (Network.sent_deliver hd).1 rfl
  constructor
  · exact refines_serve hm hv ha hs counter₀
  · intro ht
    have hk := Network.arrivedUpTo_deliver ht.pings (Nat.le_refl _) hd
    rw [if_pos rfl] at hk
    have hx : UInt32.ofNat e.served = w.server.state.receivedMessages := by
      rw [← h.server, UInt32.ofNat_toNat]
    have htight : Tight { w with pings := network } (e.served + 1) e.answered :=
      { ht with pings := hk }
    rw [hx]
    exact tight_serve htight (h.length_replies ▸ e.answered_le_served) counter₀

/-- The reply the client waits for arrives. -/
theorem accept_reply (hm : m.toNat < 2 ^ 32) (h : Refines w e) (ha : w.client.alive = true)
    (hs : e.answered < e.served) {payload : Bytes} {network : Network Bytes}
    (hd : w.replies.deliver e.answered = some (payload, network)) (counter₀ : UInt32) :
    Refines ({ w with replies := network }.clientReceives counter₀ payload) (e.answer hs) ∧
      (Tight w e.served e.answered →
        Tight ({ w with replies := network }.clientReceives counter₀ payload)
          e.served (e.answered + 1)) := by
  obtain ⟨_, rfl⟩ := payload_of_deliver h.replies hd
  have hv : Refines { w with replies := network } e :=
    h.networks rfl (Network.sent_deliver hd).1
  constructor
  · exact refines_answer hm hv ha hs counter₀
  · intro ht
    have hk := Network.arrivedUpTo_deliver ht.replies (Nat.le_refl _) hd
    rw [if_pos rfl] at hk
    have hx : UInt32.ofNat e.answered = w.client.state.receivedMessages := by
      rw [← h.client, UInt32.ofNat_toNat]
    have htight : Tight { w with replies := network } e.served (e.answered + 1) :=
      { ht with replies := hk }
    rw [hx]
    exact tight_answer htight (h.length_pings ▸ e.served_le_asked) counter₀

/-- A ping that arrives is the one the server waits for, or an old one. -/
theorem follows_deliverPing (hm : m.toNat < 2 ^ 32) (h : Refines w e) {i : Nat}
    {payload : Bytes} {network : Network Bytes}
    (hd : w.pings.deliver i = some (payload, network)) (counter₀ : UInt32) :
    Follows w ({ w with pings := network }.serverReceives counter₀ payload) e True := by
  obtain ⟨hlt, hpayload⟩ := payload_of_deliver h.pings hd
  have hv : Refines { w with pings := network } e :=
    h.networks (Network.sent_deliver hd).1 rfl
  have hle : i ≤ e.served := by
    have := e.answered_le_served
    unfold Exchange.asked at hlt
    split at hlt <;> omega
  by_cases hi : i = e.served
  · subst hi
    cases ha : w.server.alive with
    | false =>
      rw [World.serverReceives_dead (by exact ha)]
      refine ⟨e, .inl rfl, hv, fun _ ht => ?_⟩
      rw [ht.server] at ha
      cases ha
    | true =>
      have hacc := accept_ping hm h ha hlt hd counter₀
      exact ⟨e.serve hlt, .inr (.serve e hlt), hacc.1, fun _ => hacc.2⟩
  · have hbound := e.served_le
    rw [hpayload, World.serverReceives_stale (ofNat_ne hv.server (by omega) hi)]
    refine ⟨e, .inl rfl, hv, fun _ ht => ?_⟩
    have hk := Network.arrivedUpTo_deliver ht.pings hle hd
    rw [if_neg hi] at hk
    exact { ht with pings := hk }

/-- A reply that arrives is the one the client waits for, or an old one. -/
theorem follows_deliverReply (hm : m.toNat < 2 ^ 32) (h : Refines w e) {i : Nat}
    {payload : Bytes} {network : Network Bytes}
    (hd : w.replies.deliver i = some (payload, network)) (counter₀ : UInt32) :
    Follows w ({ w with replies := network }.clientReceives counter₀ payload) e True := by
  obtain ⟨hlt, hpayload⟩ := payload_of_deliver h.replies hd
  have hv : Refines { w with replies := network } e :=
    h.networks rfl (Network.sent_deliver hd).1
  have hle : i ≤ e.answered := by
    have := e.served_le_succ
    omega
  by_cases hi : i = e.answered
  · subst hi
    cases ha : w.client.alive with
    | false =>
      rw [World.clientReceives_dead (by exact ha)]
      refine ⟨e, .inl rfl, hv, fun _ ht => ?_⟩
      rw [ht.client] at ha
      cases ha
    | true =>
      have hacc := accept_reply hm h ha hlt hd counter₀
      exact ⟨e.answer hlt, .inr (.answer e hlt), hacc.1, fun _ => hacc.2⟩
  · have hbound := e.served_le
    rw [hpayload, World.clientReceives_stale (ofNat_ne hv.client (by omega) hi)]
    refine ⟨e, .inl rfl, hv, fun _ ht => ?_⟩
    have hk := Network.arrivedUpTo_deliver ht.replies hle hd
    rw [if_neg hi] at hk
    exact { ht with replies := hk }

/-! ## Every action -/

/-- The client takes the `start_atom` of `caf_main`. -/
theorem accept_start (hm : 1 ≤ m.toNat) (h : Refines w e) (hs : e.started = false) :
    Refines { w.clientReacts (rawClient 0 w.client.state (.start m mainActor)) with
      startPending := false } e.start ∧
    (Tight w e.served e.answered →
      Tight { w.clientReacts (rawClient 0 w.client.state (.start m mainActor)) with
        startPending := false } e.served e.answered) := by
  have hask : e.asked = 0 := by simp [Exchange.asked, hs]
  have hpings := h.pings
  rw [hask] at hpings
  constructor
  · refine { h with start := rfl, messages := fun _ => rfl, pings := ?_, completed := ?_ }
    · rw [Exchange.start_asked hs hm]
      simp [World.clientReacts, rawClient, writes, hpings, consecutive]
    · simp only [World.clientReacts, rawClient, completions, h.completed]
      rfl
  · intro ht
    refine { ht with client := ?_, pings := ?_ }
    · simp [World.clientReacts, rawClient, Party.after, ht.client]
    · exact Network.arrivedUpTo_send ht.pings (h.length_pings ▸ e.served_le_asked) _

/-- An action that only changes copies in the networks. -/
theorem follows_networks (h : Refines w e) {pings replies : Network Bytes} {reliable : Prop}
    (hp : pings.sent = w.pings.sent) (hr : replies.sent = w.replies.sent)
    (hpt : reliable → ∀ k, w.pings.ArrivedUpTo k → pings.ArrivedUpTo k)
    (hrt : reliable → ∀ k, w.replies.ArrivedUpTo k → replies.ArrivedUpTo k) :
    Follows w { w with pings, replies } e reliable :=
  ⟨e, .inl rfl, h.networks hp hr, fun hrel ht =>
    { ht with pings := hpt hrel _ ht.pings, replies := hrt hrel _ ht.replies }⟩

/-- An error or a quit of one of the actors. -/
theorem follows_parties (h : Refines w e) {client server : Party}
    (hc : client.state = w.client.state) (hs : server.state = w.server.state) :
    Follows w { w with client, server } e False :=
  ⟨e, .inl rfl, h.parties hc hs, fun hf => hf.elim⟩

/-- **Step lemma.**  Every action takes a step of the exchange, or none. -/
theorem follows_step (hm : 1 ≤ m.toNat) (hm' : m.toNat < 2 ^ 32) (h : Refines w e) {a : Action}
    (hstep : w.step m a = some w') : Follows w w' e (Reliable w a) := by
  cases a with
  | start =>
    simp only [World.step] at hstep
    split at hstep
    · rename_i hen
      cases hstep
      have hs : e.started = false := by simpa [hen.2] using h.start.symm
      have hacc := accept_start hm h hs
      exact ⟨e.start, .inr (.start e hs), hacc.1, fun _ => hacc.2⟩
    · cases hstep
  | deliverPing i counter₀ =>
    obtain ⟨⟨payload, network⟩, hd, rfl⟩ := Option.map_eq_some_iff.mp hstep
    exact follows_deliverPing hm' h hd counter₀
  | deliverReply i counter₀ =>
    obtain ⟨⟨payload, network⟩, hd, rfl⟩ := Option.map_eq_some_iff.mp hstep
    exact follows_deliverReply hm' h hd counter₀
  | duplicatePing i =>
    obtain ⟨network, hd, rfl⟩ := Option.map_eq_some_iff.mp hstep
    exact follows_networks h (Network.sent_duplicate hd) rfl
      (fun _ _ hk => Network.arrivedUpTo_duplicate hk hd) fun _ _ hk => hk
  | duplicateReply i =>
    obtain ⟨network, hd, rfl⟩ := Option.map_eq_some_iff.mp hstep
    exact follows_networks h rfl (Network.sent_duplicate hd) (fun _ _ hk => hk)
      fun _ _ hk => Network.arrivedUpTo_duplicate hk hd
  | losePing i =>
    obtain ⟨network, hd, rfl⟩ := Option.map_eq_some_iff.mp hstep
    exact follows_networks h (Network.sent_lose hd) rfl
      (fun hs _ hk => Network.arrivedUpTo_lose hk hs hd) fun _ _ hk => hk
  | loseReply i =>
    obtain ⟨network, hd, rfl⟩ := Option.map_eq_some_iff.mp hstep
    exact follows_networks h rfl (Network.sent_lose hd) (fun _ _ hk => hk)
      fun hs _ hk => Network.arrivedUpTo_lose hk hs hd
  | clientError op =>
    simp only [World.step] at hstep
    split at hstep
    · cases hstep
      exact follows_parties h rfl rfl
    · cases hstep
  | serverError op =>
    simp only [World.step] at hstep
    split at hstep
    · cases hstep
      exact follows_parties h rfl rfl
    · cases hstep
  | clientQuit =>
    obtain ⟨client, hq, rfl⟩ := Option.map_eq_some_iff.mp hstep
    have hs := (Party.takeQuit_cases hq).1
    refine follows_parties h ?_ rfl
    exact hs
  | serverQuit =>
    obtain ⟨server, hq, rfl⟩ := Option.map_eq_some_iff.mp hstep
    have hs := (Party.takeQuit_cases hq).1
    refine follows_parties h rfl ?_
    exact hs

/-- **Every run follows the exchange.** -/
theorem refines_run (hm : 1 ≤ m.toNat) (hm' : m.toNat < 2 ^ 32) {as : List Action}
    (h : (system m).run as = some w) :
    ∃ e : Exchange m.toNat, ReflTransGen Exchange.Step (Exchange.initial m.toNat) e ∧
      Refines w e := by
  refine TransitionSystem.refinement_runFrom ?_ (refines_initial hm)
    ((system m).meets_true _ as) h
  intro s a s' e hs _ hstep
  obtain ⟨e', rfl | he, hr, _⟩ := follows_step hm hm' hs hstep
  · exact .inl hr
  · exact .inr ⟨e', he, hr⟩

/-! ## Safety -/

/-- What a reachable state looks like from outside, in terms of the two counters. -/
structure Safe (m : UInt64) (w : World) : Prop where
  serverAccepted : w.serverAccepted = consecutive 0 w.server.state.receivedMessages.toNat
  clientAccepted : w.clientAccepted = consecutive 0 w.client.state.receivedMessages.toNat
  client_le_server : w.client.state.receivedMessages.toNat ≤ w.server.state.receivedMessages.toNat
  server_le_succ :
    w.server.state.receivedMessages.toNat ≤ w.client.state.receivedMessages.toNat + 1
  server_le : w.server.state.receivedMessages.toNat ≤ m.toNat
  pings : ∀ payload, w.pings.InFlight payload → ∃ x : UInt32, payload = encode x ∧
    x.toNat ≤ min w.client.state.receivedMessages.toNat (m.toNat - 1)
  replies : ∀ payload, w.replies.InFlight payload → ∃ x : UInt32, payload = encode x ∧
    x.toNat < w.server.state.receivedMessages.toNat
  discardedPings : ∀ payload counter₀, w.pings.InFlight payload →
    rawServer counter₀ w.server.state (.newRaw payload) = (w.server.state, []) →
    readCounter counter₀ payload < w.server.state.receivedMessages
  discardedReplies : ∀ payload counter₀, w.replies.InFlight payload →
    rawClient counter₀ w.client.state (.newRaw payload) = (w.client.state, []) →
    readCounter counter₀ payload < w.client.state.receivedMessages
  completed_le_one : w.completed ≤ 1
  completed : 1 ≤ w.completed ↔ w.client.state.receivedMessages.toNat = m.toNat
  server_of_completed : 1 ≤ w.completed → w.server.state.receivedMessages.toNat = m.toNat

theorem counter_of_inFlight {network : Network Bytes} {n : Nat} (hn : n ≤ 2 ^ 32)
    (hsent : network.sent = (consecutive 0 n).map encode) {payload : Bytes}
    (hp : network.InFlight payload) : ∃ x : UInt32, payload = encode x ∧ x.toNat < n := by
  have hmem := hp.mem_sent
  rw [hsent, List.mem_map] at hmem
  obtain ⟨x, hx, rfl⟩ := hmem
  obtain ⟨i, hi, rfl⟩ := mem_consecutive hx
  refine ⟨_, rfl, ?_⟩
  rwa [UInt32.toNat_ofNat_of_lt' (show 0 + i < 2 ^ 32 by omega), Nat.zero_add]

/-- A message that the server discards does not carry the counter it waits for. -/
theorem ne_of_discarded_ping {s : State} {counter₀ : UInt32} {payload : Bytes}
    (h : rawServer counter₀ s (.newRaw payload) = (s, [])) :
    readCounter counter₀ payload ≠ s.receivedMessages := by
  intro hx
  rw [rawServer_accept hx] at h
  cases (Prod.mk.inj h).2

theorem ne_of_discarded_reply {s : State} {counter₀ : UInt32} {payload : Bytes}
    (h : rawClient counter₀ s (.newRaw payload) = (s, [])) :
    readCounter counter₀ payload ≠ s.receivedMessages := by
  intro hx
  by_cases hm : s.messages ≤ (s.receivedMessages + 1).toUInt64
  · rw [rawClient_last hx hm] at h
    exact List.append_ne_nil_of_right_ne_nil _ (List.cons_ne_nil _ _) (Prod.mk.inj h).2
  · rw [rawClient_next hx hm] at h
    exact List.append_ne_nil_of_right_ne_nil _ (List.cons_ne_nil _ _) (Prod.mk.inj h).2

theorem lt_of_toNat_le_of_ne {x y : UInt32} (hle : x.toNat ≤ y.toNat) (hne : x ≠ y) : x < y :=
  UInt32.lt_iff_toNat_lt.mpr
    (Nat.lt_of_le_of_ne hle fun h => hne (UInt32.toNat_inj.mp h))

theorem completed_of_refines (h : Refines w e) : 1 ≤ w.completed ↔ e.answered = m.toNat := by
  rw [h.completed]
  split <;> simp_all

theorem safe_of_refines (hm : 1 ≤ m.toNat) (hm' : m.toNat < 2 ^ 32) (h : Refines w e) :
    Safe m w := by
  have hsucc := e.served_le_succ
  have hle := e.answered_le_served
  have hbound := e.served_le
  have hasked : e.asked ≤ min (e.answered + 1) m.toNat := by
    unfold Exchange.asked
    split <;> omega
  have hpings : ∀ payload, w.pings.InFlight payload →
      ∃ x : UInt32, payload = encode x ∧ x.toNat < e.asked :=
    fun _ hp => counter_of_inFlight (by omega) h.pings hp
  have hreplies : ∀ payload, w.replies.InFlight payload →
      ∃ x : UInt32, payload = encode x ∧ x.toNat < e.served :=
    fun _ hp => counter_of_inFlight (by omega) h.replies hp
  have hcompleted := completed_of_refines h
  refine
    { serverAccepted := h.server ▸ h.serverAccepted
      clientAccepted := h.client ▸ h.clientAccepted
      client_le_server := by rw [h.client, h.server]; exact hle
      server_le_succ := by rw [h.client, h.server]; exact hsucc
      server_le := h.server ▸ hbound
      pings := fun payload hp => ?_
      replies := fun payload hp => h.server ▸ hreplies payload hp
      discardedPings := fun payload counter₀ hp hd => ?_
      discardedReplies := fun payload counter₀ hp hd => ?_
      completed_le_one := by rw [h.completed]; split <;> omega
      completed := by rw [hcompleted, h.client]
      server_of_completed := fun hc => ?_ }
  · obtain ⟨x, rfl, hx⟩ := hpings payload hp
    exact ⟨x, rfl, by rw [h.client]; omega⟩
  · obtain ⟨x, rfl, hx⟩ := hpings payload hp
    have hne := ne_of_discarded_ping hd
    rw [readCounter_encode] at hne ⊢
    refine lt_of_toNat_le_of_ne ?_ hne
    rw [h.server]
    omega
  · obtain ⟨x, rfl, hx⟩ := hreplies payload hp
    have hne := ne_of_discarded_reply hd
    rw [readCounter_encode] at hne ⊢
    refine lt_of_toNat_le_of_ne ?_ hne
    rw [h.client]
    omega
  · rw [h.server, Exchange.served_of_complete (hcompleted.mp hc)]

/-- **Safety.**  Whatever the network loses, duplicates and reorders, both sides
accept the counters one after the other, discard old messages only, and the
client completes at most once, when all messages and replies have been accepted. -/
theorem safe_run {m : UInt64} (hm : 1 ≤ m.toNat) (hm' : m.toNat < 2 ^ 32) {as : List Action}
    {w : World} (h : (system m).run as = some w) : Safe m w := by
  obtain ⟨e, _, hr⟩ := refines_run hm hm' h
  exact safe_of_refines hm hm' hr

/-- A ping that is duplicated, a lost copy of its answer and the completion of a
run of one message. -/
theorem safe_run_one : ∃ w, (system 1).run
    [.start, .duplicatePing 0, .deliverPing 0 0, .duplicateReply 0, .loseReply 0,
      .deliverReply 0 7, .deliverPing 0 7] = some w ∧ Safe 1 w ∧ w.completed = 1 :=
  ⟨_, rfl, @safe_run 1 (by decide) (by decide) [.start, .duplicatePing 0, .deliverPing 0 0,
    .duplicateReply 0, .loseReply 0, .deliverReply 0 7, .deliverPing 0 7] _ rfl, rfl⟩

end NewbMeasurements.UdpSystem
