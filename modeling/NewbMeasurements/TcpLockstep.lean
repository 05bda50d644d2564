import NewbMeasurements.Exchange
import NewbMeasurements.TcpSystem

/-!
Both pairs of `pingpong_tcp` follow the lock-step exchange where the server gets
whole pings. What they have in common is stated as a contract on the handlers; the
traditional pair and the new one each meet it, and the rest is proved from it.
-/

namespace NewbMeasurements.TcpSystem

open Words (Bytes encode decode toNat_succ consecutive consecutive_succ)
open ByteStreams (Link ReceivePolicy)
open Transitions (TransitionSystem)
open Relation (ReflTransGen)
open Actors PingpongTcp

/-! ## The contract -/

/-- A handler that goes on and writes `payloads`. -/
structure Goes (r : Reaction) (s : State) (payloads : List Bytes) : Prop where
  state : r.1 = s
  writes : writes connection r.2 = payloads
  quit : Effect.quit ∉ r.2

/-- The read policy under which the server gets the pings. -/
def Pair.policy (P : Pair) : ReceivePolicy := (reconfigure P {} P.accepted.2).policy

/-- The read policy under which the client gets the first reply. -/
def Pair.first (P : Pair) : ReceivePolicy := (P.configure {} (.exactly 4)).policy

structure Contract (P : Pair) : Prop where
  configure (l : Link UInt8) (h : l.policy = .segments) :
    P.configure l (.exactly 4) = { l with policy := P.first, following := .exactly 4 }
  accepted : reconfigure P {} P.accepted.2 = { policy := P.policy, following := P.policy }
  first : P.first = .exactly 4 ∨ P.first = .segments
  acceptedQuit : Effect.quit ∉ P.accepted.2
  clientInit : P.clientInit.receivedMessages = 0
  server (counter₀ : UInt32) (s : State) (x : UInt32) :
    Goes (P.serverReceives counter₀ s (encode x)) s [encode x] ∧
      policy connection (P.serverReceives counter₀ s (encode x)).2 = none
  start (s : State) (hs : s.other = P.clientInit.other) (messages : UInt64) (responder : ActorId) :
    Goes (P.clientStart s messages responder)
      { s with responder := some responder, messages := messages } [encode 1] ∧
      policy connection (P.clientStart s messages responder).2 = some (.exactly 4)
  next (counter₀ : UInt32) (s : State) (x : UInt32)
    (hm : ¬ s.messages ≤ (s.receivedMessages + 1).toUInt64) :
    Goes (P.clientReceives counter₀ s (encode x))
      { s with receivedMessages := s.receivedMessages + 1 } [encode (x + 1)] ∧
      policy connection (P.clientReceives counter₀ s (encode x)).2 = none ∧
      notices mainActor (P.clientReceives counter₀ s (encode x)).2 = 0
  last (counter₀ : UInt32) (s : State) (x : UInt32)
    (hm : s.messages ≤ (s.receivedMessages + 1).toUInt64) :
    (P.clientReceives counter₀ s (encode x)).1 =
        { s with receivedMessages := s.receivedMessages + 1 } ∧
      writes connection (P.clientReceives counter₀ s (encode x)).2 = [] ∧
      policy connection (P.clientReceives counter₀ s (encode x)).2 = none ∧
      notices mainActor (P.clientReceives counter₀ s (encode x)).2 =
        if s.responder = some mainActor then 1 else 0

theorem contract_traditional : Contract traditionalPair where
  configure _ _ := rfl
  accepted := rfl
  first := .inl rfl
  acceptedQuit := by decide
  clientInit := rfl
  server counter₀ s x := ⟨⟨rfl, rfl, by simp [traditionalPair, tcpServer]⟩, rfl⟩
  start s hs messages responder := by
    have ho : s.other = some connection := hs
    refine ⟨⟨rfl, ?_, ?_⟩, ?_⟩ <;>
      simp [traditionalPair, tcpClient, ho, writes, policy]
  next counter₀ s x hm := by
    simp only [traditionalPair, tcpClient_next hm, readCounter_encode]
    exact ⟨⟨rfl, by simp [writes], by simp⟩, by simp [policy], by simp [notices]⟩
  last counter₀ s x hm := by
    simp only [traditionalPair, tcpClient_last hm]
    exact ⟨trivial, by simp [writes], by simp [policy], by simp [notices]⟩

theorem contract_newb : Contract newbPair where
  configure l h := by
    obtain ⟨stream, policy, following, frame⟩ := l
    cases h
    rfl
  accepted := rfl
  first := .inr rfl
  acceptedQuit := by decide
  clientInit := rfl
  server counter₀ s x := by
    simp only [newbPair, rawServer, readCounter_encode]
    exact ⟨⟨rfl, rfl, by simp⟩, rfl⟩
  start s _ messages responder := ⟨⟨rfl, rfl, by simp [newbPair, rawClient]⟩, rfl⟩
  next counter₀ s x hm := by
    simp only [newbPair, rawClient_next hm, readCounter_encode]
    exact ⟨⟨rfl, by simp [writes], by simp⟩, by simp [policy], by simp [notices]⟩
  last counter₀ s x hm := by
    simp only [newbPair, rawClient_last hm]
    exact ⟨trivial, by simp [writes], by simp [policy], by simp [notices]⟩

/-! ## The refinement -/

variable {P : Pair} {m : UInt64} {w w' : World} {e : Exchange m.toNat}

/-- A link carries the frame of `x` where `c` holds, and nothing elsewhere. -/
structure CarriesIf (l : Link UInt8) (c : Prop) (x : Nat) : Prop where
  full : c → l.Carries 4 (encode (UInt32.ofNat x))
  empty : ¬ c → l.held = [] ∧ l.frame = []
  frame : l.policy = .segments → l.frame = []

/-- The read policy under which the client gets the next reply. -/
def Pair.clientPolicy (P : Pair) (e : Exchange m.toNat) : ReceivePolicy :=
  if e.started = false then .segments else if e.answered = 0 then P.first else .exactly 4

/-- The world `w` as a state `e` of the exchange. -/
structure Refines (P : Pair) (w : World) (e : Exchange m.toNat) : Prop where
  received : w.client.state.receivedMessages.toNat = e.answered
  start : w.startPending = !e.started
  other : w.client.state.other = P.clientInit.other
  messages : e.started = true → w.client.state.messages = m
  responder : e.started = true → w.client.state.responder = some mainActor
  client : e.answered < m.toNat → w.client.alive = true
  server : w.server.alive = true
  serverPolicy : w.toServer.policy = P.policy
  serverFollowing : w.toServer.following = P.policy
  clientPolicy : w.toClient.policy = P.clientPolicy e
  clientFollowing : e.started = true → w.toClient.following = .exactly 4
  toServer : CarriesIf w.toServer (e.served < e.asked) (e.served + 1)
  toClient : CarriesIf w.toClient (e.answered < e.served) (e.answered + 1)
  clientFrames : w.clientFrames = (consecutive 1 e.answered).map encode
  serverFrames : w.serverFrames = (consecutive 1 e.served).map encode
  pings : w.pings = (consecutive 1 e.asked).map encode
  echoes : w.echoes = (consecutive 1 e.served).map encode
  notices : w.notices = if e.answered = m.toNat then 1 else 0

theorem refines_initial (hP : Contract P) (hm : 1 ≤ m.toNat) :
    Refines P (.initial P) (Exchange.initial m.toNat) where
  received := by rw [World.initial, hP.clientInit]; rfl
  start := rfl
  other := rfl
  messages h := by simp at h
  responder h := by simp at h
  client _ := rfl
  server := rfl
  serverPolicy := rfl
  serverFollowing := by rw [World.initial, hP.accepted]
  clientPolicy := rfl
  clientFollowing h := by simp at h
  toServer := by
    have hl : (World.initial P).toServer.held = [] ∧ (World.initial P).toServer.frame = [] := by
      rw [World.initial, hP.accepted]
      exact ⟨rfl, rfl⟩
    exact ⟨fun h => by simp at h, fun _ => hl, fun _ => hl.2⟩
  toClient := ⟨fun h => by simp at h, fun _ => ⟨rfl, rfl⟩, fun _ => rfl⟩
  clientFrames := rfl
  serverFrames := rfl
  pings := rfl
  echoes := rfl
  notices := by
    rw [Exchange.initial_answered, if_neg (by omega)]
    rfl

theorem reconfigure_none {l : Link UInt8} {es : List Effect} (h : policy connection es = none) :
    reconfigure P l es = l := by
  simp [reconfigure, h]

theorem frame_foldl_write (payloads : List Bytes) (l : Link UInt8) :
    (payloads.foldl Link.write l).frame = l.frame := by
  induction payloads generalizing l with
  | nil => rfl
  | cons p ps ih => exact ih (l.write p)

theorem CarriesIf.write {l : Link UInt8} (h : l.held = [] ∧ l.frame = []) {c : Prop} (hc : c)
    (x : Nat) : CarriesIf (l.write (encode (UInt32.ofNat x))) c x where
  full _ :=
    { held := by rw [Link.held_write, h.1, List.nil_append]
      length := rfl
      frame := by rw [Link.frame_write, h.2]; exact Nat.zero_lt_succ _ }
  empty hn := absurd hc hn
  frame _ := h.2

theorem CarriesIf.of_empty {l : Link UInt8} (h : l.held = [] ∧ l.frame = []) {c : Prop} (hc : ¬ c)
    (x : Nat) : CarriesIf l c x where
  full h' := absurd h' hc
  empty _ := h
  frame _ := h.2

/-- A segment that arrives belongs to the one frame under way: it leaves that
frame incomplete or completes it. -/
theorem CarriesIf.arrive {l l' : Link UInt8} {c : Prop} {x k : Nat} {out : Option Bytes}
    (h : CarriesIf l c x)
    (hp : c → l.policy = .exactly 4 ∨ (l.policy = .segments ∧ k = 4))
    (ha : l.arrive k = some (l', out)) :
    c ∧ ((out = none ∧ CarriesIf l' c x) ∨
      (out = some (encode (UInt32.ofNat x)) ∧ l'.held = [] ∧ l'.frame = [])) := by
  have hc : c := by
    by_contra hc
    rw [Link.arrive_of_held_nil (h.empty hc).1] at ha
    cases ha
  refine ⟨hc, ?_⟩
  rcases hp hc with hpol | ⟨hpol, rfl⟩
  · rcases Link.arrive_of_carries (h.full hc) hpol ha with ⟨rfl, hl, hp'⟩ | ⟨rfl, hheld, hframe, _⟩
    · refine .inl ⟨rfl, fun _ => hl, fun hn => absurd hc hn, fun hs => ?_⟩
      rw [hp'] at hs
      cases hs
    · exact .inr ⟨rfl, hheld, hframe⟩
  · obtain ⟨rfl, hheld, hframe, _⟩ := Link.arrive_whole (h.full hc) hpol (h.frame hpol) ha
    exact .inr ⟨rfl, hheld, hframe⟩

/-! ## Every action -/

theorem alive_after {p : Party} {r : Reaction} (hp : p.alive = true) (hr : Effect.quit ∉ r.2) :
    (p.after r).alive = true := by
  simp [Party.after, hp, hr]

/-- The server takes the ping under way and writes it back. -/
theorem refines_serve (hP : Contract P) (h : Refines P w e) (hs : e.served < e.asked)
    {link : Link UInt8} (hl : link.held = [] ∧ link.frame = [])
    (hf : link.following = w.toServer.following) (counter₀ : UInt32) :
    Refines P ({ w with toServer := link }.serverReceives P counter₀
      (encode (UInt32.ofNat (e.served + 1)))) (e.serve hs) := by
  obtain ⟨hgo, hpol⟩ := hP.server counter₀ w.server.state (UInt32.ofNat (e.served + 1))
  have hstarted := Exchange.started_of_served_lt hs
  have hasked := Exchange.asked_of_started hstarted
  have hle := e.answered_le_served
  have hturn : e.served = e.answered := by omega
  have hclient := h.toClient.empty (by omega)
  simp only [World.serverReceives, h.server, if_true, World.serverReacts, hgo.writes,
    reconfigure_none hpol]
  refine
    { h with
      server := ?_
      serverPolicy := ?_
      serverFollowing := ?_
      clientPolicy := ?_
      clientFollowing := ?_
      toServer := ?_
      toClient := ?_
      serverFrames := ?_
      echoes := ?_ }
  · exact alive_after h.server hgo.quit
  · exact hf.trans h.serverFollowing
  · exact hf.trans h.serverFollowing
  · exact h.clientPolicy
  · exact h.clientFollowing
  · refine CarriesIf.of_empty (l := link.prepareNextRead) hl ?_ _
    rw [Exchange.serve_served, Exchange.serve_asked]
    omega
  · rw [Exchange.serve_answered, Exchange.serve_served, hturn]
    exact CarriesIf.write hclient (Nat.lt_succ_self _) _
  · simp [h.serverFrames, consecutive_succ, Nat.add_comm]
  · simp [h.echoes, consecutive_succ, Nat.add_comm]

/-- From its second message on the client has frames. -/
theorem clientPolicy_answer (hs : e.answered < e.served) :
    P.clientPolicy (e.answer hs) = .exactly 4 := by
  have hstarted : e.started = true := Exchange.started_of_answered_lt hs
  rw [Pair.clientPolicy, show (e.answer hs).started = e.started from rfl, hstarted,
    if_neg (by decide), Exchange.answer_answered, if_neg (Nat.succ_ne_zero _)]

/-- The client counts the echo under way. Whether it is the last one shows in what
the handler writes and in what it tells `caf_main`. -/
theorem refines_counted (hm : m.toNat < 2 ^ 32) (h : Refines P w e) (hs : e.answered < e.served)
    {link : Link UInt8} (hl : link.held = [] ∧ link.frame = [])
    (hf : link.following = w.toClient.following) {r : Reaction}
    (hstate : r.1 =
      { w.client.state with receivedMessages := w.client.state.receivedMessages + 1 })
    (hquit : e.answered + 1 < m.toNat → Effect.quit ∉ r.2)
    (hpol : policy connection r.2 = none)
    (hwrites : writes connection r.2 =
      if e.answered + 1 = m.toNat then [] else [encode (UInt32.ofNat (e.served + 1))])
    (hnotices : notices mainActor r.2 = if e.answered + 1 = m.toNat then 1 else 0) :
    Refines P { { w with toClient := link }.clientReacts P r with
      toClient := ({ w with toClient := link }.clientReacts P r).toClient.prepareNextRead
      clientFrames := w.clientFrames ++ [encode (UInt32.ofNat (e.answered + 1))]
      notices := w.notices + notices mainActor r.2 } (e.answer hs) := by
  have hstarted := Exchange.started_of_answered_lt hs
  have hask := Exchange.asked_of_turn hs
  have hask' := Exchange.answer_asked hs
  have hbound : e.answered + 1 ≤ m.toNat := Nat.le_trans hs e.served_le
  have hsucc := toNat_succ h.received (show e.answered + 1 < 2 ^ 32 by omega)
  have hserver := h.toServer.empty (by omega)
  simp only [World.clientReacts, hwrites, reconfigure_none hpol, hnotices]
  refine
    { h with
      received := ?_
      other := ?_
      messages := ?_
      responder := ?_
      client := ?_
      serverPolicy := ?_
      serverFollowing := ?_
      clientPolicy := ?_
      clientFollowing := fun _ => hf.trans (h.clientFollowing hstarted)
      toServer := ?_
      toClient := ?_
      clientFrames := ?_
      pings := ?_
      notices := ?_ }
  · simp only [Party.after_state, hstate]
    exact hsucc
  · simp only [Party.after_state, hstate]
    exact h.other
  · simp only [Party.after_state, hstate]
    exact h.messages
  · simp only [Party.after_state, hstate]
    exact h.responder
  · intro hlt
    rw [Exchange.answer_answered] at hlt
    exact alive_after (h.client (by omega)) (hquit hlt)
  · split <;> exact h.serverPolicy
  · split <;> exact h.serverFollowing
  · rw [clientPolicy_answer hs]
    exact hf.trans (h.clientFollowing hstarted)
  · rw [hask', Exchange.answer_served]
    split
    · exact CarriesIf.of_empty hserver (by omega) _
    · exact CarriesIf.write hserver (Nat.lt_succ_self _) _
  · have hserved := e.served_le_succ
    refine CarriesIf.of_empty (l := link.prepareNextRead) hl ?_ _
    rw [Exchange.answer_answered, Exchange.answer_served]
    omega
  · simp [h.clientFrames, consecutive_succ, Nat.add_comm]
  · rw [hask', h.pings, hask]
    split
    · exact List.append_nil _
    · rw [consecutive_succ, List.map_append, Nat.add_comm 1 e.served]
      rfl
  · have hbefore : w.notices = 0 := by rw [h.notices, if_neg (by omega)]
    rw [Exchange.answer_answered, hbefore]
    exact Nat.zero_add _

/-- The client takes the echo under way. -/
theorem refines_answer (hP : Contract P) (hm : m.toNat < 2 ^ 32) (h : Refines P w e)
    (hs : e.answered < e.served) {link : Link UInt8} (hl : link.held = [] ∧ link.frame = [])
    (hf : link.following = w.toClient.following) (counter₀ : UInt32) :
    Refines P ({ w with toClient := link }.clientReceives P counter₀
      (encode (UInt32.ofNat (e.answered + 1)))) (e.answer hs) := by
  have hstarted := Exchange.started_of_answered_lt hs
  have hbound : e.answered + 1 ≤ m.toNat := Nat.le_trans hs e.served_le
  have hsucc := toNat_succ h.received (show e.answered + 1 < 2 ^ 32 by omega)
  have halive := h.client (by omega)
  have hmsg : w.client.state.messages ≤ (w.client.state.receivedMessages + 1).toUInt64 ↔
      e.answered + 1 = m.toNat := by
    rw [h.messages hstarted, UInt64.le_iff_toNat_le, UInt32.toNat_toUInt64, hsucc]
    omega
  simp only [World.clientReceives, halive, if_true]
  by_cases hlast : e.answered + 1 = m.toNat
  · -- the last echo: nothing more is written
    obtain ⟨hstate, hwrites, hpol, hnotices⟩ :=
      hP.last counter₀ w.client.state (UInt32.ofNat (e.answered + 1)) (hmsg.mpr hlast)
    rw [if_pos (h.responder hstarted)] at hnotices
    apply refines_counted hm h hs hl hf hstate _ hpol
    · rw [if_pos hlast, hwrites]
    · rw [if_pos hlast, hnotices]
    · intro hlt
      omega
  · obtain ⟨hgo, hpol, hnotices⟩ :=
      hP.next counter₀ w.client.state (UInt32.ofNat (e.answered + 1)) (mt hmsg.mp hlast)
    have hx : UInt32.ofNat (e.answered + 1) + 1 = UInt32.ofNat (e.served + 1) := by
      have hserved : e.served = e.answered + 1 := by
        have := e.served_le_succ
        omega
      rw [hserved, UInt32.ofNat_add (e.answered + 1) 1]
      rfl
    apply refines_counted hm h hs hl hf hgo.state (fun _ => hgo.quit) hpol
    · rw [if_neg hlast, hgo.writes, hx]
    · rw [if_neg hlast, hnotices]

/-- The client takes the `start_atom` of `caf_main`. -/
theorem refines_start (hP : Contract P) (hm : 1 ≤ m.toNat) (h : Refines P w e)
    (hs : e.started = false) :
    Refines P { w.clientReacts P (P.clientStart w.client.state m mainActor) with
      startPending := false } e.start := by
  obtain ⟨hgo, hpol⟩ := hP.start w.client.state h.other m mainActor
  have hask : e.asked = 0 := by simp [Exchange.asked, hs]
  have hserved := e.idle hs
  have hanswered := Exchange.answered_of_idle hs
  have hserver := h.toServer.empty (by omega)
  have hclient := h.toClient.empty (by omega)
  have hpings := h.pings
  rw [hask] at hpings
  have hsegments : w.toClient.policy = .segments := by
    rw [h.clientPolicy, Pair.clientPolicy, if_pos hs]
  have hreconf : reconfigure P w.toClient (P.clientStart w.client.state m mainActor).2 =
      { w.toClient with policy := P.first, following := .exactly 4 } := by
    simp only [reconfigure, hpol, hP.configure _ hsegments]
  simp only [World.clientReacts, hgo.writes, hreconf, List.foldl_cons, List.foldl_nil]
  refine
    { h with
      received := ?_
      start := rfl
      other := ?_
      messages := fun _ => ?_
      responder := fun _ => ?_
      client := fun hlt => alive_after (h.client hlt) hgo.quit
      clientPolicy := ?_
      clientFollowing := fun _ => rfl
      toServer := ?_
      toClient := ?_
      pings := ?_ }
  · simp only [Party.after_state, hgo.state]
    exact h.received
  · simp only [Party.after_state, hgo.state]
    exact h.other
  · simp only [Party.after_state, hgo.state]
  · simp only [Party.after_state, hgo.state]
  · rw [Pair.clientPolicy, Exchange.start_started, if_neg (by decide), Exchange.start_answered,
      if_pos hanswered]
  · rw [Exchange.start_served, hserved]
    exact CarriesIf.write hserver (by rw [Exchange.start_asked hs hm]; exact Nat.zero_lt_one) _
  · refine CarriesIf.of_empty
      (l := { w.toClient with policy := P.first, following := .exactly 4 }) hclient ?_ _
    rw [Exchange.start_served, Exchange.start_answered]
    omega
  · rw [Exchange.start_asked hs hm, hpings]
    rfl

/-- The segments that reach the server are frames of their own, or it collects frames; and
so it is with the first one that reaches the client. -/
def FrameOk (P : Pair) (w : World) : Action → Prop
  | .toServer k _ => P.policy = .exactly 4 ∨ (P.policy = .segments ∧ k = 4)
  | .toClient k _ => P.first = .exactly 4 ∨ (w.clientFrames = [] → k = 4)
  | .start => True

/-- The client's first reply is the one without which it has no frame. -/
theorem clientFrames_eq_nil (h : Refines P w e) : w.clientFrames = [] ↔ e.answered = 0 := by
  rw [h.clientFrames, List.map_eq_nil_iff, ← List.length_eq_zero_iff, Words.length_consecutive]

/-- How the client reads the reply under way. -/
theorem clientPolicy_cases (hP : Contract P) (h : Refines P w e) (hlt : e.answered < e.served) :
    (w.toClient.policy = .exactly 4 ∧ (P.first = .exactly 4 ∨ w.clientFrames ≠ [])) ∨
      (w.toClient.policy = .segments ∧ w.clientFrames = [] ∧ P.first = .segments) := by
  rw [h.clientPolicy, Pair.clientPolicy, Exchange.started_of_answered_lt hlt, if_neg (by decide),
    ne_eq, clientFrames_eq_nil h]
  split
  · rename_i hzero
    exact hP.first.imp (fun hfirst => ⟨hfirst, .inl hfirst⟩) fun hfirst => ⟨hfirst, hzero, hfirst⟩
  · rename_i hsome
    exact .inl ⟨rfl, .inr hsome⟩

theorem clientPolicy_ok (hP : Contract P) (h : Refines P w e) {k : Nat} {counter₀ : UInt32}
    (hok : FrameOk P w (.toClient k counter₀)) (hlt : e.answered < e.served) :
    w.toClient.policy = .exactly 4 ∨ (w.toClient.policy = .segments ∧ k = 4) := by
  rcases clientPolicy_cases hP h hlt with ⟨hexactly, _⟩ | ⟨hsegments, hnil, hfirst⟩
  · exact .inl hexactly
  · rcases hok with hframes | hwhole
    · rw [hfirst] at hframes
      cases hframes
    · exact .inr ⟨hsegments, hwhole hnil⟩

/-- The bytes that have not arrived. -/
def World.underWay (w : World) : Nat := w.toServer.stream.length + w.toClient.stream.length

/-- **Step lemma.**  Every action takes a step of the exchange, or lets some bytes arrive. -/
theorem follows_step (hP : Contract P) (hm : 1 ≤ m.toNat) (hm' : m.toNat < 2 ^ 32)
    (h : Refines P w e) {a : Action} (hok : FrameOk P w a) (hstep : w.step P m a = some w') :
    (Refines P w' e ∧ w'.underWay < w.underWay) ∨ ∃ e', Exchange.Step e e' ∧ Refines P w' e' := by
  cases a with
  | start =>
    simp only [World.step] at hstep
    split at hstep
    · rename_i hen
      cases hstep
      have hs : e.started = false := by simpa [hen.2] using h.start.symm
      exact .inr ⟨e.start, .start e hs, refines_start hP hm h hs⟩
    · cases hstep
  | toServer k counter₀ =>
    obtain ⟨⟨link, out⟩, ha, rfl⟩ := Option.map_eq_some_iff.mp hstep
    have hpol : P.policy = .exactly 4 ∨ (P.policy = .segments ∧ k = 4) := hok
    rw [← h.serverPolicy] at hpol
    obtain ⟨hp, hf, hfewer⟩ := Link.arrive_keeps ha
    obtain ⟨hlt, ⟨rfl, hl⟩ | ⟨rfl, hl⟩⟩ := h.toServer.arrive (fun _ => hpol) ha
    · exact .inl ⟨{ h with
        serverPolicy := hp.trans h.serverPolicy
        serverFollowing := hf.trans h.serverFollowing
        toServer := hl }, Nat.add_lt_add_right hfewer _⟩
    · exact .inr ⟨e.serve hlt, .serve e hlt, refines_serve hP h hlt hl hf counter₀⟩
  | toClient k counter₀ =>
    obtain ⟨⟨link, out⟩, ha, rfl⟩ := Option.map_eq_some_iff.mp hstep
    obtain ⟨hp, hf, hfewer⟩ := Link.arrive_keeps ha
    obtain ⟨hlt, ⟨rfl, hl⟩ | ⟨rfl, hl⟩⟩ := h.toClient.arrive (clientPolicy_ok hP h hok) ha
    · exact .inl ⟨{ h with
        clientPolicy := hp.trans h.clientPolicy
        clientFollowing := fun hs => hf.trans (h.clientFollowing hs)
        toClient := hl }, Nat.add_lt_add_left hfewer _⟩
    · exact .inr ⟨e.answer hlt, .answer e hlt, refines_answer hP hm' h hlt hl hf counter₀⟩

theorem refines_run (hP : Contract P) (hm : 1 ≤ m.toNat) (hm' : m.toNat < 2 ^ 32)
    {as : List Action} (hok : (system P m).Meets (FrameOk P) (.initial P) as)
    (h : (system P m).run as = some w) :
    ∃ e : Exchange m.toNat, ReflTransGen Exchange.Step (Exchange.initial m.toNat) e ∧
      Refines P w e :=
  TransitionSystem.refinement_runFrom (T := system P m) (R := Refines P)
    (fun _ _ _ _ hs hok hstep => (follows_step hP hm hm' hs hok hstep).imp_left And.left)
    (refines_initial hP hm) hok h

/-! ## Progress -/

/-- The reply handler of the client has sent its `quit_atom` to `caf_main`. -/
def Noticed (w : World) : Prop := 1 ≤ w.notices

theorem noticed_of_refines (h : Refines P w e) : Noticed w ↔ e.answered = m.toNat := by
  rw [Noticed, h.notices]
  split <;> simp_all

/-- Only the handler of a reply sends a `quit_atom`. -/
theorem notices_step {a : Action} (h : w.step P m a = some w') :
    w'.notices = w.notices ∨ ∃ k counter₀ buf link, a = .toClient k counter₀ ∧
      w.toClient.arrive k = some (link, some buf) ∧ w'.notices = w.notices +
        notices mainActor (P.clientReceives counter₀ w.client.state buf).2 := by
  cases a with
  | start =>
    simp only [World.step] at h
    split at h
    · cases h
      exact .inl rfl
    · cases h
  | toServer k counter₀ =>
    obtain ⟨⟨link, out⟩, _, rfl⟩ := Option.map_eq_some_iff.mp h
    cases out with
    | none => exact .inl rfl
    | some buf =>
      simp only [World.serverReceives]
      split <;> exact .inl rfl
  | toClient k counter₀ =>
    obtain ⟨⟨link, out⟩, ha, rfl⟩ := Option.map_eq_some_iff.mp h
    cases out with
    | none => exact .inl rfl
    | some buf =>
      simp only [World.clientReceives]
      split
      · exact .inr ⟨k, counter₀, buf, link, rfl, ha, rfl⟩
      · exact .inl rfl

theorem noticed_stable {a : Action} (hc : Noticed w) (h : w.step P m a = some w') :
    Noticed w' := by
  unfold Noticed at hc ⊢
  rcases notices_step h with heq | ⟨_, _, _, _, _, _, heq⟩ <;> omega

theorem answered_lt_of_not_noticed (h : Refines P w e) (hnot : ¬ Noticed w) :
    e.answered < m.toNat := by
  have hne := mt (noticed_of_refines h).mpr hnot
  have hserved := e.served_le
  have hanswered := e.answered_le_served
  omega

theorem CarriesIf.length_stream_le {l : Link UInt8} {c : Prop} {x : Nat} (h : CarriesIf l c x) :
    l.stream.length ≤ 4 := by
  have hle : l.stream.length ≤ l.held.length := by
    rw [Link.held, List.length_append]
    omega
  by_cases hc : c
  · rwa [(h.full hc).held, (h.full hc).length] at hle
  · rw [(h.empty hc).1, List.length_nil] at hle
    omega

/-- The frame under way can be completed, in one segment if it has to be. -/
theorem CarriesIf.exists_arrive {l : Link UInt8} {c : Prop} {x : Nat} (h : CarriesIf l c x) (hc : c)
    (hp : l.policy = .exactly 4 ∨ l.policy = .segments) :
    ∃ k r, l.arrive k = some r ∧ (l.policy = .segments → k = 4) := by
  have hfull := h.full hc
  obtain ⟨r, hr⟩ := Link.exists_arrive hfull (hp.imp id fun hs => ⟨hs, h.frame hs⟩)
  refine ⟨l.stream.length, r, hr, fun hs => ?_⟩
  rw [← hfull.length, ← hfull.held, Link.held, h.frame hs, List.nil_append]

/-- Until the client is done, some frame can be completed. -/
theorem exists_frameOk (hP : Contract P) (hp : P.policy = .exactly 4 ∨ P.policy = .segments)
    (h : Refines P w e) (hlt : e.answered < m.toNat) :
    ∃ a w', FrameOk P w a ∧ w.step P m a = some w' := by
  cases hs : e.started with
  | false =>
    have hpending : w.startPending = true := by
      rw [h.start, hs]
      rfl
    exact ⟨.start, _, trivial, if_pos ⟨h.client hlt, hpending⟩⟩
  | true =>
    rcases e.turn hs hlt with ⟨_, hserve⟩ | ⟨hserved, _⟩
    · rw [← h.serverPolicy] at hp
      obtain ⟨k, r, hr, hk⟩ := h.toServer.exists_arrive hserve hp
      rw [h.serverPolicy] at hp hk
      exact ⟨.toServer k 0, _, hp.imp id fun hsegments => ⟨hsegments, hk hsegments⟩,
        Option.map_eq_some_iff.mpr ⟨r, hr, rfl⟩⟩
    · have hanswer : e.answered < e.served := by omega
      have hcases := clientPolicy_cases hP h hanswer
      obtain ⟨k, r, hr, hk⟩ := h.toClient.exists_arrive hanswer (hcases.imp And.left And.left)
      refine ⟨.toClient k 0, _, ?_, Option.map_eq_some_iff.mpr ⟨r, hr, rfl⟩⟩
      rcases hcases with ⟨_, hfirst | hsome⟩ | ⟨hsegments, _, _⟩
      · exact .inl hfirst
      · exact .inr fun hnil => absurd hnil hsome
      · exact .inr fun _ => hk hsegments

/-- The world refines a state of the exchange, and so many bytes are under way. -/
def Tracks (P : Pair) (w : World) (p : Exchange m.toNat × Nat) : Prop :=
  Refines P w p.1 ∧ p.2 = w.underWay

/-- **Progress.**  However the frames are cut, the client gets all replies: each segment
either takes a step of the exchange, or leaves fewer bytes under way. -/
theorem inevitable_frames (hP : Contract P) (hp : P.policy = .exactly 4 ∨ P.policy = .segments)
    (hm : 1 ≤ m.toNat) (hm' : m.toNat < 2 ^ 32) : (system P m).Inevitable (FrameOk P) Noticed := by
  have hbound {w : World} {e : Exchange m.toNat} (h : Refines P w e) : w.underWay ≤ 8 :=
    Nat.add_le_add h.toServer.length_stream_le h.toClient.length_stream_le
  have hinit : Tracks P (system P m).init (Exchange.initial m.toNat, (World.initial P).underWay) :=
    ⟨refines_initial hP hm, rfl⟩
  refine TransitionSystem.inevitable_of_ranking (Tracks P) (fun p => 9 * p.1.remaining + p.2)
    hinit ?_ ?_ ?_
  · rintro s a s' ⟨e, n⟩ ⟨h, rfl⟩ _ hok hstep
    right
    rcases follows_step hP hm hm' h hok hstep with ⟨h', hfewer⟩ | ⟨e', he, h'⟩
    · exact ⟨(e, s'.underWay), ⟨h', rfl⟩, Nat.add_lt_add_left hfewer _⟩
    · have hlt : e'.remaining < e.remaining := Exchange.remaining_step he
      have hle := hbound h'
      refine ⟨(e', s'.underWay), ⟨h', rfl⟩, ?_⟩
      show 9 * e'.remaining + s'.underWay < 9 * e.remaining + s.underWay
      omega
  · rintro s ⟨e, n⟩ ⟨h, _⟩ hnot
    exact exists_frameOk hP hp h (answered_lt_of_not_noticed h hnot)
  · intro s a s' hc hstep
    exact noticed_stable hc hstep

/-! ## Every step of the exchange can be taken -/

/-- Every message arrives in one segment. -/
def Whole (_ : World) : Action → Prop
  | .toServer k _ => k = 4
  | .toClient k _ => k = 4
  | .start => True

theorem frameOk_of_whole (hp : P.policy = .exactly 4 ∨ P.policy = .segments) (w : World) (a : Action)
    (h : Whole w a) : FrameOk P w a := by
  cases a with
  | start => trivial
  | toServer k counter₀ => exact hp.imp id fun hsegments => ⟨hsegments, h⟩
  | toClient k counter₀ => exact .inr fun _ => h

/-- A state of the exchange in which no frame is half complete. -/
structure Aligned (P : Pair) (w : World) (e : Exchange m.toNat) : Prop where
  refines : Refines P w e
  toServer : w.toServer.frame = []
  toClient : w.toClient.frame = []

theorem aligned_initial (hP : Contract P) (hm : 1 ≤ m.toNat) :
    Aligned P (.initial P) (Exchange.initial m.toNat) where
  refines := refines_initial hP hm
  toServer := by rw [World.initial, hP.accepted]
  toClient := rfl

theorem aligned_start (hP : Contract P) (hm : 1 ≤ m.toNat) (h : Aligned P w e)
    (hs : e.started = false) : ∃ w', w.step P m .start = some w' ∧ Aligned P w' e.start := by
  have hr := h.refines
  have hpending : w.startPending = true := by rw [hr.start, hs]; rfl
  have halive := hr.client (by rw [Exchange.answered_of_idle hs]; omega)
  have hstep : w.step P m .start = some _ := if_pos ⟨halive, hpending⟩
  have hwrites := (hP.start w.client.state hr.other m mainActor).1.writes
  have hr' := refines_start hP hm hr hs
  refine ⟨_, hstep, hr', ?_, ?_⟩
  · simp only [World.clientReacts, hwrites]
    exact (frame_foldl_write _ _).trans h.toServer
  · have hidle : ¬ e.start.answered < e.start.served := by
      rw [Exchange.start_served, Exchange.start_answered, e.idle hs]
      omega
    exact (hr'.toClient.empty hidle).2

theorem aligned_serve (hP : Contract P) (hp : P.policy = .exactly 4 ∨ P.policy = .segments)
    (h : Aligned P w e) (hs : e.served < e.asked) (counter₀ : UInt32) :
    ∃ w', w.step P m (.toServer 4 counter₀) = some w' ∧ Aligned P w' (e.serve hs) := by
  have hr := h.refines
  have hpol := hr.serverPolicy ▸ hp
  obtain ⟨link, ha, hheld, hframe, _⟩ :=
    Link.exists_arrive_whole (hr.toServer.full hs) hpol h.toServer
  have hr' := refines_serve hP hr hs ⟨hheld, hframe⟩ (Link.arrive_keeps ha).2.1 counter₀
  refine ⟨_, ?_, hr', ?_, ?_⟩
  · simp only [World.step, ha, Option.map_some]
  · have hidle : ¬ (e.serve hs).served < (e.serve hs).asked := by
      have := e.asked_le_succ
      have := e.answered_le_served
      rw [Exchange.serve_served, Exchange.serve_asked]
      omega
    exact (hr'.toServer.empty hidle).2
  · simp only [World.serverReceives, hr.server, if_true, World.serverReacts]
    exact (frame_foldl_write _ _).trans h.toClient

theorem aligned_answer (hP : Contract P) (hm' : m.toNat < 2 ^ 32) (h : Aligned P w e)
    (hs : e.answered < e.served) (counter₀ : UInt32) :
    ∃ w', w.step P m (.toClient 4 counter₀) = some w' ∧ Aligned P w' (e.answer hs) := by
  have hr := h.refines
  have hpol : w.toClient.policy = .exactly 4 ∨ w.toClient.policy = .segments :=
    (clientPolicy_cases hP hr hs).imp And.left And.left
  obtain ⟨link, ha, hheld, hframe, _⟩ :=
    Link.exists_arrive_whole (hr.toClient.full hs) hpol h.toClient
  have hr' := refines_answer hP hm' hr hs ⟨hheld, hframe⟩ (Link.arrive_keeps ha).2.1 counter₀
  have halive := hr.client (Nat.lt_of_lt_of_le hs e.served_le)
  refine ⟨_, ?_, hr', ?_, ?_⟩
  · simp only [World.step, ha, Option.map_some]
  · simp only [World.clientReceives, halive, if_true, World.clientReacts]
    exact (frame_foldl_write _ _).trans h.toServer
  · have hidle : ¬ (e.answer hs).answered < (e.answer hs).served := by
      have := e.served_le_succ
      rw [Exchange.answer_served, Exchange.answer_answered]
      omega
    exact (hr'.toClient.empty hidle).2

/-- Every step of the exchange is taken by an action with whole messages. -/
theorem realises_step (hP : Contract P) (hp : P.policy = .exactly 4 ∨ P.policy = .segments)
    (hm : 1 ≤ m.toNat) (hm' : m.toNat < 2 ^ 32) {e e' : Exchange m.toNat} (h : Aligned P w e)
    (he : Exchange.Step e e') :
    ∃ a w', Whole w a ∧ (system P m).step w a = some w' ∧ Aligned P w' e' := by
  cases he with
  | start hs =>
    obtain ⟨w', hstep, ha⟩ := aligned_start hP hm h hs
    exact ⟨.start, w', trivial, hstep, ha⟩
  | serve hs =>
    obtain ⟨w', hstep, ha⟩ := aligned_serve hP hp h hs 0
    exact ⟨.toServer 4 0, w', rfl, hstep, ha⟩
  | answer hs =>
    obtain ⟨w', hstep, ha⟩ := aligned_answer hP hm' h hs 0
    exact ⟨.toClient 4 0, w', rfl, hstep, ha⟩

end NewbMeasurements.TcpSystem
