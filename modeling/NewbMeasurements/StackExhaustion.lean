import NewbMeasurements.StackProgress

/-!
What happens where the ids of `reliability` are used up. The id of packet `2 ^ 16` is
that of the first packet; if this one is still kept, because its acknowledgements got
lost, the new packet is not kept, and nobody sends it again once it is lost. With
`proto_t` a run of more than `2 ^ 16` messages gets stuck there for good.
-/

namespace NewbMeasurements.StackSystem

open Words (Bytes encode toNat_succ)
open Datagrams (Network)
open Transitions (TransitionSystem)
open Actors PingpongUdp Protocols
open ReliableLink (Side Side.other_other Side.eq_or_eq_other Endpoint Current Known
  decodeReliability_packet)

variable {σ : Type} {next : Layer σ Bytes} {F : Framing next Bytes} {T : Transparent F id}
  {w w' : World σ} {k : Nat}

/-- The counter that either side waits for is not under way any more, and not kept. -/
structure Exhausted (T : Transparent F id) (k : Nat) (w : World σ) : Prop where
  counter : ∀ s, (w.get s).party.state.receivedMessages.toNat = k
  start : w.startPending = false
  carried : ∀ s, Carried T (fun x => ∃ i < k, x = counterOf i) (w.get s).endpoint
    (w.get s.other).endpoint

theorem Exhausted.carried_other (h : Exhausted T k w) (s : Side) :
    Carried T (fun x => ∃ i < k, x = counterOf i) (w.get s.other).endpoint (w.get s).endpoint := by
  have := h.carried s.other
  rwa [Side.other_other] at this

theorem Exhausted.set (h : Exhausted T k w) (s : Side) {p : Peer σ}
    (hstate : p.party.state = (w.get s).party.state)
    (hout : Carried T (fun x => ∃ i < k, x = counterOf i) p.endpoint (w.get s.other).endpoint)
    (hin : Carried T (fun x => ∃ i < k, x = counterOf i) (w.get s.other).endpoint p.endpoint) :
    Exhausted T k (w.set s p) where
  counter t := by
    rcases Side.eq_or_eq_other s t with rfl | rfl
    · rw [World.get_set_self, hstate]
      exact h.counter t
    · rw [World.get_set_other]
      exact h.counter _
  start := by
    rw [World.startPending_set]
    exact h.start
  carried t := by
    rcases Side.eq_or_eq_other s t with rfl | rfl
    · rwa [World.get_set_self, World.get_set_other]
    · rwa [Side.other_other, World.get_set_self, World.get_set_other]

theorem Exhausted.withOut (h : Exhausted T k w) (s : Side) {out : Network Bytes}
    (hout : ∀ x, out.InFlight x → (w.get s).endpoint.out.InFlight x) :
    Exhausted T k (w.withOut s out) :=
  h.set s rfl ((h.carried s).network hout) ((h.carried_other s).network_other out)

theorem completed_set (w : World σ) (s : Side) {p : Peer σ}
    (h : p.completed = (w.get s).completed) :
    (w.set s p).client.completed = w.client.completed := by
  cases s
  · exact h
  · rfl

theorem completed_withOut (w : World σ) (s : Side) (out : Network Bytes) :
    (w.withOut s out).client.completed = w.client.completed :=
  completed_set w s rfl

/-- What arrives has been taken before. -/
theorem exhausted_deliver (hq : Quiet next) (h : Exhausted T k w) {s : Side} {i : Nat} {x : Bytes}
    {out : Network Bytes} {counter₀ : Nat → UInt32} {p : Peer σ}
    (hd : (w.get s).endpoint.out.deliver i = some (x, out))
    (hp : (w.get s.other).arrives F (actor s.other) counter₀
      (w.get s).endpoint.frames.length x = some p) :
    Exhausted T k ((w.withOut s out).set s.other p) ∧
      ((w.withOut s out).set s.other p).client.completed = w.client.completed := by
  obtain ⟨hx, hshrinks⟩ := Network.inFlight_of_deliver hd
  obtain ⟨halive, hall⟩ := Peer.arrives_cases hp
  have hframed : ∀ id, decodeReliability x = some ⟨id, false⟩ →
      Framed F (fun x => ∃ i < k, x = counterOf i) (x.drop reliabilityHeaderLen) :=
    fun id hdec => (h.carried s).data x id hx hdec
  have hstale : Stale k ((reliability next).read (w.get s.other).endpoint.layer x).handled := by
    intro y hy
    obtain ⟨_, ⟨j, hj, rfl⟩, rfl⟩ := (yields_read (h.carried s).holds hframed).handled y hy
    exact ⟨j, hj, rfl⟩
  rw [receivesAll_stale hstale (by exact h.counter s.other) (by exact halive),
    Option.some.injEq] at hall
  subst hall
  have h₁ := h.withOut s hshrinks
  have hget : (w.withOut s out).get s.other = w.get s.other := World.get_set_other _ _ _
  constructor
  · apply h₁.set s.other
    · rw [hget]
    · rw [Side.other_other, ← hget]
      have hback := h₁.carried_other s
      exact hback.receive_other hq x _
    · rw [Side.other_other, ← hget]
      exact (h₁.carried s).receive hframed _
  · rw [completed_set, completed_withOut]
    rw [hget]

theorem exhausted_fire (hq : Quiet next) (h : Exhausted T k w) {s : Side} {i : Nat}
    {counter₀ : Nat → UInt32} {p : Peer σ}
    (hp : (w.get s).fires F (actor s) counter₀ i = some p) :
    Exhausted T k (w.set s p) ∧ (w.set s p).client.completed = w.client.completed := by
  obtain ⟨halive, atm, id, E, _, hfire, hall⟩ := Peer.fires_cases hp
  have hstale : Stale k ((reliability next).timeout (w.get s).endpoint.layer atm id).handled := by
    intro y hy
    obtain ⟨_, ⟨j, hj, rfl⟩, rfl⟩ :=
      (yields_timeout (h.carried_other s).holds atm id).handled y hy
    exact ⟨j, hj, rfl⟩
  rw [receivesAll_stale hstale (by exact h.counter s) (by exact halive), Option.some.injEq] at hall
  subst hall
  constructor
  · exact h.set s rfl ((h.carried s).fire hq hfire) ((h.carried_other s).fire_other hfire)
  · exact completed_set w s rfl

/-- **Step lemma.**  Also after errors and when the actors quit. -/
theorem exhausted_step (hq : Quiet next) (h : Exhausted T k w) {m : UInt64} {a : Action}
    (hstep : w.step F m a = some w') :
    Exhausted T k w' ∧ w'.client.completed = w.client.completed := by
  cases a with
  | start =>
    simp [World.step, h.start] at hstep
  | deliver s i counter₀ =>
    obtain ⟨⟨x, out⟩, hd, hmap⟩ := Option.bind_eq_some_iff.mp hstep
    obtain ⟨p, hp, rfl⟩ := Option.map_eq_some_iff.mp hmap
    exact exhausted_deliver hq h hd hp
  | duplicate s i =>
    obtain ⟨out, hd, rfl⟩ := Option.map_eq_some_iff.mp hstep
    exact ⟨h.withOut s fun x => Network.inFlight_of_duplicate hd, completed_withOut w s out⟩
  | lose s i =>
    obtain ⟨out, hd, rfl⟩ := Option.map_eq_some_iff.mp hstep
    exact ⟨h.withOut s fun x => Network.inFlight_of_lose hd, completed_withOut w s out⟩
  | fire s i counter₀ =>
    obtain ⟨p, hp, rfl⟩ := Option.map_eq_some_iff.mp hstep
    exact exhausted_fire hq h hp
  | error s op =>
    simp only [World.step, Peer.reacts_eq, Option.map_some] at hstep
    split at hstep
    · cases hstep
      refine ⟨h.set s ?_ ?_ ?_, completed_set w s ?_⟩
      · cases s <;> rfl
      · cases s
        · exact h.carried .client
        · exact h.carried .server
      · cases s
        · exact h.carried .server
        · exact h.carried .client
      · cases s <;> rfl
    · cases hstep
  | quit s =>
    obtain ⟨party, hquit, hmap⟩ := Option.bind_eq_some_iff.mp hstep
    rw [Peer.reacts_eq, Option.map_some, Option.some.injEq] at hmap
    subst hmap
    have hstate := (Party.takeQuit_cases hquit).1
    refine ⟨h.set s ?_ ?_ ?_, completed_set w s ?_⟩
    · cases s <;> exact hstate
    · cases s
      · exact h.carried .client
      · exact h.carried .server
    · cases s
      · exact h.carried .server
      · exact h.carried .client
    · cases s <;> rfl

/-- **Run lemma.**  Nothing completes such a run. -/
theorem exhausted_run (hq : Quiet next) (h : Exhausted T k w) {m : UInt64} {as : List Action}
    (hr : (system F m).runFrom w as = some w') : w'.client.completed = w.client.completed := by
  have hstep : ∀ v a v', (Exhausted T k v ∧ v.client.completed = w.client.completed) → True →
      (system F m).step v a = some v' →
      Exhausted T k v' ∧ v'.client.completed = w.client.completed := by
    rintro v a v' ⟨hv, hc⟩ _ hs
    obtain ⟨hv', hc'⟩ := exhausted_step hq hv hs
    exact ⟨hv', hc'.trans hc⟩
  exact (TransitionSystem.invariant_runFrom hstep ⟨h, rfl⟩ ((system F m).meets_true w as) hr).2

/-! ## A run that gets there -/

section Rounds

variable {limit : Nat} {O : InOrder F id limit} {m : UInt64} {e e' : Exchange m.toNat}

/-- The first packet of the client is still kept. -/
def KeepsFirst (w : World σ) : Prop := ∃ entry ∈ w.client.endpoint.layer.unacked, entry.1 = 0

/-- `k` messages have been answered, and nothing has been acknowledged to the client
that makes it forget the first packet. -/
structure Round (T : Transparent F id) (O : InOrder F id limit) (k : Nat) (w : World σ)
    (e : Exchange m.toNat) : Prop where
  tracks : Tracks T O w e
  started : e.started = true
  served : e.served = k
  answered : e.answered = k
  keeps : KeepsFirst w

/-- The message that is needed is sent again and arrives. -/
theorem exists_turn (hq : Quiet next) (h : Tracks T O w e) {s : Side} (hroom : Room e s)
    (hturn : takenFrom e s < writtenBy e s) (hkeeps : KeepsFirst w) :
    ∃ as w', (system F m).Meets ErrorFree w as ∧ (system F m).runFrom w as = some w' ∧
      Advances T O w' e ∧ KeepsFirst w' := by
  obtain ⟨i, w₁, f, hs₁, h₁, hc, hx, hlayer⟩ := exists_resend hq h hturn
  obtain ⟨j, w₂, hs₂, hadv, hunacked⟩ := exists_arrival hq hroom h₁ hc hx
  refine ⟨[.fire s i fun _ => 0, .deliver s j fun _ => 0], w₂, ?_, ?_, hadv, ?_⟩
  · exact ⟨trivial, fun _ _ => ⟨trivial, fun _ _ => trivial⟩⟩
  · refine TransitionSystem.runFrom_cons.mpr ⟨w₁, hs₁, ?_⟩
    exact TransitionSystem.runFrom_cons.mpr ⟨w₂, hs₂, rfl⟩
  · obtain ⟨entry, hentry, hid⟩ := hkeeps
    refine ⟨entry, hunacked .client entry ?_, hid⟩
    rw [hlayer .client]
    exact hentry

theorem served_of_step (h : Exchange.Step e e') (hs : e.started = true) (hk : e.served = k)
    (hk' : e.answered = k) : e'.served = k + 1 ∧ e'.answered = k ∧ e'.started = true := by
  cases h with
  | start hidle => simp [hs] at hidle
  | serve hlt => exact ⟨by rw [Exchange.serve_served, hk], hk', hs⟩
  | answer hlt => omega

theorem answered_of_step (h : Exchange.Step e e') (hs : e.started = true) (hk : e.served = k + 1)
    (hk' : e.answered = k) : e'.served = k + 1 ∧ e'.answered = k + 1 ∧ e'.started = true := by
  cases h with
  | start hidle => simp [hs] at hidle
  | serve hlt =>
    rw [Exchange.asked_of_started hs] at hlt
    omega
  | answer hlt => exact ⟨hk, by rw [Exchange.answer_answered, hk'], hs⟩

/-- The next message reaches the server. -/
theorem exists_served (hq : Quiet next) (hk : k < 2 ^ 16) (hkm : k + 1 < m.toNat)
    (h : Round T O k w e) :
    ∃ as w' e', (system F m).Meets ErrorFree w as ∧ (system F m).runFrom w as = some w' ∧
      Tracks T O (m := m) w' e' ∧ e'.started = true ∧ e'.served = k + 1 ∧ e'.answered = k ∧
      KeepsFirst w' := by
  have hlt : takenFrom e .client < writtenBy e .client := by
    show e.served < e.asked
    rw [Exchange.asked_of_started h.started, h.served, h.answered]
    omega
  have hroom : Room e .client := by
    left
    show e.served < 2 ^ 16
    rwa [h.served]
  obtain ⟨as, w', hm, hr, ⟨e', he', ht⟩ | ⟨hall, _⟩, hkeeps⟩ :=
    exists_turn hq h.tracks hroom hlt h.keeps
  · obtain ⟨hserved, hanswered, hstarted⟩ := served_of_step he' h.started h.served h.answered
    exact ⟨as, w', e', hm, hr, ht, hstarted, hserved, hanswered, hkeeps⟩
  · rw [h.answered] at hall
    omega

/-- By induction on the rounds; each of them takes two ids. -/
theorem exists_round (T : Transparent F id) (O : InOrder F id limit) (hq : Quiet next) (k : Nat)
    (hk : k < 2 ^ 16) (hkm : k < m.toNat) :
    ∃ as w e, (system F m).Meets ErrorFree (.initial next) as ∧ (system F m).run as = some w ∧
      Round (m := m) T O k w e := by
  induction k with
  | zero =>
    have h := tracks_start hkm (tracks_initial T O hkm) rfl
    refine ⟨[.start], _, _, ⟨trivial, fun _ _ => trivial⟩, ?_, h, rfl, rfl, rfl, ?_⟩
    · have hstart : (World.initial next).step F m .start = some _ := step_start rfl rfl
      exact TransitionSystem.runFrom_cons.mpr ⟨_, hstart, rfl⟩
    · exact ⟨(0, _), List.mem_singleton.mpr rfl, rfl⟩
  | succ k ih =>
    obtain ⟨as, w, e, hm, hr, h⟩ := ih (by omega) (by omega)
    obtain ⟨bs, w₁, e₁, hm₁, hr₁, h₁, hstarted, hserved, hanswered, hkeeps⟩ :=
      exists_served hq (by omega) hkm h
    have hlt : takenFrom e₁ .server < writtenBy e₁ .server := by
      show e₁.answered < e₁.served
      omega
    have hroom : Room e₁ .server := by
      left
      show e₁.asked < 2 ^ 16
      rw [Exchange.asked_of_started hstarted, hanswered]
      omega
    obtain ⟨cs, w₂, hm₂, hr₂, ⟨e₂, he₂, h₂⟩ | ⟨hall, _⟩, hkeeps₂⟩ :=
      exists_turn hq h₁ hroom hlt hkeeps
    · obtain ⟨hserved₂, hanswered₂, hstarted₂⟩ :=
        answered_of_step he₂ hstarted hserved hanswered
      refine ⟨as ++ (bs ++ cs), w₂, e₂, ?_, ?_, h₂, hstarted₂, hserved₂, hanswered₂, hkeeps₂⟩
      · exact TransitionSystem.meets_append hm hr (TransitionSystem.meets_append hm₁ hr₁ hm₂)
      · rw [TransitionSystem.run] at hr ⊢
        rw [TransitionSystem.runFrom_append, hr, Option.bind_some,
          TransitionSystem.runFrom_append, hr₁, Option.bind_some, hr₂]
    · omega

/-! ## The packet that is not kept -/

/-- A packet with an id in use is not kept; if it is lost too, it leaves no trace. -/
theorem Carried.wrote_lost {p : Bytes → Prop} {P Q : Endpoint σ Bytes Bytes}
    (h : Carried T p P Q) (hid : ∃ entry ∈ P.layer.unacked, entry.1 = P.layer.idWrite) (x : Bytes)
    {out : Network Bytes} (hout : ∀ y, out.InFlight y → P.out.InFlight y) :
    Carried T p { P.wrote F x with out } Q where
  data y id hy := h.data y id (hout y hy)
  kept := by
    have hany : P.layer.unacked.any (·.1 = P.layer.idWrite) = true := by
      rw [List.any_eq_true]
      obtain ⟨entry, hentry, hid⟩ := hid
      exact ⟨entry, hentry, decide_eq_true hid⟩
    have hsame : (P.wrote F x).layer.unacked = P.layer.unacked := if_pos hany
    show ∀ entry ∈ (P.wrote F x).layer.unacked, _
    rw [hsame]
    exact h.kept
  holds := h.holds

/-- The reply to message `2 ^ 16 - 1` makes the client send a packet with the id of the
first one, which the network loses. -/
theorem exhausted_arrives (hq : Quiet next) (hm : 2 ^ 16 < m.toNat) (h : Tracks T O w e)
    (hserved : e.served = 2 ^ 16) (hanswered : e.answered + 1 = 2 ^ 16) (hkeeps : KeepsFirst w)
    {f : Bytes} (hc : Current w.server.endpoint e.answered f)
    (hx : Known w.net .server (Framing.packet (UInt16.ofNat e.answered) f)) :
    ∃ p i out, w.client.arrives F rawClient (fun _ => 0) w.server.endpoint.frames.length
        (Framing.packet (UInt16.ofNat e.answered) f) = some p ∧
      p.endpoint.out.lose i = some out ∧ p.completed = 0 ∧
      Exhausted T (2 ^ 16) ((w.set .client p).withOut .client out) := by
  have hlt : e.answered < e.served := by omega
  have hasked : e.asked = 2 ^ 16 := (Exchange.asked_of_turn hlt).trans hserved
  obtain ⟨E, hE⟩ : ∃ E, E = w.client.endpoint.receive next w.server.endpoint.frames.length
    (Framing.packet (UInt16.ofNat e.answered) f) := ⟨_, rfl⟩
  have hinv : ReliableLink.Inv (w.net.set .client E) := by
    rw [hE]
    exact ReliableLink.inv_receive h.inv hq hx
  have hback : Flow T O m.toNat E w.server.endpoint e.asked e.served := by
    rw [hE]
    exact (h.flow .client).receive_other hq _ _
  obtain ⟨hone, hflow⟩ := (h.flow .server).receive_next hq (writtenBy_le e .server) hc
  have hin : Flow T O m.toNat w.server.endpoint E e.served (e.answered + 1) := by
    rw [hE]
    exact hflow
  have hid : ∃ entry ∈ E.layer.unacked, entry.1 = E.layer.idWrite := by
    obtain ⟨entry, hentry, hzero⟩ := hkeeps
    have hwrite : E.layer.idWrite = UInt16.ofNat E.frames.length := (hinv .client).idWrite
    rw [hback.length, hasked] at hwrite
    refine ⟨entry, ?_, hzero.trans hwrite.symm⟩
    rw [hE, Endpoint.receive_data next w.client.endpoint _ hq (decodeReliability_packet _ f)]
    exact hentry
  have hcounter : w.client.party.state.receivedMessages.toNat = e.answered := h.counter .client
  have hmsg := h.messages (Exchange.started_of_answered_lt hlt)
  have hsucc := toNat_succ hcounter (show e.answered + 1 < 2 ^ 32 by omega)
  have hlast : ¬ w.client.party.state.messages ≤
      (w.client.party.state.receivedMessages + 1).toUInt64 := by
    rw [hmsg, UInt64.le_iff_toNat_le, UInt32.toNat_toUInt64, hsucc]
    omega
  have hreceived := received_answer (F := F) (p := { w.client with endpoint := E }) hcounter hlast 0
  obtain ⟨out, hlose, hout⟩ := Network.exists_lose_send E.out (Framing.packet E.layer.idWrite
    (F.frame E.layer.next (encode (w.client.party.state.receivedMessages + 1))))
  have harrives : w.client.arrives F rawClient (fun _ => 0) w.server.endpoint.frames.length
      (Framing.packet (UInt16.ofNat e.answered) f) =
      some { w.client with
        party.state.receivedMessages := w.client.party.state.receivedMessages + 1
        endpoint := E.wrote F (encode (w.client.party.state.receivedMessages + 1))
        accepted := w.client.accepted ++ [UInt32.ofNat e.answered] } := by
    have hhandled : ((reliability next).read w.client.endpoint.layer
        (Framing.packet (UInt16.ofNat e.answered) f)).handled = [counterOf e.answered] := hone
    have halive : w.client.party.alive = true := h.alive .client
    have hall := receivesAll_singleton (F := F) (s := .client)
      (p := { w.client with endpoint := E }) halive (fun _ => 0) (counterOf e.answered)
    rw [Peer.arrives, if_pos halive, hhandled, ← hE]
    exact hall.trans (congrArg some hreceived)
  refine ⟨_, E.out.length, out, harrives, hlose, h.completed, ?_⟩
  have hstart : w.startPending = false := by
    rw [h.start, Exchange.started_of_answered_lt hlt]
    rfl
  refine ⟨?_, hstart, ?_⟩
  · intro s
    cases s
    · exact hsucc.trans hanswered
    · exact (h.counter .server).trans hserved
  · intro s
    cases s
    · have hout' := hback.carried
      rw [hasked] at hout'
      exact hout'.wrote_lost hid _ hout
    · have hin' := hin.carried
      rw [hserved] at hin'
      exact (hin'.wrote_other _).network_other out

/-- After `2 ^ 16 - 1` answers the run can get stuck. -/
theorem exists_exhausted (hq : Quiet next) (hm : 2 ^ 16 < m.toNat) (h : Tracks T O w e)
    (hserved : e.served = 2 ^ 16) (hanswered : e.answered + 1 = 2 ^ 16) (hkeeps : KeepsFirst w) :
    ∃ as w', (system F m).Meets ErrorFree w as ∧ (system F m).runFrom w as = some w' ∧
      Exhausted T (2 ^ 16) w' ∧ w'.client.completed = 0 := by
  have hlt : takenFrom e .server < writtenBy e .server := by
    show e.answered < e.served
    omega
  obtain ⟨i, w₁, f, hs₁, h₁, hc, hx, hlayer⟩ := exists_resend hq h hlt
  obtain ⟨j, out, hd⟩ := hx.exists_deliver
  obtain ⟨_, hshrinks⟩ := Network.inFlight_of_deliver hd
  have hkeeps₁ : KeepsFirst (w₁.withOut .server out) := by
    obtain ⟨entry, hentry, hid⟩ := hkeeps
    refine ⟨entry, ?_, hid⟩
    show entry ∈ (w₁.get .client).endpoint.layer.unacked
    rw [hlayer .client]
    exact hentry
  obtain ⟨p, k, lost, harrives, hlose, hcompleted, hexhausted⟩ :=
    exhausted_arrives hq hm (h₁.network .server hshrinks) hserved hanswered hkeeps₁ hc
      (h₁.known_withOut hx out)
  have hdeliver : w₁.step F m (.deliver .server j fun _ => 0) =
      some ((w₁.withOut .server out).set .client p) := by
    simp only [World.step, hd, Option.bind_some]
    exact congrArg (Option.map _) harrives
  have hlost : ((w₁.withOut .server out).set .client p).step F m (.lose .client k) =
      some (((w₁.withOut .server out).set .client p).withOut .client lost) :=
    congrArg (Option.map _) hlose
  refine ⟨[.fire .server i fun _ => 0, .deliver .server j fun _ => 0, .lose .client k], _, ?_, ?_,
    hexhausted, hcompleted⟩
  · exact ⟨trivial, fun _ _ => ⟨trivial, fun _ _ => ⟨trivial, fun _ _ => trivial⟩⟩⟩
  · refine TransitionSystem.runFrom_cons.mpr ⟨w₁, hs₁, ?_⟩
    refine TransitionSystem.runFrom_cons.mpr ⟨_, hdeliver, ?_⟩
    exact TransitionSystem.runFrom_cons.mpr ⟨_, hlost, rfl⟩

/-- **Ids run out.**  If more than `2 ^ 16` messages are asked for, some run without
errors ends in a state from which no run at all completes, although nothing but
acknowledgements and one packet has been lost. The layers on top of `reliability` only
have to keep so many frames apart. -/
theorem gets_stuck (T : Transparent F id) (O : InOrder F id limit) (hq : Quiet next)
    (hm : 2 ^ 16 < m.toNat) :
    ∃ as w, (system F m).Meets ErrorFree (.initial next) as ∧ (system F m).run as = some w ∧
      ∀ bs w', (system F m).runFrom w bs = some w' → w'.client.completed = 0 := by
  obtain ⟨as, w, e, hm₀, hr₀, h⟩ :=
    exists_round (m := m) T O hq (2 ^ 16 - 1) (by omega) (by omega)
  obtain ⟨bs, w₁, e₁, hm₁, hr₁, h₁, _, hserved, hanswered, hkeeps⟩ :=
    exists_served hq (by omega) (by omega) h
  obtain ⟨cs, w₂, hm₂, hr₂, hexhausted, hcompleted⟩ :=
    exists_exhausted hq hm h₁ (by omega) (by omega) hkeeps
  refine ⟨as ++ (bs ++ cs), w₂, ?_, ?_, ?_⟩
  · exact TransitionSystem.meets_append hm₀ hr₀ (TransitionSystem.meets_append hm₁ hr₁ hm₂)
  · rw [TransitionSystem.run] at hr₀ ⊢
    rw [TransitionSystem.runFrom_append, hr₀, Option.bind_some, TransitionSystem.runFrom_append,
      hr₁, Option.bind_some, hr₂]
  · intro ds w' hr
    rw [exhausted_run hq hexhausted hr, hcompleted]

end Rounds

/-- With `proto_t` every run without errors can still be completed exactly where at most
`2 ^ 16` messages are asked for. -/
theorem proto_completes_iff {m : UInt64} (hm : 1 ≤ m.toNat) :
    (∀ as w, (system Framing.raw m).Meets ErrorFree (.initial raw) as →
      (system Framing.raw m).run as = some w →
      ∃ bs w', (system Framing.raw m).Meets (fun _ a => a.IsOnward) w bs ∧
        (system Framing.raw m).runFrom w bs = some w' ∧ 1 ≤ w'.client.completed) ↔
    m.toNat ≤ 2 ^ 16 := by
  constructor
  · intro h
    by_contra hlt
    obtain ⟨as, w, hok, hr, hstuck⟩ :=
      gets_stuck Transparent.raw (InOrder.raw 0) quiet_raw (Nat.lt_of_not_le hlt)
    obtain ⟨bs, w', _, hr', hdone⟩ := h as w hok hr
    rw [hstuck bs w' hr'] at hdone
    omega
  · intro hle as w hok hr
    exact proto_completes hm hle hok hr

/-- It does not hold for one message more. -/
theorem proto_completes_iff_65537 :
    (∀ as w, (system Framing.raw 65537).Meets ErrorFree (.initial raw) as →
      (system Framing.raw 65537).run as = some w →
      ∃ bs w', (system Framing.raw 65537).Meets (fun _ a => a.IsOnward) w bs ∧
        (system Framing.raw 65537).runFrom w bs = some w' ∧ 1 ≤ w'.client.completed) ↔
    (65537 : UInt64).toNat ≤ 2 ^ 16 :=
  proto_completes_iff (by decide)

end NewbMeasurements.StackSystem
