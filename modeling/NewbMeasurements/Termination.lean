import NewbMeasurements.TcpSegmentation
import NewbMeasurements.UdpProgress

/-!
Which runs end. A client compares its 32-bit counter of replies with the 64-bit
number of messages that it was asked for. Below `2 ^ 32` messages the completion
branch is inevitable in an undisturbed run, after as many replies; from there on
the comparison never succeeds, in any run.
-/

namespace NewbMeasurements.UdpSystem

open Words (Bytes)
open Datagrams (Network)
open Transitions (TransitionSystem)
open Actors PingpongUdp

variable {m : UInt64} {w w' : World} {e : Exchange m.toNat}

/-- The client has taken its completion branch. -/
def Completed (w : World) : Prop := 1 ≤ w.completed

/-- In the undisturbed run the completion branch is inevitable; it is taken by the
handler of a reply, which sends `quit_atom` to `caf_main`, after `m` replies. -/
structure Ends (m : UInt64) : Prop where
  completes : (system m).Inevitable Undisturbed Completed
  replies : ∀ as w, (system m).Meets Undisturbed .initial as → (system m).run as = some w →
    Completed w → w.clientAccepted.length = m.toNat
  notifies : ∀ as w a w', (system m).Meets Undisturbed .initial as →
    (system m).run as = some w → w.step m a = some w' → ¬ Completed w → Completed w' →
    ∃ i counter₀ payload network, a = .deliverReply i counter₀ ∧
      w.replies.deliver i = some (payload, network) ∧
      notices mainActor (rawClient counter₀ w.client.state (.newRaw payload)).2 = 1

/-! ## What the client does with a reply -/

/-- The completion branch asks the client to quit later; no other reply does. -/
theorem selfQuits_rawClient (counter₀ : UInt32) (s : State) (payload : Bytes) :
    selfQuits (rawClient counter₀ s (.newRaw payload)).2 =
      completions (rawClient counter₀ s (.newRaw payload)).2 := by
  by_cases hx : readCounter counter₀ payload = s.receivedMessages
  · by_cases hm : s.messages ≤ (s.receivedMessages + 1).toUInt64
    · simp [rawClient_last hx hm, selfQuits, completions]
    · simp [rawClient_next hx hm, selfQuits, completions]
  · simp [rawClient_stale hx, selfQuits, completions]

theorem completions_rawClient {counter₀ : UInt32} {s : State} {payload : Bytes}
    (h : completions (rawClient counter₀ s (.newRaw payload)).2 ≠ 0) :
    s.messages ≤ (s.receivedMessages + 1).toUInt64 ∧
      notices mainActor (rawClient counter₀ s (.newRaw payload)).2 =
        if s.responder = some mainActor then 1 else 0 := by
  by_cases hx : readCounter counter₀ payload = s.receivedMessages
  · by_cases hm : s.messages ≤ (s.receivedMessages + 1).toUInt64
    · refine ⟨hm, ?_⟩
      simp [rawClient_last hx hm, notices]
    · simp [rawClient_next hx hm, completions] at h
  · simp [rawClient_stale hx, completions] at h

theorem rawClient_keeps (counter₀ : UInt32) (s : State) (payload : Bytes) :
    (rawClient counter₀ s (.newRaw payload)).1.messages = s.messages ∧
      (rawClient counter₀ s (.newRaw payload)).1.responder = s.responder := by
  by_cases hx : readCounter counter₀ payload = s.receivedMessages
  · by_cases hm : s.messages ≤ (s.receivedMessages + 1).toUInt64
    · rw [rawClient_last hx hm]
      exact ⟨rfl, rfl⟩
    · rw [rawClient_next hx hm]
      exact ⟨rfl, rfl⟩
  · rw [rawClient_stale hx]
    exact ⟨rfl, rfl⟩

/-- Only the handler of a reply takes the completion branch. -/
theorem completed_step {a : Action} (h : w.step m a = some w') :
    w'.completed = w.completed ∨ ∃ i counter₀ payload network, a = .deliverReply i counter₀ ∧
      w.replies.deliver i = some (payload, network) ∧
      w'.completed = w.completed +
        completions (rawClient counter₀ w.client.state (.newRaw payload)).2 := by
  cases a with
  | start =>
    simp only [World.step] at h
    split at h
    · cases h
      exact .inl rfl
    · cases h
  | deliverPing i counter₀ =>
    obtain ⟨⟨payload, network⟩, _, rfl⟩ := Option.map_eq_some_iff.mp h
    simp only [World.serverReceives]
    split <;> exact .inl rfl
  | deliverReply i counter₀ =>
    obtain ⟨⟨payload, network⟩, hd, rfl⟩ := Option.map_eq_some_iff.mp h
    simp only [World.clientReceives]
    split
    · exact .inr ⟨i, counter₀, payload, network, rfl, hd, rfl⟩
    · exact .inl rfl
  | duplicatePing i | duplicateReply i | losePing i | loseReply i =>
    obtain ⟨network, _, rfl⟩ := Option.map_eq_some_iff.mp h
    exact .inl rfl
  | clientError op | serverError op =>
    simp only [World.step] at h
    split at h
    · cases h
      exact .inl rfl
    · cases h
  | clientQuit | serverQuit =>
    obtain ⟨party, _, rfl⟩ := Option.map_eq_some_iff.mp h
    exact .inl rfl

theorem completed_stable {a : Action} (hc : Completed w) (h : w.step m a = some w') :
    Completed w' := by
  unfold Completed at hc ⊢
  rcases completed_step h with heq | ⟨_, _, _, _, _, _, heq⟩ <;> omega

/-! ## Below the width of the counter -/

/-- The only `quit_atom` that waits for one of the actors is that of the completion branch. -/
structure QuitsCounted (w : World) : Prop where
  client : w.client.selfQuits = w.completed
  server : w.server.selfQuits = 0

theorem quitsCounted_serverReceives (h : QuitsCounted w) (counter₀ : UInt32) (payload : Bytes) :
    QuitsCounted (w.serverReceives counter₀ payload) := by
  simp only [World.serverReceives]
  split
  · refine ⟨h.client, ?_⟩
    by_cases hx : readCounter counter₀ payload = w.server.state.receivedMessages
    · simp [World.serverReacts, Party.after, rawServer_accept hx, selfQuits, h.server]
    · simp [World.serverReacts, Party.after, rawServer_stale hx, selfQuits, h.server]
  · exact h

theorem quitsCounted_clientReceives (h : QuitsCounted w) (counter₀ : UInt32) (payload : Bytes) :
    QuitsCounted (w.clientReceives counter₀ payload) := by
  simp only [World.clientReceives]
  split
  · refine ⟨?_, h.server⟩
    simp only [World.clientReacts, Party.after, selfQuits_rawClient, h.client]
  · exact h

theorem quitsCounted_step (h : QuitsCounted w) (hnot : ¬ Completed w) {a : Action}
    (hok : Undisturbed w a) (hstep : w.step m a = some w') :
    QuitsCounted w' ∧ a ≠ .clientQuit ∧ a ≠ .serverQuit := by
  cases a with
  | start =>
    simp only [World.step] at hstep
    split at hstep
    · cases hstep
      exact ⟨⟨h.client, h.server⟩, by simp, by simp⟩
    · cases hstep
  | deliverPing i counter₀ =>
    obtain ⟨⟨payload, network⟩, _, rfl⟩ := Option.map_eq_some_iff.mp hstep
    have hq : QuitsCounted { w with pings := network } := ⟨h.client, h.server⟩
    exact ⟨quitsCounted_serverReceives hq counter₀ payload, by simp, by simp⟩
  | deliverReply i counter₀ =>
    obtain ⟨⟨payload, network⟩, _, rfl⟩ := Option.map_eq_some_iff.mp hstep
    have hq : QuitsCounted { w with replies := network } := ⟨h.client, h.server⟩
    exact ⟨quitsCounted_clientReceives hq counter₀ payload, by simp, by simp⟩
  | clientQuit =>
    obtain ⟨party, hq, _⟩ := Option.map_eq_some_iff.mp hstep
    have hnone : w.client.selfQuits = 0 := by
      rw [h.client]
      exact Nat.lt_one_iff.mp (Nat.lt_of_not_le hnot)
    simp [Party.takeQuit, hnone] at hq
  | serverQuit =>
    obtain ⟨party, hq, _⟩ := Option.map_eq_some_iff.mp hstep
    simp [Party.takeQuit, h.server] at hq
  | duplicatePing i | duplicateReply i | losePing i | loseReply i => exact hok.elim
  | clientError op | serverError op => exact hok.elim

/-- **Step lemma.**  A delivery in order, like the start, is a step of the exchange. -/
theorem faithful_undisturbed (hm : 1 ≤ m.toNat) (hm' : m.toNat < 2 ^ 32) (h : Faithful w e)
    {a : Action} (hok : Undisturbed w a) (hc : a ≠ .clientQuit) (hs : a ≠ .serverQuit)
    (hstep : w.step m a = some w') : ∃ e', Exchange.Step e e' ∧ Faithful w' e' := by
  cases a with
  | start =>
    simp only [World.step] at hstep
    split at hstep
    · rename_i hen
      cases hstep
      have hidle : e.started = false := by simpa [hen.2] using h.refines.start.symm
      have hacc := accept_start hm h.refines hidle
      exact ⟨e.start, .start e hidle, hacc.1, hacc.2 h.tight⟩
    · cases hstep
  | deliverPing i counter₀ =>
    obtain ⟨⟨payload, network⟩, hd, rfl⟩ := Option.map_eq_some_iff.mp hstep
    have hlt := (payload_of_deliver h.refines.pings hd).1
    have hi : i = e.served :=
      h.tight.pings.eq_of_inOrder hok (by rwa [h.refines.length_pings])
    subst hi
    have hacc := accept_ping hm' h.refines h.tight.server hlt hd counter₀
    exact ⟨e.serve hlt, .serve e hlt, hacc.1, hacc.2 h.tight⟩
  | deliverReply i counter₀ =>
    obtain ⟨⟨payload, network⟩, hd, rfl⟩ := Option.map_eq_some_iff.mp hstep
    have hlt := (payload_of_deliver h.refines.replies hd).1
    have hi : i = e.answered :=
      h.tight.replies.eq_of_inOrder hok (by rwa [h.refines.length_replies])
    subst hi
    have hacc := accept_reply hm' h.refines h.tight.client hlt hd counter₀
    exact ⟨e.answer hlt, .answer e hlt, hacc.1, hacc.2 h.tight⟩
  | clientQuit => exact absurd rfl hc
  | serverQuit => exact absurd rfl hs
  | duplicatePing i | duplicateReply i | losePing i | loseReply i => exact hok.elim
  | clientError op | serverError op => exact hok.elim

theorem inevitable_completed (hm : 1 ≤ m.toNat) (hm' : m.toNat < 2 ^ 32) :
    (system m).Inevitable Undisturbed Completed := by
  have hinit : Faithful .initial (Exchange.initial m.toNat) ∧ QuitsCounted .initial :=
    ⟨⟨refines_initial hm, tight_initial⟩, rfl, rfl⟩
  apply TransitionSystem.inevitable_of_ranking
    (fun w (e : Exchange m.toNat) => Faithful w e ∧ QuitsCounted w) Exchange.remaining hinit
  · rintro s a s' e ⟨hf, hq⟩ hnot hok hstep
    obtain ⟨hq', hc, hs⟩ := quitsCounted_step hq hnot hok hstep
    obtain ⟨e', he, hf'⟩ := faithful_undisturbed hm hm' hf hok hc hs hstep
    exact .inr ⟨e', ⟨hf', hq'⟩, Exchange.remaining_step he⟩
  · rintro s e ⟨hf, _⟩ hnot
    have hlt : e.answered < m.toNat := by
      have hne := mt (completed_of_refines hf.refines).mpr hnot
      have hserved := e.served_le
      have hanswered := e.answered_le_served
      omega
    obtain ⟨e', he⟩ := e.exists_step hlt
    obtain ⟨a, s', hok, hstep, _⟩ := realises_step hm hm' hf he
    exact ⟨a, s', hok.2, hstep⟩
  · intro s a s' hc hstep
    exact completed_stable hc hstep

/-! ## What the client was asked for -/

/-- Nothing is on its way, or the client has been asked for `m` messages by `caf_main`. -/
def Briefed (m : UInt64) (w : World) : Prop :=
  (w.pings = [] ∧ w.replies = []) ∨
    (w.client.state.messages = m ∧ w.client.state.responder = some mainActor)

theorem briefed_of_deliver (h : Briefed m w) {i : Nat} {d : Bytes × Network Bytes}
    (hd : w.pings.deliver i = some d ∨ w.replies.deliver i = some d) :
    w.client.state.messages = m ∧ w.client.state.responder = some mainActor := by
  rcases h with ⟨hp, hr⟩ | h
  · rw [hp, hr] at hd
    simp [Network.deliver] at hd
  · exact h

theorem briefed_step (h : Briefed m w) {a : Action} (hok : Undisturbed w a)
    (hstep : w.step m a = some w') : Briefed m w' := by
  cases a with
  | start =>
    simp only [World.step] at hstep
    split at hstep
    · cases hstep
      exact .inr ⟨rfl, rfl⟩
    · cases hstep
  | deliverPing i counter₀ =>
    obtain ⟨⟨payload, network⟩, hd, rfl⟩ := Option.map_eq_some_iff.mp hstep
    have hb := briefed_of_deliver h (.inl hd)
    right
    simp only [World.serverReceives]
    split <;> exact hb
  | deliverReply i counter₀ =>
    obtain ⟨⟨payload, network⟩, hd, rfl⟩ := Option.map_eq_some_iff.mp hstep
    have hb := briefed_of_deliver h (.inr hd)
    have hkeeps := rawClient_keeps counter₀ w.client.state payload
    right
    simp only [World.clientReceives]
    split
    · exact ⟨hkeeps.1.trans hb.1, hkeeps.2.trans hb.2⟩
    · exact hb
  | clientQuit =>
    obtain ⟨party, hq, rfl⟩ := Option.map_eq_some_iff.mp hstep
    have hstate := (Party.takeQuit_cases hq).1
    unfold Briefed at h ⊢
    rw [← hstate] at h
    exact h
  | serverQuit =>
    obtain ⟨party, _, rfl⟩ := Option.map_eq_some_iff.mp hstep
    exact h
  | duplicatePing i | duplicateReply i | losePing i | loseReply i => exact hok.elim
  | clientError op | serverError op => exact hok.elim

theorem briefed_run {as : List Action} (hok : (system m).Meets Undisturbed .initial as)
    (h : (system m).run as = some w) : Briefed m w :=
  TransitionSystem.invariant_runFrom (T := system m)
    (fun _ _ _ hs hok hstep => briefed_step hs hok hstep) (.inl ⟨rfl, rfl⟩) hok h

/-- The step that completes: the handler of a reply finds enough of them. -/
theorem completes_cases (hb : Briefed m w) {a : Action} (hstep : w.step m a = some w')
    (hnot : ¬ Completed w) (hc : Completed w') :
    m ≤ (w.client.state.receivedMessages + 1).toUInt64 ∧
      ∃ i counter₀ payload network, a = .deliverReply i counter₀ ∧
        w.replies.deliver i = some (payload, network) ∧
        notices mainActor (rawClient counter₀ w.client.state (.newRaw payload)).2 = 1 := by
  unfold Completed at hnot hc
  rcases completed_step hstep with heq | ⟨i, counter₀, payload, network, rfl, hd, heq⟩
  · omega
  · obtain ⟨hmsg, hresp⟩ := briefed_of_deliver hb (.inr hd)
    have hne : completions (rawClient counter₀ w.client.state (.newRaw payload)).2 ≠ 0 := by
      omega
    obtain ⟨hle, hnotices⟩ := completions_rawClient hne
    rw [hmsg] at hle
    rw [if_pos hresp] at hnotices
    exact ⟨hle, i, counter₀, payload, network, rfl, hd, hnotices⟩

theorem ends_of_lt (hm : 1 ≤ m.toNat) (hm' : m.toNat < 2 ^ 32) : Ends m where
  completes := inevitable_completed hm hm'
  replies as w _ h hc := by
    obtain ⟨e, _, hr⟩ := refines_run hm hm' h
    rw [hr.clientAccepted, Words.length_consecutive, (completed_of_refines hr).mp hc]
  notifies as w a w' hok h hstep hnot hc :=
    (completes_cases (briefed_run hok h) hstep hnot hc).2

/-! ## From the width of the counter on -/

theorem not_completed_run (hm : 2 ^ 32 ≤ m.toNat) {as : List Action}
    (hok : (system m).Meets Undisturbed .initial as) (h : (system m).run as = some w) :
    ¬ Completed w := by
  have hinit : Briefed m .initial ∧ ¬ Completed .initial :=
    ⟨.inl ⟨rfl, rfl⟩, Nat.not_succ_le_zero 0⟩
  have hkept : ∀ s a s', Briefed m s ∧ ¬ Completed s → Undisturbed s a →
      (system m).step s a = some s' → Briefed m s' ∧ ¬ Completed s' := by
    rintro s a s' ⟨hb, hnot⟩ hok hstep
    refine ⟨briefed_step hb hok hstep, ?_⟩
    intro hc
    -- the 32-bit counter is below `2 ^ 32` before it is widened
    have hle := (completes_cases hb hstep hnot hc).1
    rw [UInt64.le_iff_toNat_le, UInt32.toNat_toUInt64] at hle
    have hlt := (s.client.state.receivedMessages + 1).toNat_lt
    omega
  exact (TransitionSystem.invariant_runFrom hkept hinit hok h).2

theorem not_ends (hm : 2 ^ 32 ≤ m.toNat) : ¬ Ends m := by
  intro h
  obtain ⟨as, w, hok, hrun, hc⟩ := h.completes.exists_run
  exact not_completed_run hm hok hrun hc

end NewbMeasurements.UdpSystem

namespace NewbMeasurements.TcpSystem

open Words (Bytes)
open ByteStreams (Link ReceivePolicy)
open Transitions (TransitionSystem)
open Actors PingpongTcp

variable {P : Pair} {m : UInt64} {w w' : World} {e : Exchange m.toNat}

/-- In the undisturbed run the completion branch is inevitable, after `m` replies. -/
structure Ends (P : Pair) (m : UInt64) : Prop where
  completes : (system P m).Inevitable Whole Noticed
  replies : ∀ as w, (system P m).Meets Whole (.initial P) as → (system P m).run as = some w →
    Noticed w → w.clientFrames.length = m.toNat

/-! ## Below the width of the counter -/

/-- **Step lemma.**  A whole message, like the start, is a step of the exchange. -/
theorem aligned_whole (hP : Contract P) (hp : P.policy = .exactly 4 ∨ P.policy = .segments)
    (hm : 1 ≤ m.toNat) (hm' : m.toNat < 2 ^ 32) (h : Aligned P w e) {a : Action}
    (hok : Whole w a) (hstep : w.step P m a = some w') :
    ∃ e', Exchange.Step e e' ∧ Aligned P w' e' := by
  cases a with
  | start =>
    have hpending : w.startPending = true := by
      by_contra hn
      simp [World.step, hn] at hstep
    have hs : e.started = false := by simpa [hpending] using h.refines.start.symm
    obtain ⟨v, hv, ha⟩ := aligned_start hP hm h hs
    rw [hstep] at hv
    cases hv
    exact ⟨e.start, .start e hs, ha⟩
  | toServer k counter₀ =>
    obtain rfl : k = 4 := hok
    have hs : e.served < e.asked := by
      by_contra hn
      simp [World.step, Link.arrive_of_held_nil (h.refines.toServer.empty hn).1] at hstep
    obtain ⟨v, hv, ha⟩ := aligned_serve hP hp h hs counter₀
    rw [hstep] at hv
    cases hv
    exact ⟨e.serve hs, .serve e hs, ha⟩
  | toClient k counter₀ =>
    obtain rfl : k = 4 := hok
    have hs : e.answered < e.served := by
      by_contra hn
      simp [World.step, Link.arrive_of_held_nil (h.refines.toClient.empty hn).1] at hstep
    obtain ⟨v, hv, ha⟩ := aligned_answer hP hm' h hs counter₀
    rw [hstep] at hv
    cases hv
    exact ⟨e.answer hs, .answer e hs, ha⟩

theorem inevitable_noticed (hP : Contract P) (hp : P.policy = .exactly 4 ∨ P.policy = .segments)
    (hm : 1 ≤ m.toNat) (hm' : m.toNat < 2 ^ 32) : (system P m).Inevitable Whole Noticed := by
  apply TransitionSystem.inevitable_of_ranking (Aligned P) Exchange.remaining
    (aligned_initial hP hm)
  · intro s a s' e hs _ hok hstep
    obtain ⟨e', he, hs'⟩ := aligned_whole hP hp hm hm' hs hok hstep
    exact .inr ⟨e', hs', Exchange.remaining_step he⟩
  · intro s e hs hnot
    obtain ⟨e', he⟩ := e.exists_step (answered_lt_of_not_noticed hs.refines hnot)
    obtain ⟨a, s', hok, hstep, _⟩ := realises_step hP hp hm hm' hs he
    exact ⟨a, s', hok, hstep⟩
  · intro s a s' hc hstep
    exact noticed_stable hc hstep

theorem ends_of_lt (hP : Contract P) (hp : P.policy = .exactly 4 ∨ P.policy = .segments)
    (hm : 1 ≤ m.toNat) (hm' : m.toNat < 2 ^ 32) : Ends P m where
  completes := inevitable_noticed hP hp hm hm'
  replies as w hok h hc := by
    have hframes : (system P m).Meets (FrameOk P) (.initial P) as :=
      TransitionSystem.meets_mono (frameOk_of_whole hp) hok
    obtain ⟨e, _, hr⟩ := refines_run hP hm hm' hframes h
    rw [hr.clientFrames, List.length_map, Words.length_consecutive,
      (noticed_of_refines hr).mp hc]

/-! ## From the width of the counter on -/

/-- What the client remembers of its task, whatever arrives, and that a read policy leaves
the bytes alone. -/
structure Keeps (P : Pair) : Prop where
  held (l : Link UInt8) (p : ReceivePolicy) : (P.configure l p).held = l.held
  start (s : State) (messages : UInt64) (responder : ActorId) :
    (P.clientStart s messages responder).1.messages = messages
  messages (counter₀ : UInt32) (s : State) (buf : Bytes) :
    (P.clientReceives counter₀ s buf).1.messages = s.messages
  notices (counter₀ : UInt32) (s : State) (buf : Bytes) :
    notices mainActor (P.clientReceives counter₀ s buf).2 ≠ 0 →
      s.messages ≤ (s.receivedMessages + 1).toUInt64

theorem keeps_traditional : Keeps traditionalPair where
  held _ _ := rfl
  start _ _ _ := rfl
  messages counter₀ s buf := by
    by_cases hm : s.messages ≤ (s.receivedMessages + 1).toUInt64
    · simp only [traditionalPair, tcpClient_last hm]
    · simp only [traditionalPair, tcpClient_next hm]
  notices counter₀ s buf h := by
    by_contra hm
    simp [traditionalPair, tcpClient_next hm, Actors.notices] at h

theorem keeps_newb : Keeps newbPair where
  held _ _ := rfl
  start _ _ _ := rfl
  messages counter₀ s buf := by
    by_cases hm : s.messages ≤ (s.receivedMessages + 1).toUInt64
    · simp only [newbPair, rawClient_last hm]
    · simp only [newbPair, rawClient_next hm]
  notices counter₀ s buf h := by
    by_contra hm
    simp [newbPair, rawClient_next hm, Actors.notices] at h

/-- Nothing is on its way, or the client has been asked for `m` messages. -/
def Briefed (m : UInt64) (w : World) : Prop :=
  (w.toServer.held = [] ∧ w.toClient.held = []) ∨ w.client.state.messages = m

theorem briefed_initial (hP : Keeps P) : Briefed m (.initial P) := by
  refine .inl ⟨?_, rfl⟩
  simp only [World.initial, reconfigure]
  split
  · exact hP.held _ _
  · rfl

theorem messages_of_arrive (h : Briefed m w) {k : Nat} {r : Link UInt8 × Option Bytes}
    (ha : w.toServer.arrive k = some r ∨ w.toClient.arrive k = some r) :
    w.client.state.messages = m := by
  rcases h with ⟨hs, hc⟩ | h
  · rw [Link.arrive_of_held_nil hs, Link.arrive_of_held_nil hc] at ha
    simp at ha
  · exact h

theorem briefed_step (hP : Keeps P) (h : Briefed m w) {a : Action}
    (hstep : w.step P m a = some w') : Briefed m w' := by
  cases a with
  | start =>
    simp only [World.step] at hstep
    split at hstep
    · cases hstep
      exact .inr (hP.start w.client.state m mainActor)
    · cases hstep
  | toServer k counter₀ =>
    obtain ⟨⟨link, out⟩, ha, rfl⟩ := Option.map_eq_some_iff.mp hstep
    have hb := messages_of_arrive h (.inl ha)
    right
    cases out with
    | none => exact hb
    | some buf =>
      simp only [World.serverReceives]
      split <;> exact hb
  | toClient k counter₀ =>
    obtain ⟨⟨link, out⟩, ha, rfl⟩ := Option.map_eq_some_iff.mp hstep
    have hb := messages_of_arrive h (.inr ha)
    right
    cases out with
    | none => exact hb
    | some buf =>
      simp only [World.clientReceives]
      split
      · exact (hP.messages counter₀ w.client.state buf).trans hb
      · exact hb

theorem not_noticed_run (hP : Keeps P) (hm : 2 ^ 32 ≤ m.toNat) {as : List Action}
    (h : (system P m).run as = some w) : ¬ Noticed w := by
  have hinit : Briefed m (.initial P) ∧ ¬ Noticed (.initial P) :=
    ⟨briefed_initial hP, Nat.not_succ_le_zero 0⟩
  have hkept : ∀ s a s', Briefed m s ∧ ¬ Noticed s → True →
      (system P m).step s a = some s' → Briefed m s' ∧ ¬ Noticed s' := by
    rintro s a s' ⟨hb, hnot⟩ _ hstep
    refine ⟨briefed_step hP hb hstep, ?_⟩
    intro hc
    unfold Noticed at hnot hc
    rcases notices_step hstep with heq | ⟨k, counter₀, buf, link, rfl, ha, heq⟩
    · omega
    · have hne : notices mainActor (P.clientReceives counter₀ s.client.state buf).2 ≠ 0 := by
        omega
      have hle := hP.notices counter₀ s.client.state buf hne
      rw [messages_of_arrive hb (.inr ha), UInt64.le_iff_toNat_le, UInt32.toNat_toUInt64] at hle
      have hlt := (s.client.state.receivedMessages + 1).toNat_lt
      omega
  exact (TransitionSystem.invariant_runFrom hkept hinit ((system P m).meets_true _ as) h).2

theorem not_ends (hP : Keeps P) (hm : 2 ^ 32 ≤ m.toNat) : ¬ Ends P m := by
  intro h
  obtain ⟨as, w, _, hrun, hc⟩ := h.completes.exists_run
  exact not_noticed_run hP hm hrun hc

end NewbMeasurements.TcpSystem

namespace NewbMeasurements.Termination

open TcpSystem (traditionalPair newbPair)

/-- **Termination.**  A requested run ends exactly if the number of messages fits
the counter of the client, in each of the three programs. -/
theorem ends_iff {m : UInt64} (hm : 1 ≤ m.toNat) :
    (UdpSystem.Ends m ↔ m.toNat < 2 ^ 32) ∧ (TcpSystem.Ends newbPair m ↔ m.toNat < 2 ^ 32) ∧
      (TcpSystem.Ends traditionalPair m ↔ m.toNat < 2 ^ 32) := by
  rcases Nat.lt_or_ge m.toNat (2 ^ 32) with hlt | hge
  · have hnewb := TcpSystem.ends_of_lt TcpSystem.contract_newb (.inr rfl) hm hlt
    have htcp := TcpSystem.ends_of_lt TcpSystem.contract_traditional (.inl rfl) hm hlt
    exact ⟨iff_of_true (UdpSystem.ends_of_lt hm hlt) hlt, iff_of_true hnewb hlt,
      iff_of_true htcp hlt⟩
  · have hnot : ¬ m.toNat < 2 ^ 32 := Nat.not_lt_of_le hge
    exact ⟨iff_of_false (UdpSystem.not_ends hge) hnot,
      iff_of_false (TcpSystem.not_ends TcpSystem.keeps_newb hge) hnot,
      iff_of_false (TcpSystem.not_ends TcpSystem.keeps_traditional hge) hnot⟩

theorem ends_iff_one : UdpSystem.Ends 1 ∧ TcpSystem.Ends newbPair 1 ∧
    TcpSystem.Ends traditionalPair 1 :=
  have h := @ends_iff 1 (by decide)
  ⟨h.1.mpr (by decide), h.2.1.mpr (by decide), h.2.2.mpr (by decide)⟩

/-- The smallest number of messages that no client ever counts up to. -/
theorem not_ends_width : 1 ≤ (4294967296 : UInt64).toNat ∧ ¬ UdpSystem.Ends 4294967296 ∧
    ¬ TcpSystem.Ends newbPair 4294967296 ∧ ¬ TcpSystem.Ends traditionalPair 4294967296 :=
  ⟨by decide, UdpSystem.not_ends (by decide), TcpSystem.not_ends TcpSystem.keeps_newb (by decide),
    TcpSystem.not_ends TcpSystem.keeps_traditional (by decide)⟩

end NewbMeasurements.Termination
