import NewbMeasurements.ClientSystem

/-!
What the `quit_atom`s that reach `caf_main` tell it. They are sent from the branch
that completes a run, and also from the handlers that tear a client down; so a
duration that is printed is valid only if no client is torn down in the middle of
a run, and `caf_main` may wait for more of them than a torn down client sends.
-/

namespace NewbMeasurements.ClientSystem

open Words (encode succ_ne)
open Transitions (TransitionSystem)
open Actors

variable {mode : Mode} {m : UInt64} {w w' : World}

/-! ## What holds in every run -/

/-- `awaitDone` takes a notice out of the mailbox, and a client that knows
`caf_main` sends one whenever it has counted a reply and needs no more. -/
structure Inv (mode : Mode) (m : UInt64) (w : World) : Prop where
  script : w.executed ++ w.todo = mode.script
  balance : w.executed.count .awaitDone + w.mailbox = w.notices
  known : w.client.state.responder ≠ none →
    w.client.state.responder = some mainActor ∧ w.client.state.messages = m
  unknown : w.client.state.responder = none → w.pings = 0 ∧ w.client.state.receivedMessages = 0
  counted : w.client.state.receivedMessages.toNat = w.accepted % 2 ^ 32
  completed : w.client.state.responder ≠ none → 0 < w.client.state.receivedMessages →
    w.client.state.messages ≤ w.client.state.receivedMessages.toUInt64 → 1 ≤ w.notices

theorem inv_initial : Inv mode m (.initial mode) where
  script := rfl
  balance := rfl
  known h := by cases mode <;> simp [World.initial, Mode.clientInit, PingpongTcp.tcpClientInit] at h
  unknown _ := by cases mode <;> exact ⟨rfl, rfl⟩
  counted := by cases mode <;> rfl
  completed h := by
    cases mode <;> simp [World.initial, Mode.clientInit, PingpongTcp.tcpClientInit] at h

/-- `caf_main` changes nothing about the client. -/
theorem mainStep_cases (h : w.mainStep = some w') : ∃ statement rest,
    w.todo = statement :: rest ∧
      w' = { w with
        todo := rest
        executed := w.executed ++ [statement]
        startPending := w'.startPending
        aborted := w'.aborted
        mailbox := w'.mailbox } ∧
      (if statement = .awaitDone then w'.mailbox + 1 = w.mailbox else w'.mailbox = w.mailbox) := by
  unfold World.mainStep at h
  split at h
  · cases h
  · rename_i statement rest htodo
    cases statement with
    | awaitDone =>
      simp only at h
      split at h
      · rename_i hpos
        cases h
        exact ⟨_, _, htodo, rfl, Nat.sub_add_cancel hpos⟩
      · cases h
    | sendStart | printDuration | abort =>
      cases h
      exact ⟨_, _, htodo, rfl, rfl⟩

theorem inv_mainStep (h : Inv mode m w) (hs : w.mainStep = some w') : Inv mode m w' := by
  obtain ⟨statement, rest, htodo, hw', hmail⟩ := mainStep_cases hs
  have hscript := h.script
  have hbalance := h.balance
  rw [htodo] at hscript
  rw [hw']
  refine { h with script := by simpa using hscript, balance := ?_ }
  simp only [List.count_append, List.count_singleton]
  by_cases hst : statement = .awaitDone
  · rw [if_pos hst] at hmail
    rw [hst]
    simp only [beq_self_eq_true, if_true]
    omega
  · rw [if_neg hst] at hmail
    simp only [beq_iff_eq, if_neg hst]
    omega

/-- A handler that leaves the state as it was. -/
theorem inv_reacts_same (h : Inv mode m w) {r : Reaction} (hstate : r.1 = w.client.state)
    (hwrites : writes connection r.2 = []) : Inv mode m (w.reacts r) := by
  refine
    { script := h.script
      balance := by simp only [World.reacts]; have := h.balance; omega
      known := ?_
      unknown := ?_
      counted := ?_
      completed := ?_ } <;>
    simp only [World.reacts, Party.after_state, hstate, hwrites, if_true, List.length_nil]
  · exact h.known
  · exact h.unknown
  · exact h.counted
  · exact fun hk hp hm => Nat.le_add_right_of_le (h.completed hk hp hm)

theorem inv_start (h : Inv mode m w) (counter₀ : UInt32) :
    Inv mode m { w.reacts (mode.handle counter₀ w.client.state (.start m mainActor)) with
      startPending := false } := by
  obtain ⟨hstate, hnotices, _⟩ := handle_start mode counter₀ w.client.state m
  refine
    { script := h.script
      balance := by simp only [World.reacts]; have := h.balance; omega
      known := ?_
      unknown := ?_
      counted := ?_
      completed := ?_ } <;>
    simp only [World.reacts, Party.after_state, hstate, if_true, hnotices]
  · exact fun _ => ⟨trivial, trivial⟩
  · exact fun hn => by cases hn
  · exact h.counted
  · intro _ hpos hle
    -- a client that has counted a reply has been started before, for the same `m`
    have hk : w.client.state.responder ≠ none := by
      intro hn
      rw [(h.unknown hn).2] at hpos
      exact absurd hpos (by decide)
    exact h.completed hk hpos ((h.known hk).2 ▸ hle)

/-- A client that has written a ping has been started. -/
theorem Inv.known_of_pings (h : Inv mode m w) (hpings : 0 < w.pings) :
    w.client.state.responder ≠ none := by
  intro hn
  rw [(h.unknown hn).1] at hpings
  exact Nat.lt_irrefl 0 hpings

/-- A handler that counts a reply. -/
theorem inv_reacts_counted (h : Inv mode m w) (hpings : 0 < w.pings) {r : Reaction}
    (hstate : r.1 =
      { w.client.state with receivedMessages := w.client.state.receivedMessages + 1 })
    (hlast : w.client.state.messages ≤ (w.client.state.receivedMessages + 1).toUInt64 →
      notices mainActor r.2 = told w.client.state) : Inv mode m (w.reacts r) := by
  have hk := h.known_of_pings hpings
  refine
    { script := h.script
      balance := by simp only [World.reacts]; have := h.balance; omega
      known := ?_
      unknown := ?_
      counted := ?_
      completed := ?_ } <;>
    simp only [World.reacts, Party.after_state, hstate, if_neg (succ_ne _)]
  · exact h.known
  · exact fun hn => absurd hn hk
  · rw [UInt32.toNat_add, h.counted]
    simp only [UInt32.reduceToNat]
    omega
  · intro _ _ hm
    rw [hlast hm, told, if_pos (h.known hk).1]
    exact Nat.le_add_left 1 _

/-- What a step can be, with the handler that it runs. -/
theorem step_cases {a : Action} (h : w.step mode m a = some w') :
    (a = .main ∧ w.mainStep = some w') ∨
    (a = .start ∧ w' = { w.reacts (mode.handle 0 w.client.state (.start m mainActor)) with
      startPending := false }) ∨
    (∃ payload counter₀, a = .reply payload counter₀ ∧ 0 < w.pings ∧
      w' = w.reacts (mode.handle counter₀ w.client.state (mode.reply payload))) ∨
    (∃ op, a = .failure op ∧
      w' = w.reacts (mode.handle 0 w.client.state (mode.failure op))) ∨
    (a = .quit ∧ ∃ client, client.state = w.client.state ∧ client.alive = w.client.alive ∧
      w' = { w with client }.reacts (mode.handle 0 client.state .quit)) := by
  unfold World.step at h
  split at h
  · cases h
  · cases a with
    | main => exact .inl ⟨rfl, h⟩
    | start =>
      simp only at h
      split at h
      · cases h
        exact .inr (.inl ⟨rfl, rfl⟩)
      · cases h
    | reply payload counter₀ =>
      simp only at h
      split at h
      · rename_i hc
        cases h
        exact .inr (.inr (.inl ⟨payload, counter₀, rfl, hc.2, rfl⟩))
      · cases h
    | failure op =>
      simp only at h
      split at h
      · cases h
        exact .inr (.inr (.inr (.inl ⟨op, rfl, rfl⟩)))
      · cases h
    | quit =>
      obtain ⟨client, hq, rfl⟩ := Option.map_eq_some_iff.mp h
      obtain ⟨hstate, halive, _⟩ := Party.takeQuit_cases hq
      exact .inr (.inr (.inr (.inr ⟨rfl, client, hstate, halive, rfl⟩)))

theorem Inv.withClient (h : Inv mode m w) {client : Party}
    (hc : client.state = w.client.state) : Inv mode m { w with client } :=
  { h with
    known := hc ▸ h.known
    unknown := hc ▸ h.unknown
    counted := hc ▸ h.counted
    completed := hc ▸ h.completed }

theorem inv_step (h : Inv mode m w) {a : Action} (hs : w.step mode m a = some w') :
    Inv mode m w' := by
  rcases step_cases hs with ⟨_, hmain⟩ | ⟨_, rfl⟩ | ⟨payload, counter₀, _, hpings, rfl⟩ |
    ⟨op, _, rfl⟩ | ⟨_, client, hc, _, rfl⟩
  · exact inv_mainStep h hmain
  · exact inv_start h 0
  · rcases handle_reply mode counter₀ w.client.state payload with hr | ⟨hr, _, hn, _⟩ |
      ⟨hr, hmore, _⟩
    · rw [hr]
      exact inv_reacts_same h rfl rfl
    · exact inv_reacts_counted h hpings hr fun _ => hn
    · exact inv_reacts_counted h hpings hr fun hle => absurd hle hmore
  · obtain ⟨hstate, hwrites, _⟩ := handle_failure mode 0 w.client.state op
    exact inv_reacts_same h hstate hwrites
  · obtain ⟨hstate, hwrites, _⟩ := handle_quit mode 0 client.state
    exact inv_reacts_same (h.withClient hc) hstate hwrites

/-! ## Printed durations -/

/-- The messages that make a client quit in the middle of a run: its own `quit_atom`
over UDP, the loss of the connection over TCP. -/
def Teardown (mode : Mode) : Action → Prop
  | .quit => True
  | .failure _ => mode.isUdp = false
  | _ => False

/-- A client is torn down only before it knows `caf_main`, or after it has counted
all replies. -/
def SoundTeardown (mode : Mode) (w : World) (a : Action) : Prop :=
  Teardown mode a → w.client.state.responder = none ∨
    w.client.state.messages ≤ w.client.state.receivedMessages.toUInt64

/-- A notice has been sent only by a client that had accepted all replies. -/
def Valid (m : UInt64) (w : World) : Prop := 1 ≤ w.notices → m.toNat ≤ w.accepted

theorem le_accepted (h : Inv mode m w) (hk : w.client.state.responder ≠ none)
    (hle : w.client.state.messages ≤ w.client.state.receivedMessages.toUInt64) :
    m.toNat ≤ w.accepted := by
  rw [(h.known hk).2, UInt64.le_iff_toNat_le, UInt32.toNat_toUInt64, h.counted] at hle
  exact Nat.le_trans hle (Nat.mod_le _ _)

/-- A teardown that meets the condition. -/
theorem valid_teardown (h : Inv mode m w) (hv : Valid m w)
    (hok : w.client.state.responder = none ∨
      w.client.state.messages ≤ w.client.state.receivedMessages.toUInt64) {r : Reaction}
    (hstate : r.1 = w.client.state) (hn : notices mainActor r.2 = told w.client.state) :
    Valid m (w.reacts r) := by
  intro hpos
  simp only [World.reacts, hstate, if_true, hn] at hpos ⊢
  by_cases hk : w.client.state.responder = some mainActor
  · have hne : w.client.state.responder ≠ none := by simp [hk]
    exact le_accepted h hne (hok.resolve_left hne)
  · rw [told, if_neg hk, Nat.add_zero] at hpos
    exact hv hpos

theorem valid_silent (hv : Valid m w) {r : Reaction} (hstate : r.1 = w.client.state)
    (hn : notices mainActor r.2 = 0) : Valid m (w.reacts r) := by
  intro hpos
  simp only [World.reacts, hstate, if_true, hn, Nat.add_zero] at hpos ⊢
  exact hv hpos

theorem valid_reply (h : Inv mode m w) (hv : Valid m w) (hpings : 0 < w.pings)
    (counter₀ : UInt32) (payload : Words.Bytes) :
    Valid m (w.reacts (mode.handle counter₀ w.client.state (mode.reply payload))) := by
  have hk := h.known_of_pings hpings
  rcases handle_reply mode counter₀ w.client.state payload with hr | ⟨hr, hle, _, _⟩ |
    ⟨hr, _, hn, _⟩
  · rw [hr]
    exact valid_silent hv rfl rfl
  · -- the reply that completes the run
    intro _
    simp only [World.reacts, hr, if_neg (succ_ne _)]
    rw [(h.known hk).2, UInt64.le_iff_toNat_le, UInt32.toNat_toUInt64, UInt32.toNat_add,
      h.counted] at hle
    simp only [UInt32.reduceToNat] at hle
    omega
  · intro hpos
    simp only [World.reacts, hr, if_neg (succ_ne _), hn, Nat.add_zero] at hpos ⊢
    exact Nat.le_succ_of_le (hv hpos)

theorem valid_step (h : Inv mode m w) (hv : Valid m w) {a : Action}
    (hok : SoundTeardown mode w a) (hs : w.step mode m a = some w') : Valid m w' := by
  rcases step_cases hs with ⟨_, hmain⟩ | ⟨_, rfl⟩ | ⟨payload, counter₀, _, hpings, rfl⟩ |
    ⟨op, rfl, rfl⟩ | ⟨rfl, client, hc, _, rfl⟩
  · obtain ⟨_, _, _, hw', _⟩ := mainStep_cases hmain
    rw [hw']
    exact hv
  · obtain ⟨hstate, hn, _⟩ := handle_start mode 0 w.client.state m
    intro hpos
    simp only [World.reacts, hstate, if_true, hn, Nat.add_zero] at hpos ⊢
    exact hv hpos
  · exact valid_reply h hv hpings counter₀ payload
  · obtain ⟨hstate, _, hudp, htcp⟩ := handle_failure mode 0 w.client.state op
    cases hmode : mode.isUdp with
    | true => exact valid_silent hv hstate (hudp hmode).1
    | false => exact valid_teardown h hv (hok hmode) hstate (htcp hmode)
  · obtain ⟨hstate, _, hudp, htcp⟩ := handle_quit mode 0 client.state
    have h' := h.withClient hc
    have hok' : client.state.responder = none ∨
        client.state.messages ≤ client.state.receivedMessages.toUInt64 := hc ▸ hok trivial
    cases hmode : mode.isUdp with
    | true => exact valid_teardown h' hv hok' hstate (hudp hmode)
    | false => exact valid_silent (w := { w with client }) hv hstate (by rw [htcp hmode]; rfl)

/-- A duration is printed only after a notice has been received. -/
theorem awaited_before_print (mode : Mode) : ∀ executed ∈ mode.script.inits,
    Statement.printDuration ∈ executed → 1 ≤ executed.count .awaitDone := by
  cases mode <;> decide

theorem notices_of_printed (h : Inv mode m w) (hp : .printDuration ∈ w.executed) :
    1 ≤ w.notices := by
  have hinits : w.executed ∈ mode.script.inits :=
    (List.mem_inits _ _).mpr ⟨w.todo, h.script⟩
  have hcount := awaited_before_print mode _ hinits hp
  have := h.balance
  omega

/-- **Printed durations** are valid in every run in which no client that knows
`caf_main` is torn down before it has counted all replies. -/
theorem printed_valid {mode : Mode} {m : UInt64} (hm : 1 ≤ m.toNat) {as : List Action} {w : World}
    (hok : (system mode m).Meets (SoundTeardown mode) (.initial mode) as)
    (h : (system mode m).run as = some w) (hp : .printDuration ∈ w.executed) :
    m.toNat ≤ w.accepted ∧ (w.accepted < 2 ^ 32 →
      w.client.state.messages ≤ w.client.state.receivedMessages.toUInt64) := by
  have hinit : Inv mode m (.initial mode) ∧ Valid m (.initial mode) :=
    ⟨inv_initial, fun hn => absurd hn (by simp [World.initial])⟩
  have hstep : ∀ s a s', Inv mode m s ∧ Valid m s → SoundTeardown mode s a →
      (system mode m).step s a = some s' → Inv mode m s' ∧ Valid m s' :=
    fun _ _ _ hi hok hs => ⟨inv_step hi.1 hs, valid_step hi.1 hi.2 hok hs⟩
  obtain ⟨hi, hv⟩ := TransitionSystem.invariant_runFrom hstep hinit hok h
  have hle := hv (notices_of_printed hi hp)
  constructor
  · exact hle
  · intro hlt
    have hcounted := hi.counted
    rw [Nat.mod_eq_of_lt hlt] at hcounted
    have hk : w.client.state.responder ≠ none := by
      intro hn
      rw [(hi.unknown hn).2, UInt32.toNat_zero] at hcounted
      omega
    rw [(hi.known hk).2, UInt64.le_iff_toNat_le, UInt32.toNat_toUInt64, hcounted]
    exact hle

/-- A run of one message over unordered UDP: the client has quit when `caf_main` prints. -/
theorem printed_valid_one : ∃ w, (system .udpUnordered 1).run
    [.main, .start, .reply (encode 0) 0, .quit, .main, .main] = some w ∧
      w.client.alive = false ∧ .printDuration ∈ w.executed ∧ 1 ≤ w.accepted := by
  refine ⟨_, rfl, rfl, by decide, ?_⟩
  refine (@printed_valid .udpUnordered 1 (by decide)
    [.main, .start, .reply (encode 0) 0, .quit, .main, .main] _ ?_ rfl (by decide)).1
  refine ⟨False.elim, fun s hs => ?_⟩
  cases hs
  refine ⟨False.elim, fun s hs => ?_⟩
  cases hs
  refine ⟨False.elim, fun s hs => ?_⟩
  cases hs
  refine ⟨fun _ => by decide, fun s _ => ?_⟩
  simp [TransitionSystem.Meets, SoundTeardown, Teardown]

/-- In every mode a failure right after the start makes `caf_main` print a duration. -/
theorem printed_without_replies (mode : Mode) : ∃ as w, (system mode 1).run as = some w ∧
    .printDuration ∈ w.executed ∧ w.accepted = 0 := by
  cases mode with
  | udpOrdered | udpUnordered =>
    exact ⟨[.main, .start, .failure .read, .quit, .main, .main], _, rfl, by decide, rfl⟩
  | tcpNewb | tcpTraditional =>
    exact ⟨[.main, .start, .failure .read, .main, .main], _, rfl, by decide, rfl⟩

theorem printed_invalid : ¬ ∀ (mode : Mode) (m : UInt64) (as : List Action) (w : World),
    1 ≤ m.toNat → (system mode m).run as = some w → .printDuration ∈ w.executed →
    m.toNat ≤ w.accepted := by
  intro h
  obtain ⟨as, w, hrun, hp, hzero⟩ := printed_without_replies .udpOrdered
  have hle := h .udpOrdered 1 as w (by decide) hrun hp
  rw [hzero] at hle
  exact absurd hle (by decide)

/-! ## Waiting for a dead client -/

/-- A client is torn down only once it knows `caf_main`, which in the unordered mode
waits for a second notice, so that there all replies must have been counted too. -/
def InformedTeardown (mode : Mode) (w : World) (a : Action) : Prop :=
  Teardown mode a → w.client.state.responder ≠ none ∧
    (mode = .udpUnordered → 0 < w.client.state.receivedMessages ∧
      w.client.state.messages ≤ w.client.state.receivedMessages.toUInt64)

/-- A client that is not there any more has sent all the notices that `caf_main` awaits. -/
def Informed (mode : Mode) (w : World) : Prop :=
  w.client.alive = false → mode.script.count .awaitDone ≤ w.notices

theorem informed_reacts (hi : Informed mode w) {r : Reaction}
    (hq : Effect.quit ∈ r.2 →
      mode.script.count .awaitDone ≤ w.notices + notices mainActor r.2) :
    Informed mode (w.reacts r) := by
  intro hdead
  simp only [World.reacts, Party.after, Bool.and_eq_false_iff, Bool.not_eq_false',
    decide_eq_true_eq] at hdead ⊢
  rcases hdead with hdead | hmem
  · exact Nat.le_add_right_of_le (hi hdead)
  · exact hq hmem

theorem awaited (mode : Mode) :
    mode.script.count .awaitDone = if mode = .udpUnordered then 2 else 1 := by
  cases mode <;> rfl

theorem informed_teardown (h : Inv mode m w) (hi : Informed mode w)
    (hk : w.client.state.responder ≠ none)
    (hdone : mode = .udpUnordered → 0 < w.client.state.receivedMessages ∧
      w.client.state.messages ≤ w.client.state.receivedMessages.toUInt64) {r : Reaction}
    (hn : notices mainActor r.2 = told w.client.state) : Informed mode (w.reacts r) := by
  apply informed_reacts hi
  intro _
  rw [awaited, hn, told, if_pos (h.known hk).1]
  split
  · rename_i hmode
    obtain ⟨hpos, hle⟩ := hdone hmode
    have := h.completed hk hpos hle
    omega
  · omega

theorem informed_step (h : Inv mode m w) (hi : Informed mode w) {a : Action}
    (hok : InformedTeardown mode w a) (hs : w.step mode m a = some w') : Informed mode w' := by
  rcases step_cases hs with ⟨_, hmain⟩ | ⟨_, rfl⟩ | ⟨payload, counter₀, _, hpings, rfl⟩ |
    ⟨op, rfl, rfl⟩ | ⟨rfl, client, hc, halive, rfl⟩
  · obtain ⟨_, _, _, hw', _⟩ := mainStep_cases hmain
    rw [hw']
    exact hi
  · obtain ⟨_, _, hq⟩ := handle_start mode 0 w.client.state m
    exact informed_reacts hi fun hmem => absurd hmem hq
  · apply informed_reacts hi
    intro hmem
    rcases handle_reply mode counter₀ w.client.state payload with hr | ⟨_, _, hn, hq⟩ |
      ⟨_, _, _, hq⟩
    · rw [hr] at hmem
      cases hmem
    · -- the new TCP client quits when it completes
      have hk := h.known_of_pings hpings
      rw [awaited, hn, told, if_pos (h.known hk).1, hq hmem]
      exact Nat.le_add_left 1 _
    · exact absurd hmem hq
  · obtain ⟨_, _, hudp, htcp⟩ := handle_failure mode 0 w.client.state op
    cases hmode : mode.isUdp with
    | true => exact informed_reacts hi fun hmem => absurd hmem (hudp hmode).2
    | false =>
      obtain ⟨hk, hdone⟩ := hok hmode
      exact informed_teardown h hi hk hdone (htcp hmode)
  · obtain ⟨_, _, hudp, htcp⟩ := handle_quit mode 0 client.state
    have hi' : Informed mode { w with client } := fun hdead => hi (halive ▸ hdead)
    cases hmode : mode.isUdp with
    | true =>
      have hok' := hok trivial
      rw [← hc] at hok'
      exact informed_teardown (h.withClient hc) hi' hok'.1 hok'.2 (hudp hmode)
    | false =>
      apply informed_reacts hi'
      intro hmem
      rw [htcp hmode] at hmem
      cases hmem

/-- **A dead client has sent every awaited notice** in every run in which no client is
torn down before it knows `caf_main` or, in the unordered mode, in the middle of the run. -/
theorem informed_run {mode : Mode} {m : UInt64} {as : List Action} {w : World}
    (hok : (system mode m).Meets (InformedTeardown mode) (.initial mode) as)
    (h : (system mode m).run as = some w) (hdead : w.client.alive = false) :
    mode.script.count .awaitDone ≤ w.notices := by
  have hinit : Inv mode m (.initial mode) ∧ Informed mode (.initial mode) := ⟨inv_initial, nofun⟩
  have hstep : ∀ s a s', Inv mode m s ∧ Informed mode s → InformedTeardown mode s a →
      (system mode m).step s a = some s' → Inv mode m s' ∧ Informed mode s' :=
    fun _ _ _ hi hok hs => ⟨inv_step hi.1 hs, informed_step hi.1 hi.2 hok hs⟩
  obtain ⟨_, hi⟩ := TransitionSystem.invariant_runFrom hstep hinit hok h
  exact hi hdead

/-- The delayed `quit_atom` of a run of one message over unordered UDP. -/
theorem informed_run_one : ∃ w, (system .udpUnordered 1).run
    [.main, .start, .reply (encode 0) 0, .quit] = some w ∧ w.client.alive = false ∧
      2 ≤ w.notices := by
  refine ⟨_, rfl, rfl, ?_⟩
  refine @informed_run .udpUnordered 1 [.main, .start, .reply (encode 0) 0, .quit] _ ?_ rfl rfl
  refine ⟨False.elim, fun s hs => ?_⟩
  cases hs
  refine ⟨False.elim, fun s hs => ?_⟩
  cases hs
  refine ⟨False.elim, fun s hs => ?_⟩
  cases hs
  exact ⟨fun _ => ⟨by decide, fun _ => by decide⟩, fun _ _ => trivial⟩

/-- A newb that fails before the start leaves `caf_main` waiting. The broker reads only after
the start, and learns of no failure before it. -/
theorem silent_before_start {mode : Mode} (hmode : mode ≠ .tcpTraditional) (m : UInt64) :
    ∃ as w, (system mode m).run as = some w ∧ w.client.alive = false ∧ w.notices = 0 := by
  cases mode with
  | udpOrdered | udpUnordered => exact ⟨[.failure .read, .quit], _, rfl, rfl, rfl⟩
  | tcpNewb => exact ⟨[.failure .read], _, rfl, rfl, rfl⟩
  | tcpTraditional => exact absurd rfl hmode

/-- Over unordered UDP a failure in the middle of a run does so too: one of two
notices is sent. -/
theorem dead_client_uninformed : ¬ ∀ (mode : Mode) (m : UInt64) (as : List Action) (w : World),
    (system mode m).run as = some w → w.client.alive = false →
    mode.script.count .awaitDone ≤ w.notices := by
  intro h
  have hle := h .udpUnordered 2 [.main, .start, .reply (encode 0) 0, .failure .read, .quit] _
    rfl rfl
  exact absurd hle (by decide)

end NewbMeasurements.ClientSystem
