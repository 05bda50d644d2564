import NewbMeasurements.WriteSessions

/-!
How far the datagrams that a mock transport emits depend on the schedule of its
flushes and writes. Two schedules are enough to see the difference: one sends
every payload on its own, one sends all of them in one batch.
-/

namespace NewbMeasurements.Layers

open Words (Bytes)
open Chunks (nonEmpty Trims NoEmptyBetween nil_mem_of_ends)
open Transitions (TransitionSystem)

/-- Nothing is left to be sent. -/
def WritePath.Drained (p : WritePath) : Prop :=
  p.writing = false ∧ p.sendBuffer = [] ∧ p.offlineBuffer = []

/-- Some schedule writes these payloads, ends drained and emits these datagrams. -/
def Emits {τ : Type} (M : Mock τ) (payloads emitted : List Bytes) : Prop :=
  ∃ cs s, (sessions M).run cs = some s ∧ s.payloads = payloads ∧ s.emitted = emitted ∧
    (M.path s.transport).Drained

variable {τ : Type} {M : Mock τ} {payloads emitted : List Bytes}

theorem emits_iff : Emits M payloads emitted ↔ Emits writePath payloads emitted := by
  constructor
  · rintro ⟨cs, s, h, hp, he, hd⟩
    exact ⟨cs, s.onPath M, onPath_run M h, hp, he, hd⟩
  · rintro ⟨cs, s, h, hp, he, hd⟩
    obtain ⟨t, ht, rfl⟩ := exists_run_of_path M h
    exact ⟨cs, t, ht, hp, he, hd⟩

/-- At the end of a schedule the emitted datagrams are the payloads without some
empty ones. -/
theorem emits_kept (h : Emits writePath payloads emitted) :
    Trims emitted payloads ∧ (∀ c ∈ emitted.head?, c ≠ []) ∧ ∀ c ∈ emitted.getLast?, c ≠ [] := by
  obtain ⟨cs, s, hrun, rfl, rfl, hwriting, _, hoffline⟩ := h
  have hk := kept_run hrun
  have hchunks : s.chunks = s.emitted := by
    have hqueued : s.transport.queued = [] := WritePath.queued_eq_nil_iff.mpr hoffline
    rw [Session.chunks, hqueued, WritePath.pendingSend_idle hk.sound hwriting, List.append_nil,
      List.append_nil]
  exact ⟨hchunks ▸ hk.trims, hchunks ▸ hk.first, hk.last hwriting⟩

/-! ## One payload at a time -/

/-- Write, flush and send a payload; an empty one leaves nothing to send. -/
def alone (payload : Bytes) : List Call :=
  if payload = [] then [.write payload, .flush] else [.write payload, .flush, .writeSome]

theorem run_alone (emitted payloads : List Bytes) (payload : Bytes) :
    (sessions writePath).runFrom ⟨{}, emitted, payloads⟩ (alone payload) =
      some ⟨{}, emitted ++ nonEmpty [payload], payloads ++ [payload]⟩ := by
  cases payload with
  | nil => simp [alone, TransitionSystem.runFrom, sessions, Session.step, writePath,
      WritePath.append, WritePath.wrBuf, WritePath.flush, nonEmpty]
  | cons b bs => simp [alone, TransitionSystem.runFrom, sessions, Session.step, writePath,
      WritePath.append, WritePath.wrBuf, WritePath.flush, WritePath.prepareNextWrite,
      WritePath.writeSome, WritePath.advance, WritePath.emission, sizeSub, nonEmpty]

theorem run_flatMap_alone (ps emitted payloads : List Bytes) :
    (sessions writePath).runFrom ⟨{}, emitted, payloads⟩ (ps.flatMap alone) =
      some ⟨{}, emitted ++ nonEmpty ps, payloads ++ ps⟩ := by
  induction ps generalizing emitted payloads with
  | nil => simp
  | cons p ps ih =>
    rw [List.flatMap_cons, TransitionSystem.runFrom_append, run_alone, Option.bind_some, ih]
    simp [← Chunks.nonEmpty_append]

/-- A schedule that emits no empty datagram. -/
theorem emits_nonEmpty (payloads : List Bytes) : Emits writePath payloads (nonEmpty payloads) :=
  ⟨payloads.flatMap alone, _, run_flatMap_alone payloads [] [], rfl, rfl, rfl, rfl, rfl⟩

/-! ## All payloads in one batch -/

/-- The first payloads that are empty leave no trace; the others are queued. -/
theorem queued_writes (ps : List Bytes) {s : Session WritePath} (h : Kept s)
    (hwriting : s.transport.writing = false) (left : List Bytes)
    (hpayloads : s.payloads = left ++ s.transport.queued) (hleft : ∀ c ∈ left, c = []) :
    ∃ s' left', (sessions writePath).runFrom s (ps.map .write) = some s' ∧ Kept s' ∧
      s'.transport.writing = false ∧ s'.emitted = s.emitted ∧ s'.payloads = s.payloads ++ ps ∧
      s'.payloads = left' ++ s'.transport.queued ∧ ∀ c ∈ left', c = [] := by
  induction ps generalizing s left with
  | nil => exact ⟨s, left, rfl, h, hwriting, rfl, by simp, hpayloads, hleft⟩
  | cons p ps ih =>
    have hk := kept_write h p
    have hw : (s.transport.wrBuf.append p).writing = false := by
      rw [WritePath.writing_append_wrBuf, hwriting]
    have hnext : ∃ left', s.payloads ++ [p] = left' ++ (s.transport.wrBuf.append p).queued ∧
        ∀ c ∈ left', c = [] := by
      rcases WritePath.queued_append_wrBuf h.sound.toOfflineSound p with
        ⟨hq, _⟩ | ⟨hq, rfl, hq'⟩
      · exact ⟨left, by rw [hq, hpayloads, List.append_assoc], hleft⟩
      · refine ⟨left ++ [[]], by rw [hq', hpayloads, hq]; simp, ?_⟩
        intro c hc
        rcases List.mem_append.mp hc with hc | hc
        · exact hleft c hc
        · exact List.mem_singleton.mp hc
    obtain ⟨left', hp', hleft'⟩ := hnext
    obtain ⟨s', left'', hrun, hk', hw', he', hps, hrest⟩ := ih hk hw left' hp' hleft'
    refine ⟨s', left'', ?_, hk', hw', he', by simpa using hps, hrest⟩
    exact TransitionSystem.runFrom_cons.mpr ⟨_, rfl, hrun⟩

/-- A transport that is left alone sends what is pending, up to empty chunks at
the end, and drains. -/
theorem drains (n : Nat) {s : Session WritePath} (h : Kept s) (hqueued : s.transport.queued = [])
    (hn : s.transport.pendingSend.length = n) :
    ∃ cs s' right, (sessions writePath).runFrom s cs = some s' ∧ s'.payloads = s.payloads ∧
      s'.transport.Drained ∧ s.emitted ++ s.transport.pendingSend = s'.emitted ++ right ∧
      ∀ c ∈ right, c = [] := by
  induction n using Nat.strongRecOn generalizing s with
  | ind n ih =>
    cases hw : s.transport.writing with
    | false =>
      have hbuffer := (h.sound.idle hw).1
      refine ⟨[], s, [], rfl, rfl, ⟨hw, hbuffer, WritePath.queued_eq_nil_iff.mp hqueued⟩, ?_, nofun⟩
      rw [WritePath.pendingSend_idle h.sound hw]
    | true =>
      obtain ⟨p', hp', hk⟩ := kept_writeSome h hw
      obtain ⟨q, rest, hq, _, hpending, hor⟩ := WritePath.writeSome_of_writing h.sound hw
      rw [hp'] at hq
      cases hq
      have hnext : p'.queued = [] ∧ ∃ tail, rest = p'.pendingSend ++ tail ∧ ∀ c ∈ tail, c = [] := by
        rcases hor with ⟨_, hsend, hq⟩ | ⟨hrest, _, hsend, hq⟩
        · exact ⟨hq.trans hqueued, [], by simp [hsend], nofun⟩
        · exact ⟨hq, rest, by simp [hsend, hqueued], hrest⟩
      obtain ⟨hq, tail, hrest, htail⟩ := hnext
      have hlt : p'.pendingSend.length < n := by
        rw [← hn, hpending, hrest, List.length_cons, List.length_append]
        omega
      obtain ⟨cs, s', right, hrun, hpay, hd, hemit, hright⟩ := ih _ hlt hk hq rfl
      refine ⟨.writeSome :: cs, s', right ++ tail, ?_, hpay, hd, ?_, ?_⟩
      · refine TransitionSystem.runFrom_cons.mpr ⟨_, ?_, hrun⟩
        show s.step writePath .writeSome = _
        rw [step_writeSome, if_pos hw, hp', Option.map_some]
      · rw [hpending, hrest, ← List.append_assoc, ← hemit]
        simp
      · intro c hc
        exact (List.mem_append.mp hc).elim (hright c) (htail c)

/-- A schedule that emits all payloads but the empty ones at both ends. -/
theorem emits_batch (payloads : List Bytes) : ∃ left emitted right,
    Emits writePath payloads emitted ∧ left ++ (emitted ++ right) = payloads ∧
      (∀ c ∈ left, c = []) ∧ ∀ c ∈ right, c = [] := by
  obtain ⟨s, left, hrun, hk, hw, hemit, hpay, hsplit, hleft⟩ :=
    queued_writes payloads kept_init rfl [] rfl nofun
  have hflush := kept_flush hk
  have hchunks := WritePath.chunks_flush hk.sound
  rw [WritePath.queued_flush hw, WritePath.pendingSend_idle hk.sound hw, List.append_nil,
    List.nil_append] at hchunks
  obtain ⟨cs, s', right, hdrain, hpay', hd, hall, hright⟩ :=
    drains _ hflush (WritePath.queued_flush hw) rfl
  refine ⟨left, s'.emitted, right, ⟨payloads.map .write ++ .flush :: cs, s', ?_, ?_, rfl, hd⟩, ?_,
    hleft, hright⟩
  · rw [TransitionSystem.run, TransitionSystem.runFrom_append, hrun, Option.bind_some]
    exact TransitionSystem.runFrom_cons.mpr ⟨_, rfl, hdrain⟩
  · rw [hpay']
    exact hpay
  · rw [← hall, hchunks, hemit]
    exact (hsplit.symm.trans hpay)

/-! ## How far the timing shows -/

/-- The non-empty datagrams do not depend on the schedule; whether all of them do
is a matter of empty payloads between other ones. -/
def TimingIndependent (M : Mock τ) : Prop := ∀ payloads : List Bytes,
  (∀ e₁ e₂, Emits M payloads e₁ → Emits M payloads e₂ → nonEmpty e₁ = nonEmpty e₂) ∧
    ((∀ e₁ e₂, Emits M payloads e₁ → Emits M payloads e₂ → e₁ = e₂) ↔ NoEmptyBetween payloads)

theorem timingIndependent_mock (M : Mock τ) : TimingIndependent M := by
  intro payloads
  simp only [emits_iff (M := M)]
  refine ⟨?_, ?_, ?_⟩
  · intro e₁ e₂ h₁ h₂
    rw [(emits_kept h₁).1.nonEmpty, (emits_kept h₂).1.nonEmpty]
  · intro h before after heq
    by_contra hboth
    simp only [not_or, not_forall, exists_prop] at hboth
    obtain ⟨left, emitted, right, hemits, hall, hleft, hright⟩ := emits_batch payloads
    have hmem := nil_mem_of_ends (hall.trans heq) hleft hright hboth.1 hboth.2
    rw [h _ _ hemits (emits_nonEmpty payloads)] at hmem
    simp [nonEmpty] at hmem
  · intro h e₁ e₂ h₁ h₂
    obtain ⟨htrims₁, hfirst₁, hlast₁⟩ := emits_kept h₁
    obtain ⟨htrims₂, hfirst₂, hlast₂⟩ := emits_kept h₂
    rw [htrims₁.eq_nonEmpty h hfirst₁ hlast₁, htrims₂.eq_nonEmpty h hfirst₂ hlast₂]

/-- **Timing shows in empty datagrams only**, for either mock transport. -/
theorem timingIndependent :
    (∀ payloadLen, TimingIndependent (dummyTransport payloadLen)) ∧
      ∀ payloadLen, TimingIndependent (dummyOrderingTransport payloadLen) :=
  ⟨fun _ => timingIndependent_mock _, fun _ => timingIndependent_mock _⟩

/-- An empty payload between two others is sent in a batch, and is not when the
payloads go out one at a time. -/
theorem emits_depends_on_timing :
    ¬ ∀ payloads e₁ e₂, Emits (dummyTransport 64) payloads e₁ →
      Emits (dummyTransport 64) payloads e₂ → e₁ = e₂ := by
  intro h
  have hbatch : Emits (dummyTransport 64) [[97], [], [98]] [[97], [], [98]] :=
    ⟨[.write [97], .write [], .write [98], .flush, .writeSome, .writeSome, .writeSome], _,
      rfl, rfl, rfl, rfl, rfl, rfl⟩
  have halone : Emits (dummyTransport 64) [[97], [], [98]] [[97], [98]] :=
    ⟨[.write [97], .flush, .writeSome, .write [], .write [98], .flush, .writeSome], _,
      rfl, rfl, rfl, rfl, rfl, rfl⟩
  have hne := h _ _ _ hbatch halone
  simp at hne

end NewbMeasurements.Layers
