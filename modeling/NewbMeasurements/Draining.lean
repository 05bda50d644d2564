import NewbMeasurements.WriteSessions

/-!
The size bookkeeping of the mock transports as the code relies on it, and what
becomes of written data where every write is followed by a flush: the `writing`
flag is up exactly while a buffer holds something, and repeated calls of
`write_some` empty both buffers, chunk by chunk.
-/

namespace NewbMeasurements.Layers

open Words (Bytes)
open Chunks (nonEmpty Trims)
open Transitions (TransitionSystem)

/-! ## Bookkeeping -/

/-- The bookkeeping between two calls. The last condition is about the inside of
`write_some`: there is a size at the front of the queue, and after it is taken
neither of the subtractions of the call wraps. -/
structure WritePath.Bookkept (p : WritePath) : Prop where
  offline : p.offlineSum = p.offlineSizes.sum ∧ p.offlineSum ≤ p.offlineBuffer.length
  send : p.written + p.sendSizes.sum = p.sendBuffer.length
  busy : p.writing = true → p.written < p.sendBuffer.length ∧ p.sendSizes ≠ []
  idle : p.writing = false → p.sendBuffer = [] ∧ p.sendSizes = [] ∧ p.written = 0
  front : p.writing = true → ∃ q, p.advance = some q ∧ q.written ≤ q.sendBuffer.length ∧
    q.offlineSum ≤ q.offlineBuffer.length

theorem WritePath.bookkept_of_sound {p : WritePath} (h : p.Sound) : p.Bookkept where
  offline := ⟨h.offlineSum, h.offlineSum_le⟩
  send := h.written
  busy hw := by
    have hbusy := h.busy hw
    refine ⟨hbusy, ?_⟩
    intro hnil
    have hsum := h.written
    rw [hnil, List.sum_nil] at hsum
    omega
  idle := h.idle
  front hw := by
    obtain ⟨q, hadv, hoff, _, _, hsum, _⟩ := advance_of_writing h hw
    exact ⟨q, hadv, by omega, hoff.offlineSum_le⟩

/-- In every session, whatever the order of the calls, the bookkeeping is right. -/
def Bookkeeps {τ : Type} (M : Mock τ) : Prop :=
  ∀ cs s, (sessions M).run cs = some s → (M.path s.transport).Bookkept

theorem bookkeeps_mock {τ : Type} (M : Mock τ) : Bookkeeps M := by
  intro cs s h
  exact WritePath.bookkept_of_sound (kept_run (onPath_run M h)).sound

/-- **No size is missing and no subtraction wraps** in either mock transport. -/
theorem bookkeeps :
    (∀ payloadLen, Bookkeeps (dummyTransport payloadLen)) ∧
      ∀ payloadLen, Bookkeeps (dummyOrderingTransport payloadLen) :=
  ⟨fun _ => bookkeeps_mock _, fun _ => bookkeeps_mock _⟩

/-! ## Sessions that flush every write -/

/-- An operation of a caller that flushes what it writes. -/
inductive Operation
  | send (payload : Bytes)
  | flush
  | writeSome
  deriving DecidableEq, Repr

def Operation.calls : Operation → List Call
  | .send payload => [.write payload, .flush]
  | .flush => [.flush]
  | .writeSome => [.writeSome]

structure WritePath.Idle (p : WritePath) : Prop where
  writing : p.writing = false
  written : p.written = 0
  offlineSum : p.offlineSum = 0
  sendBuffer : p.sendBuffer = []
  offlineBuffer : p.offlineBuffer = []
  sendSizes : p.sendSizes = []
  offlineSizes : p.offlineSizes = []

/-- Nothing waits in the offline buffer of a transport that is not writing. -/
structure Flushed (s : Session WritePath) : Prop where
  kept : Kept s
  queued : s.transport.writing = false → s.transport.queued = []

variable {s s' : Session WritePath}

theorem flushed_flush (h : Kept s) : Flushed { s with transport := s.transport.flush } where
  kept := kept_flush h
  queued hw := WritePath.queued_flush (WritePath.writing_of_flush hw)

/-- A `write_some` emits one chunk, and one chunk less is pending, or fewer. -/
theorem flushed_writeSome (h : Flushed s) (hw : s.transport.writing = true) :
    ∃ p', s.step writePath .writeSome =
        some { s with transport := p', emitted := s.emitted ++ [s.transport.emission] } ∧
      Flushed { s with transport := p', emitted := s.emitted ++ [s.transport.emission] } ∧
      p'.pendingSend.length + p'.queued.length <
        s.transport.pendingSend.length + s.transport.queued.length := by
  obtain ⟨p', hp', hk⟩ := kept_writeSome h.kept hw
  obtain ⟨q, rest, hq, _, hpending, hor⟩ := WritePath.writeSome_of_writing h.kept.sound hw
  rw [hp'] at hq
  cases hq
  refine ⟨p', ?_, ⟨hk, ?_⟩, ?_⟩
  · rw [step_writeSome, if_pos hw, hp', Option.map_some]
  · intro hidle
    rcases hor with ⟨hbusy, _⟩ | ⟨_, _, _, hqueued⟩
    · exact absurd hidle (by simp [hbusy])
    · exact hqueued
  · rw [hpending, List.length_cons]
    rcases hor with ⟨_, hsend, hqueued⟩ | ⟨_, _, hsend, hqueued⟩
    · rw [hsend, hqueued]
      omega
    · rw [hsend, hqueued, List.length_nil]
      omega

/-- **Step lemma.**  Between two operations nothing is stranded. -/
theorem flushed_operation (h : Flushed s) {op : Operation}
    (hrun : (sessions writePath).runFrom s op.calls = some s') : Flushed s' := by
  cases op with
  | send payload =>
    cases hrun
    exact flushed_flush (kept_write h.kept payload)
  | flush =>
    cases hrun
    exact flushed_flush h.kept
  | writeSome =>
    obtain ⟨t, hstep, ht⟩ := TransitionSystem.runFrom_cons.mp hrun
    cases ht
    have hw : s.transport.writing = true := by
      by_contra hn
      rw [show (sessions writePath).step s .writeSome = _ from step_writeSome s, if_neg hn] at hstep
      cases hstep
    obtain ⟨p', hp', hf, _⟩ := flushed_writeSome h hw
    rw [show (sessions writePath).step s .writeSome = _ from hp'] at hstep
    cases hstep
    exact hf

theorem flushed_run (ops : List Operation) (h : Flushed s)
    (hrun : (sessions writePath).runFrom s (ops.flatMap Operation.calls) = some s') :
    Flushed s' := by
  induction ops generalizing s with
  | nil =>
    cases hrun
    exact h
  | cons op ops ih =>
    rw [List.flatMap_cons, TransitionSystem.runFrom_append, Option.bind_eq_some_iff] at hrun
    obtain ⟨t, hop, hrest⟩ := hrun
    exact ih (flushed_operation h hop) hrest

theorem flushed_init : Flushed (sessions writePath).init := ⟨kept_init, fun _ => rfl⟩

/-! ## The drain -/

/-- A transport that is left alone sends what is pending, one chunk a call. -/
theorem drain (n : Nat) (h : Flushed s)
    (hn : s.transport.pendingSend.length + s.transport.queued.length = n) :
    ∃ k s', k ≤ n ∧ (sessions writePath).runFrom s (List.replicate k .writeSome) = some s' ∧
      Flushed s' ∧ s'.transport.writing = false ∧ s'.payloads = s.payloads ∧
      s'.emitted.length = s.emitted.length + k := by
  induction n using Nat.strongRecOn generalizing s with
  | ind n ih =>
    cases hw : s.transport.writing with
    | false => exact ⟨0, s, Nat.zero_le _, rfl, h, hw, rfl, rfl⟩
    | true =>
      obtain ⟨p', hstep, hf, hlt⟩ := flushed_writeSome h hw
      obtain ⟨k, s', hk, hrun, hf', hidle, hpay, hemit⟩ := ih _ (hn ▸ hlt) hf rfl
      refine ⟨k + 1, s', ?_, ?_, hf', hidle, hpay, ?_⟩
      · have hk' : k ≤ p'.pendingSend.length + p'.queued.length := hk
        omega
      · exact TransitionSystem.runFrom_cons.mpr ⟨_, hstep, hrun⟩
      · rw [hemit, List.length_append, List.length_singleton]
        omega

theorem idle_of_flushed (h : Flushed s) (hw : s.transport.writing = false) :
    s.transport.Idle := by
  have hsound := h.kept.sound
  obtain ⟨hbuffer, hsizes, hwritten⟩ := hsound.idle hw
  have hoffline := WritePath.queued_eq_nil_iff.mp (h.queued hw)
  have hoff := hsound.offlineSizes hoffline
  have hsum := hsound.offlineSum
  rw [hoff, List.sum_nil] at hsum
  exact ⟨hw, hwritten, hsum, hbuffer, hoffline, hsizes, hoff⟩

theorem writing_iff_of_flushed (h : Flushed s) : s.transport.writing = true ↔
    s.transport.sendBuffer ≠ [] ∨ s.transport.offlineBuffer ≠ [] := by
  constructor
  · intro hw
    have hlt := h.kept.sound.busy hw
    exact .inl (List.ne_nil_of_length_pos (by omega))
  · intro hbuffers
    by_contra hw
    have hidle := idle_of_flushed h (Bool.not_eq_true _ ▸ hw)
    exact hbuffers.elim (fun hs => hs hidle.sendBuffer) fun ho => ho hidle.offlineBuffer

/-- No more chunks are pending than there are sizes, and one for the rest of the
offline buffer. -/
theorem length_pending_le (p : WritePath) : p.pendingSend.length + p.queued.length ≤
    p.sendSizes.length + p.offlineSizes.length + 1 := by
  have hqueued : p.queued.length ≤ p.offlineSizes.length + 1 := by
    unfold WritePath.queued WritePath.pendingOffline
    split
    · exact Nat.zero_le _
    · simp
  rw [WritePath.pendingSend, List.length_splitLengths]
  omega

/-- Where no payload is empty every payload is a chunk of its own. -/
theorem chunks_of_nonEmpty (h : Kept s) (hne : ∀ c ∈ s.payloads, c ≠ []) :
    s.chunks = s.payloads := by
  have hall : ∀ c ∈ s.chunks, c ≠ [] := fun c hc => hne c (h.trims.sublist.subset hc)
  have heq := h.trims.nonEmpty
  rwa [Chunks.nonEmpty_eq_self hall, Chunks.nonEmpty_eq_self hne] at heq

/-- Between the operations of a caller that flushes its writes, the transport is
writing exactly while it holds data; then it drains, within as many calls as there
are sizes and one more, and with one call a payload where none is empty. -/
def Drains {τ : Type} (M : Mock τ) : Prop :=
  ∀ (ops : List Operation) s, (sessions M).run (ops.flatMap Operation.calls) = some s →
    ((M.path s.transport).writing = true ↔
      (M.path s.transport).sendBuffer ≠ [] ∨ (M.path s.transport).offlineBuffer ≠ []) ∧
    ((M.path s.transport).writing = true →
      ∃ n s', (sessions M).runFrom s (List.replicate n .writeSome) = some s' ∧
        (M.path s'.transport).Idle ∧
        n ≤ (M.path s.transport).sendSizes.length + (M.path s.transport).offlineSizes.length + 1 ∧
        ((∀ c ∈ s.payloads, c ≠ []) →
          ∃ pending, s.payloads = s.emitted ++ pending ∧ n = pending.length))

theorem drains_mock {τ : Type} (M : Mock τ) : Drains M := by
  intro ops s hrun
  have hf : Flushed (s.onPath M) := flushed_run ops flushed_init (onPath_run M hrun)
  refine ⟨writing_iff_of_flushed hf, ?_⟩
  intro _
  obtain ⟨n, t, hn, hdrain, hft, hidle, hpay, hemit⟩ := drain _ hf rfl
  rw [← map_runFrom, Option.map_eq_some_iff] at hdrain
  obtain ⟨s', hs', rfl⟩ := hdrain
  refine ⟨n, s', hs', idle_of_flushed hft hidle, hn.trans (length_pending_le _), ?_⟩
  intro hne
  refine ⟨_, (chunks_of_nonEmpty hf.kept hne).symm, ?_⟩
  -- the idle transport has emitted every payload
  have hall := chunks_of_nonEmpty hft.kept (hpay ▸ hne)
  rw [Session.chunks, hft.queued hidle, WritePath.pendingSend_idle hft.kept.sound hidle,
    List.append_nil, List.append_nil, hpay] at hall
  have hlen := congrArg List.length (chunks_of_nonEmpty hf.kept hne)
  rw [← hall, hemit, Session.chunks, List.length_append] at hlen
  omega

/-- **No written data is stranded and a drain terminates**, in either mock transport. -/
theorem never_stranded :
    (∀ payloadLen, Drains (dummyTransport payloadLen)) ∧
      ∀ payloadLen, Drains (dummyOrderingTransport payloadLen) :=
  ⟨fun _ => drains_mock _, fun _ => drains_mock _⟩

end NewbMeasurements.Layers
