import NewbMeasurements.Layers
import NewbMeasurements.Library.Chunks
import NewbMeasurements.Library.Transitions

/-!
Sessions with a mock transport: a caller writes payloads, flushes, and lets the
transport write while it is writing, in any order. The invariant of the size
bookkeeping comes first, then what each call does to the datagrams that are
pending, and last that no session loses, merges, splits or reorders a payload.
-/

namespace NewbMeasurements.Layers

open Words (Bytes)
open Chunks (nonEmpty Trims splitLengths_append_right splitLengths_concat
  eq_nil_of_mem_splitLengths)
open Transitions (TransitionSystem)

/-- A transport whose write functions work on its write path only. -/
structure Mock (τ : Type) where
  init : τ
  path : τ → WritePath
  wrBuf : τ → τ
  append : τ → Bytes → τ
  flush : τ → τ
  writeSome : τ → Option τ
  path_init : path init = {}
  path_wrBuf : ∀ t, path (wrBuf t) = (path t).wrBuf
  path_append : ∀ t payload, path (append t payload) = (path t).append payload
  path_flush : ∀ t, path (flush t) = (path t).flush
  path_writeSome : ∀ t, (writeSome t).map path = (path t).writeSome

/-- The write path on its own. -/
def writePath : Mock WritePath where
  init := {}
  path := id
  wrBuf := WritePath.wrBuf
  append := WritePath.append
  flush := WritePath.flush
  writeSome := WritePath.writeSome
  path_init := rfl
  path_wrBuf _ := rfl
  path_append _ _ := rfl
  path_flush _ := rfl
  path_writeSome _ := Option.map_id_apply ..

def dummyTransport (payloadLen : Nat) : Mock DummyTransport where
  init := .init payloadLen
  path := DummyTransport.toWritePath
  wrBuf := DummyTransport.wrBuf
  append := DummyTransport.append
  flush := DummyTransport.flush
  writeSome := DummyTransport.writeSome
  path_init := rfl
  path_wrBuf _ := rfl
  path_append _ _ := rfl
  path_flush _ := rfl
  path_writeSome t := by simp [DummyTransport.writeSome, Function.comp_def]

def dummyOrderingTransport (payloadLen : Nat) : Mock DummyOrderingTransport where
  init := { payloadLen }
  path := DummyOrderingTransport.toWritePath
  wrBuf := DummyOrderingTransport.wrBuf
  append := DummyOrderingTransport.append
  flush := DummyOrderingTransport.flush
  writeSome := DummyOrderingTransport.writeSome
  path_init := rfl
  path_wrBuf _ := rfl
  path_append _ _ := rfl
  path_flush _ := rfl
  path_writeSome t := by simp [DummyOrderingTransport.writeSome, Function.comp_def]

/-! ## Sessions -/

/-- The datagram that the next `write_some` emits: `send_buffer` from the old to
the new value of `written`. -/
def WritePath.emission (p : WritePath) : Bytes :=
  match p.advance with
  | some p' => (p.sendBuffer.take p'.written).drop p.written
  | none => []

/-- A transport with the datagrams that it has emitted and the payloads that have
been written to it. -/
structure Session (τ : Type) where
  transport : τ
  emitted : List Bytes := []
  payloads : List Bytes := []

inductive Call
  | write (payload : Bytes)
  | flush
  | writeSome
  deriving DecidableEq, Repr

section

variable {τ : Type} (M : Mock τ)

def Session.step (s : Session τ) : Call → Option (Session τ)
  | .write payload =>
    some { s with
      transport := M.append (M.wrBuf s.transport) payload
      payloads := s.payloads ++ [payload] }
  | .flush => some { s with transport := M.flush s.transport }
  | .writeSome =>
    if (M.path s.transport).writing then
      (M.writeSome s.transport).map fun transport =>
        { s with transport, emitted := s.emitted ++ [(M.path s.transport).emission] }
    else none

def sessions : TransitionSystem (Session τ) Call where
  init := { transport := M.init }
  step := Session.step M

def Session.onPath (s : Session τ) : Session WritePath := { s with transport := M.path s.transport }

theorem onPath_step (s : Session τ) (c : Call) :
    (s.step M c).map (Session.onPath M) = (s.onPath M).step writePath c := by
  cases c with
  | write payload =>
    simp [Session.step, Session.onPath, writePath, M.path_append, M.path_wrBuf]
  | flush => simp [Session.step, Session.onPath, writePath, M.path_flush]
  | writeSome =>
    by_cases hw : (M.path s.transport).writing = true
    · simp [Session.step, Session.onPath, writePath, hw, ← M.path_writeSome, Function.comp_def]
    · simp [Session.step, Session.onPath, writePath, hw]

theorem map_runFrom (s : Session τ) (cs : List Call) :
    ((sessions M).runFrom s cs).map (Session.onPath M) =
      (sessions writePath).runFrom (s.onPath M) cs :=
  TransitionSystem.runFrom_map (onPath_step M) s cs

theorem map_run (cs : List Call) :
    ((sessions M).run cs).map (Session.onPath M) = (sessions writePath).run cs := by
  have hinit : (sessions M).init.onPath M = (sessions writePath).init := by
    simp [sessions, Session.onPath, M.path_init, writePath]
  rw [TransitionSystem.run, TransitionSystem.run, ← hinit]
  exact map_runFrom M _ cs

/-- A session with a transport is one with its write path. -/
theorem onPath_run {cs : List Call} {s : Session τ} (h : (sessions M).run cs = some s) :
    (sessions writePath).run cs = some (s.onPath M) := by
  rw [← map_run M, h, Option.map_some]

/-- Every session with the write path is one with the transport. -/
theorem exists_run_of_path {cs : List Call} {s : Session WritePath}
    (h : (sessions writePath).run cs = some s) :
    ∃ t : Session τ, (sessions M).run cs = some t ∧ t.onPath M = s := by
  rwa [← map_run, Option.map_eq_some_iff] at h

end

/-! ## The size bookkeeping -/

namespace WritePath

/-- The sizes of the chunks in `offline_buffer`, without the last one. -/
structure OfflineSound (p : WritePath) : Prop where
  offlineSum : p.offlineSum = p.offlineSizes.sum
  offlineSum_le : p.offlineSum ≤ p.offlineBuffer.length
  offlineSizes : p.offlineBuffer = [] → p.offlineSizes = []

/-- The bookkeeping of a transport between two calls. -/
structure Sound (p : WritePath) : Prop extends OfflineSound p where
  written : p.written + p.sendSizes.sum = p.sendBuffer.length
  busy : p.writing = true → p.written < p.sendBuffer.length
  idle : p.writing = false → p.sendBuffer = [] ∧ p.sendSizes = [] ∧ p.written = 0

/-- The rest of `send_buffer`, cut by `send_sizes`. -/
def pendingSend (p : WritePath) : List Bytes := p.sendSizes.splitLengths (p.sendBuffer.drop p.written)

/-- `offline_buffer`, cut by `offline_sizes`, and what is left of it. -/
def pendingOffline (p : WritePath) : List Bytes :=
  p.offlineSizes.splitLengths p.offlineBuffer ++ [p.offlineBuffer.drop p.offlineSum]

/-- The chunks that a swap of the buffers makes pending. -/
def queued (p : WritePath) : List Bytes := if p.offlineBuffer = [] then [] else p.pendingOffline

variable {p : WritePath} {payload : Bytes}

theorem sound_init : Sound {} where
  offlineSum := rfl
  offlineSum_le := Nat.le_refl _
  offlineSizes _ := rfl
  written := rfl
  busy h := by cases h
  idle _ := ⟨rfl, rfl, rfl⟩

theorem pendingSend_idle (h : p.Sound) (hw : p.writing = false) : p.pendingSend = [] := by
  rw [pendingSend, (h.idle hw).2.1, List.splitLengths_nil]

theorem queued_eq_nil_iff : p.queued = [] ↔ p.offlineBuffer = [] := by
  unfold queued pendingOffline
  split <;> simp_all

theorem nonEmpty_pendingOffline (h : p.OfflineSound) :
    nonEmpty p.pendingOffline = nonEmpty p.queued := by
  unfold queued
  split
  · rename_i he
    simp [pendingOffline, h.offlineSizes he, he, nonEmpty]
  · rfl

theorem sizeSub_of_le {a b : Nat} (h : b ≤ a) : sizeSub a b = a - b := if_pos h

/-- What `wr_buf` and an append leave in the offline buffer. -/
theorem append_wrBuf (h : p.OfflineSound) (payload : Bytes) : p.wrBuf.append payload =
    if p.offlineBuffer = [] then { p with offlineBuffer := payload }
    else { p with
      offlineBuffer := p.offlineBuffer ++ payload
      offlineSizes := p.offlineSizes ++ [p.offlineBuffer.length - p.offlineSum]
      offlineSum := p.offlineBuffer.length } := by
  have hle := h.offlineSum_le
  unfold wrBuf
  split
  · rename_i he
    simp [append, he]
  · simp only [append, sizeSub_of_le hle]
    rw [Nat.add_sub_of_le hle]

theorem sound_append_wrBuf (h : p.Sound) (payload : Bytes) : (p.wrBuf.append payload).Sound := by
  rw [append_wrBuf h.toOfflineSound]
  have hle := h.offlineSum_le
  split
  · rename_i he
    have hsizes := h.offlineSizes he
    have hsum := h.offlineSum
    refine { h with offlineSum_le := ?_, offlineSizes := fun _ => hsizes }
    simp only [hsum, hsizes, List.sum_nil, Nat.zero_le]
  · rename_i he
    refine { h with offlineSum := ?_, offlineSum_le := ?_, offlineSizes := fun hc => ?_ }
    · rw [List.sum_append, ← h.offlineSum]
      simp only [List.sum_cons, List.sum_nil]
      omega
    · simp only [List.length_append]
      omega
    · exact absurd (List.append_eq_nil_iff.mp hc).1 he

@[simp] theorem pendingSend_append_wrBuf : (p.wrBuf.append payload).pendingSend = p.pendingSend := by
  unfold wrBuf
  split <;> rfl

@[simp] theorem writing_append_wrBuf : (p.wrBuf.append payload).writing = p.writing := by
  unfold wrBuf
  split <;> rfl

/-- A payload becomes a chunk of its own, except for an empty one that finds the
offline buffer empty. -/
theorem queued_append_wrBuf (h : p.OfflineSound) (payload : Bytes) :
    ((p.wrBuf.append payload).queued = p.queued ++ [payload] ∧ (p.queued = [] → payload ≠ [])) ∨
    (p.queued = [] ∧ payload = [] ∧ (p.wrBuf.append payload).queued = []) := by
  rw [append_wrBuf h, queued_eq_nil_iff]
  by_cases he : p.offlineBuffer = []
  · have hq : p.queued = [] := queued_eq_nil_iff.mpr he
    rw [if_pos he]
    by_cases hp : payload = []
    · exact .inr ⟨he, hp, queued_eq_nil_iff.mpr hp⟩
    · have hsum := h.offlineSum
      rw [h.offlineSizes he, List.sum_nil] at hsum
      refine .inl ⟨?_, fun _ => hp⟩
      simp only [queued, if_neg hp, if_pos he, pendingOffline, h.offlineSizes he, hsum]
      rfl
  · rw [if_neg he]
    refine .inl ⟨?_, fun hc => absurd hc he⟩
    have hne : p.offlineBuffer ++ payload ≠ [] := by simp [he]
    have hcut : p.offlineSizes.sum ≤ p.offlineBuffer.length := h.offlineSum ▸ h.offlineSum_le
    have hlast : ((p.offlineBuffer ++ payload).drop p.offlineSizes.sum).take
        (p.offlineBuffer.length - p.offlineSizes.sum) = p.offlineBuffer.drop p.offlineSizes.sum := by
      rw [List.drop_append_of_le_length hcut, ← List.length_drop, List.take_left]
    simp only [queued, if_neg he, if_neg hne, pendingOffline, splitLengths_concat, h.offlineSum,
      splitLengths_append_right hcut, hlast, List.drop_left]

theorem prepareNextWrite_empty (h : p.offlineBuffer = []) : p.prepareNextWrite =
    { p with writing := false, written := 0, sendBuffer := [], sendSizes := [] } := by
  simp [prepareNextWrite, h]

theorem prepareNextWrite_swap (h : p.OfflineSound) (he : p.offlineBuffer ≠ []) :
    p.prepareNextWrite =
      { p with
        written := 0
        sendBuffer := p.offlineBuffer, offlineBuffer := []
        sendSizes := p.offlineSizes ++ [p.offlineBuffer.length - p.offlineSum], offlineSizes := []
        offlineSum := 0 } := by
  simp [prepareNextWrite, he, sizeSub_of_le h.offlineSum_le]

theorem sound_prepareNextWrite (h : p.OfflineSound) (hw : p.writing = true) :
    p.prepareNextWrite.Sound := by
  by_cases he : p.offlineBuffer = []
  · rw [prepareNextWrite_empty he]
    exact { h with written := rfl, busy := nofun, idle := fun _ => ⟨rfl, rfl, rfl⟩ }
  · rw [prepareNextWrite_swap h he]
    have hsum := h.offlineSum
    have hle := h.offlineSum_le
    refine
      { offlineSum := rfl
        offlineSum_le := Nat.le_refl _
        offlineSizes := fun _ => rfl
        written := ?_
        busy := fun _ => List.length_pos_iff.mpr he
        idle := fun hc => by simp [hw] at hc }
    simp only [List.sum_append, List.sum_cons, List.sum_nil]
    omega

/-- The queued chunks become the pending ones. -/
theorem pendingSend_prepareNextWrite (h : p.OfflineSound) :
    p.prepareNextWrite.pendingSend = p.queued := by
  by_cases he : p.offlineBuffer = []
  · rw [prepareNextWrite_empty he, queued_eq_nil_iff.mpr he]
    rfl
  · rw [prepareNextWrite_swap h he]
    have hlast : (p.offlineBuffer.drop p.offlineSizes.sum).take
        (p.offlineBuffer.length - p.offlineSizes.sum) = p.offlineBuffer.drop p.offlineSizes.sum := by
      rw [← List.length_drop, List.take_length]
    simp only [pendingSend, queued, if_neg he, pendingOffline, List.drop_zero, splitLengths_concat,
      h.offlineSum, hlast]

theorem queued_prepareNextWrite : p.prepareNextWrite.queued = [] := by
  rw [queued_eq_nil_iff]
  unfold prepareNextWrite
  dsimp only
  split
  · assumption
  · rfl

theorem sound_flush (h : p.Sound) : p.flush.Sound := by
  unfold flush
  split
  · exact sound_prepareNextWrite { h.toOfflineSound with } rfl
  · exact h

/-- A flush that swaps the buffers finds nothing pending in `send_buffer`. -/
theorem chunks_flush (h : p.Sound) :
    p.flush.pendingSend ++ p.flush.queued = p.pendingSend ++ p.queued := by
  unfold flush
  split
  · rename_i hc
    have ho : OfflineSound { p with writing := true } := { h.toOfflineSound with }
    rw [pendingSend_prepareNextWrite ho, queued_prepareNextWrite, pendingSend_idle h hc.2]
    exact List.append_nil _
  · rfl

/-- An idle transport takes everything that is queued. -/
theorem queued_flush (hw : p.writing = false) : p.flush.queued = [] := by
  unfold flush
  split
  · exact queued_prepareNextWrite
  · rename_i hc
    rw [queued_eq_nil_iff]
    by_contra he
    exact hc ⟨he, hw⟩

theorem writing_of_flush (h : p.flush.writing = false) : p.writing = false := by
  unfold flush at h
  split at h
  · rename_i hc
    exact hc.2
  · exact h

/-- The chunk at the front is emitted. -/
theorem advance_of_writing (h : p.Sound) (hw : p.writing = true) :
    ∃ p', p.advance = some p' ∧ p'.OfflineSound ∧ p'.queued = p.queued ∧ p'.writing = true ∧
      p'.written + p'.sendSizes.sum = p'.sendBuffer.length ∧
      p.pendingSend = p.emission :: p'.pendingSend ∧
      (p.emission = [] → p'.sendSizes.sum ≠ 0) := by
  have hbusy := h.busy hw
  have hwritten := h.written
  cases hs : p.sendSizes with
  | nil =>
    rw [hs, List.sum_nil] at hwritten
    omega
  | cons size rest =>
    rw [hs, List.sum_cons] at hwritten
    have hadv : p.advance = some { p with written := p.written + size, sendSizes := rest } := by
      simp only [advance, hs]
    have hemission : p.emission = (p.sendBuffer.drop p.written).take size := by
      simp only [emission, hadv, List.take_drop]
    refine ⟨_, hadv, { h.toOfflineSound with }, rfl, hw, ?_, ?_, fun he => ?_⟩
    · simp only
      omega
    · rw [hemission]
      simp only [pendingSend, hs, List.splitLengths_cons, List.drop_drop]
    · -- an empty chunk at the front leaves all the bytes to the ones behind it
      have hlen := congrArg List.length he
      rw [hemission, List.length_take, List.length_drop, List.length_nil] at hlen
      simp only
      omega

/-- A `write_some` emits the chunk at the front. If no bytes are left behind it,
the chunks behind it are dropped and the queued ones become pending. -/
theorem writeSome_of_writing (h : p.Sound) (hw : p.writing = true) :
    ∃ p' rest, p.writeSome = some p' ∧ p'.Sound ∧ p.pendingSend = p.emission :: rest ∧
      ((p'.writing = true ∧ p'.pendingSend = rest ∧ p'.queued = p.queued) ∨
        ((∀ c ∈ rest, c = []) ∧ p.emission ≠ [] ∧ p'.pendingSend = p.queued ∧ p'.queued = [])) := by
  obtain ⟨q, hadv, hoff, hqueued, hqw, hsum, hpending, hempty⟩ := advance_of_writing h hw
  have hle : q.written ≤ q.sendBuffer.length := by omega
  have hwrite : p.writeSome = some (if q.sendBuffer.length - q.written = 0 then q.prepareNextWrite
      else q) := by
    simp only [writeSome, hadv, Option.map_some, sizeSub_of_le hle]
  by_cases hrem : q.sendBuffer.length - q.written = 0
  · have hzero : q.sendSizes.sum = 0 := by omega
    rw [if_pos hrem] at hwrite
    refine ⟨_, q.pendingSend, hwrite, sound_prepareNextWrite hoff hqw, hpending, .inr
      ⟨fun c hc => eq_nil_of_mem_splitLengths hzero hc, fun he => hempty he hzero, ?_,
        queued_prepareNextWrite⟩⟩
    rw [pendingSend_prepareNextWrite hoff, hqueued]
  · rw [if_neg hrem] at hwrite
    have hsound : q.Sound :=
      { hoff with
        written := hsum
        busy := fun _ => by omega
        idle := fun hc => by simp [hqw] at hc }
    exact ⟨_, q.pendingSend, hwrite, hsound, hpending, .inl ⟨hqw, rfl, hqueued⟩⟩

end WritePath

/-! ## What a session keeps -/

/-- All datagrams of a session that are emitted or pending, in order. -/
def Session.chunks (s : Session WritePath) : List Bytes :=
  s.emitted ++ (s.transport.pendingSend ++ s.transport.queued)

/-- The chunks are the payloads without some empty ones; they do not start with
an empty one, and an idle transport has not emitted an empty one last. -/
structure Kept (s : Session WritePath) : Prop where
  sound : s.transport.Sound
  trims : Trims s.chunks s.payloads
  first : ∀ c ∈ s.chunks.head?, c ≠ []
  last : s.transport.writing = false → ∀ c ∈ s.emitted.getLast?, c ≠ []

theorem kept_init : Kept (sessions writePath).init where
  sound := WritePath.sound_init
  trims := Trims.refl _
  first := nofun
  last _ := nofun

/-- A payload is one more chunk at the end, unless it is empty and dropped. -/
theorem chunks_write {s : Session WritePath} (h : Kept s) (payload : Bytes) :
    (({ s with
        transport := s.transport.wrBuf.append payload
        payloads := s.payloads ++ [payload] } : Session WritePath).chunks =
      s.chunks ++ [payload] ∧ (s.chunks = [] → payload ≠ [])) ∨
    (payload = [] ∧ ({ s with
        transport := s.transport.wrBuf.append payload
        payloads := s.payloads ++ [payload] } : Session WritePath).chunks = s.chunks) := by
  simp only [Session.chunks, WritePath.pendingSend_append_wrBuf]
  rcases WritePath.queued_append_wrBuf h.sound.toOfflineSound payload with
    ⟨hq, hne⟩ | ⟨hq, hpayload, hq'⟩
  · refine .inl ⟨by rw [hq]; simp only [List.append_assoc], ?_⟩
    intro hnil
    exact hne (List.append_eq_nil_iff.mp (List.append_eq_nil_iff.mp hnil).2).2
  · exact .inr ⟨hpayload, by rw [hq, hq']⟩

theorem kept_write {s : Session WritePath} (h : Kept s) (payload : Bytes) :
    Kept { s with
      transport := s.transport.wrBuf.append payload
      payloads := s.payloads ++ [payload] } := by
  have hsound := WritePath.sound_append_wrBuf h.sound payload
  have hlast : (s.transport.wrBuf.append payload).writing = false →
      ∀ c ∈ s.emitted.getLast?, c ≠ [] := by
    rw [WritePath.writing_append_wrBuf]
    exact h.last
  rcases chunks_write h payload with ⟨hc, hne⟩ | ⟨rfl, hc⟩
  · refine { sound := hsound, trims := ?_, first := ?_, last := hlast }
    · rw [hc]
      exact h.trims.append (Trims.refl [payload])
    · rw [hc]
      intro c hfirst
      rw [List.head?_append, Option.mem_def, Option.or_eq_some_iff] at hfirst
      rcases hfirst with hfirst | ⟨hnone, hfirst⟩
      · exact h.first c hfirst
      · cases hfirst
        exact hne (List.head?_eq_none_iff.mp hnone)
  · refine { sound := hsound, trims := ?_, first := ?_, last := hlast }
    · rw [hc, ← List.append_nil s.chunks]
      exact h.trims.append (Trims.of_empty (by simp))
    · rw [hc]
      exact h.first

theorem kept_flush {s : Session WritePath} (h : Kept s) :
    Kept { s with transport := s.transport.flush } := by
  have hchunks : ({ s with transport := s.transport.flush } : Session WritePath).chunks =
      s.chunks := by
    simp only [Session.chunks, WritePath.chunks_flush h.sound]
  exact
    { sound := WritePath.sound_flush h.sound
      trims := hchunks ▸ h.trims
      first := hchunks ▸ h.first
      last := fun hw => h.last (WritePath.writing_of_flush hw) }

theorem kept_writeSome {s : Session WritePath} (h : Kept s) (hw : s.transport.writing = true) :
    ∃ p', s.transport.writeSome = some p' ∧
      Kept { s with transport := p', emitted := s.emitted ++ [s.transport.emission] } := by
  obtain ⟨p', rest, hwrite, hsound, hpending, hor⟩ := WritePath.writeSome_of_writing h.sound hw
  have htrims := h.trims
  have hfirst := h.first
  simp only [Session.chunks, hpending] at htrims hfirst
  refine ⟨p', hwrite, ?_⟩
  rcases hor with ⟨hbusy, hsend, hqueued⟩ | ⟨hrest, hne, hsend, hqueued⟩
  · refine { sound := hsound, trims := ?_, first := ?_, last := fun hi => ?_ }
    · simpa [Session.chunks, hsend, hqueued] using htrims
    · simpa [Session.chunks, hsend, hqueued] using hfirst
    · simp [hbusy] at hi
  · refine { sound := hsound, trims := ?_, first := ?_, last := fun _ => ?_ }
    · have hdrop : Trims (s.transport.queued ++ []) (rest ++ s.transport.queued) := by
        rw [List.append_nil]
        exact (Trims.of_empty hrest).append (Trims.refl s.transport.queued)
      have hkeep := ((Trims.refl s.emitted).append
        ((Trims.refl [s.transport.emission]).append hdrop)).trans htrims
      simpa [Session.chunks, hsend, hqueued] using hkeep
    · intro c hc
      simp only [Session.chunks] at hc
      apply hfirst c
      cases he : s.emitted with
      | nil => simpa [he] using hc
      | cons x xs => simpa [he] using hc
    · simpa using hne

theorem step_writeSome (s : Session WritePath) : s.step writePath .writeSome =
    if s.transport.writing then
      s.transport.writeSome.map fun transport =>
        { s with transport, emitted := s.emitted ++ [s.transport.emission] }
    else none := rfl

theorem kept_step {s s' : Session WritePath} {c : Call} (h : Kept s)
    (hs : s.step writePath c = some s') : Kept s' := by
  cases c with
  | write payload =>
    cases hs
    exact kept_write h payload
  | flush =>
    cases hs
    exact kept_flush h
  | writeSome =>
    rw [step_writeSome] at hs
    split at hs
    · rename_i hw
      obtain ⟨p', hp', hk⟩ := kept_writeSome h hw
      rw [hp'] at hs
      cases hs
      exact hk
    · cases hs

theorem kept_run {cs : List Call} {s : Session WritePath} (h : (sessions writePath).run cs = some s) :
    Kept s :=
  TransitionSystem.invariant_runFrom (T := sessions writePath)
    (fun _ _ _ hk _ hs => kept_step hk hs) kept_init ((sessions writePath).meets_true _ cs) h

/-- In every session the non-empty chunks are the non-empty payloads, and a call is
refused only where a `write_some` finds the transport not writing. -/
def Lossless {τ : Type} (M : Mock τ) : Prop :=
  ∀ cs s, (sessions M).run cs = some s →
    nonEmpty (s.emitted ++ (M.path s.transport).pendingSend ++ (M.path s.transport).pendingOffline) =
        nonEmpty s.payloads ∧
      ∀ c, s.step M c = none → c = .writeSome ∧ (M.path s.transport).writing = false

theorem lossless_mock {τ : Type} (M : Mock τ) : Lossless M := by
  intro cs s h
  have hk := kept_run (onPath_run M h)
  constructor
  · have hne := hk.trims.nonEmpty
    have hoff := WritePath.nonEmpty_pendingOffline hk.sound.toOfflineSound
    simp only [Session.chunks, Session.onPath, Chunks.nonEmpty_append] at hne hoff
    rw [Chunks.nonEmpty_append, Chunks.nonEmpty_append, hoff, List.append_assoc]
    exact hne
  · intro c hc
    cases c with
    | write payload => cases hc
    | flush => cases hc
    | writeSome =>
      refine ⟨rfl, ?_⟩
      by_contra hw
      rw [Bool.not_eq_false] at hw
      obtain ⟨p', hp', _⟩ := kept_writeSome hk hw
      have hmap := M.path_writeSome s.transport
      rw [show (M.path s.transport).writeSome = some p' from hp'] at hmap
      simp only [Session.step, hw, if_true, Option.map_eq_none_iff] at hc
      rw [hc] at hmap
      cases hmap

/-- **No datagram is lost, merged, split or reordered** by either mock transport. -/
theorem lossless :
    (∀ payloadLen, Lossless (dummyTransport payloadLen)) ∧
      ∀ payloadLen, Lossless (dummyOrderingTransport payloadLen) :=
  ⟨fun _ => lossless_mock _, fun _ => lossless_mock _⟩

end NewbMeasurements.Layers
