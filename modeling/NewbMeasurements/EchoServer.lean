import NewbMeasurements.Library.Transitions
import NewbMeasurements.Library.Words

/-!
The server loop of `pp_tcp_pure.cpp` on one accepted connection. What `recv` and
`send` return is up to the environment. The loop hands each chunk to `send` once
and goes on unless the result is negative, so that what a short `send` leaves of a
chunk is dropped.
-/

namespace NewbMeasurements.EchoServer

open Words (Bytes)
open Transitions (TransitionSystem)

/-- How the inner loop ends. -/
inductive Outcome
  | clientShutDown
  | recvError
  | sendError
  deriving DecidableEq, Repr

def bufSize : Nat := 256

/-- `received` and `sent` are the bytes that went over this connection so far. The
buffer is shared by all connections and never cleared. -/
structure Connection where
  dataBuffer : Bytes
  received : Bytes := []
  sent : Bytes := []
  outcome : Option Outcome := none
  deriving DecidableEq, Repr

/-- One round of the loop: the result of `recv` with the bytes that it puts into the
buffer, and the result of `send`, which is not called where the loop ends before. -/
structure Round where
  recvResult : Int
  data : Bytes
  sendResult : Int
  deriving DecidableEq, Repr

namespace Connection

/-- A call to `recv` with the whole buffer. -/
def recv (c : Connection) (result : Int) (data : Bytes) : Option Connection :=
  if result ≤ bufSize ∧ data.length = result.toNat then
    some { c with
      dataBuffer := data ++ c.dataBuffer.drop data.length
      received := c.received ++ data }
  else none

/-- A call to `send` with the first `numBytes` bytes of the buffer. -/
def send (c : Connection) (numBytes result : Int) : Option Connection :=
  if result ≤ numBytes then
    some { c with sent := c.sent ++ c.dataBuffer.take result.toNat }
  else none

/-- The loop body. -/
def round (c : Connection) (r : Round) : Option Connection :=
  (c.recv r.recvResult r.data).bind fun c =>
    if r.recvResult = 0 then some { c with outcome := some .clientShutDown }
    else if r.recvResult < 0 then some { c with outcome := some .recvError }
    else (c.send r.recvResult r.sendResult).map fun c =>
      if r.sendResult < 0 then { c with outcome := some .sendError } else c

def step (c : Connection) (r : Round) : Option Connection :=
  if c.outcome = none then c.round r else none

end Connection

/-- The inner loop on a connection, with whatever the buffer holds when it starts. -/
def echoLoop (dataBuffer : Bytes) : TransitionSystem Connection Round where
  init := { dataBuffer }
  step := Connection.step

/-- The loop is about to call `recv`, or the client has shut down. -/
def AtRecv (c : Connection) : Prop := c.outcome = none ∨ c.outcome = some .clientShutDown

/-- Every call to `send` takes the whole chunk that it is given. -/
def TakesAll (rs : List Round) : Prop := ∀ r ∈ rs, 0 < r.recvResult → r.sendResult = r.recvResult

instance (c : Connection) : Decidable (AtRecv c) := inferInstanceAs (Decidable (_ ∨ _))

instance (rs : List Round) : Decidable (TakesAll rs) :=
  inferInstanceAs (Decidable (∀ r ∈ rs, _))

/-! ## One round -/

/-- What is sent is the front of what the last `recv` put into the buffer. -/
theorem take_overwritten (data buffer : Bytes) {n : Nat} (h : n ≤ data.length) :
    (data ++ buffer.drop data.length).take n = data.take n :=
  List.take_append_of_le_length h

/-- A round ends the loop with an error, or it ends it because the client has shut
down, or it sends part of the chunk that it has received. -/
theorem round_cases {c c' : Connection} {r : Round} (h : c.round r = some c') :
    c'.outcome = some .recvError ∨ c'.outcome = some .sendError ∨
      (r.recvResult = 0 ∧ c'.outcome = some .clientShutDown ∧ c'.received = c.received ∧
        c'.sent = c.sent) ∨
      (0 < r.recvResult ∧ (r.data.length : Int) = r.recvResult ∧ 0 ≤ r.sendResult ∧
        r.sendResult ≤ r.recvResult ∧ c'.outcome = c.outcome ∧
        c'.received = c.received ++ r.data ∧
        c'.sent = c.sent ++ r.data.take r.sendResult.toNat) := by
  obtain ⟨c₁, h₁, h⟩ := Option.bind_eq_some_iff.mp h
  simp only [Connection.recv] at h₁
  split at h₁
  · rename_i hrecv
    cases h₁
    split at h
    · rename_i hzero
      cases h
      have hnil : r.data = [] := List.length_eq_zero_iff.mp (by omega)
      exact .inr (.inr (.inl ⟨hzero, rfl, by simp [hnil], rfl⟩))
    · split at h
      · cases h
        exact .inl rfl
      · obtain ⟨c₂, h₂, rfl⟩ := Option.map_eq_some_iff.mp h
        simp only [Connection.send] at h₂
        split at h₂
        · rename_i hsend
          cases h₂
          split
          · exact .inr (.inl rfl)
          · have hle : r.sendResult.toNat ≤ r.data.length := by omega
            refine .inr (.inr (.inr ⟨by omega, by omega, by omega, hsend, rfl, rfl, ?_⟩))
            show c.sent ++ _ = _
            rw [take_overwritten _ _ hle]
        · cases h₂
  · cases h₁

/-- A stream that is not ahead catches up only by taking a whole chunk. -/
theorem append_take_eq_iff {sent received data : Bytes} {n : Nat}
    (hle : sent.length ≤ received.length) (hn : n ≤ data.length) :
    sent ++ data.take n = received ++ data ↔ sent = received ∧ n = data.length := by
  constructor
  · intro h
    have hlen := congrArg List.length h
    rw [List.length_append, List.length_append, List.length_take, Nat.min_eq_left hn] at hlen
    have heq : sent.length = received.length := by omega
    exact ⟨List.append_inj_left h heq, by omega⟩
  · rintro ⟨rfl, rfl⟩
    rw [List.take_length]

/-! ## Runs -/

theorem takesAll_concat {rs : List Round} {r : Round} :
    TakesAll (rs ++ [r]) ↔ TakesAll rs ∧ (0 < r.recvResult → r.sendResult = r.recvResult) := by
  simp [TakesAll, or_imp, forall_and]

/-- The bytes sent are never more than the bytes received. -/
theorem sent_run {dataBuffer : Bytes} {rs : List Round} {c : Connection}
    (h : (echoLoop dataBuffer).run rs = some c) (hc : AtRecv c) :
    c.sent.length ≤ c.received.length ∧ (c.sent = c.received ↔ TakesAll rs) := by
  induction rs using List.reverseRecOn generalizing c with
  | nil =>
    cases h
    exact ⟨Nat.le_refl _, iff_of_true rfl (by simp [TakesAll])⟩
  | append_singleton rs r ih =>
    obtain ⟨t, ht, hstep⟩ := TransitionSystem.runFrom_concat.mp h
    simp only [echoLoop, Connection.step] at hstep
    split at hstep
    · rename_i hnone
      obtain ⟨hle, hiff⟩ := ih ht (.inl hnone)
      rw [takesAll_concat, ← hiff]
      rcases round_cases hstep with herr | herr | ⟨hzero, _, hrecv, hsent⟩ |
        ⟨hpos, hlen, h₀, h₁, _, hrecv, hsent⟩
      · simp [AtRecv, herr] at hc
      · simp [AtRecv, herr] at hc
      · rw [hrecv, hsent]
        refine ⟨hle, (and_iff_left ?_).symm⟩
        intro hpos
        omega
      · have hn : r.sendResult.toNat ≤ r.data.length := by omega
        rw [hrecv, hsent, append_take_eq_iff hle hn]
        constructor
        · rw [List.length_append, List.length_append, List.length_take, Nat.min_eq_left hn]
          omega
        · apply and_congr_right
          intro _
          omega
    · cases hstep

/-- **Echo.**  Before every call to `recv`, and when the client has shut down, the
peer has been handed exactly the bytes received from it if and only if every call
to `send` took all of its chunk. -/
theorem echoed_iff {dataBuffer : Bytes} {rs : List Round} {c : Connection}
    (h : (echoLoop dataBuffer).run rs = some c) (hc : AtRecv c) :
    c.sent = c.received ↔ TakesAll rs :=
  (sent_run h hc).2

/-- Two chunks that are taken whole, and the client's shutdown. -/
theorem echoed_iff_two : ∃ c, (echoLoop (List.replicate bufSize 0)).run
    [⟨4, [0, 0, 0, 0], 4⟩, ⟨2, [0, 1], 2⟩, ⟨0, [], 0⟩] = some c ∧
      c.outcome = some .clientShutDown ∧ c.sent = [0, 0, 0, 0, 0, 1] ∧ c.sent = c.received :=
  ⟨_, rfl, rfl, rfl, (@echoed_iff (List.replicate bufSize 0)
    [⟨4, [0, 0, 0, 0], 4⟩, ⟨2, [0, 1], 2⟩, ⟨0, [], 0⟩] _ rfl (.inr rfl)).mpr (by decide)⟩

/-- A `send` that takes three of four bytes: the loop calls `recv` again, and the
fourth byte is never sent. -/
theorem short_send_drops : ∃ c, (echoLoop (List.replicate bufSize 0)).run
    [⟨4, [1, 2, 3, 4], 3⟩] = some c ∧ AtRecv c ∧ c.received = [1, 2, 3, 4] ∧
      c.sent = [1, 2, 3] ∧ c.sent ≠ c.received :=
  ⟨_, rfl, .inl rfl, rfl, rfl, by decide⟩

end NewbMeasurements.EchoServer
