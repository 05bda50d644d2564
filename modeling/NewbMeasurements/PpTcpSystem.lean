import NewbMeasurements.EchoServer
import NewbMeasurements.PpTcpPure

/-!
`pp_tcp_pure.cpp` as a whole: any number of client processes and the server, which
accepts their connections one after the other and echoes what it receives through
one buffer. A session is a client with its connection and the server's end of it.
TCP delivers the bytes of a connection once and in order; how many of them a call
moves, and which calls fail, is up to the environment. A client whose `connect` fails
returns, and so does one whose `write` or `read` fails; the server leaves its inner
loop when `recv` or `send` fails, and exits when `accept` does.
-/

namespace NewbMeasurements.PpTcpSystem

open Words (Bytes encode length_encode consecutive consecutive_succ toNat_succ_of_lt)
open PpTcpPure (Client serialised)
open EchoServer (Connection echoLoop)
open Transitions (TransitionSystem)

/-- Where a client process is. It returns from its loop, or before that when its
`connect` has failed. -/
inductive Stage
  | connecting
  | writing
  | reading
  | returned
  | refused
  deriving DecidableEq, Repr

/-- What the server does with a connection: it has not accepted it, it is at one of
the two calls of its inner loop, or it has closed it. -/
inductive Seat
  | waiting
  | receiving
  | sending (numBytes : Int)
  | closed
  deriving DecidableEq, Repr

structure Session where
  messages : UInt32
  stage : Stage := .connecting
  client : Client := {}
  seat : Seat := .waiting
  connection : Connection := { dataBuffer := [] }
  deriving DecidableEq, Repr

/-- The system calls of both programs with their results, and the end of the
client's loop. This `accept` returns the descriptor of a connection. -/
inductive Call
  | connect (result : Int)
  | write (result : Int)
  | read (result : Int)
  | leave
  | accept
  | recv (result : Int)
  | send (result : Int)
  deriving DecidableEq, Repr

namespace Session

/-- The bytes on their way to the server. -/
def toServer (s : Session) : Bytes := s.client.written.drop s.connection.received.length

/-- The bytes on their way to the client. -/
def toClient (s : Session) : Bytes := s.connection.sent.drop s.client.readBack.length

/-- The chunk that the server has received and not sent. -/
def inHand (s : Session) : Bytes :=
  match s.seat with
  | .sending numBytes => s.connection.dataBuffer.take numBytes.toNat
  | _ => []

/-! ## The client -/

def connect (s : Session) (result : Int) : Option Session :=
  if s.stage = .connecting then
    if result < 0 then some { s with stage := .refused }
    else if result = 0 then some { s with stage := .writing }
    else none
  else none

/-- The loop's test and its `write`. -/
def write (s : Session) (result : Int) : Option Session :=
  let sendBuf := encode s.client.receivedMessages
  if s.stage = .writing ∧ s.client.receivedMessages < s.messages then
    if result < 0 then
      some { s with
        stage := .returned
        client := { s.client with outcome := some .errorWriting } }
    else if result ≤ sendBuf.length then
      some { s with
        stage := .reading
        client := { s.client with written := s.client.written ++ sendBuf.take result.toNat } }
    else none
  else none

/-- A `read` returns 0 when the server has closed its end and nothing is left. -/
def read (s : Session) (result : Int) : Option Session :=
  if s.stage = .reading then
    if result < 0 then
      some { s with
        stage := .returned
        client := { s.client with outcome := some .errorReading } }
    else if result ≤ min PpTcpPure.bufSize s.toClient.length ∧
        (result = 0 → s.toClient = [] ∧ s.seat = .closed) then
      some { s with
        stage := .writing
        client :=
          { s.client with
            readBack := s.client.readBack ++ s.toClient.take result.toNat
            receivedMessages := s.client.receivedMessages + 1 } }
    else none
  else none

/-- The loop's test fails. -/
def leave (s : Session) : Option Session :=
  if s.stage = .writing ∧ ¬ s.client.receivedMessages < s.messages then
    some { s with
      stage := .returned
      client := { s.client with outcome := some .gotAllMessages } }
  else none

/-! ## The server -/

def accept (s : Session) (dataBuffer : Bytes) : Option Session :=
  if s.seat = .waiting then some { s with seat := .receiving, connection := { dataBuffer } }
  else none

/-- A `recv` returns 0 when the client has closed its end and nothing is left. -/
def recv (s : Session) (result : Int) : Option Session :=
  if s.seat = .receiving ∧ result ≤ s.toServer.length ∧
      (result = 0 → s.toServer = [] ∧ s.stage = .returned) then
    (s.connection.recv result (s.toServer.take result.toNat)).map fun c =>
      if result = 0 then
        { s with seat := .closed, connection := { c with outcome := some .clientShutDown } }
      else if result < 0 then
        { s with seat := .closed, connection := { c with outcome := some .recvError } }
      else { s with seat := .sending result, connection := c }
  else none

def send (s : Session) (result : Int) : Option Session :=
  match s.seat with
  | .sending numBytes =>
    (s.connection.send numBytes result).map fun c =>
      if result < 0 then
        { s with seat := .closed, connection := { c with outcome := some .sendError } }
      else { s with seat := .receiving, connection := c }
  | _ => none

def call (s : Session) (dataBuffer : Bytes) : Call → Option Session
  | .connect result => s.connect result
  | .write result => s.write result
  | .read result => s.read result
  | .leave => s.leave
  | .accept => s.accept dataBuffer
  | .recv result => s.recv result
  | .send result => s.send result

end Session

/-! ## All processes -/

/-- `backlog` are the connections that the server has yet to accept, and `serving`
is the one that it is busy with. Once it has `exited` it accepts none. -/
structure World (n : Nat) where
  sessions : Fin n → Session
  backlog : List (Fin n) := []
  serving : Option (Fin n) := none
  exited : Bool := false
  dataBuffer : Bytes

/-- A call that belongs to a session, or an `accept` that returns no connection. -/
inductive Action (n : Nat)
  | call (session : Fin n) (call : Call)
  | acceptFails
  deriving DecidableEq, Repr

variable {n : Nat}

namespace World

/-- The server makes its calls on the connection that it is busy with, and accepts
the oldest one when it is busy with none. Nobody can connect once it has exited. -/
def MayCall (w : World n) (i : Fin n) : Call → Prop
  | .connect result => 0 ≤ result → w.exited = false
  | .accept => w.exited = false ∧ w.serving = none ∧ w.backlog.head? = some i
  | .recv _ | .send _ => w.serving = some i
  | _ => True

instance (w : World n) (i : Fin n) : (call : Call) → Decidable (w.MayCall i call)
  | .connect _ => inferInstanceAs (Decidable (_ → _))
  | .accept => inferInstanceAs (Decidable (_ ∧ _ ∧ _))
  | .recv _ | .send _ => inferInstanceAs (Decidable (_ = _))
  | .write _ | .read _ | .leave => inferInstanceAs (Decidable True)

/-- The world after a call that leaves its session in state `s`. -/
def after (w : World n) (i : Fin n) (call : Call) (s : Session) : World n :=
  let w := { w with sessions := Function.update w.sessions i s }
  match call with
  | .connect result => if result < 0 then w else { w with backlog := w.backlog ++ [i] }
  | .accept => { w with backlog := w.backlog.tail, serving := some i }
  | .recv _ | .send _ =>
    { w with
      serving := if s.seat = .closed then none else w.serving
      dataBuffer := s.connection.dataBuffer }
  | .write _ | .read _ | .leave => w

/-- When `accept` fails, the server closes its socket and exits. The connections that
it has not accepted are gone then, and nothing more comes back over them. -/
def step (w : World n) : Action n → Option (World n)
  | .call i call =>
    if w.MayCall i call then ((w.sessions i).call w.dataBuffer call).map (w.after i call) else none
  | .acceptFails =>
    if w.exited = false ∧ w.serving = none then some { w with exited := true } else none

/-- A condition on the calls that belong to a session. -/
def Allows (ok : Session → Call → Prop) (w : World n) : Action n → Prop
  | .call i call => ok (w.sessions i) call
  | .acceptFails => True

end World

/-- One client for each number of messages, with whatever the buffer holds at first. -/
def system (messages : Fin n → UInt32) (dataBuffer : Bytes) :
    TransitionSystem (World n) (Action n) where
  init := { sessions := fun i => { messages := messages i }, dataBuffer }
  step := World.step

/-! ## What the calls do -/

namespace Session

variable {s s' : Session} {result : Int} {dataBuffer : Bytes}

theorem connect_cases (h : s.connect result = some s') :
    s.stage = .connecting ∧
      (result < 0 ∧ s' = { s with stage := .refused } ∨
      result = 0 ∧ s' = { s with stage := .writing }) := by
  simp only [connect] at h
  split at h
  · rename_i hstage
    refine ⟨hstage, ?_⟩
    split at h
    · rename_i hneg
      cases h
      exact .inl ⟨hneg, rfl⟩
    · split at h
      · rename_i hzero
        cases h
        exact .inr ⟨hzero, rfl⟩
      · cases h
  · cases h

theorem write_cases (h : s.write result = some s') :
    s.stage = .writing ∧ s.client.receivedMessages < s.messages ∧
      (result < 0 ∧ s' =
        { s with
          stage := .returned
          client := { s.client with outcome := some .errorWriting } } ∨
      0 ≤ result ∧ result ≤ 4 ∧ s' =
        { s with
          stage := .reading
          client :=
            { s.client with
              written := s.client.written ++
                (encode s.client.receivedMessages).take result.toNat } }) := by
  simp only [write] at h
  split at h
  · rename_i hstage
    refine ⟨hstage.1, hstage.2, ?_⟩
    split at h
    · rename_i hneg
      cases h
      exact .inl ⟨hneg, rfl⟩
    · rename_i hneg
      split at h
      · rename_i hle
        cases h
        exact .inr ⟨by omega, hle, rfl⟩
      · cases h
  · cases h

theorem read_cases (h : s.read result = some s') :
    s.stage = .reading ∧
      (result < 0 ∧ s' =
        { s with
          stage := .returned
          client := { s.client with outcome := some .errorReading } } ∨
      0 ≤ result ∧ result ≤ min PpTcpPure.bufSize s.toClient.length ∧ s' =
        { s with
          stage := .writing
          client :=
            { s.client with
              readBack := s.client.readBack ++ s.toClient.take result.toNat
              receivedMessages := s.client.receivedMessages + 1 } }) := by
  simp only [read] at h
  split at h
  · rename_i hstage
    refine ⟨hstage, ?_⟩
    split at h
    · rename_i hneg
      cases h
      exact .inl ⟨hneg, rfl⟩
    · rename_i hneg
      split at h
      · rename_i hle
        cases h
        exact .inr ⟨by omega, hle.1, rfl⟩
      · cases h
  · cases h

theorem leave_eq (h : s.leave = some s') :
    s.stage = .writing ∧ ¬ s.client.receivedMessages < s.messages ∧ s' =
      { s with
        stage := .returned
        client := { s.client with outcome := some .gotAllMessages } } := by
  simp only [leave] at h
  split at h
  · rename_i hstage
    cases h
    exact ⟨hstage.1, hstage.2, rfl⟩
  · cases h

theorem accept_eq (h : s.accept dataBuffer = some s') :
    s.seat = .waiting ∧ s' = { s with seat := .receiving, connection := { dataBuffer } } := by
  simp only [accept] at h
  split at h
  · rename_i hseat
    cases h
    exact ⟨hseat, rfl⟩
  · cases h

/-- The connection after a `recv` that has put these bytes into the buffer. -/
def received (s : Session) (data : Bytes) : Connection :=
  { s.connection with
    dataBuffer := data ++ s.connection.dataBuffer.drop data.length
    received := s.connection.received ++ data }

theorem recv_eq (h : s.connection.recv result (s.toServer.take result.toNat) = some c) :
    result ≤ EchoServer.bufSize ∧ c = s.received (s.toServer.take result.toNat) := by
  simp only [Connection.recv] at h
  split at h
  · rename_i hle
    cases h
    exact ⟨hle.1, rfl⟩
  · cases h

theorem received_nil (s : Session) : s.received [] = s.connection := by
  simp [received]

theorem recv_cases (h : s.recv result = some s') :
    s.seat = .receiving ∧
      (result = 0 ∧ s.toServer = [] ∧ s.stage = .returned ∧ s' =
        { s with
          seat := .closed
          connection := { s.connection with outcome := some .clientShutDown } } ∨
      result < 0 ∧ s' =
        { s with
          seat := .closed
          connection := { s.connection with outcome := some .recvError } } ∨
      0 < result ∧ result ≤ s.toServer.length ∧ result ≤ EchoServer.bufSize ∧ s' =
        { s with
          seat := .sending result
          connection := s.received (s.toServer.take result.toNat) }) := by
  simp only [recv] at h
  split at h
  · rename_i hguard
    obtain ⟨hseat, hle, hzero⟩ := hguard
    refine ⟨hseat, ?_⟩
    obtain ⟨c, hc, rfl⟩ := Option.map_eq_some_iff.mp h
    obtain ⟨hbuf, rfl⟩ := recv_eq hc
    rcases Int.lt_trichotomy result 0 with hneg | rfl | hpos
    · right; left
      have htake : result.toNat = 0 := by omega
      rw [if_neg (by omega), if_pos hneg, htake, List.take_zero, received_nil]
      exact ⟨hneg, rfl⟩
    · left
      rw [if_pos rfl, Int.toNat_zero, List.take_zero, received_nil]
      exact ⟨rfl, (hzero rfl).1, (hzero rfl).2, rfl⟩
    · right; right
      rw [if_neg (by omega), if_neg (by omega)]
      exact ⟨hpos, hle, hbuf, rfl⟩
  · cases h

theorem send_cases (h : s.send result = some s') :
    ∃ numBytes, s.seat = .sending numBytes ∧
      (result < 0 ∧ s' =
        { s with
          seat := .closed
          connection := { s.connection with outcome := some .sendError } } ∨
      0 ≤ result ∧ result ≤ numBytes ∧ s' =
        { s with
          seat := .receiving
          connection :=
            { s.connection with
              sent := s.connection.sent ++ s.connection.dataBuffer.take result.toNat } }) := by
  simp only [send] at h
  split at h
  · rename_i numBytes hseat
    refine ⟨numBytes, hseat, ?_⟩
    obtain ⟨c, hc, rfl⟩ := Option.map_eq_some_iff.mp h
    simp only [Connection.send] at hc
    split at hc
    · rename_i hle
      cases hc
      rcases Int.lt_or_le result 0 with hneg | hpos
      · left
        have htake : result.toNat = 0 := by omega
        rw [if_pos hneg, htake, List.take_zero, List.append_nil]
        exact ⟨hneg, rfl⟩
      · right
        rw [if_neg (by omega)]
        exact ⟨hpos, hle, rfl⟩
    · cases hc
  · cases h

/-! ## No connection sees the bytes of another -/

/-- The next bytes of a stream that is read from its front. -/
theorem append_take_drop_isPrefix {stream front : Bytes} (h : front <+: stream) (k : Nat) :
    front ++ (stream.drop front.length).take k <+: stream := by
  obtain ⟨rest, rfl⟩ := h
  rw [List.drop_left]
  exact (List.prefix_append_right_inj _).mpr (List.take_prefix _ _)

/-- Where the bytes of a session can be. The server may have dropped some of what it
has received, and holds the rest in the buffer or has sent it. -/
structure Sound (s : Session) : Prop where
  received : s.connection.received <+: s.client.written
  readBack : s.client.readBack <+: s.connection.sent
  echoed : (s.connection.sent ++ s.inHand).Sublist s.connection.received
  waiting : s.seat = .waiting → s.connection.received = [] ∧ s.connection.sent = []

@[simp] theorem inHand_receiving (h : s.seat = .receiving) : s.inHand = [] := by
  simp [inHand, h]

@[simp] theorem inHand_closed (h : s.seat = .closed) : s.inHand = [] := by
  simp [inHand, h]

theorem inHand_sending {numBytes : Int} (h : s.seat = .sending numBytes) :
    s.inHand = s.connection.dataBuffer.take numBytes.toNat := by
  simp [inHand, h]

theorem inHand_received (s : Session) {result : Int} (hle : result ≤ s.toServer.length)
    (hpos : 0 < result) :
    inHand { s with
      seat := .sending result
      connection := s.received (s.toServer.take result.toNat) } =
      s.toServer.take result.toNat := by
  have hlen : (s.toServer.take result.toNat).length = result.toNat := by
    rw [List.length_take]
    omega
  simp only [inHand, Session.received]
  rw [List.take_append_of_le_length (by omega), List.take_of_length_le (by omega)]

theorem sound_write (h : Sound s) (hcall : s.write result = some s') : Sound s' := by
  obtain ⟨_, _, ⟨_, rfl⟩ | ⟨_, _, rfl⟩⟩ := write_cases hcall
  · exact ⟨h.received, h.readBack, h.echoed, h.waiting⟩
  · exact ⟨h.received.trans (List.prefix_append _ _), h.readBack, h.echoed, h.waiting⟩

theorem sound_read (h : Sound s) (hcall : s.read result = some s') : Sound s' := by
  obtain ⟨_, ⟨_, rfl⟩ | ⟨_, _, rfl⟩⟩ := read_cases hcall
  · exact ⟨h.received, h.readBack, h.echoed, h.waiting⟩
  · exact ⟨h.received, append_take_drop_isPrefix h.readBack _, h.echoed, h.waiting⟩

theorem sound_accept (h : Sound s) (hcall : s.accept dataBuffer = some s') : Sound s' := by
  obtain ⟨hseat, rfl⟩ := accept_eq hcall
  have hread := h.readBack
  rw [(h.waiting hseat).2] at hread
  exact
    { received := List.nil_prefix
      readBack := hread
      echoed := List.Sublist.refl []
      waiting := fun hwaiting => by cases hwaiting }

/-- A connection that is closed keeps nothing in hand. -/
theorem sound_closed (h : Sound s) (outcome : EchoServer.Outcome) :
    Sound { s with
      seat := .closed
      connection := { s.connection with outcome := some outcome } } where
  received := h.received
  readBack := h.readBack
  echoed := by
    rw [inHand_closed rfl, List.append_nil]
    exact (List.sublist_append_left _ _).trans h.echoed
  waiting hwaiting := by cases hwaiting

theorem sound_recv (h : Sound s) (hcall : s.recv result = some s') : Sound s' := by
  obtain ⟨hseat, ⟨_, _, _, rfl⟩ | ⟨_, rfl⟩ | ⟨hpos, hle, _, rfl⟩⟩ := recv_cases hcall
  · exact sound_closed h .clientShutDown
  · exact sound_closed h .recvError
  · have hechoed := h.echoed
    rw [inHand_receiving hseat, List.append_nil] at hechoed
    exact
      { received := append_take_drop_isPrefix h.received _
        readBack := h.readBack
        echoed := by
          rw [inHand_received s hle hpos]
          exact hechoed.append (List.Sublist.refl _)
        waiting := fun hwaiting => by cases hwaiting }

theorem sound_send (h : Sound s) (hcall : s.send result = some s') : Sound s' := by
  obtain ⟨numBytes, hseat, ⟨_, rfl⟩ | ⟨_, hle, rfl⟩⟩ := send_cases hcall
  · exact sound_closed h .sendError
  · have hfront : (s.connection.dataBuffer.take result.toNat).Sublist s.inHand := by
      rw [inHand_sending hseat]
      exact (List.take_prefix_take_left (by omega)).sublist
    exact
      { received := h.received
        readBack := h.readBack.trans (List.prefix_append _ _)
        echoed := by
          rw [inHand_receiving rfl, List.append_nil]
          exact ((List.Sublist.refl _).append hfront).trans h.echoed
        waiting := fun hwaiting => by cases hwaiting }

theorem sound_call {call : Call} (h : Sound s) (hcall : s.call dataBuffer call = some s') :
    Sound s' := by
  cases call with
  | connect result =>
    obtain ⟨_, ⟨_, rfl⟩ | ⟨_, rfl⟩⟩ := connect_cases hcall <;>
      exact ⟨h.received, h.readBack, h.echoed, h.waiting⟩
  | write result => exact sound_write h hcall
  | read result => exact sound_read h hcall
  | leave =>
    obtain ⟨_, _, rfl⟩ := leave_eq hcall
    exact ⟨h.received, h.readBack, h.echoed, h.waiting⟩
  | accept => exact sound_accept h hcall
  | recv result => exact sound_recv h hcall
  | send result => exact sound_send h hcall

theorem sound_initial (messages : UInt32) : Sound { messages } where
  received := List.prefix_refl _
  readBack := List.prefix_refl _
  echoed := List.Sublist.refl _
  waiting _ := ⟨rfl, rfl⟩

end Session

/-- A step is a call on one session, which leaves the others alone, or it is the end
of the server. -/
theorem World.step_cases {w w' : World n} {a : Action n} (h : w.step a = some w') :
    (∃ i call s, a = .call i call ∧ w.MayCall i call ∧
      (w.sessions i).call w.dataBuffer call = some s ∧ w' = w.after i call s) ∨
    (a = .acceptFails ∧ w.exited = false ∧ w.serving = none ∧ w' = { w with exited := true }) := by
  cases a with
  | call i call =>
    left
    simp only [World.step] at h
    split at h
    · rename_i hmay
      obtain ⟨s, hs, rfl⟩ := Option.map_eq_some_iff.mp h
      exact ⟨i, call, s, rfl, hmay, hs, rfl⟩
    · cases h
  | acceptFails =>
    right
    simp only [World.step] at h
    split at h
    · rename_i hfree
      cases h
      exact ⟨rfl, hfree.1, hfree.2, rfl⟩
    · cases h

@[simp] theorem World.after_sessions (w : World n) (i : Fin n) (call : Call) (s : Session) :
    (w.after i call s).sessions = Function.update w.sessions i s := by
  cases call with
  | connect result =>
    simp only [World.after]
    split <;> rfl
  | _ => rfl

@[simp] theorem World.after_exited (w : World n) (i : Fin n) (call : Call) (s : Session) :
    (w.after i call s).exited = w.exited := by
  cases call with
  | connect result =>
    simp only [World.after]
    split <;> rfl
  | _ => rfl

/-- What holds of the session after the call and of all the others holds of every one. -/
theorem forall_after {P : Fin n → Session → Prop} {w : World n} {i : Fin n} {s : Session}
    (call : Call) (h : ∀ i, P i (w.sessions i)) (hs : P i s) (j : Fin n) :
    P j ((w.after i call s).sessions j) := by
  rw [World.after_sessions, Function.update_apply]
  split
  · rename_i hj
    rw [hj]
    exact hs
  · exact h j

/-- **Session rule.**  What a session starts with and every call that meets `ok`
keeps of it holds of all sessions at the end of a run whose calls meet `ok`. -/
theorem forall_sessions_run {messages : Fin n → UInt32} {dataBuffer : Bytes}
    {P : Fin n → Session → Prop} (ok : Session → Call → Prop)
    (hinit : ∀ i, P i { messages := messages i })
    (hcall : ∀ i s buffer call s', P i s → ok s call → s.call buffer call = some s' → P i s')
    {as : List (Action n)} {w : World n}
    (hm : (system messages dataBuffer).Meets (World.Allows ok) (system messages dataBuffer).init as)
    (h : (system messages dataBuffer).run as = some w) (i : Fin n) : P i (w.sessions i) := by
  have hstep : ∀ (v : World n) (a : Action n) (v' : World n), (∀ i, P i (v.sessions i)) →
      v.Allows ok a → v.step a = some v' → ∀ i, P i (v'.sessions i) := by
    intro v a v' hP hok hv
    obtain ⟨j, call, s, rfl, _, hs, rfl⟩ | ⟨rfl, _, _, rfl⟩ := World.step_cases hv
    · exact forall_after call hP (hcall _ _ _ _ _ (hP j) hok hs)
    · exact hP
  exact TransitionSystem.invariant_runFrom hstep hinit hm h i

/-- What every call keeps holds at the end of every run. -/
theorem forall_sessions_anyRun {messages : Fin n → UInt32} {dataBuffer : Bytes}
    {P : Fin n → Session → Prop} (hinit : ∀ i, P i { messages := messages i })
    (hcall : ∀ i s buffer call s', P i s → s.call buffer call = some s' → P i s')
    {as : List (Action n)} {w : World n}
    (h : (system messages dataBuffer).run as = some w) (i : Fin n) : P i (w.sessions i) := by
  refine forall_sessions_run (fun _ _ => True) hinit
    (fun i s buffer call s' hP _ hs => hcall i s buffer call s' hP hs) ?_ h i
  refine TransitionSystem.meets_of_forall ?_ _ _
  intro v a
  cases a <;> trivial

theorem messages_call {s s' : Session} {buffer : Bytes} {call : Call}
    (h : s.call buffer call = some s') : s'.messages = s.messages := by
  cases call with
  | connect result => obtain ⟨_, ⟨_, rfl⟩ | ⟨_, rfl⟩⟩ := Session.connect_cases h <;> rfl
  | write result => obtain ⟨_, _, ⟨_, rfl⟩ | ⟨_, _, rfl⟩⟩ := Session.write_cases h <;> rfl
  | read result => obtain ⟨_, ⟨_, rfl⟩ | ⟨_, _, rfl⟩⟩ := Session.read_cases h <;> rfl
  | leave =>
    obtain ⟨_, _, rfl⟩ := Session.leave_eq h
    rfl
  | accept =>
    obtain ⟨_, rfl⟩ := Session.accept_eq h
    rfl
  | recv result =>
    obtain ⟨_, ⟨_, _, _, rfl⟩ | ⟨_, rfl⟩ | ⟨_, _, _, rfl⟩⟩ := Session.recv_cases h <;> rfl
  | send result => obtain ⟨_, _, ⟨_, rfl⟩ | ⟨_, _, rfl⟩⟩ := Session.send_cases h <;> rfl

theorem messages_run {messages : Fin n → UInt32} {dataBuffer : Bytes} {as : List (Action n)}
    {w : World n} (h : (system messages dataBuffer).run as = some w) (i : Fin n) :
    (w.sessions i).messages = messages i :=
  forall_sessions_anyRun (P := fun i s => s.messages = messages i) (fun _ => rfl)
    (fun _ _ _ _ _ hP hs => (messages_call hs).trans hP) h i

theorem sound_run {messages : Fin n → UInt32} {dataBuffer : Bytes} {as : List (Action n)}
    {w : World n} (h : (system messages dataBuffer).run as = some w) (i : Fin n) :
    Session.Sound (w.sessions i) :=
  forall_sessions_anyRun (fun i => Session.sound_initial (messages i))
    (fun _ _ _ _ _ hsound hs => Session.sound_call hsound hs) h i

/-- **Isolation.**  Whatever the calls of all processes return and in whichever order
they are made, a client reads back only bytes that it has written itself, and in the
order in which it has written them. -/
theorem reads_own_bytes {messages : Fin n → UInt32} {dataBuffer : Bytes} {as : List (Action n)}
    {w : World n} (h : (system messages dataBuffer).run as = some w) (i : Fin n) :
    (w.sessions i).client.readBack.Sublist (w.sessions i).client.written := by
  have hsound := sound_run h i
  have hsent := (List.sublist_append_left _ _).trans hsound.echoed
  exact (hsound.readBack.sublist.trans hsent).trans hsound.received.sublist

/-- Two clients at once. The server sends three bytes of the first one's message only,
and goes on to the second one. -/
def overlapping : List (Action 2) :=
  [.call 0 (.connect 0), .call 1 (.connect 0), .call 0 (.write 4), .call 0 .accept,
    .call 1 (.write 4), .call 0 (.recv 4), .call 0 (.send 3), .call 0 (.read 3), .call 0 .leave,
    .call 0 (.recv 0), .call 1 .accept, .call 1 (.recv 4), .call 1 (.send 4), .call 1 (.read 4)]

theorem reads_own_bytes_two : ∃ w, (system (fun _ => 1) []).run overlapping = some w ∧
    (w.sessions 0).client.readBack = [0, 0, 0] ∧ (w.sessions 1).client.readBack = [0, 0, 0, 0] ∧
    ∀ i, (w.sessions i).client.readBack.Sublist (w.sessions i).client.written :=
  ⟨_, rfl, rfl, rfl, @reads_own_bytes 2 (fun _ => 1) [] overlapping _ rfl⟩

/-! ## The loops on their own -/

namespace Session

variable {s s' : Session} {result : Int} {buffer : Bytes}

/-- The server has gone through whole rounds of its inner loop, and has made the
first call of another one where it is sending. -/
def Looping (s : Session) : Prop :=
  match s.seat with
  | .waiting => True
  | .receiving => ∃ buffer rounds, (echoLoop buffer).run rounds = some s.connection ∧
      s.connection.outcome = none
  | .sending numBytes => ∃ buffer rounds c data, (echoLoop buffer).run rounds = some c ∧
      c.outcome = none ∧ s.connection.outcome = none ∧ 0 < numBytes ∧
      c.recv numBytes data = some s.connection
  | .closed => ∃ buffer rounds, (echoLoop buffer).run rounds = some s.connection

theorem looping_receiving (hseat : s.seat = .receiving) : s.Looping ↔
    ∃ buffer rounds, (echoLoop buffer).run rounds = some s.connection ∧
      s.connection.outcome = none := by
  simp only [Looping, hseat]

theorem looping_sending {numBytes : Int} (hseat : s.seat = .sending numBytes) : s.Looping ↔
    ∃ buffer rounds c data, (echoLoop buffer).run rounds = some c ∧
      c.outcome = none ∧ s.connection.outcome = none ∧ 0 < numBytes ∧
      c.recv numBytes data = some s.connection := by
  simp only [Looping, hseat]

/-- One more round of the inner loop. -/
theorem exists_round {rounds : List EchoServer.Round} {c c' : Connection}
    (hrun : (echoLoop buffer).run rounds = some c) (hgoes : c.outcome = none)
    {r : EchoServer.Round} (hround : c.round r = some c') :
    ∃ buffer rounds, (echoLoop buffer).run rounds = some c' := by
  refine ⟨buffer, rounds ++ [r], TransitionSystem.runFrom_concat.mpr ⟨c, hrun, ?_⟩⟩
  simp only [echoLoop, Connection.step]
  rw [if_pos hgoes, hround]

theorem looping_recv (h : s.Looping) (hcall : s.recv result = some s') : s'.Looping := by
  obtain ⟨hseat, hcases⟩ := recv_cases hcall
  obtain ⟨buffer, rounds, hrun, hgoes⟩ := (looping_receiving hseat).mp h
  rcases hcases with ⟨_, _, _, rfl⟩ | ⟨hneg, rfl⟩ | ⟨hpos, hle, hbuf, rfl⟩
  · apply exists_round hrun hgoes (r := ⟨0, [], 0⟩)
    simp [Connection.round, Connection.recv]
  · apply exists_round hrun hgoes (r := ⟨result, [], 0⟩)
    have hzero : result.toNat = 0 := by omega
    have hle : result ≤ EchoServer.bufSize := Int.le_trans (Int.le_of_lt hneg) (Int.natCast_nonneg _)
    simp [Connection.round, Connection.recv, hzero, hle, hneg, Int.ne_of_lt hneg]
  · refine (looping_sending rfl).mpr ⟨buffer, rounds, s.connection,
      s.toServer.take result.toNat, hrun, hgoes, hgoes, hpos, ?_⟩
    rw [Connection.recv, if_pos ⟨hbuf, by rw [List.length_take]; omega⟩]
    rfl

theorem looping_send (h : s.Looping) (hcall : s.send result = some s') : s'.Looping := by
  obtain ⟨numBytes, hseat, hcases⟩ := send_cases hcall
  obtain ⟨buffer, rounds, c, data, hrun, hgoes, hopen, hpos, hrecv⟩ := (looping_sending hseat).mp h
  have hround : c.round ⟨numBytes, data, result⟩ =
      (s.connection.send numBytes result).map fun c =>
        if result < 0 then { c with outcome := some .sendError } else c := by
    simp [Connection.round, hrecv, Int.ne_of_gt hpos, Int.not_lt.mpr (Int.le_of_lt hpos)]
  rcases hcases with ⟨hneg, rfl⟩ | ⟨hnonneg, hle, rfl⟩
  · apply exists_round hrun hgoes (r := ⟨numBytes, data, result⟩)
    have hzero : result.toNat = 0 := by omega
    have hle : result ≤ numBytes := by omega
    simp [hround, Connection.send, hle, hneg, hzero]
  · obtain ⟨buffer, rounds, hrun⟩ := exists_round hrun hgoes (r := ⟨numBytes, data, result⟩)
      (hround.trans (by simp [Connection.send, hle, Int.not_lt.mpr hnonneg]; rfl))
    exact (looping_receiving rfl).mpr ⟨buffer, rounds, hrun, hopen⟩

theorem looping_call {call : Call} (h : s.Looping) (hcall : s.call buffer call = some s') :
    s'.Looping := by
  cases call with
  | connect result => obtain ⟨_, ⟨_, rfl⟩ | ⟨_, rfl⟩⟩ := connect_cases hcall <;> exact h
  | write result => obtain ⟨_, _, ⟨_, rfl⟩ | ⟨_, _, rfl⟩⟩ := write_cases hcall <;> exact h
  | read result => obtain ⟨_, ⟨_, rfl⟩ | ⟨_, _, rfl⟩⟩ := read_cases hcall <;> exact h
  | leave =>
    obtain ⟨_, _, rfl⟩ := leave_eq hcall
    exact h
  | accept =>
    obtain ⟨_, rfl⟩ := accept_eq hcall
    exact (looping_receiving rfl).mpr ⟨buffer, [], rfl, rfl⟩
  | recv result => exact looping_recv h hcall
  | send result => exact looping_send h hcall

/-- A `send` takes the whole chunk, or it fails. -/
def SendsWhole (s : Session) : Call → Prop
  | .send result => result < 0 ∨ s.seat = .sending result
  | _ => True

/-- The server has dropped nothing of what it has received. -/
structure Relays (s : Session) : Prop where
  busy : s.seat ≠ .closed → s.connection.sent ++ s.inHand = s.connection.received
  sent : s.connection.sent <+: s.connection.received

theorem relays_closed (h : Relays s) (outcome : EchoServer.Outcome) :
    Relays { s with
      seat := .closed
      connection := { s.connection with outcome := some outcome } } where
  busy hopen := absurd rfl hopen
  sent := h.sent

theorem relays_recv (h : Relays s) (hcall : s.recv result = some s') : Relays s' := by
  obtain ⟨hseat, ⟨_, _, _, rfl⟩ | ⟨_, rfl⟩ | ⟨hpos, hle, _, rfl⟩⟩ := recv_cases hcall
  · exact relays_closed h .clientShutDown
  · exact relays_closed h .recvError
  · have hbusy := h.busy (by simp [hseat])
    rw [inHand_receiving hseat, List.append_nil] at hbusy
    constructor
    · intro _
      rw [inHand_received s hle hpos]
      show s.connection.sent ++ _ = s.connection.received ++ _
      rw [hbusy]
    · exact h.sent.trans (List.prefix_append _ _)

theorem relays_send (h : Relays s) (hok : s.SendsWhole (.send result))
    (hcall : s.send result = some s') : Relays s' := by
  obtain ⟨numBytes, hseat, ⟨_, rfl⟩ | ⟨hnonneg, hle, rfl⟩⟩ := send_cases hcall
  · exact relays_closed h .sendError
  · have hwhole : result = numBytes := by
      rcases hok with hneg | hwhole
      · omega
      · rw [hseat, Seat.sending.injEq] at hwhole
        exact hwhole.symm
    have hbusy := h.busy (by simp [hseat])
    rw [inHand_sending hseat, ← hwhole] at hbusy
    constructor
    · intro _
      rw [inHand_receiving rfl, List.append_nil]
      exact hbusy
    · exact ⟨[], by rw [List.append_nil]; exact hbusy⟩

theorem relays_call {call : Call} (h : Relays s) (hok : s.SendsWhole call)
    (hcall : s.call buffer call = some s') : Relays s' := by
  cases call with
  | connect result =>
    obtain ⟨_, ⟨_, rfl⟩ | ⟨_, rfl⟩⟩ := connect_cases hcall <;> exact ⟨h.busy, h.sent⟩
  | write result =>
    obtain ⟨_, _, ⟨_, rfl⟩ | ⟨_, _, rfl⟩⟩ := write_cases hcall <;> exact ⟨h.busy, h.sent⟩
  | read result =>
    obtain ⟨_, ⟨_, rfl⟩ | ⟨_, _, rfl⟩⟩ := read_cases hcall <;> exact ⟨h.busy, h.sent⟩
  | leave =>
    obtain ⟨_, _, rfl⟩ := leave_eq hcall
    exact ⟨h.busy, h.sent⟩
  | accept =>
    obtain ⟨_, rfl⟩ := accept_eq hcall
    exact ⟨fun _ => rfl, List.prefix_refl _⟩
  | recv result => exact relays_recv h hcall
  | send result => exact relays_send h hok hcall

/-- The client has gone through whole rounds of its loop, and has made the first call
of another one where it is reading. It does not get there without a connection. -/
def Mirrors (s : Session) : Prop :=
  match s.stage with
  | .connecting => s.client = {}
  | .writing => ∃ rounds, (PpTcpPure.client s.messages).run rounds = some s.client ∧ s.client.outcome = none
  | .reading => ∃ rounds c, ∃ w : Int, (PpTcpPure.client s.messages).run rounds = some c ∧
      c.outcome = none ∧ c.receivedMessages < s.messages ∧ 0 ≤ w ∧ w ≤ 4 ∧
      s.client = { c with written := c.written ++ (encode c.receivedMessages).take w.toNat }
  | .returned => ∃ rounds, (PpTcpPure.client s.messages).run rounds = some s.client
  | .refused => s.client = {}

theorem mirrors_writing (hstage : s.stage = .writing) : s.Mirrors ↔
    ∃ rounds, (PpTcpPure.client s.messages).run rounds = some s.client ∧ s.client.outcome = none := by
  simp only [Mirrors, hstage]

theorem mirrors_reading (hstage : s.stage = .reading) : s.Mirrors ↔
    ∃ rounds c, ∃ w : Int, (PpTcpPure.client s.messages).run rounds = some c ∧
      c.outcome = none ∧ c.receivedMessages < s.messages ∧ 0 ≤ w ∧ w ≤ 4 ∧
      s.client = { c with written := c.written ++ (encode c.receivedMessages).take w.toNat } := by
  simp only [Mirrors, hstage]

/-- One more round of the client's loop. -/
theorem exists_clientRound {messages : UInt32} {rounds : List PpTcpPure.Action} {c c' : Client}
    (hrun : (PpTcpPure.client messages).run rounds = some c) (hgoes : c.outcome = none)
    (hlt : c.receivedMessages < messages) {w r : Int} (hround : c.round w r = some c') :
    ∃ rounds, (PpTcpPure.client messages).run rounds = some c' := by
  refine ⟨rounds ++ [.round w r], TransitionSystem.runFrom_concat.mpr ⟨c, hrun, ?_⟩⟩
  simp only [PpTcpPure.client, Client.step]
  rw [if_pos ⟨hgoes, hlt⟩, hround]

theorem mirrors_write (h : s.Mirrors) (hcall : s.write result = some s') : s'.Mirrors := by
  obtain ⟨hstage, hlt, hcases⟩ := write_cases hcall
  obtain ⟨rounds, hrun, hgoes⟩ := (mirrors_writing hstage).mp h
  rcases hcases with ⟨hneg, rfl⟩ | ⟨hnonneg, hle, rfl⟩
  · apply exists_clientRound hrun hgoes hlt (w := result) (r := 0)
    simp [Client.round, hneg]
  · exact (mirrors_reading rfl).mpr
      ⟨rounds, s.client, result, hrun, hgoes, hlt, hnonneg, hle, rfl⟩

/-- What the server has sent is what the peer of the loop echoes. -/
theorem toClient_prefix (hsound : Sound s) (h : Relays s) :
    s.toClient <+: s.client.written.drop s.client.readBack.length := by
  obtain ⟨rest, hrest⟩ := h.sent.trans hsound.received
  rw [toClient, ← hrest, List.drop_append_of_le_length hsound.readBack.length_le]
  exact List.prefix_append _ _

theorem mirrors_read (h : s.Mirrors) (hsound : Sound s) (hrelays : Relays s)
    (hcall : s.read result = some s') : s'.Mirrors := by
  obtain ⟨hstage, hcases⟩ := read_cases hcall
  obtain ⟨rounds, c, w, hrun, hgoes, hlt, hnonneg, hle, hclient⟩ := (mirrors_reading hstage).mp h
  have hw : ¬ w < 0 := Int.not_lt.mpr hnonneg
  have hfits : w ≤ (encode c.receivedMessages).length := hle
  rcases hcases with ⟨hneg, rfl⟩ | ⟨hresult, hroom, rfl⟩
  · apply exists_clientRound hrun hgoes hlt (w := w) (r := result)
    simp only [Client.round, hclient]
    rw [if_neg hw, if_pos hfits, if_pos hneg]
  · obtain ⟨rest, hrest⟩ := toClient_prefix hsound hrelays
    have hround : c.round w result = some
        { s.client with
          readBack := s.client.readBack ++ s.toClient.take result.toNat
          receivedMessages := s.client.receivedMessages + 1 } := by
      have hwritten : c.written ++ (encode c.receivedMessages).take w.toNat = s.client.written := by
        rw [hclient]
      have hread : c.readBack = s.client.readBack := by rw [hclient]
      have htake : s.toClient.take result.toNat =
          (s.client.written.drop s.client.readBack.length).take result.toNat := by
        rw [← hrest, List.take_append_of_le_length (by omega)]
      have hlen : (s.client.written.drop s.client.readBack.length).length =
          s.toClient.length + rest.length := by
        rw [← hrest, List.length_append]
      have hroom' : result ≤ (min PpTcpPure.bufSize
          (s.client.written.drop s.client.readBack.length).length : Nat) := by
        omega
      simp only [Client.round, hwritten, hread]
      rw [if_neg hw, if_pos hfits, if_neg (Int.not_lt.mpr hresult), if_pos hroom', htake, hclient]
    obtain ⟨rounds, hrun⟩ := exists_clientRound hrun hgoes hlt hround
    refine (mirrors_writing rfl).mpr ⟨rounds, hrun, ?_⟩
    rw [hclient]
    exact hgoes

theorem mirrors_leave (h : s.Mirrors) (hcall : s.leave = some s') : s'.Mirrors := by
  obtain ⟨hstage, hge, rfl⟩ := leave_eq hcall
  obtain ⟨rounds, hrun, hgoes⟩ := (mirrors_writing hstage).mp h
  refine ⟨rounds ++ [.leave], TransitionSystem.runFrom_concat.mpr ⟨s.client, hrun, ?_⟩⟩
  simp only [PpTcpPure.client, Client.step]
  rw [if_pos ⟨hgoes, hge⟩]

theorem mirrors_call {call : Call} (h : s.Mirrors) (hsound : Sound s) (hrelays : Relays s)
    (hcall : s.call buffer call = some s') : s'.Mirrors := by
  cases call with
  | connect result =>
    obtain ⟨hstage, hcases⟩ := connect_cases hcall
    have hclient : s.client = {} := by
      simpa only [Mirrors, hstage] using h
    rcases hcases with ⟨_, rfl⟩ | ⟨_, rfl⟩
    · exact hclient
    · refine (mirrors_writing rfl).mpr ⟨[], ?_, ?_⟩
      · rw [hclient]
        rfl
      · rw [hclient]
  | write result => exact mirrors_write h hcall
  | read result => exact mirrors_read h hsound hrelays hcall
  | leave => exact mirrors_leave h hcall
  | accept =>
    obtain ⟨_, rfl⟩ := accept_eq hcall
    exact h
  | recv result => obtain ⟨_, ⟨_, _, _, rfl⟩ | ⟨_, rfl⟩ | ⟨_, _, _, rfl⟩⟩ := recv_cases hcall <;> exact h
  | send result => obtain ⟨_, _, ⟨_, rfl⟩ | ⟨_, _, rfl⟩⟩ := send_cases hcall <;> exact h

end Session

/-- **The loops on their own.**  If every `send` takes its whole chunk or fails, the
server is the peer that the client's loop counts on: what a client does is a run of
that loop against a peer that echoes every byte, and what the server does with a
connection is a run of its inner loop. -/
theorem loops_on_their_own {messages : Fin n → UInt32} {dataBuffer : Bytes}
    {as : List (Action n)} {w : World n}
    (hm : (system messages dataBuffer).Meets (World.Allows Session.SendsWhole)
      (system messages dataBuffer).init as)
    (h : (system messages dataBuffer).run as = some w) (i : Fin n) :
    (w.sessions i).Mirrors ∧ (w.sessions i).Looping := by
  have hall := forall_sessions_run
    (P := fun _ s => s.Sound ∧ s.Relays ∧ s.Mirrors ∧ s.Looping) Session.SendsWhole
    (fun i => ⟨Session.sound_initial (messages i), ⟨fun _ => rfl, List.prefix_refl _⟩, rfl, trivial⟩)
    (fun _ _ _ _ _ ⟨hsound, hrelays, hmirrors, hlooping⟩ hok hs =>
      ⟨Session.sound_call hsound hs, Session.relays_call hrelays hok hs,
        Session.mirrors_call hmirrors hsound hrelays hs, Session.looping_call hlooping hs⟩)
    hm h i
  exact hall.2.2

/-- One client that gets all of its one message back. -/
theorem loops_on_their_own_one : ∃ w, (system (n := 1) (fun _ => 1) []).run
    ([.call 0 (.connect 0), .call 0 (.write 4), .call 0 .accept, .call 0 (.recv 4)] ++
      [.call 0 (.send 4), .call 0 (.read 4), .call 0 .leave, .call 0 (.recv 0)]) = some w ∧
    (w.sessions 0).client.outcome = some .gotAllMessages ∧
    (w.sessions 0).Mirrors ∧ (w.sessions 0).Looping := by
  refine ⟨_, rfl, rfl, ?_⟩
  refine @loops_on_their_own 1 (fun _ => 1) []
    ([.call 0 (.connect 0), .call 0 (.write 4), .call 0 .accept, .call 0 (.recv 4)] ++
      [.call 0 (.send 4), .call 0 (.read 4), .call 0 .leave, .call 0 (.recv 0)]) _ ?_ rfl 0
  refine TransitionSystem.meets_append (TransitionSystem.meets_of_mem ?_) rfl ⟨.inr rfl, ?_⟩
  · intro s a ha
    simp only [List.mem_cons, List.not_mem_nil, or_false] at ha
    rcases ha with rfl | rfl | rfl | rfl <;> trivial
  · intro s _
    apply TransitionSystem.meets_of_mem
    intro t a ha
    simp only [List.mem_cons, List.not_mem_nil, or_false] at ha
    rcases ha with rfl | rfl | rfl <;> trivial

end NewbMeasurements.PpTcpSystem
