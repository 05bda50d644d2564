import NewbMeasurements.PpTcpSystem

/-!
How the processes of `pp_tcp_pure.cpp` get on. Every run of them is finite, whatever
the calls return. If no `write` and no `send` moves a part of its bytes only, they
cannot block each other before an `accept` fails, so that every client returns and the
server is back at `accept`; without failures each of them has got through all its
messages by then. A failed `accept` ends the server, and the clients that it has not
accepted can only fail then.
-/

namespace NewbMeasurements.PpTcpSystem

open Words (Bytes encode length_encode consecutive consecutive_succ toNat_succ_of_lt
  length_flatMap_encode length_consecutive)
open PpTcpPure (Client serialised)
open EchoServer (Connection)
open Transitions (TransitionSystem)

variable {n : Nat}

/-! ## Every run is finite -/

namespace Session

variable {s s' : Session} {result : Int} {buffer : Bytes}

/-- The calls that the client has left at most. -/
def clientCalls (s : Session) : Nat :=
  match s.stage with
  | .connecting => 2 * s.messages.toNat + 2
  | .writing => 2 * (s.messages.toNat - s.client.receivedMessages.toNat) + 1
  | .reading => 2 * (s.messages.toNat - s.client.receivedMessages.toNat)
  | .returned | .refused => 0

/-- The messages that the client has not written yet. -/
def unwritten (s : Session) : Nat :=
  match s.stage with
  | .connecting => s.messages.toNat
  | .writing => s.messages.toNat - s.client.receivedMessages.toNat
  | .reading => s.messages.toNat - s.client.receivedMessages.toNat - 1
  | .returned | .refused => 0

/-- The calls that the server has left, apart from two for each byte to come. -/
def serverCalls (s : Session) : Nat :=
  match s.seat with
  | .waiting => 2
  | .receiving => 1
  | .sending _ => 2
  | .closed => 0

/-- A bound on the calls that are still made for this session. -/
def potential (s : Session) : Nat :=
  s.clientCalls + 2 * (s.toServer.length + 4 * s.unwritten) + s.serverCalls

/-- The client writes only what its loop has asked for. -/
def InLoop (s : Session) : Prop :=
  s.stage = .reading → s.client.receivedMessages < s.messages

theorem length_toServer (s : Session) :
    s.toServer.length = s.client.written.length - s.connection.received.length :=
  List.length_drop

theorem potential_connect (hcall : s.connect result = some s') : s'.potential < s.potential := by
  obtain ⟨hstage, ⟨_, rfl⟩ | ⟨_, rfl⟩⟩ := connect_cases hcall <;>
    simp only [potential, clientCalls, unwritten, serverCalls, toServer, hstage] <;>
    omega

theorem potential_write (h : Sound s) (hcall : s.write result = some s') :
    s'.potential < s.potential := by
  obtain ⟨hstage, hlt, ⟨_, rfl⟩ | ⟨_, hle, rfl⟩⟩ := write_cases hcall
  · simp only [potential, clientCalls, unwritten, serverCalls, toServer, hstage]
    omega
  · have hlt := UInt32.lt_iff_toNat_lt.mp hlt
    have hreceived := h.received.length_le
    simp only [potential, clientCalls, unwritten, serverCalls, toServer, hstage, List.length_drop,
      List.length_append, List.length_take, length_encode]
    omega

theorem potential_read (h : InLoop s) (hcall : s.read result = some s') :
    s'.potential < s.potential := by
  obtain ⟨hstage, hcases⟩ := read_cases hcall
  have hsucc := toNat_succ_of_lt (h hstage)
  have hlt := UInt32.lt_iff_toNat_lt.mp (h hstage)
  rcases hcases with ⟨_, rfl⟩ | ⟨_, _, rfl⟩ <;>
    simp only [potential, clientCalls, unwritten, serverCalls, toServer, hstage, hsucc] <;>
    omega

theorem potential_leave (hcall : s.leave = some s') : s'.potential < s.potential := by
  obtain ⟨hstage, _, rfl⟩ := leave_eq hcall
  simp only [potential, clientCalls, unwritten, serverCalls, toServer, hstage]
  omega

theorem potential_accept (h : Sound s) (hcall : s.accept buffer = some s') :
    s'.potential < s.potential := by
  obtain ⟨hseat, rfl⟩ := accept_eq hcall
  have hreceived := (h.waiting hseat).1
  simp only [potential, clientCalls, unwritten, serverCalls, toServer, hseat, hreceived]
  omega

theorem potential_recv (hcall : s.recv result = some s') : s'.potential < s.potential := by
  obtain ⟨hseat, hcases⟩ := recv_cases hcall
  rcases hcases with ⟨_, _, _, rfl⟩ | ⟨_, rfl⟩ | ⟨hpos, hle, _, rfl⟩
  · simp only [potential, clientCalls, unwritten, serverCalls, toServer, hseat]
    omega
  · simp only [potential, clientCalls, unwritten, serverCalls, toServer, hseat]
    omega
  · rw [length_toServer] at hle
    simp only [potential, clientCalls, unwritten, serverCalls, toServer, hseat, received,
      List.length_drop, List.length_append, List.length_take]
    omega

theorem potential_send (hcall : s.send result = some s') : s'.potential < s.potential := by
  obtain ⟨numBytes, hseat, ⟨_, rfl⟩ | ⟨_, _, rfl⟩⟩ := send_cases hcall <;>
    simp only [potential, clientCalls, unwritten, serverCalls, toServer, hseat] <;>
    omega

theorem potential_call {call : Call} (hsound : Sound s) (hloop : InLoop s)
    (hcall : s.call buffer call = some s') : s'.potential < s.potential := by
  cases call with
  | connect result => exact potential_connect hcall
  | write result => exact potential_write hsound hcall
  | read result => exact potential_read hloop hcall
  | leave => exact potential_leave hcall
  | accept => exact potential_accept hsound hcall
  | recv result => exact potential_recv hcall
  | send result => exact potential_send hcall

theorem inLoop_call {call : Call} (h : InLoop s) (hcall : s.call buffer call = some s') :
    InLoop s' := by
  cases call with
  | connect result =>
    obtain ⟨_, ⟨_, rfl⟩ | ⟨_, rfl⟩⟩ := connect_cases hcall <;> intro hreading <;> cases hreading
  | write result =>
    obtain ⟨_, hlt, ⟨_, rfl⟩ | ⟨_, _, rfl⟩⟩ := write_cases hcall
    · intro hreading
      cases hreading
    · exact fun _ => hlt
  | read result =>
    obtain ⟨_, ⟨_, rfl⟩ | ⟨_, _, rfl⟩⟩ := read_cases hcall <;> intro hreading <;> cases hreading
  | leave =>
    obtain ⟨_, _, rfl⟩ := leave_eq hcall
    intro hreading
    cases hreading
  | accept =>
    obtain ⟨_, rfl⟩ := accept_eq hcall
    exact h
  | recv result => obtain ⟨_, ⟨_, _, _, rfl⟩ | ⟨_, rfl⟩ | ⟨_, _, _, rfl⟩⟩ := recv_cases hcall <;> exact h
  | send result => obtain ⟨_, _, ⟨_, rfl⟩ | ⟨_, _, rfl⟩⟩ := send_cases hcall <;> exact h

end Session

/-- The rank of all processes together. The server can still exit, unless it has. -/
def World.potential (w : World n) : Nat :=
  ∑ i, (w.sessions i).potential + if w.exited then 0 else 1

theorem potential_after {w : World n} {i : Fin n} {s : Session} (call : Call)
    (h : s.potential < (w.sessions i).potential) :
    (w.after i call s).potential < w.potential := by
  have hsum : ∑ j, ((w.after i call s).sessions j).potential < ∑ j, (w.sessions j).potential := by
    apply Finset.sum_lt_sum
    · intro j _
      rw [World.after_sessions, Function.update_apply]
      split
      · rename_i hj
        rw [hj]
        exact h.le
      · exact le_rfl
    · refine ⟨i, Finset.mem_univ _, ?_⟩
      simpa using h
  simp only [World.potential, World.after_exited]
  omega

theorem length_le_potential {messages : Fin n → UInt32} {dataBuffer : Bytes}
    {as : List (Action n)} {w : World n} (h : (system messages dataBuffer).run as = some w) :
    as.length ≤ ∑ i, (10 * (messages i).toNat + 4) + 1 := by
  have hstep : ∀ (v : World n) (a : Action n) (v' : World n),
      (∀ i, (v.sessions i).Sound ∧ (v.sessions i).InLoop) → True → v.step a = some v' →
        (∀ i, (v'.sessions i).Sound ∧ (v'.sessions i).InLoop) ∧ v'.potential < v.potential := by
    intro v a v' hinv _ hv
    obtain ⟨i, call, s, rfl, _, hs, rfl⟩ | ⟨rfl, hrunning, _, rfl⟩ := World.step_cases hv
    · obtain ⟨hsound, hloop⟩ := hinv i
      have hs' : s.Sound ∧ s.InLoop :=
        ⟨Session.sound_call hsound hs, Session.inLoop_call hloop hs⟩
      exact ⟨forall_after (P := fun _ s => s.Sound ∧ s.InLoop) call hinv hs',
        potential_after call (Session.potential_call hsound hloop hs)⟩
    · refine ⟨hinv, ?_⟩
      simp [World.potential, hrunning]
  have hinit : (system messages dataBuffer).init.potential =
      ∑ i, (10 * (messages i).toNat + 4) + 1 := by
    refine congrArg (· + 1) (Finset.sum_congr rfl ?_)
    intro i _
    simp only [Session.potential, Session.clientCalls, Session.toServer, Session.unwritten,
      Session.serverCalls, system, List.drop_nil, List.length_nil]
    omega
  have hle := TransitionSystem.length_add_rank_le World.potential hstep
    (fun i => ⟨Session.sound_initial (messages i), fun hreading => by cases hreading⟩)
    (TransitionSystem.meets_true _ _ as) h
  omega

/-! ## Where the connections are -/

/-- The client has a connection. -/
def Session.Connected (s : Session) : Prop := s.stage ≠ .connecting ∧ s.stage ≠ .refused

/-- The server is at a call of its inner loop on this connection. -/
def Session.Busy (s : Session) : Prop := s.seat ≠ .waiting ∧ s.seat ≠ .closed

/-- The connections that are waiting are in the backlog, once each, and the server is
busy with one at most, and with none once it has exited. -/
structure Placed (w : World n) : Prop where
  nodup : w.backlog.Nodup
  backlog : ∀ i, i ∈ w.backlog ↔ (w.sessions i).seat = .waiting ∧ (w.sessions i).Connected
  serving : ∀ i, w.serving = some i ↔ (w.sessions i).Busy
  connected : ∀ i, (w.sessions i).seat ≠ .waiting → (w.sessions i).Connected
  exited : w.exited = true → w.serving = none

theorem placed_initial (messages : Fin n → UInt32) (dataBuffer : Bytes) :
    Placed (system messages dataBuffer).init where
  nodup := List.nodup_nil
  backlog i := by simp [system, Session.Connected]
  serving i := by simp [system, Session.Busy]
  connected i hseat := absurd rfl hseat
  exited _ := rfl

/-- The calls of a client leave the server's side as it is, unless they connect it. -/
theorem placed_client {w : World n} (h : Placed w) {i : Fin n} {s : Session}
    (hseat : s.seat = (w.sessions i).seat) (hstage : s.Connected ↔ (w.sessions i).Connected) :
    Placed { w with sessions := Function.update w.sessions i s } where
  nodup := h.nodup
  backlog j := by
    rcases eq_or_ne j i with rfl | hj
    · simp [h.backlog, hseat, hstage]
    · simp [h.backlog, hj]
  serving j := by
    rcases eq_or_ne j i with rfl | hj
    · simp [h.serving, Session.Busy, hseat]
    · simp [h.serving, hj]
  connected j := by
    rcases eq_or_ne j i with rfl | hj
    · simpa [hseat, hstage] using h.connected j
    · simpa [hj] using h.connected j
  exited := h.exited

theorem placed_connect {w : World n} (h : Placed w) {i : Fin n} {result : Int} {s : Session}
    (hcall : (w.sessions i).connect result = some s) :
    Placed (w.after i (.connect result) s) := by
  obtain ⟨hstage, ⟨hneg, rfl⟩ | ⟨hzero, rfl⟩⟩ := Session.connect_cases hcall
  · simp only [World.after, if_pos hneg]
    exact placed_client h rfl (by simp [Session.Connected, hstage])
  have hnot : ¬ (w.sessions i).Connected := fun hc => hc.1 hstage
  have hseat : (w.sessions i).seat = .waiting := by
    by_contra hseat
    exact hnot (h.connected i hseat)
  have hnew : i ∉ w.backlog := fun hmem => hnot ((h.backlog i).mp hmem).2
  simp only [World.after, if_neg (show ¬ result < 0 by omega)]
  constructor
  · refine List.nodup_append.mpr ⟨h.nodup, List.nodup_singleton i, ?_⟩
    rintro j hj k hk rfl
    have heq : j = i := List.mem_singleton.mp hk
    exact hnew (heq ▸ hj)
  · intro j
    rcases eq_or_ne j i with rfl | hj
    · simp [Session.Connected, hseat]
    · simp [h.backlog, hj]
  · intro j
    rcases eq_or_ne j i with rfl | hj
    · simp [h.serving, Session.Busy, hseat]
    · simp [h.serving, hj]
  · intro j
    rcases eq_or_ne j i with rfl | hj
    · simp [hseat]
    · simpa [hj] using h.connected j
  · exact h.exited

theorem placed_accept {w : World n} (h : Placed w) {i : Fin n} {s : Session}
    (hrunning : w.exited = false) (hfree : w.serving = none) (hhead : w.backlog.head? = some i)
    (hcall : (w.sessions i).accept w.dataBuffer = some s) : Placed (w.after i .accept s) := by
  obtain ⟨hseat, rfl⟩ := Session.accept_eq hcall
  obtain ⟨rest, hrest⟩ := List.head?_eq_some_iff.mp hhead
  have hnodup := h.nodup
  rw [hrest, List.nodup_cons] at hnodup
  have hstage : (w.sessions i).Connected := ((h.backlog i).mp (by simp [hrest])).2
  constructor
  · simpa [World.after, hrest] using hnodup.2
  · intro j
    have hj := h.backlog j
    rw [hrest, List.mem_cons] at hj
    rcases eq_or_ne j i with rfl | hne
    · simp [World.after, hrest, hnodup.1]
    · simpa [World.after, hrest, hne] using hj
  · intro j
    have hj := h.serving j
    rw [hfree] at hj
    rcases eq_or_ne j i with rfl | hne
    · simp [World.after, Session.Busy]
    · simpa [World.after, hne, hne.symm] using hj
  · intro j
    rcases eq_or_ne j i with rfl | hj
    · simpa [World.after, Session.Connected] using hstage
    · simpa [World.after, hj] using h.connected j
  · intro hexited
    rw [World.after_exited, hrunning] at hexited
    cases hexited

/-- A call of the inner loop keeps the connection or closes it. -/
theorem placed_serve {w : World n} (h : Placed w) {i : Fin n} {s : Session} {buffer : Bytes}
    (hserving : w.serving = some i) (hstage : s.stage = (w.sessions i).stage)
    (hseat : s.seat ≠ .waiting) :
    Placed
      { w with
        sessions := Function.update w.sessions i s
        serving := if s.seat = .closed then none else w.serving
        dataBuffer := buffer } := by
  have hbusy := (h.serving i).mp hserving
  have hconnected : s.Connected := by
    simpa only [Session.Connected, hstage] using h.connected i hbusy.1
  constructor
  · exact h.nodup
  · intro j
    rcases eq_or_ne j i with rfl | hj
    · simp [h.backlog, hseat, hbusy.1]
    · simp [h.backlog, hj]
  · intro j
    have hj := h.serving j
    rw [hserving, Option.some.injEq] at hj
    rcases eq_or_ne j i with rfl | hne
    · by_cases hclosed : s.seat = .closed <;> simp [hserving, Session.Busy, hseat, hclosed]
    · by_cases hclosed : s.seat = .closed <;>
        simp [hserving, hclosed, hne, hne.symm, ← hj]
  · intro j
    rcases eq_or_ne j i with rfl | hj
    · simp [hconnected]
    · simpa [hj] using h.connected j
  · intro hexited
    have hnone := h.exited hexited
    rw [hserving] at hnone
    cases hnone

theorem placed_step {w w' : World n} {a : Action n} (h : Placed w) (hstep : w.step a = some w') :
    Placed w' := by
  obtain ⟨i, call, s, rfl, hmay, hs, rfl⟩ | ⟨rfl, _, hfree, rfl⟩ := World.step_cases hstep
  · cases call with
    | connect result => exact placed_connect h hs
    | write result =>
      obtain ⟨hstage, _, ⟨_, rfl⟩ | ⟨_, _, rfl⟩⟩ := Session.write_cases hs <;>
        exact placed_client h rfl (by simp [Session.Connected, hstage])
    | read result =>
      obtain ⟨hstage, ⟨_, rfl⟩ | ⟨_, _, rfl⟩⟩ := Session.read_cases hs <;>
        exact placed_client h rfl (by simp [Session.Connected, hstage])
    | leave =>
      obtain ⟨hstage, _, rfl⟩ := Session.leave_eq hs
      exact placed_client h rfl (by simp [Session.Connected, hstage])
    | accept => exact placed_accept h hmay.1 hmay.2.1 hmay.2.2 hs
    | recv result =>
      obtain ⟨_, ⟨_, _, _, rfl⟩ | ⟨_, rfl⟩ | ⟨_, _, _, rfl⟩⟩ := Session.recv_cases hs <;>
        exact placed_serve h hmay rfl (by simp)
    | send result =>
      obtain ⟨_, _, ⟨_, rfl⟩ | ⟨_, _, rfl⟩⟩ := Session.send_cases hs <;>
        exact placed_serve h hmay rfl (by simp)
  · exact { h with exited := fun _ => hfree }

theorem placed_run {messages : Fin n → UInt32} {dataBuffer : Bytes} {as : List (Action n)}
    {w : World n} (h : (system messages dataBuffer).run as = some w) : Placed w := by
  have hstep : ∀ (v : World n) (a : Action n) (v' : World n),
      Placed v → True → v.step a = some v' → Placed v' :=
    fun v a v' hv _ hs => placed_step hv hs
  exact TransitionSystem.invariant_runFrom hstep (placed_initial messages dataBuffer)
    (TransitionSystem.meets_true _ _ _) h

/-! ## No deadlock -/

/-- A call that fails. -/
def Call.Fails : Call → Prop
  | .connect result | .write result | .read result | .recv result | .send result => result < 0
  | .leave | .accept => False

def Action.Fails : Action n → Prop
  | .call _ c => c.Fails
  | .acceptFails => True

namespace Session

variable {s s' : Session} {result : Int} {buffer : Bytes}

/-- A `write` and a `send` take all of their bytes, or they fail. -/
def Whole (s : Session) : Call → Prop
  | .write result => result < 0 ∨ result = 4
  | call => s.SendsWhole call

theorem Whole.sendsWhole {call : Call} (h : s.Whole call) : s.SendsWhole call := by
  cases call <;> first | exact h | trivial

/-- How many bytes a client has written and read back before each of its calls. -/
structure Paced (s : Session) : Prop where
  written : s.stage = .connecting ∨ s.stage = .writing →
    s.client.written.length = 4 * s.client.receivedMessages.toNat
  reading : s.stage = .reading →
    s.client.written.length = 4 * (s.client.receivedMessages.toNat + 1)
  readBack : s.client.readBack.length ≤ 4 * s.client.receivedMessages.toNat

theorem paced_write (h : Paced s) (hok : s.Whole (.write result))
    (hcall : s.write result = some s') : Paced s' := by
  obtain ⟨hstage, _, ⟨_, rfl⟩ | ⟨hnonneg, _, rfl⟩⟩ := write_cases hcall
  · exact ⟨by simp, by simp, h.readBack⟩
  · have hwhole : result = 4 := by
      rcases hok with hneg | hwhole
      · omega
      · exact hwhole
    have hwritten := h.written (.inr hstage)
    refine ⟨by simp, fun _ => ?_, h.readBack⟩
    rw [List.length_append, List.length_take, length_encode, hwritten, hwhole]
    rfl

theorem paced_read (h : Paced s) (hsound : Sound s) (hloop : InLoop s)
    (hcall : s.read result = some s') : Paced s' := by
  obtain ⟨hstage, ⟨_, rfl⟩ | ⟨_, _, rfl⟩⟩ := read_cases hcall
  · exact ⟨by simp, by simp, h.readBack⟩
  · have hsucc := toNat_succ_of_lt (hloop hstage)
    have hwritten := h.reading hstage
    have hread := (append_take_drop_isPrefix hsound.readBack result.toNat).length_le
    have hsent := (List.sublist_append_left _ _).trans hsound.echoed |>.length_le
    have hreceived := hsound.received.length_le
    refine ⟨fun _ => ?_, by simp, ?_⟩
    · simp only [hsucc, hwritten]
    · simp only [hsucc, toClient]
      omega

theorem paced_call {call : Call} (h : Paced s) (hsound : Sound s) (hloop : InLoop s)
    (hok : s.Whole call) (hcall : s.call buffer call = some s') : Paced s' := by
  cases call with
  | connect result =>
    obtain ⟨hstage, ⟨_, rfl⟩ | ⟨_, rfl⟩⟩ := connect_cases hcall <;>
      exact ⟨fun _ => h.written (.inl hstage), by simp, h.readBack⟩
  | write result => exact paced_write h hok hcall
  | read result => exact paced_read h hsound hloop hcall
  | leave =>
    obtain ⟨_, _, rfl⟩ := leave_eq hcall
    exact ⟨by simp, by simp, h.readBack⟩
  | accept =>
    obtain ⟨_, rfl⟩ := accept_eq hcall
    exact ⟨h.written, h.reading, h.readBack⟩
  | recv result =>
    obtain ⟨_, ⟨_, _, _, rfl⟩ | ⟨_, rfl⟩ | ⟨_, _, _, rfl⟩⟩ := recv_cases hcall <;>
      exact ⟨h.written, h.reading, h.readBack⟩
  | send result =>
    obtain ⟨_, _, ⟨_, rfl⟩ | ⟨_, _, rfl⟩⟩ := send_cases hcall <;>
      exact ⟨h.written, h.reading, h.readBack⟩

/-- While the client is reading, its message is on the way in one direction or the other. -/
theorem not_drained (h : Paced s) (hrelays : Relays s)
    (hstage : s.stage = .reading) (hseat : s.seat = .receiving) :
    s.toClient ≠ [] ∨ s.toServer ≠ [] := by
  by_contra hnone
  push Not at hnone
  obtain ⟨hclient, hserver⟩ := hnone
  have hwritten := h.reading hstage
  have hread := h.readBack
  have hbusy := hrelays.busy (by simp [hseat])
  rw [inHand_receiving hseat, List.append_nil] at hbusy
  have hlen := congrArg List.length hbusy
  have hsent := List.drop_eq_nil_iff.mp hclient
  have hreceived := List.drop_eq_nil_iff.mp hserver
  omega

/-! ### Calls that can be made -/

theorem exists_connect (hstage : s.stage = .connecting) : ∃ s', s.connect 0 = some s' := by
  rw [connect, if_pos hstage]
  exact ⟨_, rfl⟩

theorem exists_accept (hseat : s.seat = .waiting) : ∃ s', s.accept buffer = some s' := by
  rw [accept, if_pos hseat]
  exact ⟨_, rfl⟩

theorem exists_writing (hstage : s.stage = .writing) (buffer : Bytes) :
    ∃ call s', ¬ call.Fails ∧ s.Whole call ∧ s.call buffer call = some s' ∧
      (call = .write 4 ∨ call = .leave) := by
  by_cases hlt : s.client.receivedMessages < s.messages
  · have hcall : ∃ s', s.write 4 = some s' := by
      simp only [write]
      rw [if_pos ⟨hstage, hlt⟩, if_neg (by decide), if_pos (by rw [length_encode]; decide)]
      exact ⟨_, rfl⟩
    obtain ⟨s', hs'⟩ := hcall
    exact ⟨.write 4, s', by simp [Call.Fails], .inr rfl, hs', .inl rfl⟩
  · have hcall : ∃ s', s.leave = some s' := by
      simp only [leave]
      rw [if_pos ⟨hstage, hlt⟩]
      exact ⟨_, rfl⟩
    obtain ⟨s', hs'⟩ := hcall
    exact ⟨.leave, s', id, trivial, hs', .inr rfl⟩

theorem exists_read (hstage : s.stage = .reading) (hdata : s.toClient ≠ []) :
    ∃ s', s.read 1 = some s' := by
  have hpos := List.length_pos_iff.mpr hdata
  have hroom : (1 : Int) ≤ (min PpTcpPure.bufSize s.toClient.length : Nat) := by
    simp only [PpTcpPure.bufSize]
    omega
  simp only [read]
  rw [if_pos hstage, if_neg (by decide), if_pos ⟨hroom, by simp⟩]
  exact ⟨_, rfl⟩

theorem exists_readEnd (hstage : s.stage = .reading) (hseat : s.seat = .closed)
    (hdata : s.toClient = []) : ∃ s', s.read 0 = some s' := by
  simp only [read]
  rw [if_pos hstage, if_neg (by decide), if_pos ⟨by simp, fun _ => ⟨hdata, hseat⟩⟩]
  exact ⟨_, rfl⟩

theorem exists_recv (hseat : s.seat = .receiving) (hdata : s.toServer ≠ []) :
    ∃ s', s.recv 1 = some s' := by
  have hpos := List.length_pos_iff.mpr hdata
  have hlen : (s.toServer.take 1).length = 1 := by
    rw [List.length_take]
    omega
  simp only [recv]
  rw [if_pos ⟨hseat, by omega, by simp⟩]
  simp [Connection.recv, hlen, EchoServer.bufSize]

theorem exists_recvEnd (hseat : s.seat = .receiving) (hstage : s.stage = .returned)
    (hdata : s.toServer = []) : ∃ s', s.recv 0 = some s' := by
  simp only [recv]
  rw [if_pos ⟨hseat, by simp, fun _ => ⟨hdata, hstage⟩⟩]
  simp [Connection.recv]

theorem exists_send {numBytes : Int} (hseat : s.seat = .sending numBytes) :
    ∃ s', s.send numBytes = some s' := by
  simp [send, hseat, Connection.send]

end Session

/-- All clients have returned, and the server waits for another one. -/
structure World.Idle (w : World n) : Prop where
  returned : ∀ i, (w.sessions i).stage = .returned ∨ (w.sessions i).stage = .refused
  backlog : w.backlog = []
  serving : w.serving = none
  running : w.exited = false

/-- What holds of every session as long as no call moves a part of its bytes only. -/
structure Session.Fluent (s : Session) : Prop where
  sound : s.Sound
  inLoop : s.InLoop
  relays : s.Relays
  paced : s.Paced
  looping : s.Looping

theorem fluent_initial (messages : UInt32) : Session.Fluent { messages } where
  sound := Session.sound_initial messages
  inLoop hreading := by cases hreading
  relays := ⟨fun _ => rfl, List.prefix_refl _⟩
  paced := ⟨fun _ => rfl, by simp, Nat.zero_le _⟩
  looping := trivial

theorem fluent_call {s s' : Session} {buffer : Bytes} {call : Call} (h : s.Fluent)
    (hok : s.Whole call) (hcall : s.call buffer call = some s') : s'.Fluent where
  sound := Session.sound_call h.sound hcall
  inLoop := Session.inLoop_call h.inLoop hcall
  relays := Session.relays_call h.relays hok.sendsWhole hcall
  paced := Session.paced_call h.paced h.sound h.inLoop hok hcall
  looping := Session.looping_call h.looping hcall

/-- There is a step that is a call which does not fail and takes all of its bytes. -/
def World.GoesOn (w : World n) : Prop :=
  ∃ a w', ¬ a.Fails ∧ w.Allows Session.Whole a ∧ w.step a = some w'

theorem goesOn_of_call {w : World n} {i : Fin n} (call : Call) {s : Session}
    (hfails : ¬ call.Fails) (hwhole : (w.sessions i).Whole call) (hmay : w.MayCall i call)
    (hs : (w.sessions i).call w.dataBuffer call = some s) : w.GoesOn := by
  refine ⟨.call i call, w.after i call s, hfails, hwhole, ?_⟩
  simp only [World.step]
  rw [if_pos hmay, hs]
  rfl

theorem goesOn_writing {w : World n} {i : Fin n} (hstage : (w.sessions i).stage = .writing) :
    w.GoesOn := by
  obtain ⟨call, s, hfails, hwhole, hs, rfl | rfl⟩ := Session.exists_writing hstage w.dataBuffer
  · exact goesOn_of_call _ hfails hwhole trivial hs
  · exact goesOn_of_call _ hfails hwhole trivial hs

theorem goesOn_reading {w : World n} {i : Fin n} (hstage : (w.sessions i).stage = .reading)
    (hdata : (w.sessions i).toClient ≠ []) : w.GoesOn := by
  obtain ⟨s, hs⟩ := Session.exists_read hstage hdata
  exact goesOn_of_call (.read 1) (by simp [Call.Fails]) trivial trivial hs

/-- The server gets on with the connection that it is busy with, or the client does. -/
theorem goesOn_serving {w : World n} {i : Fin n} (hplaced : Placed w)
    (h : (w.sessions i).Fluent) (hserving : w.serving = some i) : w.GoesOn := by
  have hbusy := (hplaced.serving i).mp hserving
  cases hseat : (w.sessions i).seat with
  | waiting => exact absurd hseat hbusy.1
  | closed => exact absurd hseat hbusy.2
  | sending numBytes =>
    obtain ⟨_, _, _, _, _, _, _, hpos, _⟩ := (Session.looping_sending hseat).mp h.looping
    obtain ⟨s, hs⟩ := Session.exists_send hseat
    refine goesOn_of_call (.send numBytes) ?_ (.inr hseat) hserving hs
    simp only [Call.Fails]
    omega
  | receiving =>
    have hrecv : (w.sessions i).toServer ≠ [] → w.GoesOn := by
      intro hdata
      obtain ⟨s, hs⟩ := Session.exists_recv hseat hdata
      exact goesOn_of_call (.recv 1) (by simp [Call.Fails]) trivial hserving hs
    cases hstage : (w.sessions i).stage with
    | connecting => exact absurd hstage (hplaced.connected i hbusy.1).1
    | refused => exact absurd hstage (hplaced.connected i hbusy.1).2
    | writing => exact goesOn_writing hstage
    | reading =>
      rcases Session.not_drained h.paced h.relays hstage hseat with hdata | hdata
      · exact goesOn_reading hstage hdata
      · exact hrecv hdata
    | returned =>
      by_cases hdata : (w.sessions i).toServer = []
      · obtain ⟨s, hs⟩ := Session.exists_recvEnd hseat hstage hdata
        exact goesOn_of_call (.recv 0) (by simp [Call.Fails]) trivial hserving hs
      · exact hrecv hdata

/-- A server that is busy with none and has accepted all has closed every connection. -/
theorem closed_of_free {w : World n} {i : Fin n} (hplaced : Placed w) (hfree : w.serving = none)
    (hempty : w.backlog = []) (hconnected : (w.sessions i).Connected) :
    (w.sessions i).seat = .closed := by
  have hwaiting : (w.sessions i).seat ≠ .waiting := by
    intro hseat
    have hmem := (hplaced.backlog i).mpr ⟨hseat, hconnected⟩
    rw [hempty] at hmem
    cases hmem
  by_contra hopen
  have hserving := (hplaced.serving i).mpr ⟨hwaiting, hopen⟩
  rw [hfree] at hserving
  cases hserving

/-- A client whose connection does not wait for the server gets on by itself. -/
theorem goesOn_free {w : World n} {i : Fin n} (hplaced : Placed w) (hrunning : w.exited = false)
    (hfree : w.serving = none) (hempty : w.backlog = [])
    (hstage : ¬ ((w.sessions i).stage = .returned ∨ (w.sessions i).stage = .refused)) :
    w.GoesOn := by
  cases hcase : (w.sessions i).stage with
  | returned => exact absurd (.inl hcase) hstage
  | refused => exact absurd (.inr hcase) hstage
  | connecting =>
    obtain ⟨s, hs⟩ := Session.exists_connect hcase
    exact goesOn_of_call (.connect 0) (by simp [Call.Fails]) trivial (fun _ => hrunning) hs
  | writing => exact goesOn_writing hcase
  | reading =>
    have hclosed := closed_of_free hplaced hfree hempty (i := i) ⟨by simp [hcase], by simp [hcase]⟩
    by_cases hdata : (w.sessions i).toClient = []
    · obtain ⟨s, hs⟩ := Session.exists_readEnd hcase hclosed hdata
      exact goesOn_of_call (.read 0) (by simp [Call.Fails]) trivial trivial hs
    · exact goesOn_reading hcase hdata

theorem goesOn {w : World n} (hplaced : Placed w) (h : ∀ i, (w.sessions i).Fluent)
    (hrunning : w.exited = false) (hbusy : ¬ w.Idle) : w.GoesOn := by
  cases hserving : w.serving with
  | some i => exact goesOn_serving hplaced (h i) hserving
  | none =>
    cases hbacklog : w.backlog with
    | nil =>
      have hleft : ∃ i, ¬ ((w.sessions i).stage = .returned ∨ (w.sessions i).stage = .refused) := by
        by_contra hnone
        exact hbusy ⟨fun i => by_contra fun hi => hnone ⟨i, hi⟩, hbacklog, hserving, hrunning⟩
      obtain ⟨i, hstage⟩ := hleft
      exact goesOn_free hplaced hrunning hserving hbacklog hstage
    | cons i rest =>
      have hseat := ((hplaced.backlog i).mp (by simp [hbacklog])).1
      obtain ⟨s, hs⟩ := Session.exists_accept hseat
      exact goesOn_of_call .accept id trivial ⟨hrunning, hserving, by simp [hbacklog]⟩ hs

/-- A client that is in the backlog when `accept` fails. -/
example : ((system (n := 1) (fun _ => 1) []).run
    [.call 0 (.connect 0), .acceptFails, .call 0 (.write 4), .call 0 (.read (-1))]).map
      (fun w => (w.exited, (w.sessions 0).client.outcome)) = some (true, some .errorReading) := by
  decide

namespace Session

variable {s s' : Session} {result : Int} {buffer : Bytes}

/-- The rounds that the client has begun. -/
def begun (s : Session) : Nat :=
  if s.stage = .reading then s.client.receivedMessages.toNat + 1
  else s.client.receivedMessages.toNat

/-- What holds of every session as long as no call fails either. -/
structure Flawless (s : Session) : Prop where
  connected : s.stage ≠ .refused
  written : s.client.written = (consecutive 0 s.begun).flatMap encode
  atMost : s.client.receivedMessages.toNat ≤ s.messages.toNat
  returned : s.stage = .returned →
    s.client.outcome = some .gotAllMessages ∧ s.client.receivedMessages = s.messages
  closed : s.seat = .closed → s.stage = .returned ∧
    s.connection.outcome = some .clientShutDown ∧ s.connection.received = s.client.written ∧
    s.connection.sent = s.client.written

theorem flawless_write (h : Flawless s) (hok : s.Whole (.write result))
    (hfine : ¬ (Call.write result).Fails) (hcall : s.write result = some s') : Flawless s' := by
  obtain ⟨hstage, _, ⟨hneg, rfl⟩ | ⟨_, _, rfl⟩⟩ := write_cases hcall
  · exact absurd hneg hfine
  · have hwhole : result = 4 := hok.resolve_left hfine
    have hwritten := h.written
    rw [begun, if_neg (by simp [hstage])] at hwritten
    have htake : (encode s.client.receivedMessages).take result.toNat =
        encode s.client.receivedMessages := by
      rw [hwhole]
      rfl
    refine ⟨by simp, ?_, h.atMost, by simp, ?_⟩
    · simp only [begun, if_true]
      rw [htake, hwritten, consecutive_succ, List.flatMap_append, Nat.zero_add,
        UInt32.ofNat_toNat, List.flatMap_singleton]
    · intro hclosed
      have hreturned := (h.closed hclosed).1
      rw [hstage] at hreturned
      cases hreturned

theorem flawless_read (h : Flawless s) (hloop : InLoop s)
    (hfine : ¬ (Call.read result).Fails) (hcall : s.read result = some s') : Flawless s' := by
  obtain ⟨hstage, ⟨hneg, rfl⟩ | ⟨_, _, rfl⟩⟩ := read_cases hcall
  · exact absurd hneg hfine
  · have hsucc := toNat_succ_of_lt (hloop hstage)
    have hlt := UInt32.lt_iff_toNat_lt.mp (hloop hstage)
    have hwritten := h.written
    rw [begun, if_pos hstage] at hwritten
    refine ⟨by simp, ?_, ?_, by simp, ?_⟩
    · simp [begun, hwritten, hsucc]
    · simp only [hsucc]
      omega
    · intro hclosed
      have hreturned := (h.closed hclosed).1
      rw [hstage] at hreturned
      cases hreturned

theorem flawless_leave (h : Flawless s) (hcall : s.leave = some s') : Flawless s' := by
  obtain ⟨hstage, hge, rfl⟩ := leave_eq hcall
  have hle := UInt32.le_iff_toNat_le.mp (UInt32.not_lt.mp hge)
  have hatMost := h.atMost
  have heq : s.client.receivedMessages = s.messages := by
    apply UInt32.toNat_inj.mp
    omega
  have hwritten := h.written
  rw [begun, if_neg (by simp [hstage])] at hwritten
  refine ⟨by simp, ?_, hatMost, fun _ => ⟨rfl, heq⟩, ?_⟩
  · simp [begun, hwritten]
  · intro hclosed
    have hreturned := (h.closed hclosed).1
    rw [hstage] at hreturned
    cases hreturned

theorem flawless_recv (h : Flawless s) (hsound : Sound s) (hrelays : Relays s)
    (hfine : ¬ (Call.recv result).Fails) (hcall : s.recv result = some s') : Flawless s' := by
  obtain ⟨hseat, ⟨_, hdata, hstage, rfl⟩ | ⟨hneg, rfl⟩ | ⟨_, _, _, rfl⟩⟩ := recv_cases hcall
  · have hreceived : s.connection.received = s.client.written :=
      hsound.received.eq_of_length_le (List.drop_eq_nil_iff.mp hdata)
    have hbusy := hrelays.busy (by simp [hseat])
    rw [inHand_receiving hseat, List.append_nil] at hbusy
    exact ⟨h.connected, h.written, h.atMost, h.returned, fun _ =>
      ⟨hstage, rfl, hreceived, hbusy.trans hreceived⟩⟩
  · exact absurd hneg hfine
  · exact ⟨h.connected, h.written, h.atMost, h.returned, by simp⟩

theorem flawless_call {call : Call} (h : Flawless s) (hs : s.Fluent) (hok : s.Whole call)
    (hfine : ¬ call.Fails) (hcall : s.call buffer call = some s') : Flawless s' := by
  cases call with
  | connect result =>
    obtain ⟨hstage, ⟨hneg, rfl⟩ | ⟨_, rfl⟩⟩ := connect_cases hcall
    · exact absurd hneg hfine
    have hwritten := h.written
    rw [begun, if_neg (by simp [hstage])] at hwritten
    refine ⟨by simp, by simp [begun, hwritten], h.atMost, by simp, ?_⟩
    intro hclosed
    have hreturned := (h.closed hclosed).1
    rw [hstage] at hreturned
    cases hreturned
  | write result => exact flawless_write h hok hfine hcall
  | read result => exact flawless_read h hs.inLoop hfine hcall
  | leave => exact flawless_leave h hcall
  | accept =>
    obtain ⟨_, rfl⟩ := accept_eq hcall
    exact ⟨h.connected, h.written, h.atMost, h.returned, by simp⟩
  | recv result => exact flawless_recv h hs.sound hs.relays hfine hcall
  | send result =>
    obtain ⟨_, _, ⟨hneg, rfl⟩ | ⟨_, _, rfl⟩⟩ := send_cases hcall
    · exact absurd hneg hfine
    · exact ⟨h.connected, h.written, h.atMost, h.returned, by simp⟩

end Session

theorem flawless_run {messages : Fin n → UInt32} {dataBuffer : Bytes} {as : List (Action n)}
    {w : World n}
    (hm : (system messages dataBuffer).Meets (fun w a => w.Allows Session.Whole a ∧ ¬ a.Fails)
      (system messages dataBuffer).init as)
    (h : (system messages dataBuffer).run as = some w) (i : Fin n) :
    (w.sessions i).Fluent ∧ (w.sessions i).Flawless := by
  refine forall_sessions_run (P := fun _ s => s.Fluent ∧ s.Flawless)
    (fun s call => s.Whole call ∧ ¬ call.Fails) ?_ ?_ (TransitionSystem.meets_mono ?_ hm) h i
  · intro i
    exact ⟨fluent_initial (messages i),
      { connected := by simp
        written := rfl
        atMost := Nat.zero_le _
        returned := by simp
        closed := by simp }⟩
  · intro i s buffer call s' hs hok hcall
    exact ⟨fluent_call hs.1 hok.1 hcall, Session.flawless_call hs.2 hs.1 hok.1 hok.2 hcall⟩
  · intro v a ha
    cases a with
    | call i call => exact ha
    | acceptFails => trivial

/-- The server runs until an `accept` fails. -/
theorem running_run {messages : Fin n → UInt32} {dataBuffer : Bytes} {as : List (Action n)}
    {w : World n}
    (hm : (system messages dataBuffer).Meets (fun w a => w.Allows Session.Whole a ∧ ¬ a.Fails)
      (system messages dataBuffer).init as)
    (h : (system messages dataBuffer).run as = some w) : w.exited = false := by
  have hstep : ∀ (v : World n) (a : Action n) (v' : World n), v.exited = false →
      (v.Allows Session.Whole a ∧ ¬ a.Fails) → v.step a = some v' → v'.exited = false := by
    intro v a v' hv hok hs
    obtain ⟨i, call, s, rfl, _, _, rfl⟩ | ⟨rfl, _⟩ := World.step_cases hs
    · rw [World.after_exited, hv]
    · exact absurd trivial hok.2
  exact @TransitionSystem.invariant_runFrom _ _ _ _ (fun v => v.exited = false) hstep _ _ _ rfl hm h

/-- Every client has got through its messages, and the server has echoed all of them and
seen the client's shutdown. -/
def Completed (messages : Fin n → UInt32) (w : World n) : Prop :=
  w.Idle ∧ ∀ i, (w.sessions i).stage = .returned ∧
    (w.sessions i).client.outcome = some .gotAllMessages ∧
    (w.sessions i).client.receivedMessages = messages i ∧
    (w.sessions i).client.written = serialised (messages i) ∧
    (w.sessions i).connection.outcome = some .clientShutDown ∧
    (w.sessions i).connection.received = serialised (messages i) ∧
    (w.sessions i).connection.sent = serialised (messages i)

theorem completed_of_idle {messages : Fin n → UInt32} {dataBuffer : Bytes}
    {as : List (Action n)} {w : World n}
    (hm : (system messages dataBuffer).Meets (fun w a => w.Allows Session.Whole a ∧ ¬ a.Fails)
      (system messages dataBuffer).init as)
    (h : (system messages dataBuffer).run as = some w) (hidle : w.Idle) :
    Completed messages w := by
  refine ⟨hidle, fun i => ?_⟩
  have hflawless := (flawless_run hm h i).2
  have hreturned := (hidle.returned i).resolve_right hflawless.connected
  have hclosed := closed_of_free (placed_run h) hidle.serving hidle.backlog (i := i)
    ⟨by simp [hreturned], hflawless.connected⟩
  obtain ⟨hgot, hall⟩ := hflawless.returned hreturned
  obtain ⟨_, hshut, hreceived, hsent⟩ := hflawless.closed hclosed
  rw [messages_run h i] at hall
  have hwritten : (w.sessions i).client.written = serialised (messages i) := by
    rw [hflawless.written, Session.begun, if_neg (by simp [hreturned]), hall, serialised]
  exact ⟨hreturned, hgot, hall, hwritten, hshut, hreceived.trans hwritten, hsent.trans hwritten⟩

/-- **Every undisturbed run of all processes completes.**  If no call fails and every
`write` and `send` takes all of its bytes, then however the processes take turns and
however many bytes each `read` and `recv` returns, every client gets through its
messages, and the server has echoed them all and awaits a new client. -/
theorem all_complete (messages : Fin n → UInt32) (dataBuffer : Bytes) :
    (system messages dataBuffer).Inevitable
      (fun w a => w.Allows Session.Whole a ∧ ¬ a.Fails) (Completed messages) where
  continues as w hm h hundone := by
    have hbusy : ¬ w.Idle := fun hidle => hundone (completed_of_idle hm h hidle)
    obtain ⟨a, w', hfails, hwhole, hs⟩ :=
      goesOn (placed_run h) (fun i => (flawless_run hm h i).1) (running_run hm h) hbusy
    exact ⟨a, w', ⟨hwhole, hfails⟩, hs⟩
  bounded := ⟨_, fun _ _ _ h _ => length_le_potential h⟩

end NewbMeasurements.PpTcpSystem
