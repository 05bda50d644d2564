import NewbMeasurements.PpTcpPure
import NewbMeasurements.TcpSegmentation
import NewbMeasurements.UdpProgress

/-!
The four ping-pong clients compared: how many pings each sends and how many
replies it accepts until it reports completion, on an undisturbed network. The
event-driven ones send first and test after each reply; the loop of `pp_tcp_pure`
tests first.
-/

namespace NewbMeasurements.SameWork

open Transitions (TransitionSystem)

structure Work where
  pings : Nat
  replies : Nat
  deriving DecidableEq, Repr

inductive PingClient
  | udp
  | tcp
  | tcpTraditional
  | tcpPure
  deriving DecidableEq, Repr

/-- An undisturbed run of a pair of `pingpong_tcp` reports completion after this work. -/
def TcpReports (P : TcpSystem.Pair) (messages : UInt32) (work : Work) : Prop :=
  ∃ as w, (TcpSystem.system P messages.toUInt64).Meets TcpSystem.Whole (.initial P) as ∧
    (TcpSystem.system P messages.toUInt64).run as = some w ∧ 1 ≤ w.notices ∧
    work = ⟨w.pings.length, w.clientFrames.length⟩

/-- An undisturbed run of the client reports completion after this work. -/
def Reports (messages : UInt32) : PingClient → Work → Prop
  | .udp, work => ∃ as w,
    (UdpSystem.system messages.toUInt64).Meets UdpSystem.Undisturbed .initial as ∧
      (UdpSystem.system messages.toUInt64).run as = some w ∧ 1 ≤ w.completed ∧
      work = ⟨w.pings.length, w.clientAccepted.length⟩
  | .tcp, work => TcpReports TcpSystem.newbPair messages work
  | .tcpTraditional, work => TcpReports TcpSystem.traditionalPair messages work
  | .tcpPure, work => ∃ as s,
    (PpTcpPure.client messages).Meets (fun _ a => a = .round 4 4 ∨ a = .leave) {} as ∧
      (PpTcpPure.client messages).run as = some s ∧ s.outcome = some .gotAllMessages ∧
      work = ⟨(PpTcpPure.results as).length, s.receivedMessages.toNat⟩

/-- Every client reports completion after `messages` pings and replies, and after
nothing else. -/
def Agree (messages : UInt32) : Prop :=
  ∀ client work, Reports messages client work ↔ work = ⟨messages.toNat, messages.toNat⟩

variable {messages : UInt32} {work : Work}

theorem bounds (h : messages ≠ 0) :
    1 ≤ messages.toUInt64.toNat ∧ messages.toUInt64.toNat < 2 ^ 32 := by
  rw [UInt32.toNat_toUInt64]
  constructor
  · apply Nat.one_le_iff_ne_zero.mpr
    intro hz
    exact h (UInt32.toNat_inj.mp hz)
  · exact messages.toNat_lt

/-! ## At least one message -/

theorem udp_reports (h : messages ≠ 0) :
    Reports messages .udp work ↔ work = ⟨messages.toNat, messages.toNat⟩ := by
  obtain ⟨hm, hm'⟩ := bounds h
  constructor
  · rintro ⟨as, w, _, hrun, hdone, rfl⟩
    obtain ⟨e, _, hr⟩ := UdpSystem.refines_run hm hm' hrun
    have hcomplete := (UdpSystem.completed_of_refines hr).mp hdone
    rw [hr.length_pings, hr.clientAccepted, Words.length_consecutive,
      Exchange.asked_of_complete hm hcomplete, hcomplete, UInt32.toNat_toUInt64]
  · rintro rfl
    obtain ⟨e, hpath, hcomplete⟩ := (Exchange.initial messages.toUInt64.toNat).exists_complete
    obtain ⟨as, w, hok, hrun, hf⟩ := TransitionSystem.realisation_runFrom
      (T := UdpSystem.system messages.toUInt64) (R := UdpSystem.Faithful)
      (fun _ _ _ hR hS => UdpSystem.realises_step hm hm' hR hS)
      ⟨UdpSystem.refines_initial hm, UdpSystem.tight_initial⟩ hpath
    refine ⟨as, w, TransitionSystem.meets_mono (fun _ _ ha => ha.2) hok, hrun,
      (UdpSystem.completed_of_refines hf.refines).mpr hcomplete, ?_⟩
    rw [hf.refines.length_pings, hf.refines.clientAccepted, Words.length_consecutive,
      Exchange.asked_of_complete hm hcomplete, hcomplete, UInt32.toNat_toUInt64]

theorem tcp_reports {P : TcpSystem.Pair} (hP : TcpSystem.Contract P)
    (hp : P.policy = .exactly 4 ∨ P.policy = .segments) (h : messages ≠ 0) :
    TcpReports P messages work ↔ work = ⟨messages.toNat, messages.toNat⟩ := by
  obtain ⟨hm, hm'⟩ := bounds h
  constructor
  · rintro ⟨as, w, hok, hrun, hdone, rfl⟩
    obtain ⟨e, _, hr⟩ := TcpSystem.refines_run hP hm hm'
      (TransitionSystem.meets_mono (TcpSystem.frameOk_of_whole hp) hok) hrun
    have hcomplete : e.answered = messages.toUInt64.toNat := by
      by_contra hne
      rw [hr.notices, if_neg hne] at hdone
      exact Nat.not_succ_le_zero 0 hdone
    simp only [hr.pings, hr.clientFrames, List.length_map, Words.length_consecutive,
      Exchange.asked_of_complete hm hcomplete, hcomplete, UInt32.toNat_toUInt64]
  · rintro rfl
    obtain ⟨e, hpath, hcomplete⟩ := (Exchange.initial messages.toUInt64.toNat).exists_complete
    obtain ⟨as, w, hok, hrun, ha⟩ := TransitionSystem.realisation_runFrom
      (T := TcpSystem.system P messages.toUInt64) (R := TcpSystem.Aligned P)
      (fun _ _ _ hR hS => TcpSystem.realises_step hP hp hm hm' hR hS)
      (TcpSystem.aligned_initial hP hm) hpath
    refine ⟨as, w, hok, hrun, ?_, ?_⟩
    · have hnotices := ha.refines.notices
      rw [if_pos hcomplete] at hnotices
      exact Nat.le_of_eq hnotices.symm
    · simp only [ha.refines.pings, ha.refines.clientFrames, List.length_map,
        Words.length_consecutive, Exchange.asked_of_complete hm hcomplete, hcomplete,
        UInt32.toNat_toUInt64]

/-! ## The loop -/

/-- From a state in which all echoes have been read the loop goes through its
remaining rounds and ends. -/
theorem pure_completes (n : Nat) {s : PpTcpPure.Client} (hs : s.outcome = none)
    (hread : s.readBack = s.written) (hn : s.receivedMessages.toNat + n = messages.toNat) :
    ∃ s', (PpTcpPure.client messages).runFrom s (List.replicate n (.round 4 4) ++ [.leave]) =
      some s' ∧ s'.outcome = some .gotAllMessages := by
  induction n generalizing s with
  | zero =>
    have hnot : ¬ s.receivedMessages < messages := by
      rw [UInt32.lt_iff_toNat_lt]
      omega
    refine ⟨{ s with outcome := some .gotAllMessages }, ?_, rfl⟩
    simp [TransitionSystem.runFrom, PpTcpPure.client, PpTcpPure.Client.step, hs, hnot]
  | succ n ih =>
    have hlt : s.receivedMessages < messages := by
      rw [UInt32.lt_iff_toNat_lt]
      omega
    have hsucc := Words.toNat_succ_of_lt hlt
    obtain ⟨s', hrun, hdone⟩ := ih (s := { s with
        written := s.written ++ Words.encode s.receivedMessages
        readBack := s.written ++ Words.encode s.receivedMessages
        receivedMessages := s.receivedMessages + 1 }) hs rfl (by simp only [hsucc]; omega)
    refine ⟨s', ?_, hdone⟩
    rw [List.replicate_succ, List.cons_append]
    refine TransitionSystem.runFrom_cons.mpr ⟨_, ?_, hrun⟩
    simp [PpTcpPure.client, PpTcpPure.Client.step, PpTcpPure.Client.round, hs, hlt, hread,
      PpTcpPure.bufSize, Words.encode]

theorem pure_reports : Reports messages .tcpPure work ↔ work = ⟨messages.toNat, messages.toNat⟩ := by
  have hwork : ∀ {as s}, (PpTcpPure.client messages).run as = some s →
      s.outcome = some .gotAllMessages →
      (PpTcpPure.results as).length = messages.toNat ∧ s.receivedMessages = messages := by
    intro as s hrun hdone
    have hall := PpTcpPure.gotAll_run hrun rfl (Nat.zero_le _) (List.prefix_refl _) hdone
    exact ⟨by simpa [PpTcpPure.client] using hall.rounds, hall.received⟩
  constructor
  · rintro ⟨as, s, _, hrun, hdone, rfl⟩
    obtain ⟨hcount, hend⟩ := hwork hrun hdone
    rw [hcount, hend]
  · rintro rfl
    obtain ⟨s, hrun, hdone⟩ := pure_completes messages.toNat (s := {}) rfl rfl
      (Nat.zero_add messages.toNat)
    obtain ⟨hcount, hend⟩ := hwork hrun hdone
    refine ⟨_, s, ?_, hrun, hdone, by rw [hcount, hend]⟩
    apply TransitionSystem.meets_of_mem
    intro s a ha
    rcases List.mem_append.mp ha with ha | ha
    · exact .inl (List.eq_of_mem_replicate ha)
    · exact .inr (List.mem_singleton.mp ha)

/-! ## No messages -/

/-- The event-driven clients send a first ping, and complete with its answer. -/
theorem udp_reports_zero : Reports 0 .udp ⟨1, 1⟩ := by
  refine ⟨[.start, .deliverPing 0 0, .deliverReply 0 0], _, ?_, rfl, by decide, by decide⟩
  refine ⟨trivial, fun s hs => ?_⟩
  cases hs
  refine ⟨by decide, fun s hs => ?_⟩
  cases hs
  exact ⟨by decide, fun _ _ => trivial⟩

/-- **The clients do the same work** unless they are asked for no messages. -/
theorem agree_iff (messages : UInt32) : Agree messages ↔ messages ≠ 0 := by
  constructor
  · rintro h rfl
    have hwork := (h .udp ⟨1, 1⟩).mp udp_reports_zero
    exact absurd hwork (by decide)
  · intro h client work
    cases client with
    | udp => exact udp_reports h
    | tcp => exact tcp_reports TcpSystem.contract_newb (.inr TcpSystem.policy_newb) h
    | tcpTraditional =>
      exact tcp_reports TcpSystem.contract_traditional (.inl TcpSystem.policy_traditional) h
    | tcpPure => exact pure_reports

/-- Asked for no messages the UDP client sends a ping and accepts a reply, which the
loop of `pp_tcp_pure` does not. -/
theorem work_for_no_messages : ¬ ∀ (messages : UInt32) (client : PingClient) (work : Work),
    Reports messages client work → work = ⟨messages.toNat, messages.toNat⟩ := by
  intro h
  exact absurd (h 0 .udp ⟨1, 1⟩ udp_reports_zero) (by decide)

end NewbMeasurements.SameWork
