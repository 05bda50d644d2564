import NewbMeasurements.Library.Transitions
import NewbMeasurements.Library.Words

/-!
The client loop of `pp_tcp_pure.cpp` against a peer that echoes every byte it
gets, in order. What `write` and `read` return is up to the environment; the
loop looks at the sign of the results only, and so counts calls, not bytes.
-/

namespace NewbMeasurements.PpTcpPure

open Words (Bytes encode toNat_succ_of_lt consecutive consecutive_cons length_consecutive
  length_encode length_flatMap_encode)
open Transitions (TransitionSystem)

/-- How the client branch of `caf_main` ends; only the last way prints a duration. -/
inductive Outcome
  | errorWriting
  | errorReading
  | gotAllMessages
  deriving DecidableEq, Repr

def bufSize : Nat := 256

/-- `written` and `readBack` are the bytes that went over the socket so far. -/
structure Client where
  receivedMessages : UInt32 := 0
  written : Bytes := []
  readBack : Bytes := []
  outcome : Option Outcome := none
  deriving DecidableEq, Repr

/-- One round of the loop with the results of its two calls, or the end of the loop. -/
inductive Action
  | round (writeResult readResult : Int)
  | leave
  deriving DecidableEq, Repr

namespace Client

/-- The loop body. A call cannot write more than it is given, and cannot read more
than the buffer holds or the peer has echoed. -/
def round (s : Client) (writeResult readResult : Int) : Option Client :=
  let sendBuf := encode s.receivedMessages
  if writeResult < 0 then some { s with outcome := some .errorWriting }
  else if writeResult ≤ sendBuf.length then
    let written := s.written ++ sendBuf.take writeResult.toNat
    let echoed := written.drop s.readBack.length
    if readResult < 0 then some { s with written, outcome := some .errorReading }
    else if readResult ≤ min bufSize echoed.length then
      some { s with
        written
        readBack := s.readBack ++ echoed.take readResult.toNat
        receivedMessages := s.receivedMessages + 1 }
    else none
  else none

def step (messages : UInt32) (s : Client) : Action → Option Client
  | .round writeResult readResult =>
    if s.outcome = none ∧ s.receivedMessages < messages then s.round writeResult readResult
    else none
  | .leave =>
    if s.outcome = none ∧ ¬ s.receivedMessages < messages then
      some { s with outcome := some .gotAllMessages }
    else none

end Client

def client (messages : UInt32) : TransitionSystem Client Action where
  init := {}
  step := Client.step messages

/-- The results of `write` and `read` in a run. -/
def results : List Action → List (Int × Int)
  | [] => []
  | .round w r :: as => (w, r) :: results as
  | .leave :: as => results as

/-- What the peer has got after these results, from round `i` on. -/
def sent (i : Nat) : List (Int × Int) → Bytes
  | [] => []
  | (w, _) :: rest => (encode (UInt32.ofNat i)).take w.toNat ++ sent (i + 1) rest

/-- How many bytes the calls to `read` have returned. -/
def bytesRead (rs : List (Int × Int)) : Nat := (rs.map fun p => p.2.toNat).sum

/-- The serialisations of `0, 1, …, messages - 1`. -/
def serialised (messages : UInt32) : Bytes := (consecutive 0 messages.toNat).flatMap encode

/-- Every byte of every message got through: each `write` took its four bytes,
and the calls to `read` returned the bytes of all replies between them. -/
def WholeMessages (messages : UInt32) (rs : List (Int × Int)) : Prop :=
  (∀ p ∈ rs, p.1 = 4) ∧ (rs.map Prod.snd).sum = 4 * messages.toNat

instance (messages : UInt32) (rs : List (Int × Int)) : Decidable (WholeMessages messages rs) :=
  inferInstanceAs (Decidable (_ ∧ _))

/-- The exchange is complete: all messages went out, and their echo came back. -/
def Complete (messages : UInt32) (s : Client) : Prop :=
  s.written = serialised messages ∧ s.readBack = serialised messages

instance (messages : UInt32) (s : Client) : Decidable (Complete messages s) :=
  inferInstanceAs (Decidable (_ ∧ _))

/-! ## Rounds -/

/-- A round ends the loop with an error, or its calls succeeded. -/
theorem round_cases {s s' : Client} {w r : Int} (h : s.round w r = some s') :
    (∃ error, s'.outcome = some error ∧ error ≠ .gotAllMessages) ∨
      (0 ≤ w ∧ w ≤ 4 ∧ 0 ≤ r ∧
        r ≤ ((s.written ++ (encode s.receivedMessages).take w.toNat).drop s.readBack.length).length ∧
        s' = { s with
          written := s.written ++ (encode s.receivedMessages).take w.toNat
          readBack := s.readBack ++ ((s.written ++ (encode s.receivedMessages).take w.toNat).drop
            s.readBack.length).take r.toNat
          receivedMessages := s.receivedMessages + 1 }) := by
  simp only [Client.round] at h
  split at h
  · cases h
    exact .inl ⟨.errorWriting, rfl, nofun⟩
  · rename_i hw
    split at h
    · rename_i hw'
      split at h
      · cases h
        exact .inl ⟨.errorReading, rfl, nofun⟩
      · rename_i hr
        split at h
        · rename_i hr'
          cases h
          refine .inr ⟨by omega, hw', by omega, ?_, rfl⟩
          exact Int.le_trans hr' (Int.ofNat_le.mpr (Nat.min_le_right _ _))
        · cases h
    · cases h

/-- After the end of the loop nothing happens. -/
theorem run_of_outcome {messages : UInt32} {as : List Action} {s s' : Client}
    (h : (client messages).runFrom s as = some s') (hs : s.outcome ≠ none) : as = [] ∧ s' = s := by
  cases as with
  | nil => exact ⟨rfl, (Option.some.inj h).symm⟩
  | cons a as =>
    obtain ⟨t, ht, _⟩ := TransitionSystem.runFrom_cons.mp h
    cases a <;> simp [client, Client.step, hs] at ht

/-- What has been read stays a prefix of what has been written. -/
theorem prefix_round {written readBack sent : Bytes} {r : Nat} (h : readBack <+: written)
    (hr : r ≤ ((written ++ sent).drop readBack.length).length) :
    readBack ++ ((written ++ sent).drop readBack.length).take r <+: written ++ sent ∧
      (readBack ++ ((written ++ sent).drop readBack.length).take r).length =
        readBack.length + r := by
  obtain ⟨rest, rfl⟩ := h
  rw [List.append_assoc, List.drop_left] at hr ⊢
  constructor
  · exact (List.prefix_append_right_inj _).mpr (List.take_prefix _ _)
  · rw [List.length_append, List.length_take, Nat.min_eq_left hr]

/-- What a round that does not end the loop has done. -/
theorem round_succeeds {messages : UInt32} {s t : Client} {w r : Int} (ht : s.round w r = some t)
    (hgoes : t.outcome = none) (hlt : s.receivedMessages < messages)
    (hread : s.readBack <+: s.written) :
    (0 ≤ w ∧ w ≤ 4 ∧ 0 ≤ r) ∧ t.receivedMessages.toNat = s.receivedMessages.toNat + 1 ∧
      t.written = s.written ++ (encode s.receivedMessages).take w.toNat ∧
      t.readBack <+: t.written ∧ t.readBack.length = s.readBack.length + r.toNat := by
  rcases round_cases ht with ⟨error, he, _⟩ | ⟨hw₀, hw, hr₀, hr, rfl⟩
  · rw [he] at hgoes
    cases hgoes
  · obtain ⟨hread', hlen⟩ := prefix_round hread (Int.toNat_le.mpr hr)
    exact ⟨⟨hw₀, hw, hr₀⟩, toNat_succ_of_lt hlt, rfl, hread', hlen⟩

/-- The rounds with results `rs` lead from `s` to the end of the loop in `s'`. -/
structure GotAll (messages : UInt32) (s s' : Client) (rs : List (Int × Int)) : Prop where
  rounds : s.receivedMessages.toNat + rs.length = messages.toNat
  received : s'.receivedMessages = messages
  written : s'.written = s.written ++ sent s.receivedMessages.toNat rs
  readBack : s'.readBack <+: s'.written
  length : s'.readBack.length = s.readBack.length + bytesRead rs
  bounds : ∀ p ∈ rs, 0 ≤ p.1 ∧ p.1 ≤ 4 ∧ 0 ≤ p.2

theorem gotAll_leave {messages : UInt32} {s : Client} (hle : s.receivedMessages.toNat ≤ messages.toNat)
    (hread : s.readBack <+: s.written) (hlt : ¬ s.receivedMessages < messages) :
    GotAll messages s { s with outcome := some .gotAllMessages } [] := by
  have hge := UInt32.le_iff_toNat_le.mp (UInt32.not_lt.mp hlt)
  have heq : s.receivedMessages = messages := by
    apply UInt32.toNat_inj.mp
    omega
  exact
    { rounds := by rw [heq]; rfl
      received := heq
      written := (List.append_nil _).symm
      readBack := hread
      length := rfl
      bounds := nofun }

theorem gotAll_round {messages : UInt32} {s t s' : Client} {w r : Int} {rs : List (Int × Int)}
    (ht : s.round w r = some t) (hgoes : t.outcome = none) (hlt : s.receivedMessages < messages)
    (hread : s.readBack <+: s.written) (h : GotAll messages t s' rs) :
    GotAll messages s s' ((w, r) :: rs) := by
  obtain ⟨hbounds, hreceived, hwritten, _, hlen⟩ := round_succeeds ht hgoes hlt hread
  have hrounds := h.rounds
  refine
    { rounds := ?_
      received := h.received
      written := ?_
      readBack := h.readBack
      length := ?_
      bounds := ?_ }
  · rw [List.length_cons]
    omega
  · rw [h.written, hwritten, hreceived, sent, UInt32.ofNat_toNat, List.append_assoc]
  · rw [h.length, hlen]
    simp only [bytesRead, List.map_cons, List.sum_cons]
    omega
  · intro p hp
    rcases List.mem_cons.mp hp with rfl | hp
    · exact hbounds
    · exact h.bounds p hp

/-- A run that reaches the end of the loop has gone through as many rounds as
messages were left, and none of them failed. -/
theorem gotAll_run {messages : UInt32} {as : List Action} {s s' : Client}
    (h : (client messages).runFrom s as = some s') (hs : s.outcome = none)
    (hle : s.receivedMessages.toNat ≤ messages.toNat) (hread : s.readBack <+: s.written)
    (hdone : s'.outcome = some .gotAllMessages) : GotAll messages s s' (results as) := by
  induction as generalizing s with
  | nil =>
    cases h
    rw [hs] at hdone
    cases hdone
  | cons a as ih =>
    obtain ⟨t, ht, hrun⟩ := TransitionSystem.runFrom_cons.mp h
    cases a with
    | leave =>
      simp only [client, Client.step] at ht
      split at ht
      · rename_i hc
        cases ht
        obtain ⟨rfl, rfl⟩ := run_of_outcome hrun (by simp)
        exact gotAll_leave hle hread hc.2
      · cases ht
    | round w r =>
      simp only [client, Client.step] at ht
      split at ht
      · rename_i hc
        have hgoes : t.outcome = none := by
          rcases round_cases ht with ⟨error, he, hne⟩ | ⟨_, _, _, _, rfl⟩
          · -- the loop has ended with an error and stays there
            obtain ⟨_, rfl⟩ := run_of_outcome hrun (by simp [he])
            rw [he, Option.some.injEq] at hdone
            exact absurd hdone hne
          · exact hs
        obtain ⟨_, hreceived, _, hread', _⟩ := round_succeeds ht hgoes hc.2 hread
        have hlt := UInt32.lt_iff_toNat_lt.mp hc.2
        exact gotAll_round ht hgoes hc.2 hread (ih hrun hgoes (by omega) hread')
      · cases ht

/-! ## When the exchange is complete -/

theorem length_sent_le {rs : List (Int × Int)} (h : ∀ p ∈ rs, 0 ≤ p.1 ∧ p.1 ≤ 4) (i : Nat) :
    (sent i rs).length ≤ 4 * rs.length ∧
      ((sent i rs).length = 4 * rs.length → ∀ p ∈ rs, p.1 = 4) := by
  induction rs generalizing i with
  | nil => exact ⟨Nat.le_refl _, fun _ => nofun⟩
  | cons p rs ih =>
    obtain ⟨hle, heq⟩ := ih (fun q hq => h q (List.mem_cons_of_mem _ hq)) (i + 1)
    have hp := h p List.mem_cons_self
    have hlen : (sent i (p :: rs)).length = p.1.toNat + (sent (i + 1) rs).length := by
      rw [sent, List.length_append, List.length_take, length_encode]
      omega
    rw [hlen, List.length_cons]
    constructor
    · omega
    · intro hfull q hq
      rcases List.mem_cons.mp hq with rfl | hq
      · omega
      · exact heq (by omega) q hq

theorem sent_whole {rs : List (Int × Int)} (h : ∀ p ∈ rs, p.1 = 4) (i : Nat) :
    sent i rs = (consecutive i rs.length).flatMap encode := by
  induction rs generalizing i with
  | nil => rfl
  | cons p rs ih =>
    rw [sent, ih (fun q hq => h q (List.mem_cons_of_mem _ hq)), List.length_cons, consecutive_cons,
      List.flatMap_cons, h p List.mem_cons_self]
    rfl

theorem bytesRead_eq {rs : List (Int × Int)} (h : ∀ p ∈ rs, 0 ≤ p.2) :
    (bytesRead rs : Int) = (rs.map Prod.snd).sum := by
  induction rs with
  | nil => rfl
  | cons p rs ih =>
    have hp := h p List.mem_cons_self
    have hrest := ih fun q hq => h q (List.mem_cons_of_mem _ hq)
    simp only [bytesRead, List.map_cons, List.sum_cons] at hrest ⊢
    omega

theorem length_serialised (messages : UInt32) :
    (serialised messages).length = 4 * messages.toNat := by
  rw [serialised, length_flatMap_encode, length_consecutive]

/-- **The loop counts calls.**  When it reaches its end, the exchange is complete
exactly if no call wrote or read less than it should have. -/
theorem complete_iff_wholeMessages {messages : UInt32} {as : List Action} {s : Client}
    (h : (client messages).run as = some s) (hdone : s.outcome = some .gotAllMessages) :
    Complete messages s ↔ WholeMessages messages (results as) := by
  have hall := gotAll_run h rfl (Nat.zero_le _) (List.prefix_refl _) hdone
  have hbounds : ∀ p ∈ results as, 0 ≤ p.1 ∧ p.1 ≤ 4 := by
    intro p hp
    exact ⟨(hall.bounds p hp).1, (hall.bounds p hp).2.1⟩
  have hsum := bytesRead_eq fun p hp => (hall.bounds p hp).2.2
  have hcount := hall.rounds
  have hwritten := hall.written
  have hlen := hall.length
  simp only [client, UInt32.toNat_zero, Nat.zero_add] at hcount hwritten hlen
  rw [List.nil_append] at hwritten
  rw [List.length_nil, Nat.zero_add] at hlen
  rw [Complete, WholeMessages, ← hsum]
  constructor
  · rintro ⟨hw, hr⟩
    constructor
    · apply (length_sent_le hbounds 0).2
      rw [← hwritten, hw, length_serialised, hcount]
    · rw [← hlen, hr, length_serialised]
      simp
  · rintro ⟨hw, hr⟩
    have hfull : s.written = serialised messages := by
      rw [hwritten, sent_whole hw, hcount, serialised]
    refine ⟨hfull, ?_⟩
    rw [← hfull]
    apply hall.readBack.eq_of_length
    rw [hfull, length_serialised, hlen]
    omega

/-- Half of the first message comes back in the second call. -/
theorem complete_iff_wholeMessages_two : ∃ s,
    (client 2).run [.round 4 2, .round 4 6, .leave] = some s ∧ Complete 2 s := by
  refine ⟨_, rfl,
    (@complete_iff_wholeMessages 2 [.round 4 2, .round 4 6, .leave] _ rfl rfl).mpr ?_⟩
  decide

/-- The peer closes the connection before it answers, and the loop reports success. -/
theorem gotAll_at_end_of_stream : ¬ ∀ (messages : UInt32) (as : List Action) (s : Client),
    (client messages).run as = some s → s.outcome = some .gotAllMessages → Complete messages s := by
  intro h
  have hc := h 1 [.round 4 0, .leave] _ rfl rfl
  exact absurd hc.2 (by decide)

end NewbMeasurements.PpTcpPure
