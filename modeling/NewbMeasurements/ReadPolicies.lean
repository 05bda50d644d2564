import NewbMeasurements.TcpTransport
import NewbMeasurements.Library.Transitions

/-!
When a read policy takes effect. `raw_client` of `pingpong_tcp` sets its policy in the
handler of `start_atom`, after `start` has prepared the first read with the policy of a
new transport; `raw_server` never sets one. What the actors get follows from that for
every cut of the stream.
-/

namespace NewbMeasurements.ReadPolicies

open Words (Bytes)
open Transitions (TransitionSystem)
open Protocols TcpTransport

/-- A newb with `raw`, and the bytes that are on their way to it. `arrived` are all that
have ever been. -/
structure Reader where
  newb : Newb Unit Bytes
  incoming : Bytes := []
  closed : Bool := false
  arrived : Bytes := []
  deriving DecidableEq, Repr

inductive Action
  | arrive (bytes : Bytes)
  | close
  | readEvent (results : List IoResult)
  deriving DecidableEq, Repr

namespace Reader

def step (w : Reader) : Action → Option Reader
  | .arrive bytes =>
    if w.closed then none
    else some { w with incoming := w.incoming ++ bytes, arrived := w.arrived ++ bytes }
  | .close => some { w with closed := true }
  | .readEvent results =>
    (w.newb.readEvent raw w.incoming w.closed results).map fun (newb, incoming) =>
      { w with newb, incoming }

/-- The actor sets its policy after `start`, and before anything is read. -/
def initial (config : ReceiveConfig) : Reader where
  newb := (Newb.start raw).request (.configureRead config)

end Reader

def reader (config : ReceiveConfig) : TransitionSystem Reader Action where
  init := .initial config
  step := Reader.step

/-! ## What a policy promises -/

/-- The policy of a new transport. -/
def newPolicy : ReceiveConfig := ⟨.atMost, 1024⟩

/-- The policy that the `i`-th message is read with. -/
def policyOf (config : ReceiveConfig) (i : Nat) : ReceiveConfig :=
  if i = 0 then newPolicy else config

def least (config : ReceiveConfig) : Nat :=
  match config.flag with
  | .atMost => 1
  | _ => config.size

def greatest (config : ReceiveConfig) : Nat :=
  match config.flag with
  | .atLeast => config.size + max 100 (config.size / 10)
  | _ => config.size

structure Conforms (config : ReceiveConfig) (m : Bytes) : Prop where
  nonEmpty : m ≠ []
  least : least config ≤ m.length
  greatest : m.length ≤ greatest config

/-- The transport is ready for a message of the policy `now`, and then for `next`. -/
structure Prepared (now next : ReceiveConfig) (t : Transport) : Prop where
  rdFlag : t.rdFlag = next.flag
  maximum : t.maximum = next.size
  bufferSize : t.bufferSize = greatest now
  readThreshold : t.readThreshold = least now
  collected : t.collected = [] ∨ t.collected.length < least now

theorem prepared_prepareNextRead {config : ReceiveConfig} {t : Transport}
    (hflag : t.rdFlag = config.flag) (hsize : t.maximum = config.size) :
    Prepared config config t.prepareNextRead := by
  obtain ⟨flag, size⟩ := config
  cases flag <;> simp only [Transport.prepareNextRead, hflag, hsize] <;>
    exact ⟨rfl, rfl, rfl, rfl, .inl rfl⟩

/-! ## What is read -/

/-- All bytes that have been consumed are in the messages, but for the ones that the
transport still collects. -/
structure Reads (config : ReceiveConfig) (b : Newb Unit Bytes) (consumed : Bytes) : Prop where
  bytes : b.handled.flatten ++ b.transport.collected = consumed
  prepared : Prepared (policyOf config b.handled.length) config b.transport
  conforms : ∀ i m, b.handled[i]? = some m → Conforms (policyOf config i) m

variable {config : ReceiveConfig} {b b' : Newb Unit Bytes} {consumed stream stream' : Bytes}
  {closed goesOn : Bool}

theorem reads_start : Reads config (Reader.initial config).newb [] where
  bytes := rfl
  prepared := ⟨rfl, rfl, rfl, rfl, .inl rfl⟩
  conforms i m h := by
    have hnone : (Reader.initial config).newb.handled[i]? = none := rfl
    rw [hnone] at h
    cases h

/-- A message that is long enough goes to the actor as it is. -/
theorem reads_deliver {block : Bytes} (hcollected : b.transport.collected = block)
    (hreceived : b.transport.receivedBytes = block.length)
    (hflag : b.transport.rdFlag = config.flag) (hsize : b.transport.maximum = config.size)
    (hbytes : b.handled.flatten ++ block = consumed)
    (hconforms : ∀ i m, b.handled[i]? = some m → Conforms (policyOf config i) m)
    (hblock : Conforms (policyOf config b.handled.length) block) :
    (b.deliver raw).2 = true ∧ Reads config (b.deliver raw).1 consumed := by
  have hdeliver : b.deliver raw = ({ b with
      transport := b.transport.prepareNextRead
      handled := b.handled ++ [block] }, true) := by
    simp only [Newb.deliver, hcollected, hreceived, List.take_length]
    rfl
  have hprepared := prepared_prepareNextRead hflag hsize
  have hempty : b.transport.prepareNextRead.collected = [] := by
    rw [Transport.prepareNextRead]
    split <;> rfl
  rw [hdeliver]
  refine ⟨rfl, ?_, ?_, ?_⟩
  · show (b.handled ++ [block]).flatten ++ b.transport.prepareNextRead.collected = consumed
    rw [hempty, List.flatten_append, List.append_nil, ← hbytes]
    simp only [List.flatten_cons, List.flatten_nil, List.append_nil]
  · have hlater : policyOf config (b.handled ++ [block]).length = config := by
      rw [List.length_append, List.length_singleton, policyOf, if_neg (Nat.succ_ne_zero _)]
    show Prepared (policyOf config (b.handled ++ [block]).length) config _
    rw [hlater]
    exact hprepared
  · intro i m hm
    rcases Nat.lt_trichotomy i b.handled.length with hlt | rfl | hgt
    · rw [List.getElem?_append_left hlt] at hm
      exact hconforms i m hm
    · rw [List.getElem?_concat_length] at hm
      cases hm
      exact hblock
    · rw [List.getElem?_eq_none (by rw [List.length_append, List.length_singleton]; omega)] at hm
      cases hm

theorem reads_readOnce {result : IoResult} (h : Reads config b consumed)
    (hs : b.readOnce raw stream closed result = some (b', stream', goesOn)) :
    ∃ segment, stream = segment ++ stream' ∧ Reads config b' (consumed ++ segment) := by
  rcases readOnce_inv hs with ⟨-, ⟨reading, rfl⟩, rfl, -⟩ | ⟨n, rfl, hpos, hroom, hstream⟩
  · refine ⟨[], rfl, ?_⟩
    rw [List.append_nil]
    exact ⟨h.bytes, h.prepared, h.conforms⟩
  · have hlen : (b.transport.collected ++ stream.take n).length =
        b.transport.collected.length + n := by
      rw [List.length_append, List.length_take]
      omega
    have hbytes : b.handled.flatten ++ (b.transport.collected ++ stream.take n) =
        consumed ++ stream.take n := by
      rw [← List.append_assoc, h.bytes]
    rw [readOnce_of_fits hpos hroom hstream] at hs
    refine ⟨stream.take n, ?_⟩
    by_cases hlong : b.transport.readThreshold ≤ b.transport.collected.length + n
    · have hblock : Conforms (policyOf config b.handled.length)
          (b.transport.collected ++ stream.take n) := by
        refine ⟨fun hnil => ?_, ?_, ?_⟩
        · rw [hnil, List.length_nil] at hlen
          omega
        · rw [hlen, ← h.prepared.readThreshold]
          exact hlong
        · rw [hlen, ← h.prepared.bufferSize]
          omega
      obtain ⟨-, hreads⟩ := reads_deliver (b := b.collect (stream.take n)) rfl rfl h.prepared.rdFlag
        h.prepared.maximum hbytes h.conforms hblock
      rw [if_pos hlong] at hs
      cases hs
      exact ⟨(List.take_append_drop n stream).symm, hreads⟩
    · rw [if_neg hlong] at hs
      cases hs
      refine ⟨(List.take_append_drop n stream).symm, hbytes, ?_, h.conforms⟩
      refine ⟨h.prepared.rdFlag, h.prepared.maximum, h.prepared.bufferSize,
        h.prepared.readThreshold, .inr ?_⟩
      show (b.transport.collected ++ stream.take n).length < least (policyOf config b.handled.length)
      rw [hlen, ← h.prepared.readThreshold]
      omega

theorem reads_readLoop {reads : Nat} {results : List IoResult} (h : Reads config b consumed)
    (hs : Newb.readLoop raw closed reads results b stream = some (b', stream')) :
    ∃ segment, stream = segment ++ stream' ∧ Reads config b' (consumed ++ segment) := by
  induction reads generalizing results b consumed stream with
  | zero =>
    cases results with
    | nil =>
      cases hs
      exact ⟨[], rfl, by rwa [List.append_nil]⟩
    | cons => cases hs
  | succ reads ih =>
    cases results with
    | nil => cases hs
    | cons result results =>
      obtain ⟨⟨b₁, stream₁, goesOn⟩, honce, hs⟩ := Option.bind_eq_some_iff.mp hs
      obtain ⟨segment, hstream, hreads⟩ := reads_readOnce h honce
      cases goesOn with
      | false =>
        simp only [Bool.false_eq_true, if_false] at hs
        split at hs
        · cases hs
          exact ⟨segment, hstream, hreads⟩
        · cases hs
      | true =>
        simp only [if_true] at hs
        obtain ⟨segment', hstream', hreads'⟩ := ih hreads hs
        refine ⟨segment ++ segment', ?_, ?_⟩
        · rw [hstream, hstream', List.append_assoc]
        · rw [← List.append_assoc]
          exact hreads'

theorem reads_step {w w' : Reader} {a : Action}
    (h : ∃ consumed, Reads config w.newb consumed ∧ consumed ++ w.incoming = w.arrived)
    (hs : w.step a = some w') :
    ∃ consumed, Reads config w'.newb consumed ∧ consumed ++ w'.incoming = w'.arrived := by
  obtain ⟨consumed, hreads, harrived⟩ := h
  cases a with
  | arrive bytes =>
    simp only [Reader.step] at hs
    split at hs
    · cases hs
    · cases hs
      refine ⟨consumed, hreads, ?_⟩
      rw [← harrived, List.append_assoc]
  | close =>
    cases hs
    exact ⟨consumed, hreads, harrived⟩
  | readEvent results =>
    obtain ⟨⟨newb, incoming⟩, hevent, rfl⟩ := Option.map_eq_some_iff.mp hs
    rw [Newb.readEvent] at hevent
    split at hevent
    · obtain ⟨segment, hstream, hreads'⟩ := reads_readLoop hreads hevent
      refine ⟨consumed ++ segment, hreads', ?_⟩
      rw [List.append_assoc, ← hstream]
      exact harrived
    · cases hevent

/-- In every run the bytes that have arrived are, in order, in the messages, in the block that
is being collected, or still on their way. The first message is read with the policy of a new
transport, and only the ones after it with the policy that the actor has set. -/
theorem policy_is_late {as : List Action} {w : Reader} (hr : (reader config).run as = some w) :
    w.newb.handled.flatten ++ w.newb.transport.collected ++ w.incoming = w.arrived ∧
      ∀ i m, w.newb.handled[i]? = some m → Conforms (policyOf config i) m := by
  have hstep : ∀ w a w', (∃ consumed, Reads config w.newb consumed ∧
      consumed ++ w.incoming = w.arrived) → True → (reader config).step w a = some w' →
      ∃ consumed, Reads config w'.newb consumed ∧ consumed ++ w'.incoming = w'.arrived :=
    fun w a w' h _ hs => reads_step h hs
  obtain ⟨consumed, hreads, harrived⟩ := TransitionSystem.invariant_runFrom hstep
    ⟨[], reads_start, rfl⟩ (TransitionSystem.meets_true _ _ as) hr
  rw [hreads.bytes]
  exact ⟨harrived, hreads.conforms⟩

/-- `exactly(4)`: the first reply is cut, the others are whole. -/
theorem policy_is_late_three : ∃ w, (reader ⟨.exactly, 4⟩).run
      [.arrive [0, 0, 0, 1, 0, 0], .readEvent [.bytes 3, .bytes 3, .wouldBlock], .arrive [0, 2, 0],
        .readEvent [.bytes 1, .bytes 2, .wouldBlock]] = some w ∧
    w.newb.handled = [[0, 0, 0], [1, 0, 0, 0]] ∧
    w.newb.handled.flatten ++ w.newb.transport.collected ++ w.incoming = w.arrived :=
  ⟨_, rfl, rfl, (@policy_is_late ⟨.exactly, 4⟩ [.arrive [0, 0, 0, 1, 0, 0],
    .readEvent [.bytes 3, .bytes 3, .wouldBlock], .arrive [0, 2, 0],
    .readEvent [.bytes 1, .bytes 2, .wouldBlock]] _ rfl).1⟩

end NewbMeasurements.ReadPolicies
