import NewbMeasurements.NewbOrdering
import NewbMeasurements.SequenceNumbers

/-!
The three benchmarks `BM_receive_udp_raw_sequence_inorder`, `_dropped` and `_late`:
`dummy_ordering_transport` replays an instruction list to an ordering layer, and
after each datagram a check aborts if a message has arrived that was not expected,
or none that was. A small machine of phases says what one instruction does; every
iteration of a benchmark is a run of it that comes back to where it started.
-/

namespace NewbMeasurements.OrderingBenchmarks

open Layers Layers.DummyOrderingTransport
open NewbOrdering (OrderingLayer maxPendingMessages)
open Reordering (Reorder)

/-- `msg_expected` and `msg_unexpected`. -/
inductive Check
  | msgExpected
  | msgUnexpected
  deriving DecidableEq, Repr

/-- Whether a message has to arrive. -/
def Check.received : Check → Bool
  | .msgExpected => true
  | .msgUnexpected => false

/-- The instructions of a benchmark, and the checks of one of its iterations. -/
structure Script where
  instructions : List Instruction
  checks : List Check
  deriving DecidableEq, Repr

/-- `BM_receive_udp_raw_sequence_inorder` -/
def inorder : Script where
  instructions :=
    [.next, .next, .next, .next, .next,
      .next, .next, .next, .next, .next]
  checks :=
    [.msgExpected, .msgExpected, .msgExpected, .msgExpected, .msgExpected,
      .msgExpected, .msgExpected, .msgExpected, .msgExpected, .msgExpected]

/-- `BM_receive_udp_raw_sequence_dropped` -/
def dropped : Script where
  instructions :=
    [.next, .skip, .next, .next, .next,
      .next, .next, .next, .next, .next]
  checks :=
    [.msgExpected, .msgUnexpected, .msgUnexpected, .msgUnexpected, .msgUnexpected,
      .msgUnexpected, .msgExpected, .msgExpected, .msgExpected, .msgExpected]

/-- `BM_receive_udp_raw_sequence_late` -/
def late : Script where
  instructions :=
    [.next, .skip, .recover, .next, .next,
      .next, .next, .next, .next, .next]
  checks :=
    [.msgExpected, .msgUnexpected, .msgExpected, .msgExpected, .msgExpected,
      .msgExpected, .msgExpected, .msgExpected, .msgExpected, .msgExpected]

/-- The actor of a benchmark with its transport and its ordering layer. `received`
is the `dummy_state`; `delivered` records the numbers of all messages that the actor
has got. -/
structure Bench (L : OrderingLayer) where
  transport : DummyOrderingTransport
  layer : L.State
  received : Bool := false
  delivered : List SequenceType := []

section

variable {L : OrderingLayer}

/-- `read_event()`: with `max_consecutive_reads` of 1 it reads once and passes the
first `received_bytes` of the receive buffer to the layer. -/
def Bench.readEvent (b : Bench L) : Option (Bench L) := do
  let transport ← b.transport.readSome
  if transport.receivedBytes = 0 then some { b with transport }
  -- beyond the end of the buffer
  else if transport.receiveBuffer.length < transport.receivedBytes then none
  else
    let (layer, messages) ←
      L.read b.layer (transport.receiveBuffer.take transport.receivedBytes)
    some { b with
      transport, layer
      received := b.received || !messages.isEmpty
      delivered := b.delivered ++ messages }

/-- A check; it is `none` where it aborts. -/
def Check.run (b : Bench L) (c : Check) : Option (Bench L) :=
  { b with received := false }.readEvent.bind fun b =>
    if b.received = c.received then some b else none

/-- The body of the benchmark's loop. -/
def iteration (s : Script) (b : Bench L) : Option (Bench L) := s.checks.foldlM Check.run b

def iterations (s : Script) : Nat → Bench L → Option (Bench L)
  | 0, b => some b
  | k + 1, b => (iterations s k b).bind (iteration s)

/-- The benchmark before its loop. -/
def Bench.start (L : OrderingLayer) (packetSize : Nat) (s : Script) : Bench L where
  transport := prepare packetSize s.instructions
  layer := L.init

end

/-! ## Phases -/

/-- What transport and layer agree on. `lost` are the numbers that have been skipped
and passed over. In a `gap`, number `e` is missing and the `len` numbers behind it
are buffered. -/
inductive Phase
  | inSync (lost : List Nat) (n : Nat)
  | gap (lost : List Nat) (e len : Nat)
  deriving DecidableEq, Repr

namespace Phase

/-- The next number of the transport. -/
def next : Phase → Nat
  | inSync _ n => n
  | gap _ e len => e + 1 + len

/-- The phase after an instruction, and whether a message arrives. -/
def step : Phase → Instruction → Option (Phase × Bool)
  | inSync lost n, .next => some (inSync lost (n + 1), true)
  | inSync lost n, .skip => some (gap lost n 1, false)
  | gap lost e len, .next =>
    if len + 1 ≤ maxPendingMessages then some (gap lost e (len + 1), false)
    else some (inSync (lost ++ [e]) (e + 1 + len + 1), true)
  | gap [] e len, .recover => some (inSync [] (e + 1 + len), true)
  | _, _ => none

/-- The phase after some instructions, if each of their checks passes. -/
def run : Phase → List (Instruction × Check) → Option Phase
  | p, [] => some p
  | p, (instruction, check) :: rest =>
    (p.step instruction).bind fun (p', received) =>
      if received = check.received then p'.run rest else none

theorem next_step {p p' : Phase} {instruction : Instruction} {received : Bool}
    (h : p.step instruction = some (p', received)) : p.next ≤ p'.next := by
  unfold step at h
  split at h
  · cases h
    exact Nat.le_succ _
  · cases h
    show _ ≤ _ + 1 + 1
    exact Nat.le_add_right _ 2
  · split at h
    · cases h
      exact Nat.le_succ _
    · cases h
      exact Nat.le_succ _
  · cases h
    exact Nat.le_refl _
  · cases h

theorem next_run {p p' : Phase} {pairs : List (Instruction × Check)}
    (h : p.run pairs = some p') : p.next ≤ p'.next := by
  induction pairs generalizing p with
  | nil =>
    cases h
    exact Nat.le_refl _
  | cons pair rest ih =>
    obtain ⟨⟨q, received⟩, hstep, hrest⟩ := Option.bind_eq_some_iff.mp h
    dsimp only at hrest
    split at hrest
    · exact (next_step hstep).trans (ih hrest)
    · cases hrest

end Phase

/-! ## One read -/

variable {L : OrderingLayer} {b b' : Bench L} {s : Script}

/-- A benchmark that is about to take instruction `i` of its list. -/
structure Ready (s : Script) (i : Nat) (b : Bench L) : Prop where
  replays : b.transport.instructions = s.instructions
  index : b.transport.index = i % s.instructions.length
  length : b.transport.receiveBuffer.length = b.transport.payloadLen + orderingHeaderLen

/-- The numbers below `n` without those in `lost`, in order. -/
def without (lost : List Nat) (n : Nat) : List Nat := (List.range n).filter (· ∉ lost)

theorem mem_without {lost : List Nat} {n x : Nat} : x ∈ without lost n ↔ x < n ∧ x ∉ lost := by
  simp [without]

theorem sorted_without (lost : List Nat) (n : Nat) : (without lost n).Pairwise (· < ·) :=
  List.pairwise_lt_range.filter _

theorem without_add {lost : List Nat} {e : Nat} (h : ∀ x ∈ lost, x < e) (k : Nat) :
    without lost (e + k) = without lost e ++ List.range' e k := by
  have hsplit : List.range (e + k) = List.range e ++ List.range' e k := by
    rw [List.range_eq_range', List.range_eq_range', ← List.range'_append_1, Nat.zero_add]
  have hall : (List.range' e k).filter (· ∉ lost) = List.range' e k := by
    apply List.filter_eq_self.mpr
    intro x hx
    have hle := (List.mem_range'_1.mp hx).1
    rw [decide_eq_true_eq]
    intro hmem
    have := h x hmem
    omega
  rw [without, hsplit, List.filter_append, hall, without]

/-- Number `e` is passed over. -/
theorem without_skip {lost : List Nat} {e : Nat} :
    without (lost ++ [e]) (e + 1) = without lost e := by
  rw [without, without, List.range_succ, List.filter_append]
  have hlast : [e].filter (· ∉ lost ++ [e]) = [] := by simp
  rw [hlast, List.append_nil]
  apply List.filter_congr
  intro x hx
  have hne : x ≠ e := Nat.ne_of_lt (List.mem_range.mp hx)
  simp [hne]

structure InSync (lost : List Nat) (n : Nat) (b : Bench L) : Prop where
  nextSeq : b.transport.nextSeq.toNat = n
  skipped : b.transport.skipped.map UInt16.toNat = lost
  layer : L.Holds b.layer (.empty n)
  delivered : b.delivered.map UInt16.toNat = without lost n
  lost : ∀ x ∈ lost, x < n

structure Gap (lost : List Nat) (e len : Nat) (b : Bench L) : Prop where
  nextSeq : b.transport.nextSeq.toNat = e + 1 + len
  skipped : b.transport.skipped.map UInt16.toNat = lost ++ [e]
  layer : L.Holds b.layer (.behind e len)
  delivered : b.delivered.map UInt16.toNat = without lost e
  lost : ∀ x ∈ lost, x < e
  len : len ≤ maxPendingMessages

/-- The benchmark `b` is in phase `p`. -/
def Phase.Shown (p : Phase) (b : Bench L) : Prop :=
  match p with
  | .inSync lost n => InSync lost n b
  | .gap lost e len => Gap lost e len b

/-- The transport can take the instruction and is ready for the next one. -/
theorem exists_read {i : Nat} {instruction : Instruction} (h : Ready s i b)
    (hfetched : s.instructions[i]? = some instruction)
    (hrecover : instruction = .recover → b.transport.skipped ≠ []) :
    ∃ t' x, b.transport.readSome = some t' ∧ Reads b.transport instruction x t' ∧
      t'.index = (i + 1) % s.instructions.length := by
  have hi : i < s.instructions.length := (List.getElem?_eq_some_iff.mp hfetched).1
  have hindex : b.transport.index = i := h.index.trans (Nat.mod_eq_of_lt hi)
  have hsame : b.transport.instructions[b.transport.index]? = some instruction := by
    rw [h.replays, hindex, hfetched]
  have hroom : orderingHeaderLen ≤ b.transport.receiveBuffer.length := by
    rw [h.length]
    exact Nat.le_add_left _ _
  have hmeets : ¬ RecoverMeetsEmpty b.transport := by
    rintro ⟨hr, hempty⟩
    rw [hsame] at hr
    exact hrecover (Option.some.inj hr) hempty
  obtain ⟨t', ht'⟩ := exists_readSome (by rw [h.replays, hindex]; exact hi) hroom hmeets
  obtain ⟨instruction', x, hr⟩ := readSome_cases ht'
  obtain rfl : instruction' = instruction := by
    have hfetched' := hr.fetched
    rw [hsame] at hfetched'
    exact (Option.some.inj hfetched').symm
  refine ⟨t', x, ht', hr, ?_⟩
  rw [hr.index, h.replays, hindex]
  split
  · have hend : i + 1 = s.instructions.length := by omega
    rw [hend, Nat.mod_self]
  · rw [Nat.mod_eq_of_lt (by omega)]

/-- The layer gets the whole receive buffer, the header that was written included. -/
theorem readEvent_of_reads {instruction : Instruction} {x : SequenceType}
    {t' : DummyOrderingTransport} {layer' : L.State} {out : List SequenceType}
    (ht' : b.transport.readSome = some t') (hr : Reads b.transport instruction x t')
    (hlength : t'.receiveBuffer.length = t'.receivedBytes)
    (hread : L.read b.layer (encodeSequence x ++ b.transport.receiveBuffer.drop orderingHeaderLen) =
      some (layer', out)) :
    b.readEvent = some
      { b with
        transport := t', layer := layer'
        received := b.received || !out.isEmpty
        delivered := b.delivered ++ out } := by
  rw [← hr.receiveBuffer] at hread
  have hinside : ¬ t'.receiveBuffer.length < t'.receivedBytes := by
    rw [hlength]
    exact Nat.lt_irrefl _
  have htake : t'.receiveBuffer.take t'.receivedBytes = t'.receiveBuffer := by
    rw [← hlength, List.take_length]
  have hsome : t'.receivedBytes ≠ 0 := by
    rw [hr.receivedBytes]
    exact Nat.succ_ne_zero _
  simp only [Bench.readEvent, ht', Option.bind_eq_bind, Option.bind_some, if_neg hsome,
    if_neg hinside, htake, hread]

/-- One call of `read_event`: the transport has read and handed out `x`, and the
layer has got it. -/
structure Event (L : OrderingLayer) (b : Bench L) (instruction : Instruction) (x : SequenceType)
    (r : Reorder × List Nat) (b' : Bench L) : Prop where
  reads : Reads b.transport instruction x b'.transport
  layer : L.Holds b'.layer r.1
  received : b'.received = (b.received || !r.2.isEmpty)
  delivered : b'.delivered.map UInt16.toNat = b.delivered.map UInt16.toNat ++ r.2

/-- A datagram that is the missing one, or comes behind the buffered ones, is read. -/
theorem exists_event {i e len : Nat} {instruction : Instruction} (h : Ready s i b)
    (hfetched : s.instructions[i]? = some instruction)
    (hrecover : instruction = .recover → b.transport.skipped ≠ [])
    (hlayer : L.Holds b.layer (.behind e len)) (hlen : len ≤ maxPendingMessages)
    (hx : ∀ x n skipped, Hands b.transport instruction x n skipped →
      (x.toNat = e ∨ x.toNat = e + 1 + len) ∧ e + 1 + len < 2 ^ 16 ∧ x.toNat + 1 < 2 ^ 16) :
    ∃ b' x, b.readEvent = some b' ∧ Ready s (i + 1) b' ∧
      Event L b instruction x ((Reorder.behind e len).read maxPendingMessages x.toNat) b' := by
  obtain ⟨t', x, ht', hr, hindex⟩ := exists_read h hfetched hrecover
  obtain ⟨hx, hwrap, hnext⟩ := hx _ _ _ hr.hands
  obtain ⟨layer', out, hread, hholds, hout⟩ := L.read_behind
    (b.transport.receiveBuffer.drop orderingHeaderLen) hlayer hlen hx hwrap hnext
  have hlength : t'.receiveBuffer.length = t'.receivedBytes := by
    rw [hr.receiveBuffer, hr.receivedBytes, List.length_append, List.length_drop, h.length,
      length_encodeSequence]
    show 2 + _ = _ + 2
    omega
  refine ⟨_, x, readEvent_of_reads ht' hr hlength hread, ⟨?_, hindex, ?_⟩, ⟨hr, hholds, ?_, ?_⟩⟩
  · exact hr.instructions.trans h.replays
  · show t'.receiveBuffer.length = _
    rw [hlength, hr.receivedBytes, hr.payloadLen]
  · rw [← hout, List.isEmpty_map]
  · rw [List.map_append, hout]

/-! ## The phases of a benchmark -/

section Steps

variable {lost : List Nat} {n e len i : Nat}

/-- The expected number is handed out and delivered. -/
theorem inSync_next (h : Ready s i b) (hfetched : s.instructions[i]? = some .next)
    (hp : InSync lost n b) (hwrap : n + 1 < 2 ^ 16) :
    ∃ b', b.readEvent = some b' ∧ Ready s (i + 1) b' ∧ InSync lost (n + 1) b' ∧
      b'.received = true := by
  have hlayer : L.Holds b.layer (.behind n 0) := hp.layer
  obtain ⟨b', x, hread, hready, hevent⟩ := exists_event h hfetched
    (fun hc => by cases hc) hlayer (Nat.zero_le _) (by
      intro x m skipped hx
      rw [hx.next_inv.1, hp.nextSeq]
      exact ⟨.inl rfl, hwrap, hwrap⟩)
  obtain ⟨rfl, hnext, hskipped⟩ := hevent.reads.hands.next_inv
  rw [hp.nextSeq, Reorder.read_expected] at hevent
  refine ⟨b', hread, hready, ⟨?_, ?_, hevent.layer, ?_, ?_⟩, ?_⟩
  · rw [hnext, toNat_sequence_succ hp.nextSeq hwrap]
  · rw [hskipped, hp.skipped]
  · rw [hevent.delivered, hp.delivered, without_add hp.lost]
    rfl
  · intro x hx
    exact Nat.lt_succ_of_lt (hp.lost x hx)
  · rw [hevent.received]
    simp

/-- A number is left out; the one behind it is handed out and buffered. -/
theorem inSync_skip (h : Ready s i b) (hfetched : s.instructions[i]? = some .skip)
    (hp : InSync lost n b) (hwrap : n + 1 + 1 < 2 ^ 16) :
    ∃ b', b.readEvent = some b' ∧ Ready s (i + 1) b' ∧ Gap lost n 1 b' ∧
      b'.received = b.received := by
  have hsucc := toNat_sequence_succ hp.nextSeq (by omega)
  have hlayer : L.Holds b.layer (.behind n 0) := hp.layer
  obtain ⟨b', x, hread, hready, hevent⟩ := exists_event h hfetched
    (fun hc => by cases hc) hlayer (Nat.zero_le _) (by
      intro x m skipped hx
      rw [hx.skip_inv.1, hsucc]
      exact ⟨.inr rfl, by omega, hwrap⟩)
  obtain ⟨rfl, hnext, hskipped⟩ := hevent.reads.hands.skip_inv
  rw [hsucc, ← Nat.add_zero (n + 1), Reorder.read_buffered (by decide)] at hevent
  refine ⟨b', hread, hready, ⟨?_, ?_, hevent.layer, ?_, hp.lost, by decide⟩, ?_⟩
  · rw [hnext, toNat_sequence_succ hsucc hwrap]
  · rw [hskipped, List.map_append, hp.skipped, List.map_singleton, hp.nextSeq]
  · rw [hevent.delivered, hp.delivered, List.append_nil]
  · rw [hevent.received]
    simp

/-- Behind a gap the next number is handed out, and there is room for it. -/
theorem gap_next (h : Ready s i b) (hfetched : s.instructions[i]? = some .next)
    (hp : Gap lost e len b) (hroom : len + 1 ≤ maxPendingMessages)
    (hwrap : e + 1 + len + 1 < 2 ^ 16) :
    ∃ b', b.readEvent = some b' ∧ Ready s (i + 1) b' ∧ Gap lost e (len + 1) b' ∧
      b'.received = b.received := by
  obtain ⟨b', x, hread, hready, hevent⟩ := exists_event h hfetched
    (fun hc => by cases hc) hp.layer hp.len (by
      intro x m skipped hx
      rw [hx.next_inv.1, hp.nextSeq]
      exact ⟨.inr rfl, by omega, hwrap⟩)
  obtain ⟨rfl, hnext, hskipped⟩ := hevent.reads.hands.next_inv
  rw [hp.nextSeq, Reorder.read_buffered hroom] at hevent
  refine ⟨b', hread, hready, ⟨?_, ?_, hevent.layer, ?_, hp.lost, hroom⟩, ?_⟩
  · rw [hnext, toNat_sequence_succ hp.nextSeq hwrap]
    rfl
  · rw [hskipped, hp.skipped]
  · rw [hevent.delivered, hp.delivered, List.append_nil]
  · rw [hevent.received]
    simp

/-- Behind a gap the next number is handed out, and the layer gives the gap up. -/
theorem gap_overflow (h : Ready s i b) (hfetched : s.instructions[i]? = some .next)
    (hp : Gap lost e len b) (hfull : maxPendingMessages < len + 1)
    (hwrap : e + 1 + len + 1 < 2 ^ 16) :
    ∃ b', b.readEvent = some b' ∧ Ready s (i + 1) b' ∧
      InSync (lost ++ [e]) (e + 1 + len + 1) b' ∧ b'.received = true := by
  obtain ⟨b', x, hread, hready, hevent⟩ := exists_event h hfetched
    (fun hc => by cases hc) hp.layer hp.len (by
      intro x m skipped hx
      rw [hx.next_inv.1, hp.nextSeq]
      exact ⟨.inr rfl, by omega, hwrap⟩)
  obtain ⟨rfl, hnext, hskipped⟩ := hevent.reads.hands.next_inv
  rw [hp.nextSeq, Reorder.read_overflow hfull] at hevent
  have hlost : ∀ x ∈ lost ++ [e], x < e + 1 := by
    intro x hx
    rcases List.mem_append.mp hx with hx | hx
    · exact Nat.lt_succ_of_lt (hp.lost x hx)
    · rw [List.mem_singleton.mp hx]
      exact Nat.lt_succ_self e
  refine ⟨b', hread, hready, ⟨?_, ?_, hevent.layer, ?_, ?_⟩, ?_⟩
  · rw [hnext, toNat_sequence_succ hp.nextSeq hwrap]
  · rw [hskipped, hp.skipped]
  · rw [hevent.delivered, hp.delivered, Nat.add_assoc (e + 1) len 1, without_add hlost,
      without_skip]
  · intro x hx
    have := hlost x hx
    omega
  · rw [hevent.received]
    simp

/-- The number that is missing is recovered; all that waits behind it is delivered. -/
theorem gap_recover (h : Ready s i b) (hfetched : s.instructions[i]? = some .recover)
    (hp : Gap [] e len b) (hwrap : e + 1 + len < 2 ^ 16) :
    ∃ b', b.readEvent = some b' ∧ Ready s (i + 1) b' ∧ InSync [] (e + 1 + len) b' ∧
      b'.received = true := by
  have hfront : ∀ {x : SequenceType} {rest : List SequenceType},
      b.transport.skipped = x :: rest → x.toNat = e ∧ rest = [] := by
    intro x rest hs
    have hskipped := hp.skipped
    rw [hs, List.map_cons, List.nil_append, List.cons.injEq, List.map_eq_nil_iff] at hskipped
    exact hskipped
  have hne : b.transport.skipped ≠ [] := by
    intro hs
    have hskipped := hp.skipped
    rw [hs] at hskipped
    cases hskipped
  obtain ⟨b', x, hread, hready, hevent⟩ := exists_event h hfetched (fun _ => hne) hp.layer hp.len
    (by
      intro x m skipped hx
      rw [(hfront hx.recover_inv.1).1]
      exact ⟨.inl rfl, hwrap, by omega⟩)
  obtain ⟨hs, hnext⟩ := hevent.reads.hands.recover_inv
  obtain ⟨hx, hrest⟩ := hfront hs
  rw [hx, Reorder.read_expected] at hevent
  refine ⟨b', hread, hready, ⟨?_, ?_, hevent.layer, ?_, List.forall_mem_nil _⟩, ?_⟩
  · rw [hnext, hp.nextSeq]
  · rw [hrest]
    rfl
  · have hall : without [] (e + 1 + len) = without [] e ++ List.range' e (len + 1) := by
      rw [← without_add (by simp)]
      congr 1
      omega
    rw [hevent.delivered, hp.delivered, hall, List.range'_succ]
  · rw [hevent.received]
    simp

/-- **Step lemma.**  An instruction takes a benchmark from phase to phase. -/
theorem shown_step {p p' : Phase} {instruction : Instruction} {received : Bool} (h : Ready s i b)
    (hfetched : s.instructions[i]? = some instruction) (hp : p.Shown b)
    (hstep : p.step instruction = some (p', received)) (hwrap : p'.next < 2 ^ 16)
    (hfalse : b.received = false) :
    ∃ b', b.readEvent = some b' ∧ Ready s (i + 1) b' ∧ p'.Shown b' ∧ b'.received = received := by
  unfold Phase.step at hstep
  split at hstep
  · cases hstep
    exact inSync_next h hfetched hp hwrap
  · cases hstep
    rw [← hfalse]
    exact inSync_skip h hfetched hp hwrap
  · split at hstep
    · rename_i hroom
      cases hstep
      rw [← hfalse]
      exact gap_next h hfetched hp hroom hwrap
    · rename_i hfull
      cases hstep
      exact gap_overflow h hfetched hp (by omega) hwrap
  · cases hstep
    exact gap_recover h hfetched hp hwrap
  · cases hstep

end Steps

/-! ## Iterations -/

/-- The instructions with the checks that follow their reads. -/
def Script.pairs (s : Script) : List (Instruction × Check) := s.instructions.zip s.checks

/-- By induction on the checks that are left: if the phases can take them, none of
them aborts. -/
theorem shown_checks {done pairs : List (Instruction × Check)} {p p' : Phase}
    (hs : s.instructions = (done ++ pairs).map Prod.fst) (h : Ready s done.length b)
    (hp : p.Shown b) (hrun : p.run pairs = some p') (hwrap : p'.next < 2 ^ 16) :
    ∃ b', (pairs.map Prod.snd).foldlM Check.run b = some b' ∧
      Ready s (done ++ pairs).length b' ∧ p'.Shown b' := by
  induction pairs generalizing done b p with
  | nil =>
    cases hrun
    rw [List.append_nil]
    exact ⟨b, rfl, h, hp⟩
  | cons pair rest ih =>
    obtain ⟨instruction, check⟩ := pair
    obtain ⟨⟨q, received⟩, hstep, hrest⟩ := Option.bind_eq_some_iff.mp hrun
    dsimp only at hrest
    split at hrest
    · rename_i hreceived
      have hfetched : s.instructions[done.length]? = some instruction := by
        rw [hs, List.map_append, List.getElem?_append_right (by simp)]
        simp
      have hready : Ready s done.length { b with received := false } :=
        ⟨h.replays, h.index, h.length⟩
      have hshown : p.Shown { b with received := false } := by
        cases p with
        | inSync => exact ⟨hp.nextSeq, hp.skipped, hp.layer, hp.delivered, hp.lost⟩
        | gap => exact ⟨hp.nextSeq, hp.skipped, hp.layer, hp.delivered, hp.lost, hp.len⟩
      have hq : q.next < 2 ^ 16 := Nat.lt_of_le_of_lt (Phase.next_run hrest) hwrap
      obtain ⟨b₁, hread, hready₁, hshown₁, hreceived₁⟩ :=
        shown_step hready hfetched hshown hstep hq rfl
      have hcheck : check.run b = some b₁ := by
        rw [Check.run, hread, Option.bind_some, if_pos (hreceived₁.trans hreceived)]
      have hsplit : done ++ (instruction, check) :: rest = (done ++ [(instruction, check)]) ++ rest :=
        List.append_cons ..
      have hnext : Ready s (done ++ [(instruction, check)]).length b₁ := by
        rw [List.length_append]
        exact hready₁
      obtain ⟨b', hfold, hready', hshown'⟩ := ih (hsplit ▸ hs) hnext hshown₁ hrest
      refine ⟨b', ?_, hsplit ▸ hready', hshown'⟩
      rw [List.map_cons, List.foldlM_cons, hcheck]
      exact hfold
    · cases hrest

/-- **Iteration lemma.**  An iteration whose phases return to the start passes its
checks and leaves the index at the front of the list. -/
theorem shown_iteration {p p' : Phase} (hlen : s.instructions.length = s.checks.length)
    (h : Ready s 0 b) (hp : p.Shown b) (hrun : p.run s.pairs = some p')
    (hwrap : p'.next < 2 ^ 16) : ∃ b', iteration s b = some b' ∧ Ready s 0 b' ∧ p'.Shown b' := by
  have hfst : s.pairs.map Prod.fst = s.instructions := List.map_fst_zip (Nat.le_of_eq hlen)
  have hsnd : s.pairs.map Prod.snd = s.checks := List.map_snd_zip (Nat.le_of_eq hlen.symm)
  have hcount : s.pairs.length = s.instructions.length := by
    rw [← hfst, List.length_map]
  have hlist : s.instructions = ([] ++ s.pairs).map Prod.fst := by
    rw [List.nil_append, hfst]
  obtain ⟨b', hfold, hready, hshown⟩ := shown_checks hlist h hp hrun hwrap
  rw [hsnd] at hfold
  refine ⟨b', hfold, ⟨hready.replays, ?_, hready.length⟩, hshown⟩
  rw [hready.index, List.nil_append, hcount, Nat.mod_self, Nat.zero_mod]

theorem ready_start (packetSize : Nat) : Ready s 0 (Bench.start L packetSize s) where
  replays := rfl
  index := (Nat.zero_mod _).symm
  length := by
    show (encodeSequence 0 ++ List.replicate packetSize 97).length = packetSize + 2
    rw [List.length_append, List.length_replicate, length_encodeSequence, Nat.add_comm]

theorem inSync_start (packetSize : Nat) : InSync [] 0 (Bench.start L packetSize s) where
  nextSeq := rfl
  skipped := rfl
  layer := L.holds_init
  delivered := rfl
  lost := List.forall_mem_nil _

/-- What holds at the end of an iteration: `numbers` have been consumed, and those
in `missing` have never been handed out. -/
structure InStep (L : OrderingLayer) (numbers : Nat) (missing : List Nat) (b : Bench L) : Prop where
  index : b.transport.index = 0
  buffered : L.buffered b.layer = []
  expected : L.expected b.layer = b.transport.nextSeq
  nextSeq : b.transport.nextSeq.toNat = numbers
  increasing : b.delivered.Pairwise (· < ·)
  delivered : ∀ x, x ∈ b.delivered ↔ x < b.transport.nextSeq ∧ x.toNat ∉ missing

theorem inStep_of_inSync {lost : List Nat} {n : Nat} (h : Ready s 0 b) (hp : InSync lost n b) :
    InStep L n lost b where
  index := h.index.trans (Nat.zero_mod _)
  buffered := List.map_eq_nil_iff.mp (L.map_buffered hp.layer)
  expected := UInt16.toNat_inj.mp ((L.toNat_expected hp.layer).trans hp.nextSeq.symm)
  nextSeq := hp.nextSeq
  increasing := by
    have hsorted := sorted_without lost n
    rw [← hp.delivered, List.pairwise_map] at hsorted
    exact hsorted.imp UInt16.lt_iff_toNat_lt.mpr
  delivered x := by
    rw [← mem_map_toNat, hp.delivered, mem_without, UInt16.lt_iff_toNat_lt, hp.nextSeq]

/-- **Run lemma.**  If an iteration takes the phase after `k` iterations to the one
after `k + 1`, every number of iterations stays in step. -/
theorem inStep_iterations (lost : Nat → List Nat) {numbers : Nat} (packetSize : Nat)
    (hlen : s.instructions.length = s.checks.length) (hlost : lost 0 = [])
    (hrun : ∀ k, (Phase.inSync (lost k) (k * numbers)).run s.pairs =
      some (.inSync (lost (k + 1)) ((k + 1) * numbers)))
    (k : Nat) (hwrap : k * numbers < 2 ^ 16) :
    ∃ b, iterations s k (Bench.start L packetSize s) = some b ∧
      InStep L (k * numbers) (lost k) b := by
  have hphase : ∃ b, iterations s k (Bench.start L packetSize s) = some b ∧ Ready s 0 b ∧
      InSync (lost k) (k * numbers) b := by
    induction k with
    | zero =>
      rw [hlost, Nat.zero_mul]
      exact ⟨_, rfl, ready_start packetSize, inSync_start packetSize⟩
    | succ k ih =>
      have hle : k * numbers ≤ (k + 1) * numbers := Nat.mul_le_mul_right _ (Nat.le_succ k)
      obtain ⟨b, hb, hready, hshown⟩ := ih (Nat.lt_of_le_of_lt hle hwrap)
      obtain ⟨b', hb', hready', hshown'⟩ := shown_iteration hlen hready
        (show (Phase.inSync (lost k) (k * numbers)).Shown b from hshown) (hrun k) hwrap
      refine ⟨b', ?_, hready', hshown'⟩
      rw [iterations, hb, Option.bind_some, hb']
  obtain ⟨b, hb, hready, hshown⟩ := hphase
  exact ⟨b, hb, inStep_of_inSync hready hshown⟩

/-! ## The three scripts -/

theorem run_inorder (n : Nat) :
    (Phase.inSync [] n).run inorder.pairs = some (.inSync [] (n + 10)) := rfl

theorem run_dropped (lost : List Nat) (n : Nat) :
    (Phase.inSync lost n).run dropped.pairs = some (.inSync (lost ++ [n + 1]) (n + 11)) := rfl

theorem run_late (n : Nat) :
    (Phase.inSync [] n).run late.pairs = some (.inSync [] (n + 10)) := rfl

/-- **The scripts and their expectations stay in step for ever**, as long as the
numbers do not wrap: no check aborts, and after any number of iterations the list
starts over with an empty buffer. The second script loses one number each time, the
others none. -/
theorem scripts_in_step (L : OrderingLayer) (packetSize k : Nat) :
    (k * 10 < 2 ^ 16 → ∃ b, iterations inorder k (Bench.start L packetSize inorder) = some b ∧
      InStep L (k * 10) [] b) ∧
    (k * 11 < 2 ^ 16 → ∃ b, iterations dropped k (Bench.start L packetSize dropped) = some b ∧
      InStep L (k * 11) ((List.range k).map fun j => j * 11 + 1) b) ∧
    (k * 10 < 2 ^ 16 → ∃ b, iterations late k (Bench.start L packetSize late) = some b ∧
      InStep L (k * 10) [] b) := by
  refine ⟨?_, ?_, ?_⟩
  · apply inStep_iterations (fun _ => []) packetSize rfl rfl
    intro j
    rw [run_inorder, Nat.succ_mul]
  · apply inStep_iterations (fun k => (List.range k).map fun j => j * 11 + 1) packetSize rfl rfl
    intro j
    rw [run_dropped, Nat.succ_mul, List.range_succ, List.map_append, List.map_singleton]
  · apply inStep_iterations (fun _ => []) packetSize rfl rfl
    intro j
    rw [run_late, Nat.succ_mul]

/-- Three iterations of each benchmark over the layer of the bundled CAF. -/
theorem scripts_in_step_three :
    (∃ b, iterations inorder 3 (Bench.start NewbOrdering.ordering 64 inorder) = some b ∧
      InStep NewbOrdering.ordering 30 [] b) ∧
    (∃ b, iterations dropped 3 (Bench.start NewbOrdering.ordering 64 dropped) = some b ∧
      InStep NewbOrdering.ordering 33 [1, 12, 23] b) ∧
    (∃ b, iterations late 3 (Bench.start NewbOrdering.ordering 64 late) = some b ∧
      InStep NewbOrdering.ordering 30 [] b) :=
  have h := scripts_in_step NewbOrdering.ordering 64 3
  ⟨h.1 (by decide), h.2.1 (by decide), h.2.2 (by decide)⟩

/-- The sixth datagram behind the lost one is delivered with those before it. -/
example : (iterations dropped 1 (Bench.start NewbOrdering.ordering 1 dropped)).map Bench.delivered =
    some [0, 2, 3, 4, 5, 6, 7, 8, 9, 10] := by decide

end NewbMeasurements.OrderingBenchmarks
