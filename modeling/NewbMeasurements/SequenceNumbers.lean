import NewbMeasurements.Layers
import NewbMeasurements.Library.Tickets

/-!
`read_some` of `dummy_ordering_transport`, called any number of times: it hands out
the numbers below `next_seq` like a dispenser that leaves gaps and fills them, and
an instruction list can be replayed for ever exactly if one pass over it never
recovers more numbers than it has skipped.
-/

namespace NewbMeasurements.Layers.DummyOrderingTransport

open Tickets (Dispenser)

/-- A transport that has not been read from, with a receive buffer that has room
for a header. -/
structure Fresh (t : DummyOrderingTransport) : Prop where
  index : t.index = 0
  nextSeq : t.nextSeq = 0
  skipped : t.skipped = []
  room : orderingHeaderLen ≤ t.receiveBuffer.length

/-- What a benchmark does before its first read: one packet of `packet_size` letters
goes through the write buffer, with the header that the ordering layer puts in front
of it, and becomes the receive buffer. -/
def prepare (packetSize : Nat) (instructions : List Instruction) : DummyOrderingTransport :=
  let t : DummyOrderingTransport := { payloadLen := packetSize, instructions }
  let t := (t.wrBuf.append (encodeSequence 0 ++ List.replicate packetSize 97)).flush
  { t with receiveBuffer := t.sendBuffer }

theorem fresh_prepare (packetSize : Nat) (instructions : List Instruction) :
    Fresh (prepare packetSize instructions) :=
  ⟨rfl, rfl, rfl, Nat.le_add_left 2 _⟩

/-- `n` calls of `read_some`, or `none` where one of them is undefined. -/
def reads : Nat → DummyOrderingTransport → Option DummyOrderingTransport
  | 0, t => some t
  | n + 1, t => (reads n t).bind readSome

/-- The numbers that `n` calls of `read_some` write to the receive buffer, in order. -/
def numbers : Nat → DummyOrderingTransport → List SequenceType
  | 0, _ => []
  | n + 1, t =>
    numbers n t ++ ((reads (n + 1) t).bind fun u => decodeSequence u.receiveBuffer).toList

variable {t t' u : DummyOrderingTransport} {n : Nat}

/-! ## One call -/

/-- What an instruction writes, and what it leaves as `next_seq` and `skipped`. -/
inductive Hands (t : DummyOrderingTransport) :
    Instruction → SequenceType → SequenceType → List SequenceType → Prop
  | next : Hands t .next t.nextSeq (t.nextSeq + 1) t.skipped
  | skip : Hands t .skip (t.nextSeq + 1) (t.nextSeq + 1 + 1) (t.skipped ++ [t.nextSeq])
  | recover {x : SequenceType} {rest : List SequenceType} :
    t.skipped = x :: rest → Hands t .recover x t.nextSeq rest

section Hands

variable {x n : SequenceType} {skipped : List SequenceType}

theorem Hands.next_inv (h : Hands t .next x n skipped) :
    x = t.nextSeq ∧ n = t.nextSeq + 1 ∧ skipped = t.skipped := by
  cases h
  exact ⟨rfl, rfl, rfl⟩

theorem Hands.skip_inv (h : Hands t .skip x n skipped) :
    x = t.nextSeq + 1 ∧ n = t.nextSeq + 1 + 1 ∧ skipped = t.skipped ++ [t.nextSeq] := by
  cases h
  exact ⟨rfl, rfl, rfl⟩

theorem Hands.recover_inv (h : Hands t .recover x n skipped) :
    t.skipped = x :: skipped ∧ n = t.nextSeq := by
  cases h with
  | recover hs => exact ⟨hs, rfl⟩

end Hands

/-- Everything that a call of `read_some` does to the members for reading. -/
structure Reads (t : DummyOrderingTransport) (instruction : Instruction) (x : SequenceType)
    (t' : DummyOrderingTransport) : Prop where
  fetched : t.instructions[t.index]? = some instruction
  hands : Hands t instruction x t'.nextSeq t'.skipped
  room : orderingHeaderLen ≤ t.receiveBuffer.length
  receiveBuffer : t'.receiveBuffer = encodeSequence x ++ t.receiveBuffer.drop orderingHeaderLen
  receivedBytes : t'.receivedBytes = t.payloadLen + orderingHeaderLen
  payloadLen : t'.payloadLen = t.payloadLen
  instructions : t'.instructions = t.instructions
  index : t'.index = if t.index + 1 ≥ t.instructions.length then 0 else t.index + 1

theorem overwrite_encodeSequence {buffer buffer' : Words.Bytes} {x : SequenceType}
    (h : overwrite buffer (encodeSequence x) = some buffer') :
    orderingHeaderLen ≤ buffer.length ∧
      buffer' = encodeSequence x ++ buffer.drop orderingHeaderLen := by
  unfold overwrite at h
  split at h
  · rename_i hle
    cases h
    exact ⟨hle, rfl⟩
  · cases h

theorem readSome_cases (h : t.readSome = some t') : ∃ instruction x, Reads t instruction x t' := by
  simp only [readSome, Option.bind_eq_bind, Option.bind_eq_some_iff, Option.pure_def,
    Option.some.injEq] at h
  obtain ⟨instruction, hi, ⟨x, v⟩, hv, buffer, hb, rfl⟩ := h
  refine ⟨instruction, x, ?_⟩
  cases instruction with
  | next =>
    cases hv
    obtain ⟨hroom, hbuffer⟩ := overwrite_encodeSequence hb
    exact ⟨hi, .next, hroom, hbuffer, rfl, rfl, rfl, rfl⟩
  | skip =>
    cases hv
    obtain ⟨hroom, hbuffer⟩ := overwrite_encodeSequence hb
    exact ⟨hi, .skip, hroom, hbuffer, rfl, rfl, rfl, rfl⟩
  | recover =>
    simp only [handOut] at hv
    split at hv
    · cases hv
    · rename_i y rest hs
      cases hv
      obtain ⟨hroom, hbuffer⟩ := overwrite_encodeSequence hb
      exact ⟨hi, .recover hs, hroom, hbuffer, rfl, rfl, rfl, rfl⟩

/-- The next instruction takes the front of an empty queue. -/
def RecoverMeetsEmpty (t : DummyOrderingTransport) : Prop :=
  t.instructions[t.index]? = some .recover ∧ t.skipped = []

theorem exists_readSome (hi : t.index < t.instructions.length)
    (hroom : orderingHeaderLen ≤ t.receiveBuffer.length) (h : ¬ RecoverMeetsEmpty t) :
    ∃ t', t.readSome = some t' := by
  have hget := List.getElem?_eq_getElem hi
  have hover : ∀ x : SequenceType, overwrite t.receiveBuffer (encodeSequence x) =
      some (encodeSequence x ++ t.receiveBuffer.drop orderingHeaderLen) := fun _ => if_pos hroom
  cases hins : t.instructions[t.index] with
  | next => simp [readSome, hget, hins, handOut, hover]
  | skip => simp [readSome, hget, hins, handOut, hover]
  | recover =>
    cases hs : t.skipped with
    | nil => exact absurd ⟨by rw [hget, hins], hs⟩ h
    | cons x rest => simp [readSome, hget, hins, handOut, hs, hover]

theorem reads_succ : reads (n + 1) t = some t' ↔ ∃ u, reads n t = some u ∧ u.readSome = some t' :=
  Option.bind_eq_some_iff

/-- The number that a call hands out is the one in the receive buffer. -/
theorem numbers_succ {instruction : Instruction} {x : SequenceType} (hu : reads n t = some u)
    (h : u.readSome = some t') (hr : Reads u instruction x t') :
    numbers (n + 1) t = numbers n t ++ [x] := by
  have hrun : reads (n + 1) t = some t' := reads_succ.mpr ⟨u, hu, h⟩
  rw [numbers, hrun, Option.bind_some, hr.receiveBuffer, decodeSequence_encodeSequence_append]
  rfl

/-! ## The partition -/

/-- None of the first `n` calls has made `next_seq` smaller. -/
def NoWrap (t : DummyOrderingTransport) (n : Nat) : Prop :=
  ∀ i < n, ∀ u u', reads i t = some u → u.readSome = some u' → u.nextSeq ≤ u'.nextSeq

/-- A transport that has written the numbers `written`, as a dispenser. -/
structure Dispenses (t : DummyOrderingTransport) (written : List SequenceType) (d : Dispenser) :
    Prop where
  nextSeq : t.nextSeq.toNat = d.next
  written : written.map UInt16.toNat = d.handed
  skipped : t.skipped.map UInt16.toNat = d.gaps

theorem toNat_succ_of_le {x : SequenceType} (h : x ≤ x + 1) : (x + 1).toNat = x.toNat + 1 := by
  have hle := UInt16.le_iff_toNat_le.mp h
  have hx := x.toNat_lt
  rw [UInt16.toNat_add] at hle ⊢
  have hone : (1 : UInt16).toNat = 1 := rfl
  omega

theorem toNat_succ_succ_of_le {x : SequenceType} (h : x ≤ x + 1 + 1) :
    (x + 1).toNat = x.toNat + 1 ∧ (x + 1 + 1).toNat = x.toNat + 1 + 1 := by
  have hle := UInt16.le_iff_toNat_le.mp h
  have hx := x.toNat_lt
  simp only [UInt16.toNat_add] at hle ⊢
  have hone : (1 : UInt16).toNat = 1 := rfl
  omega

/-- **Step lemma.**  `next` hands out a number, `skip` leaves one out before that,
and `recover` hands out the oldest one left out. -/
theorem dispenses_read {written : List SequenceType} {d : Dispenser} {instruction : Instruction}
    {x : SequenceType} (h : Dispenses t written d) (hr : Reads t instruction x t')
    (hw : t.nextSeq ≤ t'.nextSeq) : ∃ d', Dispenses t' (written ++ [x]) d' := by
  cases instruction with
  | next =>
    obtain ⟨rfl, hn, hs⟩ := hr.hands.next_inv
    rw [hn] at hw
    refine ⟨d.hand, ?_, ?_, ?_⟩
    · rw [hn, toNat_succ_of_le hw, h.nextSeq]
      rfl
    · rw [List.map_append, h.written, List.map_singleton, h.nextSeq]
      rfl
    · rw [hs, h.skipped]
      rfl
  | skip =>
    obtain ⟨rfl, hn, hs⟩ := hr.hands.skip_inv
    rw [hn] at hw
    obtain ⟨h₁, h₂⟩ := toNat_succ_succ_of_le hw
    refine ⟨d.leave.hand, ?_, ?_, ?_⟩
    · rw [hn, h₂, h.nextSeq]
      rfl
    · rw [List.map_append, h.written, List.map_singleton, h₁, h.nextSeq]
      rfl
    · rw [hs, List.map_append, h.skipped, List.map_singleton, h.nextSeq]
      rfl
  | recover =>
    obtain ⟨hfront, hn⟩ := hr.hands.recover_inv
    have hgaps := h.skipped
    rw [hfront, List.map_cons] at hgaps
    refine ⟨d.recover hgaps.symm, ?_, ?_, ?_⟩
    · rw [hn, h.nextSeq]
      rfl
    · rw [List.map_append, h.written, List.map_singleton]
      rfl
    · rfl

theorem dispenses_run (h : Fresh t) (hrun : reads n t = some t') (hw : NoWrap t n) :
    ∃ d, Dispenses t' (numbers n t) d := by
  induction n generalizing t' with
  | zero =>
    cases hrun
    exact ⟨.initial, by rw [h.nextSeq]; rfl, rfl, by rw [h.skipped]; rfl⟩
  | succ n ih =>
    obtain ⟨u, hu, hread⟩ := reads_succ.mp hrun
    have hprev : NoWrap t n := fun i hi => hw i (Nat.lt_succ_of_lt hi)
    obtain ⟨d, hd⟩ := ih hu hprev
    obtain ⟨instruction, x, hr⟩ := readSome_cases hread
    rw [numbers_succ hu hread hr]
    exact dispenses_read hd hr (hw n (Nat.lt_succ_self n) u t' hu hread)

theorem length_numbers (hrun : reads n t = some t') : (numbers n t).length = n := by
  induction n generalizing t' with
  | zero => rfl
  | succ n ih =>
    obtain ⟨u, hu, hread⟩ := reads_succ.mp hrun
    obtain ⟨instruction, x, hr⟩ := readSome_cases hread
    rw [numbers_succ hu hread hr, List.length_append, ih hu, List.length_singleton]

/-- The numbers below `next_seq` after `n` calls: each of them has been written
once, or it waits in `skipped`. -/
structure Partitioned (t : DummyOrderingTransport) (n : Nat) (t' : DummyOrderingTransport) :
    Prop where
  length : (numbers n t).length = n
  nodup : (numbers n t).Nodup
  skipped : t'.skipped.Pairwise (· < ·)
  disjoint : ∀ x ∈ numbers n t, x ∉ t'.skipped
  union : ∀ x, x < t'.nextSeq ↔ x ∈ numbers n t ∨ x ∈ t'.skipped
  recovers : ∀ i < n, ∀ u u', reads i t = some u → u.readSome = some u' →
    u.instructions[u.index]? = some .recover →
      ∃ x, numbers (i + 1) t = numbers i t ++ [x] ∧ x ∉ numbers i t ∧
        ∀ y, y ∉ numbers i t → x ≤ y

theorem mem_map_toNat {x : SequenceType} {xs : List SequenceType} :
    x.toNat ∈ xs.map UInt16.toNat ↔ x ∈ xs :=
  List.mem_map_of_injective fun _ _ => UInt16.toNat_inj.mp

/-- The front of the queue is the smallest number that has not been written. -/
theorem recovers_least {written : List SequenceType} {d : Dispenser} (h : Dispenses u written d)
    {x : SequenceType} {rest : List SequenceType} (hs : u.skipped = x :: rest) :
    x ∉ written ∧ ∀ y, y ∉ written → x ≤ y := by
  have hgaps := h.skipped
  rw [hs, List.map_cons] at hgaps
  obtain ⟨hnot, hleast⟩ := d.least_gap hgaps.symm
  rw [← h.written] at hnot hleast
  refine ⟨mt mem_map_toNat.mpr hnot, ?_⟩
  intro y hy
  exact UInt16.le_iff_toNat_le.mpr (hleast _ (mt mem_map_toNat.mp hy))

/-- **Every number at most once.**  Whatever the instructions are and however often
they are replayed, the numbers written and the numbers skipped partition those
below `next_seq`, and `recover` writes the smallest one not written yet. -/
theorem partitioned_reads (h : Fresh t) (hrun : reads n t = some t') (hw : NoWrap t n) :
    Partitioned t n t' := by
  obtain ⟨d, hd⟩ := dispenses_run h hrun hw
  refine
    { length := length_numbers hrun
      nodup := ?_
      skipped := ?_
      disjoint := ?_
      union := ?_
      recovers := ?_ }
  · exact List.Nodup.of_map UInt16.toNat (hd.written ▸ d.handed_nodup)
  · have hsorted := d.gaps_sorted
    rw [← hd.skipped, List.pairwise_map] at hsorted
    exact hsorted.imp UInt16.lt_iff_toNat_lt.mpr
  · intro x hx hmem
    apply d.disjoint (x := x.toNat)
    · rw [← hd.written]
      exact mem_map_toNat.mpr hx
    · rw [← hd.skipped]
      exact mem_map_toNat.mpr hmem
  · intro x
    rw [UInt16.lt_iff_toNat_lt, hd.nextSeq, d.lt_next_iff, ← hd.written, ← hd.skipped,
      mem_map_toNat, mem_map_toNat]
  · intro i hi u u' hu hread hins
    obtain ⟨e, he⟩ := dispenses_run h hu fun j hj => hw j (Nat.lt_trans hj hi)
    obtain ⟨instruction, x, hr⟩ := readSome_cases hread
    obtain rfl : instruction = .recover := by
      rw [hr.fetched] at hins
      exact Option.some.inj hins
    exact ⟨x, numbers_succ hu hread hr, recovers_least he hr.hands.recover_inv.1⟩

/-- Two passes over a list that skips a number and recovers it. -/
theorem partitioned_reads_six : ∃ t', reads 6 (prepare 1 [.skip, .next, .recover]) = some t' ∧
    t'.nextSeq = 6 ∧ numbers 6 (prepare 1 [.skip, .next, .recover]) = [1, 2, 0, 4, 5, 3] ∧
      Partitioned (prepare 1 [.skip, .next, .recover]) 6 t' := by
  refine ⟨_, rfl, rfl, rfl, @partitioned_reads (prepare 1 [.skip, .next, .recover]) _ 6
    (fresh_prepare _ _) rfl ?_⟩
  intro i hi u u' hu hread
  interval_cases i <;> (cases hu; cases hread; decide)

/-! ## Replaying an instruction list -/

/-- Any number of calls can be made, and none of them meets an empty queue. -/
def Replayable (t : DummyOrderingTransport) : Prop :=
  ∀ n, ∃ u, reads n t = some u ∧ ¬ RecoverMeetsEmpty u

/-- No first part of the list recovers more than it skips. -/
def Balanced (instructions : List Instruction) : Prop :=
  ∀ p, p <+: instructions → p.count .recover ≤ p.count .skip

/-- A transport that replays `instructions`, after `k` passes and `i` more calls. -/
structure InPass (instructions : List Instruction) (k i : Nat) (t : DummyOrderingTransport) :
    Prop where
  replays : t.instructions = instructions
  index : t.index = i
  lt : i < instructions.length
  room : orderingHeaderLen ≤ t.receiveBuffer.length
  skipped : t.skipped.length + (k * instructions.count .recover +
      (instructions.take i).count .recover) =
    k * instructions.count .skip + (instructions.take i).count .skip

variable {instructions : List Instruction} {k i : Nat}

theorem Reads.room_after {instruction : Instruction} {x : SequenceType}
    (h : Reads t instruction x t') : orderingHeaderLen ≤ t'.receiveBuffer.length := by
  rw [h.receiveBuffer, List.length_append, length_encodeSequence]
  exact Nat.le_add_right 2 _

/-- The queue after a call, counted. -/
theorem Reads.length_skipped {instruction : Instruction} {x : SequenceType}
    (h : Reads t instruction x t') :
    t'.skipped.length + [instruction].count .recover =
      t.skipped.length + [instruction].count .skip := by
  cases instruction with
  | next => rw [h.hands.next_inv.2.2]; rfl
  | skip => simp [h.hands.skip_inv.2.2]
  | recover => simp [h.hands.recover_inv.1]

/-- **Step lemma.**  A call goes on in the pass or ends it. -/
theorem inPass_read {instruction : Instruction} {x : SequenceType} (h : InPass instructions k i t)
    (hr : Reads t instruction x t') : InPass instructions k (i + 1) t' ∨
      (i + 1 = instructions.length ∧ InPass instructions (k + 1) 0 t') := by
  have hfetched := hr.fetched
  rw [h.replays, h.index] at hfetched
  have htake : instructions.take (i + 1) = instructions.take i ++ [instruction] := by
    rw [List.take_add_one, hfetched]
    rfl
  have hindex := hr.index
  rw [h.replays, h.index] at hindex
  have hlen := hr.length_skipped
  have hskipped := h.skipped
  have hlt := h.lt
  by_cases hend : i + 1 ≥ instructions.length
  · rw [if_pos hend] at hindex
    have hall : instructions.take (i + 1) = instructions := List.take_of_length_le hend
    rw [htake] at hall
    refine .inr ⟨by omega, hr.instructions.trans h.replays, hindex, by omega, hr.room_after, ?_⟩
    have hrecover := congrArg (List.count .recover) hall
    have hskip := congrArg (List.count .skip) hall
    rw [List.count_append] at hrecover hskip
    rw [Nat.succ_mul, Nat.succ_mul, List.take_zero, List.count_nil, List.count_nil]
    omega
  · rw [if_neg hend] at hindex
    refine .inl ⟨hr.instructions.trans h.replays, hindex, by omega, hr.room_after, ?_⟩
    rw [htake, List.count_append, List.count_append]
    omega

theorem inPass_reads (h : Fresh t) (hne : t.instructions ≠ []) (hrun : reads n t = some u) :
    ∃ k i, n = k * t.instructions.length + i ∧ InPass t.instructions k i u := by
  induction n generalizing u with
  | zero =>
    cases hrun
    refine ⟨0, 0, by omega, rfl, h.index, List.length_pos_iff.mpr hne, h.room, ?_⟩
    rw [h.skipped]
    simp
  | succ n ih =>
    obtain ⟨v, hv, hread⟩ := reads_succ.mp hrun
    obtain ⟨k, i, hn, hpass⟩ := ih hv
    obtain ⟨instruction, x, hr⟩ := readSome_cases hread
    rcases inPass_read hpass hr with hnext | ⟨hend, hnext⟩
    · exact ⟨k, i + 1, by omega, hnext⟩
    · exact ⟨k + 1, 0, by rw [Nat.succ_mul]; omega, hnext⟩

/-- In a balanced list there is always something to recover. -/
theorem not_recoverMeetsEmpty (hb : Balanced instructions) (h : InPass instructions k i t) :
    ¬ RecoverMeetsEmpty t := by
  rintro ⟨hfetched, hempty⟩
  have hskipped := h.skipped
  rw [h.replays, h.index] at hfetched
  rw [hempty, List.length_nil] at hskipped
  have hhere := hb _ (List.take_prefix (i + 1) instructions)
  rw [List.take_add_one, hfetched, List.count_append, List.count_append] at hhere
  have hpasses : k * instructions.count .recover ≤ k * instructions.count .skip :=
    Nat.mul_le_mul_left k (hb _ List.prefix_rfl)
  simp only [Option.toList_some, List.count_singleton_self] at hhere
  have hskip : [Instruction.recover].count .skip = 0 := rfl
  omega

theorem exists_reads (h : Fresh t) (hne : t.instructions ≠ []) (hb : Balanced t.instructions)
    (n : Nat) : ∃ u, reads n t = some u := by
  induction n with
  | zero => exact ⟨t, rfl⟩
  | succ n ih =>
    obtain ⟨u, hu⟩ := ih
    obtain ⟨k, i, _, hpass⟩ := inPass_reads h hne hu
    have hindex : u.index < u.instructions.length := by
      rw [hpass.replays, hpass.index]
      exact hpass.lt
    obtain ⟨v, hv⟩ := exists_readSome hindex hpass.room (not_recoverMeetsEmpty hb hpass)
    exact ⟨v, reads_succ.mpr ⟨u, hu, hv⟩⟩

/-- A first part that recovers too much meets an empty queue in the first pass. -/
theorem balanced_of_replayable (h : Fresh t) (hne : t.instructions ≠ []) (hr : Replayable t) :
    Balanced t.instructions := by
  intro p hp
  obtain ⟨u, hu, _⟩ := hr p.length
  obtain ⟨k, i, hn, hpass⟩ := inPass_reads h hne hu
  have hskipped := hpass.skipped
  have hle := hp.length_le
  have htake := List.prefix_iff_eq_take.mp hp
  cases k with
  | zero =>
    obtain rfl : p.length = i := by omega
    rw [← htake] at hskipped
    omega
  | succ k =>
    have hpos := hpass.lt
    rw [Nat.succ_mul] at hn
    obtain rfl : i = 0 := by omega
    have hlen : p.length = t.instructions.length := by omega
    have hzero : k = 0 := by
      have hmul : k * t.instructions.length = 0 := by omega
      exact (Nat.mul_eq_zero.mp hmul).resolve_right (by omega)
    rw [hp.eq_of_length hlen]
    subst hzero
    simp only [Nat.zero_add, Nat.one_mul, List.take_zero, List.count_nil] at hskipped
    omega

/-- **Which instruction lists can be replayed for ever.**  Exactly the balanced
ones; then the index stays within the list, and every pass leaves as many numbers
in the queue as the list skips more than it recovers. -/
theorem replayable_iff (h : Fresh t) (hne : t.instructions ≠ []) :
    (Replayable t ↔ Balanced t.instructions) ∧
      (Balanced t.instructions → ∀ n u, reads n t = some u → u.index < t.instructions.length ∧
        ∀ k, n = k * t.instructions.length → u.skipped.length =
          k * (t.instructions.count .skip - t.instructions.count .recover)) := by
  refine ⟨⟨balanced_of_replayable h hne, ?_⟩, ?_⟩
  · intro hb n
    obtain ⟨u, hu⟩ := exists_reads h hne hb n
    obtain ⟨k, i, _, hpass⟩ := inPass_reads h hne hu
    exact ⟨u, hu, not_recoverMeetsEmpty hb hpass⟩
  · intro _ n u hu
    obtain ⟨k', i, hn, hpass⟩ := inPass_reads h hne hu
    refine ⟨hpass.index ▸ hpass.lt, ?_⟩
    intro k hk
    have hpos := List.length_pos_iff.mpr hne
    have hmod : i % t.instructions.length = 0 := by
      rw [← Nat.mul_add_mod_self_right k' t.instructions.length i, ← hn, hk, Nat.mul_mod_left]
    rw [Nat.mod_eq_of_lt hpass.lt] at hmod
    subst hmod
    obtain rfl : k = k' := Nat.eq_of_mul_eq_mul_right hpos (by omega)
    have hskipped := hpass.skipped
    rw [List.take_zero, List.count_nil, List.count_nil] at hskipped
    rw [Nat.mul_sub]
    omega

/-- A list that skips two numbers and recovers one of them in every pass. -/
theorem replayable_iff_leaky : Replayable (prepare 1 [.next, .skip, .skip, .recover]) :=
  (@replayable_iff (prepare 1 [.next, .skip, .skip, .recover]) (fresh_prepare _ _)
    (by decide)).1.mpr (by
      intro p hp
      rw [← List.mem_inits] at hp
      revert p
      decide)

end NewbMeasurements.Layers.DummyOrderingTransport
