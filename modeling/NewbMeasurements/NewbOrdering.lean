import NewbMeasurements.Layers
import NewbMeasurements.Library.Reordering

/-!
The ordering layer below the actors of `layers.cpp`. What the benchmarks need of it
is stated as a contract: where the numbers do not wrap and at most one of them is
missing, it does what the reorder buffer of `Library.Reordering` does. That buffer
itself meets the contract, and so does `ordering` of `newb_ordering.hpp` in the
bundled CAF, which looks for the datagrams to deliver in another way.
-/

namespace NewbMeasurements.NewbOrdering

open Words (Bytes)
open Layers (SequenceType encodeSequence decodeSequence orderingHeaderLen
  decodeSequence_encodeSequence_append toNat_sequence_succ)
open Reordering (Reorder)

/-- `middleman.max-pending-messages` in the `config` of the benchmarks. -/
def maxPendingMessages : Nat := 5

/-- An ordering layer. `read` gets a datagram with its header and tells the numbers
of the datagrams that it hands on; it is `none` where the datagram is refused.
`Holds` relates its states to those of a reorder buffer. -/
structure OrderingLayer where
  State : Type
  init : State
  expected : State → SequenceType
  buffered : State → List SequenceType
  read : State → Bytes → Option (State × List SequenceType)
  Holds : State → Reorder → Prop
  toNat_expected {s : State} {r : Reorder} : Holds s r → (expected s).toNat = r.expected
  map_buffered {s : State} {r : Reorder} : Holds s r → (buffered s).map UInt16.toNat = r.buffered
  holds_init : Holds init (.empty 0)
  read_behind {s : State} {e len : Nat} {n : SequenceType} (payload : Bytes) :
    Holds s (.behind e len) → len ≤ maxPendingMessages →
    n.toNat = e ∨ n.toNat = e + 1 + len → e + 1 + len < 2 ^ 16 → n.toNat + 1 < 2 ^ 16 →
      ∃ s' out, read s (encodeSequence n ++ payload) = some (s', out) ∧
        Holds s' ((Reorder.behind e len).read maxPendingMessages n.toNat).1 ∧
        out.map UInt16.toNat = ((Reorder.behind e len).read maxPendingMessages n.toNat).2

/-! ## The reorder buffer as a layer -/

/-- The numbers of a reorder buffer and of what it delivers stay below a bound. -/
theorem read_lt {e len n bound : Nat} (hn : n = e ∨ n = e + 1 + len) (hwrap : e + 1 + len < bound)
    (hnext : n + 1 < bound) {r : Reorder} {out : List Nat}
    (h : (Reorder.behind e len).read maxPendingMessages n = (r, out)) :
    r.expected < bound ∧ (∀ x ∈ r.buffered, x < bound) ∧ ∀ x ∈ out, x < bound := by
  have hrange : ∀ k, e + 1 + k ≤ bound → ∀ x ∈ List.range' (e + 1) k, x < bound := by
    intro k hk x hx
    have := (List.mem_range'_1.mp hx).2
    omega
  rcases hn with rfl | rfl
  · rw [Reorder.read_expected] at h
    cases h
    refine ⟨hwrap, List.forall_mem_nil _, ?_⟩
    intro x hx
    rcases List.mem_cons.mp hx with rfl | hx
    · omega
    · exact hrange len (by omega) x hx
  · by_cases hroom : len + 1 ≤ maxPendingMessages
    · rw [Reorder.read_buffered hroom] at h
      cases h
      refine ⟨?_, hrange (len + 1) (by omega), List.forall_mem_nil _⟩
      show e < bound
      omega
    · rw [Reorder.read_overflow (by omega)] at h
      cases h
      exact ⟨hnext, List.forall_mem_nil _, hrange (len + 1) (by omega)⟩

theorem map_toNat_ofNat {xs : List Nat} (h : ∀ x ∈ xs, x < 2 ^ 16) :
    (xs.map UInt16.ofNat).map UInt16.toNat = xs := by
  induction xs with
  | nil => rfl
  | cons x xs ih =>
    rw [List.map_cons, List.map_cons, UInt16.toNat_ofNat_of_lt' (h x List.mem_cons_self),
      ih fun y hy => h y (List.mem_cons_of_mem x hy)]

/-- The layer as the benchmarks assume it. -/
def reorderLayer : OrderingLayer where
  State := Reorder
  init := .empty 0
  expected r := UInt16.ofNat r.expected
  buffered r := r.buffered.map UInt16.ofNat
  read r bytes := (decodeSequence bytes).map fun n =>
    let (r', out) := r.read maxPendingMessages n.toNat
    (r', out.map UInt16.ofNat)
  Holds s r := s = r ∧ r.expected < 2 ^ 16 ∧ ∀ x ∈ r.buffered, x < 2 ^ 16
  toNat_expected := by
    rintro s r ⟨rfl, he, _⟩
    exact UInt16.toNat_ofNat_of_lt' he
  map_buffered := by
    rintro s r ⟨rfl, _, hb⟩
    exact map_toNat_ofNat hb
  holds_init := ⟨rfl, by decide, List.forall_mem_nil _⟩
  read_behind := by
    rintro s e len n payload ⟨rfl, _, _⟩ _ hn hwrap hnext
    obtain ⟨he, hb, hout⟩ := read_lt hn hwrap hnext rfl
    rw [decodeSequence_encodeSequence_append]
    exact ⟨_, _, rfl, ⟨rfl, he, hb⟩, map_toNat_ofNat hout⟩

/-! ## The layer of CAF -/

/-- `is_greater` with its default for `max_distance`. -/
def isGreater (lhs rhs : SequenceType) : Bool :=
  (lhs > rhs && lhs - rhs ≤ 32767) || (lhs < rhs && rhs - lhs > 32767)

/-- `sequence_comperator`, the order of the keys of `pending`. -/
def comperator (lhs rhs : SequenceType) : Bool := isGreater rhs lhs

/-- `pending`, as the list of its entries in the order of its keys. -/
abbrev Pending := List (SequenceType × Bytes)

namespace Pending

/-- Keys of which neither comes before the other one are the same key. -/
def same (k : SequenceType) (entry : SequenceType × Bytes) : Bool :=
  !comperator k entry.1 && !comperator entry.1 k

/-- `pending[seq] = bytes` -/
def insert (k : SequenceType) (bytes : Bytes) : Pending → Pending
  | [] => [(k, bytes)]
  | entry :: rest =>
    if comperator k entry.1 then (k, bytes) :: entry :: rest
    else if comperator entry.1 k then entry :: insert k bytes rest
    else (entry.1, bytes) :: rest

end Pending

/-- The members of `ordering` for reading. -/
structure Ordering where
  seqRead : SequenceType := 0
  pending : Pending := []
  deriving DecidableEq, Repr

namespace Ordering

/-- The loop of `deliver_pending`; every round takes an entry out of the map, so
that it makes as many rounds as there are entries, at most. -/
def deliverPending : Nat → Ordering → Ordering × List (SequenceType × Bytes)
  | 0, o => (o, [])
  | rounds + 1, o =>
    match o.pending.find? (Pending.same o.seqRead) with
    | none => (o, [])
    | some entry =>
      let (o', out) := deliverPending rounds
        { seqRead := o.seqRead + 1, pending := o.pending.eraseP (Pending.same o.seqRead) }
      (o', entry :: out)

/-- `add_pending` without the timeout, which a benchmark cancels. -/
def addPending (o : Ordering) (bytes : Bytes) (seq : SequenceType) :
    Ordering × List (SequenceType × Bytes) :=
  let pending := Pending.insert seq (bytes.drop orderingHeaderLen) o.pending
  match pending with
  | [] => ({ o with pending }, [])
  | first :: _ =>
    if pending.length > maxPendingMessages then
      deliverPending pending.length { seqRead := first.1, pending }
    else ({ o with pending }, [])

/-- `read`, with the datagrams that it passes to the next layer. -/
def read (o : Ordering) (bytes : Bytes) : Option (Ordering × List (SequenceType × Bytes)) :=
  (decodeSequence bytes).map fun seq =>
    if seq = o.seqRead then
      let (o', out) := deliverPending o.pending.length { o with seqRead := o.seqRead + 1 }
      (o', (seq, bytes.drop orderingHeaderLen) :: out)
    else if isGreater seq o.seqRead then o.addPending bytes seq
    else (o, [])

end Ordering

theorem isGreater_of_lt {x y : SequenceType} (h : y.toNat < x.toNat)
    (hd : x.toNat - y.toNat ≤ 32767) : isGreater x y = true ∧ isGreater y x = false := by
  have hxy : y < x := UInt16.lt_iff_toNat_lt.mpr h
  have hnot : ¬ x < y := UInt16.not_lt.mpr (UInt16.le_of_lt hxy)
  have hsub : x - y ≤ 32767 := by
    rw [UInt16.le_iff_toNat_le, UInt16.toNat_sub_of_le x y (UInt16.le_of_lt hxy)]
    exact hd
  have hfar : ¬ x - y > 32767 := UInt16.not_lt.mpr hsub
  simp [isGreater, hxy, hnot, hsub, hfar]

theorem same_self (k : SequenceType) (bytes : Bytes) : Pending.same k (k, bytes) = true := by
  simp [Pending.same, comperator, isGreater]

/-- A key behind all others goes to the end of the map. -/
theorem insert_last {p : Pending} {k : SequenceType} (bytes : Bytes)
    (h : ∀ entry ∈ p, isGreater k entry.1 = true ∧ isGreater entry.1 k = false) :
    Pending.insert k bytes p = p ++ [(k, bytes)] := by
  induction p with
  | nil => rfl
  | cons entry rest ih =>
    obtain ⟨hafter, hbefore⟩ := h entry List.mem_cons_self
    have hrest := ih fun x hx => h x (List.mem_cons_of_mem entry hx)
    simp [Pending.insert, comperator, hafter, hbefore, hrest]

/-- The keys of `pending` follow each other from `e` on. -/
def Consecutive (p : Pending) (e : Nat) : Prop :=
  (p.map Prod.fst).map UInt16.toNat = List.range' e p.length

/-- Entries that follow `seq_read` without a gap are all delivered. -/
theorem deliverPending_consecutive {p : Pending} {seq : SequenceType}
    (h : Consecutive p seq.toNat) (hwrap : seq.toNat + p.length < 2 ^ 16) :
    ∃ seq', (⟨seq, p⟩ : Ordering).deliverPending p.length = (⟨seq', []⟩, p) ∧
      seq'.toNat = seq.toNat + p.length := by
  induction p generalizing seq with
  | nil => exact ⟨seq, rfl, rfl⟩
  | cons entry rest ih =>
    simp only [Consecutive, List.map_cons, List.length_cons, List.range'_succ,
      List.cons.injEq] at h
    obtain ⟨hhead, hrest⟩ := h
    have hkey : entry.1 = seq := UInt16.toNat_inj.mp hhead
    have hsame : Pending.same seq entry = true := hkey ▸ same_self entry.1 entry.2
    rw [List.length_cons] at hwrap ⊢
    have hsucc := toNat_sequence_succ (x := seq) rfl (by omega)
    rw [← hsucc] at hrest
    obtain ⟨seq', hrun, hseq'⟩ := ih hrest (by omega)
    refine ⟨seq', ?_, by omega⟩
    simp [Ordering.deliverPending, hsame, hrun]

/-- The state of `ordering` as a reorder buffer. -/
structure Shows (o : Ordering) (r : Reorder) : Prop where
  seqRead : o.seqRead.toNat = r.expected
  pending : (o.pending.map Prod.fst).map UInt16.toNat = r.buffered

section Read

variable {o : Ordering} {e len : Nat} {n : SequenceType}

theorem Shows.length_pending (h : Shows o (.behind e len)) : o.pending.length = len := by
  have hlen := congrArg List.length h.pending
  rwa [List.length_map, List.length_map, Reorder.behind, List.length_range'] at hlen

/-- The missing datagram lets the loop deliver what is pending. -/
theorem shows_read_expected (payload : Bytes) (h : Shows o (.behind e len)) (hn : n.toNat = e)
    (hwrap : e + 1 + len < 2 ^ 16) :
    ∃ o' out, o.read (encodeSequence n ++ payload) = some (o', out) ∧
      Shows o' (.empty (e + 1 + len)) ∧
      (out.map Prod.fst).map UInt16.toNat = e :: List.range' (e + 1) len := by
  have hlen := h.length_pending
  have hread : n = o.seqRead := UInt16.toNat_inj.mp (hn.trans h.seqRead.symm)
  have hsucc := toNat_sequence_succ hn (by omega)
  have hrun : Consecutive o.pending (n + 1).toNat := by
    rw [Consecutive, h.pending, hsucc, hlen]
    rfl
  obtain ⟨seq', hdeliver, hseq'⟩ := deliverPending_consecutive hrun (by omega)
  refine ⟨⟨seq', []⟩, (n, payload) :: o.pending, ?_, ⟨?_, rfl⟩, ?_⟩
  · rw [Ordering.read, decodeSequence_encodeSequence_append, Option.map_some, if_pos hread,
      ← hread, hdeliver]
    rfl
  · rw [hseq', hsucc, hlen]
    rfl
  · rw [List.map_cons, List.map_cons, h.pending, hn]
    rfl

/-- A datagram from behind the missing one becomes the last entry of the map. -/
theorem insert_behind (payload : Bytes) (h : Shows o (.behind e len))
    (hlen : len ≤ maxPendingMessages) (hn : n.toNat = e + 1 + len) :
    ∃ first rest, Pending.insert n payload o.pending = first :: rest ∧
      (first :: rest).length = len + 1 ∧ first.1.toNat = e + 1 ∧
      ((first :: rest).map Prod.fst).map UInt16.toNat = List.range' (e + 1) (len + 1) := by
  have hmax : maxPendingMessages = 5 := rfl
  have hkeys : (o.pending.map Prod.fst).map UInt16.toNat = List.range' (e + 1) len := h.pending
  have hlast : Pending.insert n payload o.pending = o.pending ++ [(n, payload)] := by
    apply insert_last
    intro entry hentry
    have hmem : entry.1.toNat ∈ List.range' (e + 1) len :=
      hkeys ▸ List.mem_map_of_mem (List.mem_map_of_mem hentry)
    have hrange := List.mem_range'_1.mp hmem
    exact isGreater_of_lt (by omega) (by omega)
  obtain ⟨first, rest, hsplit⟩ : ∃ first rest, o.pending ++ [(n, payload)] = first :: rest :=
    List.exists_cons_of_ne_nil (by simp)
  have hall : ((first :: rest).map Prod.fst).map UInt16.toNat = List.range' (e + 1) (len + 1) := by
    rw [← hsplit, List.map_append, List.map_append, hkeys, List.range'_1_concat]
    show List.range' (e + 1) len ++ [n.toNat] = _
    rw [hn]
  refine ⟨first, rest, hlast.trans hsplit, ?_, ?_, hall⟩
  · have hcount := congrArg List.length hall
    rwa [List.length_map, List.length_map, List.length_range'] at hcount
  · rw [List.range'_succ] at hall
    exact (List.cons.inj hall).1

theorem addPending_of_insert {bytes : Bytes} {first : SequenceType × Bytes} {rest : Pending}
    (h : Pending.insert n (bytes.drop orderingHeaderLen) o.pending = first :: rest) :
    o.addPending bytes n =
      if (first :: rest).length > maxPendingMessages then
        Ordering.deliverPending (first :: rest).length ⟨first.1, first :: rest⟩
      else (⟨o.seqRead, first :: rest⟩, []) := by
  simp only [Ordering.addPending, h]

/-- The next datagram is buffered, or it makes the layer give up the missing one. -/
theorem shows_read_next (payload : Bytes) (h : Shows o (.behind e len))
    (hlen : len ≤ maxPendingMessages) (hn : n.toNat = e + 1 + len) (hwrap : n.toNat + 1 < 2 ^ 16) :
    ∃ o' out, o.read (encodeSequence n ++ payload) = some (o', out) ∧
      Shows o' ((Reorder.behind e len).read maxPendingMessages (e + 1 + len)).1 ∧
      (out.map Prod.fst).map UInt16.toNat =
        ((Reorder.behind e len).read maxPendingMessages (e + 1 + len)).2 := by
  have hmax : maxPendingMessages = 5 := rfl
  have hseq : o.seqRead.toNat = e := h.seqRead
  have hne : n ≠ o.seqRead := by
    rintro rfl
    omega
  have hgreater := (isGreater_of_lt (x := n) (y := o.seqRead) (by omega) (by omega)).1
  obtain ⟨first, rest, hinsert, hcount, hfirst, hkeys⟩ := insert_behind payload h hlen hn
  have hread : o.read (encodeSequence n ++ payload) =
      some (o.addPending (encodeSequence n ++ payload) n) := by
    rw [Ordering.read, decodeSequence_encodeSequence_append, Option.map_some, if_neg hne,
      if_pos hgreater]
  have hdrop : (encodeSequence n ++ payload).drop orderingHeaderLen = payload := rfl
  rw [← hdrop] at hinsert
  rw [addPending_of_insert hinsert, hcount] at hread
  by_cases hroom : len + 1 ≤ maxPendingMessages
  · rw [if_neg (by omega)] at hread
    rw [Reorder.read_buffered hroom]
    exact ⟨_, _, hread, ⟨h.seqRead, hkeys⟩, rfl⟩
  · rw [if_pos (by omega)] at hread
    rw [Reorder.read_overflow (by omega)]
    have hrun : Consecutive (first :: rest) first.1.toNat := by
      rw [Consecutive, hkeys, hfirst, hcount]
    obtain ⟨seq', hdeliver, hseq'⟩ := deliverPending_consecutive hrun (by omega)
    rw [hcount] at hdeliver hseq'
    rw [hdeliver] at hread
    refine ⟨_, _, hread, ⟨?_, rfl⟩, hkeys⟩
    rw [hseq', hfirst]
    show e + 1 + (len + 1) = e + 1 + len + 1
    omega

end Read

/-- The layer of the benchmarks in the bundled CAF. -/
def ordering : OrderingLayer where
  State := Ordering
  init := {}
  expected := Ordering.seqRead
  buffered o := o.pending.map Prod.fst
  read o bytes := (o.read bytes).map fun (o', out) => (o', out.map Prod.fst)
  Holds := Shows
  toNat_expected h := h.seqRead
  map_buffered h := h.pending
  holds_init := ⟨rfl, rfl⟩
  read_behind := by
    rintro o e len n payload h hlen (hn | hn) hwrap hnext
    · obtain ⟨o', out, hread, hshows, hout⟩ := shows_read_expected payload h hn hwrap
      rw [hn, Reorder.read_expected]
      exact ⟨o', out.map Prod.fst, by rw [hread, Option.map_some], hshows, hout⟩
    · obtain ⟨o', out, hread, hshows, hout⟩ := shows_read_next payload h hlen hn hnext
      rw [hn]
      exact ⟨o', out.map Prod.fst, by rw [hread, Option.map_some], hshows, hout⟩

end NewbMeasurements.NewbOrdering
