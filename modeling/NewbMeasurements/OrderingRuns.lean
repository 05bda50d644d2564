import NewbMeasurements.ReliableLink
import NewbMeasurements.Library.ReorderRuns

/-!
`ordering` of the bundled CAF over runs of any length, with numbers that wrap. As long as
all datagrams that arrive are near the expected one, and no timeout goes off for one that
is not the first of the pending ones, it does what a reorder buffer over natural numbers
does. A timeout of a later one makes it deliver out of order, and with timers that are set
on arrival that is what happens to the pending datagram that has arrived first.
-/

namespace NewbMeasurements.OrderingRuns

open Words (Bytes)
open Actors (Atom)
open Layers (SequenceType encodeSequence decodeSequence orderingHeaderLen
  decodeSequence_encodeSequence_append)
open NewbOrdering (Pending comperator isGreater)
open Reordering (Reorder Event Log Timed following reorders timed Near Patient)
open Transitions (TransitionSystem)
open Protocols

/-- `ordering<raw>`, and the messages that the actor has got. -/
structure Receiver where
  layer : OrderingState Unit
  handled : List Bytes := []
  deriving DecidableEq, Repr

def Receiver.after (w : Receiver) (r : Outcome (OrderingState Unit) Bytes) : Receiver :=
  { layer := r.state, handled := w.handled ++ r.handled }

/-- The `n`-th datagram carries its number modulo `2 ^ 16`. -/
def datagram (payload : Nat → Bytes) (n : Nat) : Bytes :=
  encodeSequence (UInt16.ofNat n) ++ payload n

def Receiver.step (payload : Nat → Bytes) (w : Receiver) : Event → Receiver
  | .arrive n => w.after (OrderingState.read raw w.layer (datagram payload n))
  | .expire n =>
    w.after (OrderingState.timeout raw w.layer orderingAtom (UInt16.ofNat n).toUInt32)

/-- The layer, for any sequence of arrivals and timeouts. -/
def receiver (maxPendingMessages : Nat) (payload : Nat → Bytes) :
    TransitionSystem Receiver Event where
  init := { layer := (ordering maxPendingMessages raw).init.state }
  step w e := some (w.step payload e)

/-! ## The layer of the benchmarks -/

/-- A call leaves behind what one of `NewbOrdering.Ordering` does, and hands on the same. -/
structure Agrees (o : OrderingState Unit) (out : Outcome (OrderingState Unit) Bytes)
    (p : NewbOrdering.Ordering × List (SequenceType × Bytes)) : Prop where
  state : out.state = { o with toOrdering := p.1 }
  handled : out.handled = p.2.map Prod.snd
  error : out.error = none

theorem agrees_deliverPending (rounds : Nat) (o : OrderingState Unit) :
    Agrees o (OrderingState.deliverPending raw rounds o)
      (o.toOrdering.deliverPending rounds) := by
  induction rounds generalizing o with
  | zero => exact ⟨rfl, rfl, rfl⟩
  | succ rounds ih =>
    simp only [OrderingState.deliverPending, NewbOrdering.Ordering.deliverPending]
    cases hfind : o.pending.find? (Pending.same o.seqRead) with
    | none => exact ⟨rfl, rfl, rfl⟩
    | some entry =>
      have hrest := ih { o with
        pending := o.pending.eraseP (Pending.same o.seqRead)
        seqRead := o.seqRead + 1 }
      exact ⟨hrest.state, congrArg (entry.2 :: ·) hrest.handled, hrest.error⟩

theorem agrees_addPending (o : OrderingState Unit)
    (hmax : o.maxPendingMessages = NewbOrdering.maxPendingMessages) (bytes : Bytes)
    (seq : SequenceType) :
    Agrees o { OrderingState.addPending raw o bytes seq with error := none }
      (o.toOrdering.addPending bytes seq) := by
  simp only [OrderingState.addPending, NewbOrdering.Ordering.addPending]
  have hquiet (o' : OrderingState Unit) : ({ state := o', requests := o.pendingTimeout seq } :
      Outcome (OrderingState Unit) Bytes).handled = [] := by
    unfold OrderingState.pendingTimeout
    split <;> rfl
  cases hp : Pending.insert seq (bytes.drop orderingHeaderLen) o.pending with
  | nil => exact ⟨rfl, hquiet _, rfl⟩
  | cons first rest =>
    by_cases hfull : (first :: rest).length > NewbOrdering.maxPendingMessages
    · have hrest := agrees_deliverPending (first :: rest).length
        { o with pending := first :: rest, seqRead := first.1 }
      simp only [hmax, if_pos hfull]
      refine ⟨?_, ?_, rfl⟩
      · rw [← hmax]
        exact hrest.state
      · rw [← hmax]
        exact (Transparent.handled_append_pendingTimeout o seq _).trans hrest.handled
    · simp only [hmax, if_neg hfull]
      exact ⟨by rw [← hmax], hquiet _, rfl⟩

/-- The layer that the benchmarks measure is `ordering` over `raw` with the default for the
pending messages. -/
theorem agrees_read (o : OrderingState Unit)
    (hmax : o.maxPendingMessages = NewbOrdering.maxPendingMessages) {bytes : Bytes}
    {p : NewbOrdering.Ordering × List (SequenceType × Bytes)}
    (h : o.toOrdering.read bytes = some p) : Agrees o (OrderingState.read raw o bytes) p := by
  obtain ⟨seq, hseq, rfl⟩ := Option.map_eq_some_iff.mp h
  simp only [OrderingState.read, hseq]
  split
  · have hrest := agrees_deliverPending o.pending.length { o with seqRead := o.seqRead + 1 }
    exact ⟨hrest.state, congrArg (bytes.drop orderingHeaderLen :: ·) hrest.handled, hrest.error⟩
  · split
    · exact agrees_addPending o hmax bytes seq
    · exact ⟨rfl, rfl, rfl⟩

/-! ## Numbers -/

theorem ofNat_inj {i j : Nat} (hij : i < j + 2 ^ 16) (hji : j < i + 2 ^ 16) :
    UInt16.ofNat i = UInt16.ofNat j ↔ i = j := by
  constructor
  · intro h
    have hnat := congrArg UInt16.toNat h
    rw [UInt16.toNat_ofNat', UInt16.toNat_ofNat'] at hnat
    omega
  · exact congrArg _

/-- A later number that is near is the greater one. -/
theorem isGreater_ofNat {i n : Nat} (hi : i < n) (hn : n ≤ i + 32767) :
    isGreater (UInt16.ofNat n) (UInt16.ofNat i) = true := by
  simp only [isGreater, Bool.or_eq_true, Bool.and_eq_true, decide_eq_true_eq,
    gt_iff_lt, UInt16.lt_iff_toNat_lt, UInt16.le_iff_toNat_le, UInt16.toNat_sub,
    UInt16.toNat_ofNat', UInt16.reduceToNat]
  omega

/-- An entry has a key if it is the number itself: of two different ones one is greater. -/
theorem same_iff (k : SequenceType) (entry : SequenceType × Bytes) :
    Pending.same k entry = true ↔ entry.1 = k := by
  simp only [Pending.same, comperator, isGreater, Bool.and_eq_true, Bool.not_eq_true',
    Bool.or_eq_false_iff, Bool.and_eq_false_iff, decide_eq_false_iff_not, gt_iff_lt,
    UInt16.lt_iff_toNat_lt, UInt16.le_iff_toNat_le, UInt16.toNat_sub, UInt16.reduceToNat,
    ← UInt16.toNat_inj]
  have hk := k.toNat_lt
  have he := entry.1.toNat_lt
  omega

/-! ## Entries -/

/-- `pending` with the datagrams of these numbers. -/
def entries (payload : Nat → Bytes) (ns : List Nat) : Pending :=
  ns.map fun n => (UInt16.ofNat n, payload n)

variable {payload : Nat → Bytes} {maxPendingMessages : Nat}

theorem find?_entries_eq_none {e : Nat} {ns : List Nat} (hgt : ∀ n ∈ ns, e < n ∧ n < e + 2 ^ 16) :
    (entries payload ns).find? (Pending.same (UInt16.ofNat e)) = none := by
  rw [List.find?_eq_none]
  intro entry hentry hsame
  obtain ⟨n, hn, rfl⟩ := List.mem_map.mp hentry
  have hlt := hgt n hn
  have heq := (ofNat_inj (by omega) (by omega)).mp ((same_iff _ _).mp hsame)
  omega

/-- The rounds of `deliver_pending` take what follows without a gap. -/
theorem deliverPending_entries (payload : Nat → Bytes) (o : OrderingState Unit) (rounds e : Nat)
    (ns : List Nat)
    (hrounds : ns.length ≤ rounds) (hsorted : ns.Pairwise (· < ·))
    (hnear : ∀ n ∈ ns, e ≤ n ∧ n < e + 2 ^ 16) :
    OrderingState.deliverPending raw rounds
        { o with seqRead := UInt16.ofNat e, pending := entries payload ns } =
      { state := { o with
          seqRead := UInt16.ofNat (e + (following e ns).1.length)
          pending := entries payload (following e ns).2 }
        requests := (following e ns).1.map fun n => .handle (payload n) } := by
  induction rounds generalizing e ns with
  | zero =>
    have hnil : ns = [] := List.eq_nil_of_length_eq_zero (by omega)
    subst hnil
    rfl
  | succ rounds ih =>
    cases ns with
    | nil => rfl
    | cons n ns =>
      obtain ⟨hfirst, hrest⟩ := List.pairwise_cons.mp hsorted
      by_cases heq : n = e
      · subst heq
        have hnext := ih (n + 1) ns (Nat.le_of_succ_le_succ hrounds) hrest fun m hm => by
          have hm' := hnear m (List.mem_cons_of_mem n hm)
          have hlt := hfirst m hm
          omega
        have hhead : Pending.same (UInt16.ofNat n) (UInt16.ofNat n, payload n) = true :=
          (same_iff _ _).mpr rfl
        rw [OrderingState.deliverPending]
        simp only [entries, List.map_cons, List.find?_cons_of_pos hhead,
          List.eraseP_cons_of_pos hhead, InOrder.ofNat_succ]
        have hfollow : following n (n :: ns) =
            (n :: (following (n + 1) ns).1, (following (n + 1) ns).2) := if_pos rfl
        have hlen : n + ((following (n + 1) ns).1.length + 1) =
            n + 1 + (following (n + 1) ns).1.length := by omega
        simp only [entries] at hnext
        simp only [raw, Outcome.map, Outcome.andThen, hfollow, List.length_cons, hlen,
          List.map_cons]
        exact congrArg (fun r : Outcome (OrderingState Unit) Bytes =>
          { r with requests := .handle (payload n) :: r.requests }) hnext
      · have hgt : ∀ m ∈ n :: ns, e < m ∧ m < e + 2 ^ 16 := by
          intro m hm
          have hm' := hnear m hm
          rcases List.mem_cons.mp hm with rfl | hmem
          · omega
          · have hlt := hfirst m hmem
            have hn := hnear n List.mem_cons_self
            omega
        rw [OrderingState.deliverPending, find?_entries_eq_none hgt, following, if_neg heq]
        rfl

/-- `pending[seq] = bytes` for a number that is near the ones in the map. -/
theorem insert_entries {n : Nat} {ns : List Nat} (hsorted : ns.Pairwise (· < ·))
    (hnear : ∀ m ∈ ns, m ≤ n + 32767 ∧ n ≤ m + 32767) :
    Pending.insert (UInt16.ofNat n) (payload n) (entries payload ns) =
      entries payload (Reorder.insert n ns) := by
  induction ns with
  | nil => rfl
  | cons m ns ih =>
    obtain ⟨hfirst, hrest⟩ := List.pairwise_cons.mp hsorted
    have hm := hnear m List.mem_cons_self
    have ih := ih hrest fun k hk => hnear k (List.mem_cons_of_mem m hk)
    rcases Nat.lt_trichotomy n m with hlt | rfl | hgt
    · have hnew : n ∉ m :: ns := by
        intro hmem
        rcases List.mem_cons.mp hmem with rfl | hmem
        · exact Nat.lt_irrefl _ hlt
        · exact Nat.lt_asymm hlt (hfirst n hmem)
      have hbefore : comperator (UInt16.ofNat n) (UInt16.ofNat m) = true :=
        isGreater_ofNat hlt (by omega)
      rw [Reorder.insert, if_neg hnew, List.orderedInsert_cons, if_pos hlt.le]
      simp only [entries, List.map_cons, Pending.insert, hbefore, if_true]
    · have hsame : comperator (UInt16.ofNat n) (UInt16.ofNat n) = false := by
        simp [comperator, isGreater]
      rw [Reorder.insert, if_pos List.mem_cons_self]
      simp only [entries, List.map_cons, Pending.insert, hsame, Bool.false_eq_true, if_false]
    · have hbefore : comperator (UInt16.ofNat n) (UInt16.ofNat m) = false :=
        (InOrder.not_isGreater hgt (by omega)).2
      have hafter : comperator (UInt16.ofNat m) (UInt16.ofNat n) = true :=
        isGreater_ofNat hgt (by omega)
      rw [Reorder.insert_cons_of_lt hgt]
      simp only [entries, List.map_cons, Pending.insert, hbefore, hafter, Bool.false_eq_true,
        if_false, if_true]
      exact congrArg _ ih

/-! ## Refinement -/

/-- The layer stands for a reorder buffer. -/
structure Holds (payload : Nat → Bytes) (maxPendingMessages : Nat) (o : OrderingState Unit)
    (r : Reorder) : Prop where
  seqRead : o.seqRead = UInt16.ofNat r.expected
  pending : o.pending = entries payload r.buffered
  near : ∀ n ∈ r.buffered, n ≤ r.expected + 32767
  maxPendingMessages : o.maxPendingMessages = maxPendingMessages

/-- A call leaves behind what the reorder buffer does, and hands on what it delivers. -/
structure Hands (payload : Nat → Bytes) (maxPendingMessages : Nat)
    (out : Outcome (OrderingState Unit) Bytes) (r : Reorder × List Nat) : Prop where
  holds : Holds payload maxPendingMessages out.state r.1
  handled : out.handled = r.2.map payload

variable {o : OrderingState Unit} {r : Reorder}

theorem handled_map_handle {o : OrderingState Unit} (ns : List Nat) :
    ({ state := o, requests := ns.map fun n => .handle (payload n) } :
      Outcome (OrderingState Unit) Bytes).handled = ns.map payload := by
  induction ns with
  | nil => rfl
  | cons n ns ih => exact congrArg (payload n :: ·) ih

/-- The packets that are still buffered when the buffer has gone on are as near as before. -/
theorem near_advance (hnear : ∀ n ∈ r.buffered, n ≤ r.expected + 32767) :
    ∀ n ∈ r.advance.1.buffered, n ≤ r.advance.1.expected + 32767 := by
  intro n hn
  obtain ⟨hle, -, hheld⟩ := Reorder.leaves_advance r
  have hn' := hnear n ((hheld n).mpr (.inr hn))
  omega

/-- `deliver_pending` after the expected datagram. -/
theorem hands_advance (hpending : o.pending = entries payload r.buffered)
    (hnear : ∀ n ∈ r.buffered, n ≤ r.expected + 32767)
    (hmax : o.maxPendingMessages = maxPendingMessages) :
    Hands payload maxPendingMessages
      { OrderingState.deliverPending raw o.pending.length
          { o with seqRead := UInt16.ofNat (r.expected + 1) } with
        requests := .handle (payload r.expected) :: (OrderingState.deliverPending raw o.pending.length
          { o with seqRead := UInt16.ofNat (r.expected + 1) }).requests } r.advance := by
  have hdeliver := deliverPending_entries payload o o.pending.length (r.expected + 1) r.buffered
    (by rw [hpending, entries, List.length_map]) r.sorted fun n hn => by
      have habove := r.above n hn
      have hn' := hnear n hn
      omega
  rw [← hpending] at hdeliver
  rw [hdeliver]
  refine ⟨⟨rfl, rfl, near_advance hnear, hmax⟩, ?_⟩
  exact congrArg (payload r.expected :: ·) (handled_map_handle _)

/-- `deliver_pending` once `seq_read` is the first of the pending ones. -/
theorem hands_giveUp (hne : r.buffered ≠ []) (hpending : o.pending = entries payload r.buffered)
    (hnear : ∀ n ∈ r.buffered, n ≤ r.expected + 32767)
    (hmax : o.maxPendingMessages = maxPendingMessages) (seq : SequenceType)
    (hseq : ∀ entry ∈ o.pending.head?, entry.1 = seq) :
    Hands payload maxPendingMessages
      (OrderingState.deliverPending raw o.pending.length { o with seqRead := seq }) r.giveUp := by
  obtain ⟨x, rest, hb⟩ := List.exists_cons_of_ne_nil hne
  rw [Reorder.buffered_giveUp hb]
  rw [hb] at hpending hnear
  have hfirst : seq = UInt16.ofNat x := (hseq (UInt16.ofNat x, payload x) (by rw [hpending]; rfl)).symm
  have hsorted : (x :: rest).Pairwise (· < ·) := hb ▸ r.sorted
  have habove := (List.pairwise_cons.mp hsorted).1
  have hx := r.above x (hb ▸ List.mem_cons_self)
  have hdeliver := deliverPending_entries payload o o.pending.length x (x :: rest)
    (by rw [hpending, entries, List.length_map]) hsorted fun n hn => by
      have hn' := hnear n hn
      rcases List.mem_cons.mp hn with rfl | hmem
      · omega
      · have := habove n hmem
        omega
  have hfollow : following x (x :: rest) =
      (x :: (following (x + 1) rest).1, (following (x + 1) rest).2) := if_pos rfl
  have hlen : x + ((following (x + 1) rest).1.length + 1) =
      x + 1 + (following (x + 1) rest).1.length := by omega
  rw [← hpending, ← hfirst, hfollow, List.length_cons, hlen] at hdeliver
  rw [hdeliver]
  refine ⟨⟨rfl, rfl, near_advance fun n hn => ?_, hmax⟩, handled_map_handle _⟩
  have hn' := hnear n (List.mem_cons_of_mem x hn)
  show n ≤ x + 32767
  omega

/-- `add_pending`, which gives up what is missing if too many are pending. -/
theorem hands_addPending (h : Holds payload maxPendingMessages o r) {n : Nat}
    (hn : r.expected < n) (hhi : n ≤ r.expected + 32767) :
    Hands payload maxPendingMessages
      (OrderingState.addPending raw o (datagram payload n) (UInt16.ofNat n))
      (if maxPendingMessages < (Reorder.insert n r.buffered).length then (r.buffer n hn).giveUp
        else (r.buffer n hn, [])) := by
  have hdrop : (datagram payload n).drop orderingHeaderLen = payload n := rfl
  have hinsert : Pending.insert (UInt16.ofNat n) (payload n) o.pending =
      entries payload (Reorder.insert n r.buffered) := by
    rw [h.pending]
    refine insert_entries r.sorted fun m hm => ?_
    have habove := r.above m hm
    have hnear := h.near m hm
    omega
  have hlen : (entries payload (Reorder.insert n r.buffered)).length =
      (Reorder.insert n r.buffered).length := List.length_map _
  have hnear : ∀ m ∈ Reorder.insert n r.buffered, m ≤ r.expected + 32767 := by
    intro m hm
    rcases Reorder.mem_insert.mp hm with rfl | hm
    · exact hhi
    · exact h.near m hm
  have hnil : Reorder.insert n r.buffered ≠ [] :=
    List.ne_nil_of_mem (Reorder.mem_insert.mpr (.inl rfl))
  simp only [OrderingState.addPending, hdrop, hinsert]
  split
  · rename_i hempty
    exact absurd (List.map_eq_nil_iff.mp hempty) hnil
  · rename_i first rest hcons
    have hcount : (entries payload (Reorder.insert n r.buffered)).length > o.maxPendingMessages ↔
        maxPendingMessages < (Reorder.insert n r.buffered).length := by
      rw [hlen, h.maxPendingMessages]
    by_cases hfull : maxPendingMessages < (Reorder.insert n r.buffered).length
    · rw [if_pos (hcount.mpr hfull), if_pos hfull]
      have hgiveUp := hands_giveUp (r := r.buffer n hn)
        (o := { o with pending := entries payload (Reorder.insert n r.buffered) })
        hnil rfl hnear h.maxPendingMessages first.1 (by simp [hcons])
      exact ⟨hgiveUp.holds, (Transparent.handled_append_pendingTimeout _ _ _).trans hgiveUp.handled⟩
    · rw [if_neg (mt hcount.mp hfull), if_neg hfull]
      refine ⟨⟨h.seqRead, rfl, hnear, h.maxPendingMessages⟩, ?_⟩
      have hquiet := Transparent.handled_append_pendingTimeout (μ := Bytes) o (UInt16.ofNat n)
        { state := { o with pending := entries payload (Reorder.insert n r.buffered) } }
      rwa [List.append_nil] at hquiet

/-- A datagram that is near the expected one arrives. -/
theorem hands_arrive (h : Holds payload maxPendingMessages o r) {n : Nat}
    (hlo : r.expected ≤ n + 32767) (hhi : n ≤ r.expected + 32767) :
    Hands payload maxPendingMessages (OrderingState.read raw o (datagram payload n))
      (r.arrive maxPendingMessages n) := by
  have hdec : decodeSequence (datagram payload n) = some (UInt16.ofNat n) :=
    decodeSequence_encodeSequence_append _ _
  rw [OrderingState.read, hdec]
  simp only [h.seqRead]
  rcases Reorder.arrive_cases maxPendingMessages r n with ⟨rfl, harrive⟩ | ⟨hlt, harrive⟩ |
      ⟨hn, hroom, harrive⟩ | ⟨hn, hfull, harrive⟩ <;> rw [harrive]
  · rw [if_pos rfl, InOrder.ofNat_succ]
    exact hands_advance h.pending h.near h.maxPendingMessages
  · obtain ⟨hne, hnot⟩ := InOrder.not_isGreater hlt hlo
    rw [if_neg hne, hnot]
    exact ⟨h, rfl⟩
  · have hne := (InOrder.not_isGreater hn hhi).1.symm
    have hadd := hands_addPending h hn hhi
    rw [if_neg (Nat.not_lt.mpr hroom)] at hadd
    rw [if_neg hne, if_pos (isGreater_ofNat hn hhi)]
    exact ⟨hadd.holds, hadd.handled⟩
  · have hne := (InOrder.not_isGreater hn hhi).1.symm
    have hadd := hands_addPending h hn hhi
    rw [if_pos hfull] at hadd
    rw [if_neg hne, if_pos (isGreater_ofNat hn hhi)]
    exact ⟨hadd.holds, hadd.handled⟩

/-- Whether a number is among the pending ones. -/
theorem any_entries {n : Nat} {ns : List Nat} (hnear : ∀ m ∈ ns, m < n + 2 ^ 16 ∧ n < m + 2 ^ 16) :
    (entries payload ns).any (Pending.same (UInt16.ofNat n)) = true ↔ n ∈ ns := by
  rw [List.any_eq_true]
  constructor
  · rintro ⟨entry, hentry, hsame⟩
    obtain ⟨m, hm, rfl⟩ := List.mem_map.mp hentry
    have heq := (ofNat_inj (hnear m hm).1 (hnear m hm).2).mp ((same_iff _ _).mp hsame)
    exact heq ▸ hm
  · intro hn
    exact ⟨_, List.mem_map_of_mem hn, (same_iff _ _).mpr rfl⟩

/-- A number near the expected one is a key of the map exactly if it is pending. -/
theorem Holds.pending_iff (h : Holds payload maxPendingMessages o r) {n : Nat}
    (hlo : r.expected ≤ n + 32767) (hhi : n ≤ r.expected + 32767) :
    o.pending.any (Pending.same (UInt16.ofNat n)) = true ↔ n ∈ r.buffered := by
  rw [h.pending]
  refine any_entries fun m hm => ?_
  have habove := r.above m hm
  have hnear := h.near m hm
  omega

/-- A timeout of a datagram that is not pending does nothing, one of the first pending one
gives up what is missing in front of it. -/
theorem hands_expire (h : Holds payload maxPendingMessages o r) {n : Nat}
    (hlo : r.expected ≤ n + 32767) (hhi : n ≤ r.expected + 32767)
    (hfirst : n ∈ r.buffered → r.buffered.head? = some n) :
    Hands payload maxPendingMessages
      (OrderingState.timeout raw o orderingAtom (UInt16.ofNat n).toUInt32)
      (if n ∈ r.buffered then r.giveUp else (r, [])) := by
  have hany := h.pending_iff hlo hhi
  rw [OrderingState.timeout, if_pos rfl, ReliableLink.toUInt16_toUInt32]
  by_cases hn : n ∈ r.buffered
  · rw [if_pos (hany.mpr hn), if_pos hn]
    refine hands_giveUp (List.ne_nil_of_mem hn) h.pending h.near h.maxPendingMessages _ ?_
    have hhead := hfirst hn
    rw [h.pending, entries, List.head?_map, hhead]
    rintro entry ⟨⟩
    rfl
  · rw [if_neg (mt hany.mp hn), if_neg hn]
    exact ⟨h, rfl⟩

/-! ## Runs -/

/-- The layer stands for the buffer of the log, and the actor has got what was delivered. -/
structure Refines (payload : Nat → Bytes) (maxPendingMessages : Nat) (w : Receiver) (l : Log) :
    Prop where
  holds : Holds payload maxPendingMessages w.layer l.buffer
  handled : w.handled = l.delivered.map payload

theorem refines_step {w : Receiver} {l l' : Log} {e : Event}
    (h : Refines payload maxPendingMessages w l) (he : Near 32767 l e)
    (hs : l.step maxPendingMessages e = some l') :
    Refines payload maxPendingMessages (w.step payload e) l' := by
  have hafter {out : Outcome (OrderingState Unit) Bytes} {p : Reorder × List Nat}
      (hout : Hands payload maxPendingMessages out p) (arrived : List Nat) :
      Refines payload maxPendingMessages (w.after out)
        { buffer := p.1, delivered := l.delivered ++ p.2, arrived } := by
    refine ⟨hout.holds, ?_⟩
    show w.handled ++ out.handled = _
    rw [h.handled, hout.handled, List.map_append]
  cases e with
  | arrive n =>
    cases hs
    exact hafter (hands_arrive h.holds he.1 he.2) _
  | expire n =>
    simp only [Log.step] at hs
    by_cases hn : n ∈ l.buffer.buffered
    · rw [if_pos hn] at hs
      split at hs
      · rename_i hfirst
        cases hs
        have hexpire := hands_expire h.holds he.1 he.2 fun _ => hfirst
        rw [if_pos hn] at hexpire
        exact hafter hexpire l.arrived
      · cases hs
    · rw [if_neg hn] at hs
      cases hs
      have hexpire := hands_expire h.holds he.1 he.2 fun hmem => absurd hmem hn
      rw [if_neg hn] at hexpire
      have hsame := hafter hexpire l.arrived
      rwa [List.append_nil] at hsame

theorem refines_runFrom {w : Receiver} {l l' : Log} {es : List Event}
    (h : Refines payload maxPendingMessages w l)
    (hm : (reorders maxPendingMessages).Meets (Near 32767) l es)
    (hr : (reorders maxPendingMessages).runFrom l es = some l') :
    ∃ w', (receiver maxPendingMessages payload).runFrom w es = some w' ∧
      Refines payload maxPendingMessages w' l' := by
  induction es generalizing w l with
  | nil =>
    cases hr
    exact ⟨w, rfl, h⟩
  | cons e es ih =>
    obtain ⟨t, ht, hr⟩ := TransitionSystem.runFrom_cons.mp hr
    exact ih (refines_step h hm.1 ht) (hm.2 t ht) hr

theorem refines_initial (payload : Nat → Bytes) : Refines payload maxPendingMessages
    (receiver maxPendingMessages payload).init (reorders maxPendingMessages).init :=
  ⟨⟨rfl, rfl, List.forall_mem_nil _, rfl⟩, rfl⟩

/-- In every run near the expected datagram in which timeouts go off in order, the layer is a
reorder buffer without wrapping numbers: it hands on datagrams that have arrived, in order, each
once, and loses none but those that it has given up. -/
theorem ordering_refines (payload : Nat → Bytes) {es : List Event} {l : Log}
    (hm : (reorders maxPendingMessages).Meets (Near 32767) (reorders maxPendingMessages).init es)
    (hr : (reorders maxPendingMessages).run es = some l) :
    ∃ w, (receiver maxPendingMessages payload).run es = some w ∧
      w.handled = l.delivered.map payload ∧ l.delivered.Pairwise (· < ·) ∧
      (∀ n ∈ l.delivered, .arrive n ∈ es) ∧
      ∀ n, .arrive n ∈ es → n < l.buffer.expected ∨
        n ∈ l.buffer.buffered ∧ (UInt16.ofNat n, payload n) ∈ w.layer.pending := by
  obtain ⟨w, hw, href⟩ := refines_runFrom (refines_initial payload) hm hr
  obtain ⟨hordered, hwaits⟩ := Reordering.ordered_run hr
  refine ⟨w, hw, href.handled, hordered.sorted, fun n hn => ?_, fun n hn => ?_⟩
  · exact (Reordering.mem_arrived_run hr).mp (hordered.arrived n (.inl hn))
  · have harrived := (Reordering.mem_arrived_run hr).mpr hn
    rcases hordered.known n harrived with hle | hmem
    · refine .inl (Nat.lt_of_le_of_ne hle ?_)
      rintro rfl
      exact hwaits harrived
    · refine .inr ⟨hmem, ?_⟩
      rw [href.holds.pending]
      exact List.mem_map_of_mem hmem

/-- The datagram 2 is given up, and comes too late. -/
theorem ordering_refines_three : ∃ w, (receiver 5 fun n => [UInt8.ofNat n]).run
      [.arrive 1, .arrive 0, .arrive 3, .expire 3, .arrive 2] = some w ∧
    w.handled = [[0], [1], [3]] := by
  obtain ⟨w, hw, hhandled, -⟩ := @ordering_refines 5 (fun n => [UInt8.ofNat n])
    [.arrive 1, .arrive 0, .arrive 3, .expire 3, .arrive 2] _ (by decide) rfl
  exact ⟨w, hw, hhandled⟩

/-- As long as nothing is given up, the actor gets exactly the datagrams in front of the first
that has not arrived, whatever the network reorders and duplicates. -/
theorem ordering_gapless (payload : Nat → Bytes) {es : List Event} {l : Log}
    (hm : (reorders maxPendingMessages).Meets
      (fun l e => Near 32767 l e ∧ Patient maxPendingMessages l e)
      (reorders maxPendingMessages).init es)
    (hr : (reorders maxPendingMessages).run es = some l) :
    ∃ w k, (receiver maxPendingMessages payload).run es = some w ∧
      w.handled = (List.range k).map payload ∧ (∀ n < k, .arrive n ∈ es) ∧ .arrive k ∉ es := by
  have hnear := TransitionSystem.meets_mono (fun _ _ h => h.1) hm
  have hpatient := TransitionSystem.meets_mono (fun _ _ h => h.2) hm
  obtain ⟨w, hw, href⟩ := refines_runFrom (refines_initial payload) hnear hr
  obtain ⟨hordered, hwaits⟩ := Reordering.ordered_run hr
  have hdelivered := Reordering.gapless_run hpatient hr
  refine ⟨w, l.buffer.expected, hw, ?_, fun n hn => ?_, ?_⟩
  · rw [href.handled, hdelivered]
  · refine (Reordering.mem_arrived_run hr).mp (hordered.arrived n (.inl ?_))
    rw [hdelivered]
    exact List.mem_range.mpr hn
  · exact fun h => hwaits ((Reordering.mem_arrived_run hr).mpr h)

/-- Three datagrams in reverse, the last of them twice, with room for two. -/
theorem ordering_gapless_three : ∃ w k, (receiver 2 fun n => [UInt8.ofNat n]).run
      [.arrive 2, .arrive 1, .arrive 2, .arrive 0] = some w ∧
    w.handled = (List.range k).map fun n => [UInt8.ofNat n] := by
  obtain ⟨w, k, hw, hhandled, -⟩ := @ordering_gapless 2 (fun n => [UInt8.ofNat n])
    [.arrive 2, .arrive 1, .arrive 2, .arrive 0] _ (by decide) rfl
  exact ⟨w, k, hw, hhandled⟩

/-! ## What a timeout hands on -/

/-- What is not among the numbers that a call goes through stays pending, and nothing is new. -/
theorem mem_deliverPending {rounds : Nat} {o : OrderingState Unit} :
    (∀ entry ∈ o.pending, (∀ i < rounds, entry.1 ≠ o.seqRead + UInt16.ofNat i) →
      entry ∈ (OrderingState.deliverPending raw rounds o).state.pending) ∧
    (OrderingState.deliverPending raw rounds o).state.pending ⊆ o.pending := by
  induction rounds generalizing o with
  | zero => exact ⟨fun _ h _ => h, List.Subset.refl _⟩
  | succ rounds ih =>
    unfold OrderingState.deliverPending
    split
    · exact ⟨fun _ h _ => h, List.Subset.refl _⟩
    · rename_i found hfind
      obtain ⟨hkeeps, hsub⟩ := ih (o := { o with
        next := (raw.read o.next found.2).state
        pending := o.pending.eraseP (Pending.same o.seqRead)
        seqRead := o.seqRead + 1 })
      refine ⟨fun entry hentry hne => ?_, fun entry hentry => ?_⟩
      · refine hkeeps entry ?_ fun i hi => ?_
        · have hkey : ¬ Pending.same o.seqRead entry = true := by
            rw [same_iff]
            have hzero := hne 0 (Nat.succ_pos _)
            have hadd : o.seqRead + UInt16.ofNat 0 = o.seqRead := UInt16.add_zero _
            rwa [hadd] at hzero
          exact (List.mem_eraseP_of_neg hkey).mpr hentry
        · have hnext := hne (i + 1) (Nat.succ_lt_succ hi)
          rw [← InOrder.ofNat_succ, UInt16.add_comm (UInt16.ofNat i), ← UInt16.add_assoc] at hnext
          exact hnext
      · exact List.mem_of_mem_eraseP (hsub hentry)

/-- `deliver_pending` sets no timers, and leaves them on. -/
theorem timeouts_deliverPending (rounds : Nat) (o : OrderingState Unit) :
    timeouts (OrderingState.deliverPending raw rounds o).requests = [] ∧
      (OrderingState.deliverPending raw rounds o).state.useTimeouts = o.useTimeouts := by
  induction rounds generalizing o with
  | zero => exact ⟨rfl, rfl⟩
  | succ rounds ih =>
    unfold OrderingState.deliverPending
    split
    · exact ⟨rfl, rfl⟩
    · rename_i found hfind
      exact ih _

/-- No two pending datagrams have the same number. -/
def Distinct (o : OrderingState Unit) : Prop :=
  ∀ a ∈ o.pending, ∀ b ∈ o.pending, a.1 = b.1 → a = b

theorem Holds.distinct (h : Holds payload maxPendingMessages o r) : Distinct o := by
  intro a ha b hb heq
  rw [h.pending] at ha hb
  obtain ⟨n, hn, rfl⟩ := List.mem_map.mp ha
  obtain ⟨m, hm, rfl⟩ := List.mem_map.mp hb
  -- both are ahead of the expected number, and near it
  have hn' := r.above n hn
  have hm' := r.above m hm
  have hnearN := h.near n hn
  have hnearM := h.near m hm
  rw [(ofNat_inj (by omega) (by omega)).mp heq]

theorem Distinct.find? (h : Distinct o) {entry : SequenceType × Bytes} (hmem : entry ∈ o.pending) :
    o.pending.find? (Pending.same entry.1) = some entry := by
  obtain ⟨found, hfind⟩ : ∃ found, o.pending.find? (Pending.same entry.1) = some found :=
    Option.isSome_iff_exists.mp (List.find?_isSome.mpr ⟨entry, hmem, (same_iff _ _).mpr rfl⟩)
  have hkey := (same_iff _ _).mp (List.find?_some hfind)
  rw [hfind, h found (List.mem_of_find?_eq_some hfind) entry hmem hkey]

/-- What leaves `pending` is handed on. -/
theorem handed_deliverPending {rounds : Nat} (h : Distinct o) {entry : SequenceType × Bytes}
    (hmem : entry ∈ o.pending) :
    entry ∈ (OrderingState.deliverPending raw rounds o).state.pending ∨
      ∃ front back,
        (OrderingState.deliverPending raw rounds o).handled = front ++ entry.2 :: back := by
  induction rounds generalizing o with
  | zero => exact .inl hmem
  | succ rounds ih =>
    unfold OrderingState.deliverPending
    split
    · exact .inl hmem
    · rename_i found hfind
      by_cases hkey : Pending.same o.seqRead entry = true
      · have hfound := h.find? hmem
        rw [(same_iff _ _).mp hkey, hfind, Option.some.injEq] at hfound
        subst hfound
        exact .inr ⟨[], _, rfl⟩
      · have hleft := List.mem_eraseP_of_neg (l := o.pending) hkey
        have hstill : Distinct { o with
            next := (raw.read o.next found.2).state
            pending := o.pending.eraseP (Pending.same o.seqRead)
            seqRead := o.seqRead + 1 } :=
          fun a ha b hb => h a (List.mem_of_mem_eraseP ha) b (List.mem_of_mem_eraseP hb)
        refine (ih hstill (hleft.mpr hmem)).imp_right ?_
        rintro ⟨front, back, hhanded⟩
        exact ⟨found.2 :: front, back, congrArg (found.2 :: ·) hhanded⟩

/-- The timer that `add_pending` sets for a datagram. -/
def timer (n : Nat) : Atom × UInt32 := (orderingAtom, (UInt16.ofNat n).toUInt32)

theorem timeout_timer (o : OrderingState Unit) (n : Nat) :
    OrderingState.timeout raw o (timer n).1 (timer n).2 =
      if o.pending.any (Pending.same (UInt16.ofNat n)) then
        OrderingState.deliverPending raw o.pending.length { o with seqRead := UInt16.ofNat n }
      else { state := o } := by
  rw [timer, OrderingState.timeout, if_pos rfl, ReliableLink.toUInt16_toUInt32]

/-- A timeout of a pending datagram hands it on, wherever in the map it is. -/
theorem timeout_pending (h : Distinct o) {n : Nat}
    (hmem : (UInt16.ofNat n, payload n) ∈ o.pending) :
    OrderingState.timeout raw o (timer n).1 (timer n).2 =
        OrderingState.deliverPending raw o.pending.length { o with seqRead := UInt16.ofNat n } ∧
      ∃ rest, (OrderingState.timeout raw o (timer n).1 (timer n).2).handled = payload n :: rest := by
  have hany : o.pending.any (Pending.same (UInt16.ofNat n)) = true :=
    List.any_eq_true.mpr ⟨_, hmem, (same_iff _ _).mpr rfl⟩
  have hdeliver := timeout_timer o n
  rw [if_pos hany] at hdeliver
  refine ⟨hdeliver, ?_⟩
  obtain ⟨rounds, hrounds⟩ : ∃ rounds, o.pending.length = rounds + 1 :=
    Nat.exists_eq_succ_of_ne_zero (List.length_pos_of_mem hmem).ne'
  rw [hdeliver, hrounds, OrderingState.deliverPending, h.find? hmem]
  exact ⟨_, rfl⟩

/-- What a timeout leaves behind: fewer pending datagrams, and no timers. -/
theorem timeout_leaves (o : OrderingState Unit) (n : Nat) :
    (OrderingState.timeout raw o (timer n).1 (timer n).2).state.pending ⊆ o.pending ∧
      timeouts (OrderingState.timeout raw o (timer n).1 (timer n).2).requests = [] ∧
      (OrderingState.timeout raw o (timer n).1 (timer n).2).state.useTimeouts = o.useTimeouts := by
  rw [timeout_timer]
  split
  · obtain ⟨hquiet, hkeeps⟩ := timeouts_deliverPending o.pending.length
      { o with seqRead := UInt16.ofNat n }
    exact ⟨mem_deliverPending.2, hquiet, hkeeps⟩
  · exact ⟨List.Subset.refl _, rfl, rfl⟩

/-- Numbers that are near and in order are not many. -/
theorem length_buffered_le (h : Holds payload maxPendingMessages o r) :
    r.buffered.length ≤ 32767 := by
  have hsub : r.buffered ⊆ List.range' (r.expected + 1) 32767 := by
    intro n hn
    have habove := r.above n hn
    have hnear := h.near n hn
    exact List.mem_range'_1.mpr (by omega)
  have hle := (List.subperm_of_subset (r.sorted.imp Nat.ne_of_lt) hsub).length_le
  rwa [List.length_range'] at hle

theorem Holds.mem_pending (h : Holds payload maxPendingMessages o r) {n : Nat}
    (hn : n ∈ r.buffered) : (UInt16.ofNat n, payload n) ∈ o.pending := by
  rw [h.pending]
  exact List.mem_map_of_mem hn

/-- The timeout of a pending datagram leaves those in front of it pending. -/
theorem Holds.timeout_keeps (h : Holds payload maxPendingMessages o r) {x y : Nat}
    (hx : x ∈ r.buffered) (hy : y ∈ r.buffered) (hxy : x < y) :
    (UInt16.ofNat x, payload x) ∈
      (OrderingState.timeout raw o (timer y).1 (timer y).2).state.pending := by
  rw [(timeout_pending h.distinct (h.mem_pending hy)).1]
  refine mem_deliverPending.1 _ (h.mem_pending hx) fun i hi heq => ?_
  -- what is handed on has one of the numbers from `y` on
  have hlen := length_buffered_le h
  rw [h.pending, entries, List.length_map] at hi
  have habove := r.above x hx
  have hnear := h.near y hy
  rw [← UInt16.ofNat_add] at heq
  have hnat := (ofNat_inj (by omega) (by omega)).mp heq
  omega

/-! ## Timers -/

/-- The layer with the timers that it has set. All have the same delay, so that they go
off in the order in which they were set. -/
structure TimedReceiver where
  receiver : Receiver
  timers : List (Atom × UInt32) := []
  deriving DecidableEq, Repr

namespace TimedReceiver

/-- The receiver after a call, with the timers that were left before it. -/
def after (w : TimedReceiver) (timers : List (Atom × UInt32))
    (r : Outcome (OrderingState Unit) Bytes) : TimedReceiver :=
  { receiver := w.receiver.after r, timers := timers ++ timeouts r.requests }

/-- A timer goes off only if it is the first. -/
def step (payload : Nat → Bytes) (w : TimedReceiver) : Event → Option TimedReceiver
  | .arrive n =>
    some (w.after w.timers (OrderingState.read raw w.receiver.layer (datagram payload n)))
  | .expire n =>
    if w.timers.head? = some (timer n) then
      some (w.after w.timers.tail
        (OrderingState.timeout raw w.receiver.layer (timer n).1 (timer n).2))
    else none

end TimedReceiver

/-- The layer, for any sequence of arrivals, with timeouts as it asks for them. -/
def timedReceiver (maxPendingMessages : Nat) (payload : Nat → Bytes) :
    TransitionSystem TimedReceiver Event where
  init := { receiver := (receiver maxPendingMessages payload).init }
  step := TimedReceiver.step payload

theorem timeouts_append_pendingTimeout (h : o.useTimeouts = true) (seq : SequenceType)
    (rs : List (Request Bytes)) :
    timeouts (o.pendingTimeout seq ++ rs) = (orderingAtom, seq.toUInt32) :: timeouts rs := by
  rw [OrderingState.pendingTimeout, if_pos h]
  rfl

/-- `add_pending` sets one timer, also if it gives up what is missing. -/
theorem timeouts_addPending (h : o.useTimeouts = true) (bytes : Bytes) (seq : SequenceType) :
    timeouts (OrderingState.addPending raw o bytes seq).requests = [(orderingAtom, seq.toUInt32)] ∧
      (OrderingState.addPending raw o bytes seq).state.useTimeouts = true := by
  have hnone := timeouts_append_pendingTimeout h seq []
  rw [List.append_nil] at hnone
  simp only [OrderingState.addPending]
  split
  · exact ⟨hnone, h⟩
  · split
    · obtain ⟨hquiet, hon⟩ := timeouts_deliverPending _ _
      exact ⟨(timeouts_append_pendingTimeout h seq _).trans (congrArg _ hquiet), hon.trans h⟩
    · exact ⟨hnone, h⟩

/-- A datagram sets a timer if it is ahead. -/
theorem timeouts_read (h : Holds payload maxPendingMessages o r) (hon : o.useTimeouts = true)
    {n : Nat} (hlo : r.expected ≤ n + 32767) (hhi : n ≤ r.expected + 32767) :
    timeouts (OrderingState.read raw o (datagram payload n)).requests =
        (if r.expected < n then [n] else []).map timer ∧
      (OrderingState.read raw o (datagram payload n)).state.useTimeouts = true := by
  have hdec : decodeSequence (datagram payload n) = some (UInt16.ofNat n) :=
    decodeSequence_encodeSequence_append _ _
  rw [OrderingState.read, hdec]
  simp only [h.seqRead]
  rcases Nat.lt_trichotomy n r.expected with hlt | rfl | hgt
  · obtain ⟨hne, hnot⟩ := InOrder.not_isGreater hlt hlo
    rw [if_neg hne, hnot, if_neg (Nat.lt_asymm hlt)]
    exact ⟨rfl, hon⟩
  · rw [if_pos rfl, if_neg (Nat.lt_irrefl _)]
    obtain ⟨hquiet, hkeeps⟩ := timeouts_deliverPending o.pending.length
      { o with seqRead := UInt16.ofNat r.expected + 1 }
    exact ⟨hquiet, hkeeps.trans hon⟩
  · have hne := (InOrder.not_isGreater hgt hhi).1.symm
    rw [if_neg hne, if_pos (isGreater_ofNat hgt hhi), if_pos hgt]
    exact timeouts_addPending hon _ _

/-- The layer stands for the buffer, and its timers for those of the buffer. -/
structure RefinesTimed (payload : Nat → Bytes) (maxPendingMessages : Nat) (w : TimedReceiver)
    (t : Timed) : Prop where
  receiver : Refines payload maxPendingMessages w.receiver t.log
  timers : w.timers = t.timers.map timer
  on : w.receiver.layer.useTimeouts = true

variable {w : TimedReceiver} {t t' : Timed}

theorem fire (payload : Nat → Bytes) {n : Nat} {rest : List (Atom × UInt32)}
    (ht : w.timers = timer n :: rest) :
    w.step payload (.expire n) = some
      { receiver := w.receiver.after
          (OrderingState.timeout raw w.receiver.layer (timer n).1 (timer n).2)
        timers := rest } := by
  have hhead : w.timers.head? = some (timer n) := by rw [ht, List.head?_cons]
  rw [TimedReceiver.step, if_pos hhead, TimedReceiver.after, (timeout_leaves _ n).2.1,
    List.append_nil, ht, List.tail_cons]

theorem refinesTimed_step {e : Event} (h : RefinesTimed payload maxPendingMessages w t)
    (he : Near 32767 t.log e) (hs : t.step maxPendingMessages e = some t') :
    ∃ w', w.step payload e = some w' ∧ RefinesTimed payload maxPendingMessages w' t' := by
  have hlog := refines_step h.receiver he (Timed.log_step hs)
  cases e with
  | arrive n =>
    simp only [Timed.step] at hs
    obtain ⟨log, hlog', rfl⟩ := Option.map_eq_some_iff.mp hs
    obtain ⟨htimeouts, hon⟩ := timeouts_read h.receiver.holds h.on he.1 he.2
    refine ⟨_, rfl, hlog, ?_, hon⟩
    rw [TimedReceiver.after, htimeouts, h.timers, List.map_append]
  | expire n =>
    simp only [Timed.step] at hs
    split at hs
    · rename_i hhead
      obtain ⟨log, hlog', rfl⟩ := Option.map_eq_some_iff.mp hs
      obtain ⟨rest, hrest⟩ := List.head?_eq_some_iff.mp hhead
      have htimers := h.timers
      rw [hrest, List.map_cons] at htimers
      refine ⟨_, fire payload htimers, hlog, ?_, (timeout_leaves _ n).2.2.trans h.on⟩
      rw [hrest, List.tail_cons]
    · cases hs

theorem refinesTimed_runFrom {es : List Event} (h : RefinesTimed payload maxPendingMessages w t)
    (hm : (timed maxPendingMessages).Meets (fun t e => Near 32767 t.log e) t es)
    (hr : (timed maxPendingMessages).runFrom t es = some t') :
    ∃ w', (timedReceiver maxPendingMessages payload).runFrom w es = some w' ∧
      RefinesTimed payload maxPendingMessages w' t' := by
  induction es generalizing w t with
  | nil =>
    cases hr
    exact ⟨w, rfl, h⟩
  | cons e es ih =>
    obtain ⟨u, hu, hr⟩ := TransitionSystem.runFrom_cons.mp hr
    obtain ⟨w₁, hw₁, h₁⟩ := refinesTimed_step h hm.1 hu
    obtain ⟨w', hw', h'⟩ := ih h₁ (hm.2 u hu) hr
    exact ⟨w', TransitionSystem.runFrom_cons.mpr ⟨w₁, hw₁, hw'⟩, h'⟩

/-! ## Timeouts out of order -/

/-- Timers of datagrams that are not pending do nothing. -/
theorem stale_timers (maxPendingMessages : Nat) (payload : Nat → Bytes) {stale : List Nat}
    {rest : List (Atom × UInt32)} (ht : w.timers = stale.map timer ++ rest)
    (hs : ∀ z ∈ stale, w.receiver.layer.pending.any (Pending.same (UInt16.ofNat z)) = false) :
    (timedReceiver maxPendingMessages payload).runFrom w (stale.map .expire) =
      some { w with timers := rest } := by
  induction stale generalizing w with
  | nil =>
    rw [List.map_nil, List.nil_append] at ht
    rw [← ht]
    rfl
  | cons z stale ih =>
    rw [List.map_cons, List.cons_append] at ht
    have hnone := timeout_timer w.receiver.layer z
    rw [hs z List.mem_cons_self, if_neg Bool.false_ne_true] at hnone
    have hfire := fire payload ht
    rw [hnone] at hfire
    have hsame : w.receiver.after { state := w.receiver.layer } = w.receiver := by
      simp [Receiver.after, Outcome.handled]
    rw [hsame] at hfire
    rw [List.map_cons, TransitionSystem.runFrom_cons]
    exact ⟨_, hfire, ih rfl fun z hz => hs z (List.mem_cons_of_mem _ hz)⟩

/-- As the timers go off, a pending datagram is handed on, by its own timeout at the latest. -/
theorem exists_handed (maxPendingMessages : Nat) {front : List Nat} {x : Nat}
    {rest : List (Atom × UInt32)} (ht : w.timers = front.map timer ++ timer x :: rest)
    (hd : Distinct w.receiver.layer)
    (hx : (UInt16.ofNat x, payload x) ∈ w.receiver.layer.pending) :
    ∃ (ns : List Nat) (w' : TimedReceiver) (ys xs : List Bytes),
      (timedReceiver maxPendingMessages payload).runFrom w (ns.map .expire) = some w' ∧
      w'.receiver.handled = w.receiver.handled ++ ys ++ payload x :: xs := by
  induction front generalizing w with
  | nil =>
    obtain ⟨_, xs, hxs⟩ := timeout_pending hd hx
    refine ⟨[x], _, [], xs, TransitionSystem.runFrom_cons.mpr ⟨_, fire payload ht, rfl⟩, ?_⟩
    show w.receiver.handled ++ _ = _
    rw [hxs, List.append_nil]
  | cons z front ih =>
    rw [List.map_cons, List.cons_append] at ht
    have hfire := fire payload ht
    obtain ⟨hsub, -, -⟩ := timeout_leaves w.receiver.layer z
    have hcases : (UInt16.ofNat x, payload x) ∈
        (OrderingState.timeout raw w.receiver.layer (timer z).1 (timer z).2).state.pending ∨
        ∃ ys xs, (OrderingState.timeout raw w.receiver.layer (timer z).1 (timer z).2).handled =
          ys ++ payload x :: xs := by
      rw [timeout_timer]
      split
      · exact handed_deliverPending (o := { w.receiver.layer with seqRead := UInt16.ofNat z }) hd hx
      · exact .inl hx
    rcases hcases with hstill | ⟨ys, xs, hhanded⟩
    · obtain ⟨ns, w', ys, xs, hrun, hhandled⟩ :=
        ih (w := ⟨w.receiver.after _, _⟩) rfl (fun a ha b hb => hd a (hsub ha) b (hsub hb)) hstill
      refine ⟨z :: ns, w',
        (OrderingState.timeout raw w.receiver.layer (timer z).1 (timer z).2).handled ++ ys, xs,
        TransitionSystem.runFrom_cons.mpr ⟨_, hfire, hrun⟩, ?_⟩
      rw [hhandled, ← List.append_assoc w.receiver.handled]
      rfl
    · refine ⟨[z], _, ys, xs, TransitionSystem.runFrom_cons.mpr ⟨_, hfire, rfl⟩, ?_⟩
      show w.receiver.handled ++ _ = _
      rw [hhanded, List.append_assoc]

/-- The timers of a run are set on arrival and go off in the order in which they were set.
From every state that is reached so, in which of the pending datagrams `y` has arrived first:
when the timers go off, the actor gets `y` in front of every earlier datagram that is pending. -/
theorem late_timeout (payload : Nat → Bytes) {es es' : List Event} {t : Timed} {x y : Nat}
    (hm : (timed maxPendingMessages).Meets (fun t e => Near 32767 t.log e)
      (timed maxPendingMessages).init (es ++ .arrive y :: es'))
    (hr : (timed maxPendingMessages).run (es ++ .arrive y :: es') = some t)
    (hx : x ∈ t.log.buffer.buffered) (hy : y ∈ t.log.buffer.buffered) (hxy : x < y)
    (hfirst : ∀ z ∈ t.log.buffer.buffered, .arrive z ∉ es)
    (hnear : ∀ z ∈ t.timers, Near 32767 t.log (.expire z)) :
    ∃ (w : TimedReceiver) (ns : List Nat) (w' : TimedReceiver) (ys xs : List Bytes),
      (timedReceiver maxPendingMessages payload).run (es ++ .arrive y :: es') = some w ∧
      (timedReceiver maxPendingMessages payload).runFrom w (ns.map .expire) = some w' ∧
      w'.receiver.handled = w.receiver.handled ++ payload y :: ys ++ payload x :: xs := by
  have hinit : RefinesTimed payload maxPendingMessages
      (timedReceiver maxPendingMessages payload).init (timed maxPendingMessages).init :=
    ⟨refines_initial payload, rfl, rfl⟩
  obtain ⟨w, hw, href⟩ := refinesTimed_runFrom hinit hm hr
  obtain ⟨stale, rest, hsplit, hstale⟩ := Reordering.first_timer hr hy hfirst
  have hholds := href.receiver.holds
  -- the timers in front of that of `y`
  have htimers : w.timers = stale.map timer ++ timer y :: rest.map timer := by
    rw [href.timers, hsplit, List.map_append, List.map_cons]
  have hdone : ∀ z ∈ stale,
      w.receiver.layer.pending.any (Pending.same (UInt16.ofNat z)) = false := by
    intro z hz
    have hz' := hnear z (hsplit ▸ List.mem_append_left _ hz)
    exact Bool.eq_false_iff.mpr (mt (hholds.pending_iff hz'.1 hz'.2).mp (hstale z hz))
  have hrun := stale_timers maxPendingMessages payload htimers hdone
  -- the timer of `y`, which hands on none that is earlier
  have hfire := fire payload (w := { w with timers := timer y :: rest.map timer }) rfl
  obtain ⟨-, ys, hys⟩ := timeout_pending hholds.distinct (hholds.mem_pending hy)
  have hleft := hholds.timeout_keeps hx hy hxy
  have hsub := (timeout_leaves w.receiver.layer y).1
  -- the timer of `x` is still to come
  have hmem : x ∈ rest := by
    have hmem := (Reordering.covered_run hr).buffered x hx
    rw [hsplit] at hmem
    rcases List.mem_append.mp hmem with hmem | hmem
    · exact absurd hx (hstale x hmem)
    · exact (List.mem_cons.mp hmem).resolve_left hxy.ne
  obtain ⟨front, back, hrest⟩ := List.append_of_mem hmem
  have hrest' : rest.map timer = front.map timer ++ timer x :: back.map timer := by
    rw [hrest, List.map_append, List.map_cons]
  obtain ⟨ns, w', zs, xs, hrun', hhandled⟩ := exists_handed maxPendingMessages
    (w := ⟨w.receiver.after _, rest.map timer⟩) hrest'
    (fun a ha b hb => hholds.distinct a (hsub ha) b (hsub hb)) hleft
  refine ⟨w, stale ++ y :: ns, w', ys ++ zs, xs, hw, ?_, ?_⟩
  · rw [List.map_append, TransitionSystem.runFrom_append, hrun, Option.bind_some, List.map_cons]
    exact TransitionSystem.runFrom_cons.mpr ⟨_, hfire, hrun'⟩
  · rw [hhandled]
    show (w.receiver.handled ++ _) ++ zs ++ _ = _
    rw [hys, List.append_assoc w.receiver.handled, List.cons_append]

/-- The datagrams 0 and 2 are missing, and 3 has arrived before 1. -/
theorem late_timeout_three :
    ∃ (w : TimedReceiver) (ns : List Nat) (w' : TimedReceiver) (ys xs : List Bytes),
      (timedReceiver 5 fun n => [UInt8.ofNat n]).run [.arrive 3, .arrive 1] = some w ∧
      (timedReceiver 5 fun n => [UInt8.ofNat n]).runFrom w (ns.map .expire) = some w' ∧
      w'.receiver.handled = w.receiver.handled ++ [3] :: ys ++ [1] :: xs :=
  @late_timeout 5 (fun n => [UInt8.ofNat n]) [] [.arrive 1] _ 1 3 (by decide) rfl (by decide)
    (by decide) (by decide) (by decide) (by decide)

end NewbMeasurements.OrderingRuns
