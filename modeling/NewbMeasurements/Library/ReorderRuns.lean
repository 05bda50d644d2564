import NewbMeasurements.Library.Reordering
import NewbMeasurements.Library.Transitions

/-!
Runs of a reorder buffer that gives up missing packets: when it holds too many, and when
the first packet that it holds has waited too long. It hands on what directly follows the
packets given up, and keeps the rest.
-/

namespace NewbMeasurements.Reordering

open Transitions (TransitionSystem)

namespace Reorder

/-! ## Giving up -/

/-- Without the packets up to the first buffered one, which is expected then. -/
def skipTo (r : Reorder) (x : Nat) (rest : List Nat) (h : r.buffered = x :: rest) : Reorder where
  expected := x
  buffered := rest
  sorted := (List.pairwise_cons.mp (h ▸ r.sorted)).2
  above := (List.pairwise_cons.mp (h ▸ r.sorted)).1

/-- The packets in front of the first buffered one are given up. -/
def giveUp (r : Reorder) : Reorder × List Nat :=
  match h : r.buffered with
  | [] => (r, [])
  | x :: rest => (r.skipTo x rest h).advance

/-- A packet arrives at a buffer that gives up only what it has to. -/
def arrive (maxPending : Nat) (r : Reorder) (n : Nat) : Reorder × List Nat :=
  if n = r.expected then r.advance
  else if hn : r.expected < n then
    let r' := r.buffer n hn
    if maxPending < r'.buffered.length then r'.giveUp else (r', [])
  else (r, [])

theorem insert_cons_of_lt {n x : Nat} {xs : List Nat} (h : x < n) :
    insert n (x :: xs) = x :: insert n xs := by
  by_cases hmem : n ∈ xs
  · rw [insert, insert, if_pos hmem, if_pos (List.mem_cons_of_mem x hmem)]
  · have hnew : n ∉ x :: xs := List.not_mem_cons_of_ne_of_not_mem h.ne' hmem
    rw [insert, insert, if_neg hmem, if_neg hnew, List.orderedInsert_cons,
      if_neg (Nat.not_le.mpr h)]

theorem following_eq_range' (e : Nat) (xs : List Nat) :
    (following e xs).1 = List.range' e (following e xs).1.length := by
  induction xs generalizing e with
  | nil => rfl
  | cons x xs ih =>
    unfold following
    split
    · rename_i heq
      subst heq
      rw [List.length_cons, List.range'_succ, ← ih]
    · rfl

/-- What leaves a buffer that goes on from `e`: consecutive packets, all that it held of the
ones below the next expected. -/
structure Leaves (e : Nat) (held : List Nat) (r : Reorder) (out : List Nat) : Prop where
  le : e ≤ r.expected
  out_eq : out = List.range' e (r.expected - e)
  held_iff : ∀ x, x ∈ held ↔ e < x ∧ x < r.expected ∨ x ∈ r.buffered

theorem leaves_advance (r : Reorder) : Leaves r.expected r.buffered r.advance.1 r.advance.2 := by
  have hrange := following_eq_range' (r.expected + 1) r.buffered
  have hsplit := following_append (r.expected + 1) r.buffered
  refine ⟨?_, ?_, fun x => ?_⟩
  · show r.expected ≤ r.expected + 1 + (following (r.expected + 1) r.buffered).1.length
    omega
  · show r.expected :: (following (r.expected + 1) r.buffered).1 =
      List.range' r.expected (r.expected + 1 + (following (r.expected + 1) r.buffered).1.length -
        r.expected)
    have hlen : r.expected + 1 + (following (r.expected + 1) r.buffered).1.length - r.expected =
        (following (r.expected + 1) r.buffered).1.length + 1 := by omega
    rw [hlen, List.range'_succ, ← hrange]
  · show x ∈ r.buffered ↔
      r.expected < x ∧ x < r.expected + 1 + (following (r.expected + 1) r.buffered).1.length ∨
        x ∈ (following (r.expected + 1) r.buffered).2
    have hrun : x ∈ (following (r.expected + 1) r.buffered).1 ↔ r.expected + 1 ≤ x ∧
        x < r.expected + 1 + (following (r.expected + 1) r.buffered).1.length := by
      conv_lhs => rw [hrange]
      exact List.mem_range'_1
    nth_rewrite 1 [← hsplit]
    rw [List.mem_append, hrun, Nat.succ_le_iff]

theorem buffered_giveUp {r : Reorder} {x : Nat} {rest : List Nat} (h : r.buffered = x :: rest) :
    r.giveUp = (r.skipTo x rest h).advance := by
  obtain ⟨expected, buffered, sorted, above⟩ := r
  cases h
  rfl

/-- What the arrival of a packet can do. -/
theorem arrive_cases (maxPending : Nat) (r : Reorder) (n : Nat) :
    (n = r.expected ∧ r.arrive maxPending n = r.advance) ∨
    (n < r.expected ∧ r.arrive maxPending n = (r, [])) ∨
    (∃ hn : r.expected < n, (insert n r.buffered).length ≤ maxPending ∧
      r.arrive maxPending n = (r.buffer n hn, [])) ∨
    ∃ hn : r.expected < n, maxPending < (insert n r.buffered).length ∧
      r.arrive maxPending n = (r.buffer n hn).giveUp := by
  rcases Nat.lt_trichotomy n r.expected with hlt | heq | hgt
  · exact .inr (.inl ⟨hlt, by rw [arrive, if_neg hlt.ne, dif_neg (Nat.lt_asymm hlt)]⟩)
  · exact .inl ⟨heq, if_pos heq⟩
  · refine .inr (.inr ?_)
    rcases Nat.lt_or_ge maxPending (insert n r.buffered).length with hfull | hroom
    · refine .inr ⟨hgt, hfull, ?_⟩
      rw [arrive, if_neg hgt.ne', dif_pos hgt]
      exact if_pos hfull
    · refine .inl ⟨hgt, hroom, ?_⟩
      rw [arrive, if_neg hgt.ne', dif_pos hgt]
      exact if_neg (Nat.not_lt.mpr hroom)

end Reorder

/-! ## Runs -/

/-- A timer of a packet goes off, or the packet arrives. -/
inductive Event
  | arrive (n : Nat)
  | expire (n : Nat)
  deriving DecidableEq, Repr

structure Log where
  buffer : Reorder
  delivered : List Nat
  arrived : List Nat

namespace Log

/-- The timer of a packet that is not buffered any more does nothing; there is no step for
one of a packet that is not the first of the buffered ones. -/
def step (maxPending : Nat) (l : Log) : Event → Option Log
  | .arrive n =>
    let (r, out) := l.buffer.arrive maxPending n
    some { buffer := r, delivered := l.delivered ++ out, arrived := l.arrived ++ [n] }
  | .expire n =>
    if n ∈ l.buffer.buffered then
      if l.buffer.buffered.head? = some n then
        let (r, out) := l.buffer.giveUp
        some { l with buffer := r, delivered := l.delivered ++ out }
      else none
    else some l

end Log

def reorders (maxPending : Nat) : TransitionSystem Log Event where
  init := { buffer := .empty 0, delivered := [], arrived := [] }
  step := Log.step maxPending

/-- The buffer makes no number wrap: all that it deals with is within `width` of the
expected packet. -/
def Near (width : Nat) (l : Log) : Event → Prop
  | .arrive n => l.buffer.expected ≤ n + width ∧ n ≤ l.buffer.expected + width
  | .expire n => l.buffer.expected ≤ n + width ∧ n ≤ l.buffer.expected + width

instance (width : Nat) (l : Log) : ∀ e, Decidable (Near width l e)
  | .arrive _ => inferInstanceAs (Decidable (_ ∧ _))
  | .expire _ => inferInstanceAs (Decidable (_ ∧ _))

/-- Nothing is given up in this step. -/
def Patient (maxPending : Nat) (l : Log) : Event → Prop
  | .arrive n =>
    l.buffer.expected < n → (Reorder.insert n l.buffer.buffered).length ≤ maxPending
  | .expire n => n ∉ l.buffer.buffered

instance (maxPending : Nat) (l : Log) : ∀ e, Decidable (Patient maxPending l e)
  | .arrive _ => inferInstanceAs (Decidable (_ → _))
  | .expire _ => inferInstanceAs (Decidable (_ ∉ _))

/-- What has been delivered is in order, and behind the expected packet; what has arrived
behind the expected packet is buffered. -/
structure Ordered (l : Log) : Prop where
  sorted : l.delivered.Pairwise (· < ·)
  behind : ∀ x ∈ l.delivered, x < l.buffer.expected
  arrived : ∀ x, x ∈ l.delivered ∨ x ∈ l.buffer.buffered → x ∈ l.arrived
  known : ∀ x ∈ l.arrived, x ≤ l.buffer.expected ∨ x ∈ l.buffer.buffered

/-- The expected packet has not arrived. -/
def Waits (l : Log) : Prop := l.buffer.expected ∉ l.arrived

/-- The buffer goes on to the next packet that is missing. -/
def Log.advance (l : Log) : Log :=
  { l with buffer := l.buffer.advance.1, delivered := l.delivered ++ l.buffer.advance.2 }

variable {l l' : Log} {n : Nat}

theorem Ordered.late (h : Ordered l) (hn : n ≤ l.buffer.expected) :
    Ordered { l with arrived := l.arrived ++ [n] } where
  sorted := h.sorted
  behind := h.behind
  arrived x hx := List.mem_append_left _ (h.arrived x hx)
  known x hx := by
    rcases List.mem_append.mp hx with hx | hx
    · exact h.known x hx
    · rw [List.mem_singleton.mp hx]
      exact .inl hn

theorem Ordered.buffer (h : Ordered l) (hn : l.buffer.expected < n) :
    Ordered { l with buffer := l.buffer.buffer n hn, arrived := l.arrived ++ [n] } where
  sorted := h.sorted
  behind := h.behind
  arrived x hx := by
    rcases hx with hx | hx
    · exact List.mem_append_left _ (h.arrived x (.inl hx))
    · rcases Reorder.mem_insert.mp hx with rfl | hx
      · exact List.mem_append_right _ (List.mem_singleton_self _)
      · exact List.mem_append_left _ (h.arrived x (.inr hx))
  known x hx := by
    rcases List.mem_append.mp hx with hx | hx
    · exact (h.known x hx).imp_right fun hx => Reorder.mem_insert.mpr (.inr hx)
    · exact .inr (Reorder.mem_insert.mpr (.inl (List.mem_singleton.mp hx)))

theorem Ordered.skipTo (h : Ordered l) {x : Nat} {rest : List Nat}
    (hb : l.buffer.buffered = x :: rest) :
    Ordered { l with buffer := l.buffer.skipTo x rest hb } ∧ x ∈ l.arrived := by
  have hx : x ∈ l.buffer.buffered := hb ▸ List.mem_cons_self
  have hlt := l.buffer.above x hx
  refine ⟨⟨h.sorted, fun y hy => (h.behind y hy).trans hlt, fun y hy => ?_, fun y hy => ?_⟩,
    h.arrived x (.inr hx)⟩
  · exact h.arrived y (hy.imp_right fun hy => hb ▸ List.mem_cons_of_mem x hy)
  · rcases h.known y hy with hle | hmem
    · exact .inl (hle.trans hlt.le)
    · rw [hb] at hmem
      rcases List.mem_cons.mp hmem with rfl | hmem
      · exact .inl (Nat.le_refl _)
      · exact .inr hmem

theorem Ordered.advance (h : Ordered l) (hmem : l.buffer.expected ∈ l.arrived) :
    Ordered l.advance ∧ Waits l.advance := by
  obtain ⟨hle, hout, hheld⟩ := Reorder.leaves_advance l.buffer
  have hmem_out (x : Nat) : x ∈ l.buffer.advance.2 ↔
      l.buffer.expected ≤ x ∧ x < l.buffer.advance.1.expected := by
    rw [hout, List.mem_range'_1]
    omega
  refine ⟨⟨?_, ?_, ?_, ?_⟩, fun hwait => ?_⟩
  · refine List.pairwise_append.mpr ⟨h.sorted, ?_, fun x hx y hy => ?_⟩
    · rw [hout]
      exact List.pairwise_lt_range'
    · exact (h.behind x hx).trans_le ((hmem_out y).mp hy).1
  · intro x hx
    rcases List.mem_append.mp hx with hx | hx
    · exact (h.behind x hx).trans_le hle
    · exact ((hmem_out x).mp hx).2
  · rintro x (hx | hx)
    · rcases List.mem_append.mp hx with hx | hx
      · exact h.arrived x (.inl hx)
      · obtain ⟨hge, hlt⟩ := (hmem_out x).mp hx
        rcases Nat.eq_or_lt_of_le hge with rfl | hgt
        · exact hmem
        · exact h.arrived x (.inr ((hheld x).mpr (.inl ⟨hgt, hlt⟩)))
    · exact h.arrived x (.inr ((hheld x).mpr (.inr hx)))
  · intro x hx
    rcases h.known x hx with hx | hx
    · exact .inl (hx.trans hle)
    · exact ((hheld x).mp hx).imp_left fun hx => hx.2.le
  · have hnew : l.buffer.expected < l.buffer.advance.1.expected := by
      show l.buffer.expected < l.buffer.expected + 1 + _
      omega
    rcases h.known _ hwait with hle | hb
    · exact absurd hle (Nat.not_le.mpr hnew)
    · rcases (hheld _).mp hb with ⟨-, hlt⟩ | hb
      · exact absurd hlt (Nat.lt_irrefl _)
      · exact absurd (l.buffer.advance.1.above _ hb) (Nat.lt_irrefl _)

/-- Giving up what is in front of the first buffered packet. -/
theorem Ordered.giveUp (h : Ordered l) (hne : l.buffer.buffered ≠ []) :
    Ordered { l with buffer := l.buffer.giveUp.1, delivered := l.delivered ++ l.buffer.giveUp.2 } ∧
      Waits { l with buffer := l.buffer.giveUp.1, delivered := l.delivered ++ l.buffer.giveUp.2 } := by
  obtain ⟨x, rest, hb⟩ := List.exists_cons_of_ne_nil hne
  obtain ⟨hskip, hx⟩ := h.skipTo hb
  rw [Reorder.buffered_giveUp hb]
  exact hskip.advance hx

theorem ordered_step {maxPending : Nat} {e : Event} (h : Ordered l) (hw : Waits l)
    (hs : l.step maxPending e = some l') : Ordered l' ∧ Waits l' := by
  cases e with
  | arrive n =>
    have hfresh (hne : n ≠ l.buffer.expected) : l.buffer.expected ∉ l.arrived ++ [n] := by
      rw [List.mem_append, List.mem_singleton]
      rintro (hold | heq)
      · exact hw hold
      · exact hne heq.symm
    simp only [Log.step, Option.some.injEq] at hs
    subst hs
    rcases Reorder.arrive_cases maxPending l.buffer n with ⟨heq, harrive⟩ | ⟨hlt, harrive⟩ |
        ⟨hn, -, harrive⟩ | ⟨hn, -, harrive⟩ <;> rw [harrive]
    · exact (h.late heq.le).advance (heq ▸ List.mem_append_right _ (List.mem_singleton_self n))
    · rw [List.append_nil]
      exact ⟨h.late hlt.le, hfresh hlt.ne⟩
    · rw [List.append_nil]
      exact ⟨h.buffer hn, hfresh hn.ne'⟩
    · exact (h.buffer hn).giveUp (List.ne_nil_of_mem (Reorder.mem_insert.mpr (.inl rfl)))
  | expire n =>
    simp only [Log.step] at hs
    split at hs
    · rename_i hmem
      split at hs
      · cases hs
        exact h.giveUp (List.ne_nil_of_mem hmem)
      · cases hs
    · cases hs
      exact ⟨h, hw⟩

/-- In every run packets are delivered in order, each once and only if it has arrived, and a
packet that has arrived is delivered, buffered, or behind one that was delivered. -/
theorem ordered_run {maxPending : Nat} {es : List Event}
    (hr : (reorders maxPending).run es = some l) : Ordered l ∧ Waits l := by
  have hstep (l : Log) (e : Event) (l' : Log) (h : Ordered l ∧ Waits l) (_ : True)
      (hs : (reorders maxPending).step l e = some l') : Ordered l' ∧ Waits l' :=
    ordered_step h.1 h.2 hs
  have hinit : Ordered (reorders maxPending).init ∧ Waits (reorders maxPending).init := by
    refine ⟨⟨.nil, List.forall_mem_nil _, fun x hx => ?_, List.forall_mem_nil _⟩, List.not_mem_nil⟩
    rcases hx with hx | hx <;> cases hx
  exact TransitionSystem.invariant_runFrom hstep hinit (TransitionSystem.meets_true _ _ es) hr

def Event.arrival : Event → Option Nat
  | .arrive n => some n
  | .expire _ => none

theorem arrived_runFrom {maxPending : Nat} {es : List Event}
    (hr : (reorders maxPending).runFrom l es = some l') :
    l'.arrived = l.arrived ++ es.filterMap Event.arrival := by
  induction es generalizing l with
  | nil =>
    cases hr
    exact (List.append_nil _).symm
  | cons e es ih =>
    obtain ⟨t, ht, hr⟩ := TransitionSystem.runFrom_cons.mp hr
    have htail := ih hr
    have hhead : t.arrived = l.arrived ++ e.arrival.toList := by
      cases e with
      | arrive n =>
        cases ht
        rfl
      | expire n =>
        simp only [reorders, Log.step] at ht
        split at ht
        · split at ht
          · cases ht
            exact (List.append_nil _).symm
          · cases ht
        · cases ht
          exact (List.append_nil _).symm
    rw [htail, hhead, List.append_assoc]
    cases e <;> rfl

/-- The packets that have arrived are those of the run. -/
theorem mem_arrived_run {maxPending : Nat} {es : List Event}
    (hr : (reorders maxPending).run es = some l) : n ∈ l.arrived ↔ .arrive n ∈ es := by
  rw [arrived_runFrom hr]
  show n ∈ [] ++ es.filterMap Event.arrival ↔ _
  rw [List.nil_append, List.mem_filterMap]
  constructor
  · rintro ⟨_ | _, he, ⟨⟩⟩
    exact he
  · intro he
    exact ⟨_, he, rfl⟩

/-- Without giving up, the packets are delivered up to the first that is missing. -/
theorem gapless_step {maxPending : Nat} {e : Event} (h : l.delivered = List.range l.buffer.expected)
    (he : Patient maxPending l e) (hs : l.step maxPending e = some l') :
    l'.delivered = List.range l'.buffer.expected := by
  cases e with
  | arrive n =>
    simp only [Log.step, Option.some.injEq] at hs
    subst hs
    rcases Reorder.arrive_cases maxPending l.buffer n with ⟨heq, harrive⟩ | ⟨hlt, harrive⟩ |
        ⟨hn, -, harrive⟩ | ⟨hn, hfull, -⟩
    · obtain ⟨hle, hout, -⟩ := Reorder.leaves_advance l.buffer
      rw [harrive, hout, h, List.range_eq_range', List.range_eq_range']
      have hsplit := List.range'_append_1 (s := 0) (m := l.buffer.expected)
        (n := l.buffer.advance.1.expected - l.buffer.expected)
      rwa [Nat.zero_add, Nat.add_sub_cancel' hle] at hsplit
    · rw [harrive, List.append_nil]
      exact h
    · rw [harrive, List.append_nil]
      exact h
    · exact absurd (he hn) (Nat.not_le.mpr hfull)
  | expire n =>
    simp only [Log.step] at hs
    rw [if_neg he] at hs
    cases hs
    exact h

theorem gapless_run {maxPending : Nat} {es : List Event}
    (hm : (reorders maxPending).Meets (Patient maxPending) (reorders maxPending).init es)
    (hr : (reorders maxPending).run es = some l) : l.delivered = List.range l.buffer.expected := by
  have hstep (l : Log) (e : Event) (l' : Log) (h : l.delivered = List.range l.buffer.expected)
      (he : Patient maxPending l e) (hs : (reorders maxPending).step l e = some l') :
      l'.delivered = List.range l'.buffer.expected := gapless_step h he hs
  exact TransitionSystem.invariant_runFrom hstep rfl hm hr

/-! ## Timers in the order in which they are set -/

/-- A buffer with its timers: a packet that arrives ahead sets one, and they go off in the
order in which they are set. -/
structure Timed where
  log : Log
  timers : List Nat := []

def Timed.step (maxPending : Nat) (t : Timed) : Event → Option Timed
  | .arrive n =>
    (t.log.step maxPending (.arrive n)).map fun log =>
      { log, timers := t.timers ++ if t.log.buffer.expected < n then [n] else [] }
  | .expire n =>
    if t.timers.head? = some n then
      (t.log.step maxPending (.expire n)).map fun log => { log, timers := t.timers.tail }
    else none

def timed (maxPending : Nat) : TransitionSystem Timed Event where
  init := { log := (reorders maxPending).init }
  step := Timed.step maxPending

/-- A buffer goes on, with these packets as new ones. -/
structure Onward (r r' : Reorder) (new : List Nat) : Prop where
  le : r.expected ≤ r'.expected
  stays : ∀ x, x ∈ r.buffered ∨ x ∈ new → x ∈ r'.buffered ∨ x < r'.expected
  known : ∀ x ∈ r'.buffered, x ∈ r.buffered ∨ x ∈ new

theorem Onward.refl (r : Reorder) : Onward r r [] where
  le := Nat.le_refl _
  stays _ hx := .inl (hx.resolve_right List.not_mem_nil)
  known _ hx := .inl hx

theorem Onward.trans {r r' r'' : Reorder} {new : List Nat} (h : Onward r r' new)
    (h' : Onward r' r'' []) : Onward r r'' new where
  le := h.le.trans h'.le
  stays x hx := by
    rcases h.stays x hx with hx | hx
    · exact h'.stays x (.inl hx)
    · exact .inr (hx.trans_le h'.le)
  known x hx := h.known x ((h'.known x hx).resolve_right List.not_mem_nil)

theorem onward_buffer (r : Reorder) (hn : r.expected < n) : Onward r (r.buffer n hn) [n] where
  le := Nat.le_refl _
  stays x hx := by
    rw [List.mem_singleton] at hx
    exact .inl (Reorder.mem_insert.mpr hx.symm)
  known x hx := by
    rw [List.mem_singleton]
    exact (Reorder.mem_insert.mp hx).symm

theorem onward_advance (r : Reorder) : Onward r r.advance.1 [] := by
  obtain ⟨hle, -, hheld⟩ := Reorder.leaves_advance r
  refine ⟨hle, fun x hx => ?_, fun x hx => .inl ((hheld x).mpr (.inr hx))⟩
  rcases (hheld x).mp (hx.resolve_right List.not_mem_nil) with ⟨-, hlt⟩ | hx
  · exact .inr hlt
  · exact .inl hx

/-- The first buffered packet leaves, and maybe others. -/
theorem onward_giveUp {r : Reorder} {x : Nat} (h : r.buffered.head? = some x) :
    Onward r r.giveUp.1 [] ∧ x < r.giveUp.1.expected := by
  obtain ⟨rest, hb⟩ := List.head?_eq_some_iff.mp h
  rw [Reorder.buffered_giveUp hb]
  have hlt : x < (r.skipTo x rest hb).advance.1.expected := by
    show x < x + 1 + _
    omega
  have hskip := onward_advance (r.skipTo x rest hb)
  have habove := r.above x (hb ▸ List.mem_cons_self)
  refine ⟨⟨habove.le.trans hskip.le, fun y hy => ?_, fun y hy => ?_⟩, hlt⟩
  · have hy := hy.resolve_right List.not_mem_nil
    rw [hb] at hy
    rcases List.mem_cons.mp hy with rfl | hy
    · exact .inr hlt
    · exact hskip.stays y (.inl hy)
  · have hy := (hskip.known y hy).resolve_right List.not_mem_nil
    exact .inl (hb ▸ List.mem_cons_of_mem x hy)

theorem onward_arrive (maxPending : Nat) (r : Reorder) (n : Nat) :
    Onward r (r.arrive maxPending n).1 (if r.expected < n then [n] else []) := by
  rcases Reorder.arrive_cases maxPending r n with ⟨rfl, harrive⟩ | ⟨hlt, harrive⟩ |
      ⟨hn, -, harrive⟩ | ⟨hn, -, harrive⟩ <;> rw [harrive]
  · rw [if_neg (Nat.lt_irrefl _)]
    exact onward_advance r
  · rw [if_neg (Nat.lt_asymm hlt)]
    exact .refl r
  · rw [if_pos hn]
    exact onward_buffer r hn
  · rw [if_pos hn]
    have hne : (r.buffer n hn).buffered ≠ [] :=
      List.ne_nil_of_mem (Reorder.mem_insert.mpr (.inl rfl))
    obtain ⟨x, hx⟩ := Option.ne_none_iff_exists'.mp (mt List.head?_eq_none_iff.mp hne)
    exact (onward_buffer r hn).trans (onward_giveUp hx).1

/-- A packet that has arrived is buffered, unless the buffer is past it. -/
theorem mem_arrive_or_lt (maxPending : Nat) (r : Reorder) (n : Nat) :
    n ∈ (r.arrive maxPending n).1.buffered ∨ n < (r.arrive maxPending n).1.expected := by
  rcases Nat.lt_trichotomy n r.expected with hlt | rfl | hgt
  · exact .inr (hlt.trans_le (onward_arrive maxPending r n).le)
  · right
    rw [Reorder.arrive, if_pos rfl]
    show r.expected < r.expected + 1 + _
    omega
  · refine (onward_arrive maxPending r n).stays n (.inr ?_)
    rw [if_pos hgt]
    exact List.mem_singleton_self n

/-- A timer leaves the buffer as it is, or its packet leaves. -/
theorem onward_expire {maxPending : Nat} (hs : l.step maxPending (.expire n) = some l') :
    Onward l.buffer l'.buffer [] ∧ l'.arrived = l.arrived ∧
      (n ∈ l.buffer.buffered → n < l'.buffer.expected) := by
  simp only [Log.step] at hs
  split at hs
  · split at hs
    · rename_i hfirst
      cases hs
      obtain ⟨honward, hlt⟩ := onward_giveUp hfirst
      exact ⟨honward, rfl, fun _ => hlt⟩
    · cases hs
  · rename_i hmem
    cases hs
    exact ⟨.refl _, rfl, fun hn => absurd hn hmem⟩

variable {t t' : Timed} {maxPending : Nat}

theorem Timed.log_step {e : Event} (hs : t.step maxPending e = some t') :
    t.log.step maxPending e = some t'.log := by
  cases e with
  | arrive n =>
    simp only [Timed.step] at hs
    obtain ⟨log, hlog, rfl⟩ := Option.map_eq_some_iff.mp hs
    exact hlog
  | expire n =>
    simp only [Timed.step] at hs
    split at hs
    · obtain ⟨log, hlog, rfl⟩ := Option.map_eq_some_iff.mp hs
      exact hlog
    · cases hs

/-- What a step does to the buffer and to the timers. -/
theorem Timed.step_cases {e : Event} (hs : t.step maxPending e = some t') :
    (∃ n new, new ⊆ [n] ∧ Onward t.log.buffer t'.log.buffer new ∧
      t'.timers = t.timers ++ new ∧ t'.log.arrived = t.log.arrived ++ [n]) ∨
    ∃ n, Onward t.log.buffer t'.log.buffer [] ∧ t.timers = n :: t'.timers ∧
      t'.log.arrived = t.log.arrived ∧
      (n ∈ t.log.buffer.buffered → n < t'.log.buffer.expected) := by
  cases e with
  | arrive n =>
    simp only [Timed.step] at hs
    obtain ⟨log, hlog, rfl⟩ := Option.map_eq_some_iff.mp hs
    cases hlog
    refine .inl ⟨n, _, ?_, onward_arrive maxPending t.log.buffer n, rfl, rfl⟩
    split
    · exact List.Subset.refl _
    · exact List.nil_subset _
  | expire n =>
    simp only [Timed.step] at hs
    split at hs
    · rename_i hhead
      obtain ⟨log, hlog, rfl⟩ := Option.map_eq_some_iff.mp hs
      obtain ⟨honward, harrived, hleaves⟩ := onward_expire hlog
      obtain ⟨rest, hrest⟩ := List.head?_eq_some_iff.mp hhead
      refine .inr ⟨n, honward, ?_, harrived, hleaves⟩
      rw [hrest, List.tail_cons]
    · cases hs

/-- A run with timers is one of the buffer. -/
theorem log_runFrom {es : List Event} (hr : (timed maxPending).runFrom t es = some t') :
    (reorders maxPending).runFrom t.log es = some t'.log := by
  induction es generalizing t with
  | nil =>
    cases hr
    rfl
  | cons e es ih =>
    obtain ⟨u, hu, hr⟩ := TransitionSystem.runFrom_cons.mp hr
    exact TransitionSystem.runFrom_cons.mpr ⟨u.log, Timed.log_step hu, ih hr⟩

/-- Every buffered packet has a timer to come, and every timer is of a packet that has
arrived. -/
structure Covered (t : Timed) : Prop where
  buffered : ∀ x ∈ t.log.buffer.buffered, x ∈ t.timers
  arrived : ∀ x ∈ t.timers, x ∈ t.log.arrived

theorem covered_step {e : Event} (h : Covered t) (hs : t.step maxPending e = some t') :
    Covered t' := by
  rcases Timed.step_cases hs with ⟨n, new, hnew, honward, htimers, harrived⟩ |
      ⟨n, honward, htimers, harrived, hleaves⟩
  · refine ⟨fun x hx => ?_, fun x hx => ?_⟩
    · rw [htimers, List.mem_append]
      exact (honward.known x hx).imp_left (h.buffered x)
    · rw [htimers, List.mem_append] at hx
      rw [harrived, List.mem_append]
      exact hx.imp (h.arrived x) fun hx => hnew hx
  · refine ⟨fun x hx => ?_, fun x hx => ?_⟩
    · have hold := (honward.known x hx).resolve_right List.not_mem_nil
      have htimer := h.buffered x hold
      rw [htimers] at htimer
      rcases List.mem_cons.mp htimer with rfl | htimer
      · exact absurd (t'.log.buffer.above x hx) (Nat.lt_asymm (hleaves hold))
      · exact htimer
    · rw [harrived]
      exact h.arrived x (htimers ▸ List.mem_cons_of_mem n hx)

theorem covered_run {es : List Event} (hr : (timed maxPending).run es = some t) : Covered t := by
  have hstep (t : Timed) (e : Event) (t' : Timed) (h : Covered t) (_ : True)
      (hs : (timed maxPending).step t e = some t') : Covered t' := covered_step h hs
  have hinit : Covered (timed maxPending).init := ⟨List.forall_mem_nil _, List.forall_mem_nil _⟩
  exact TransitionSystem.invariant_runFrom hstep hinit (TransitionSystem.meets_true _ _ es) hr

/-- The packet `y` has left the buffer, or only timers of packets that had arrived before
are in front of its own. -/
def Next (before : List Nat) (y : Nat) (t : Timed) : Prop :=
  y < t.log.buffer.expected ∨ y ∈ t.log.buffer.buffered ∧
    ∃ stale rest, t.timers = stale ++ y :: rest ∧ stale ⊆ before

theorem next_step {before : List Nat} {y : Nat} {e : Event} (h : Next before y t)
    (hs : t.step maxPending e = some t') : Next before y t' := by
  rcases Timed.step_cases hs with ⟨n, new, _, honward, htimers, _⟩ |
      ⟨n, honward, htimers, _, hleaves⟩
  · rcases h with hlt | ⟨hy, stale, rest, hsplit, hstale⟩
    · exact .inl (hlt.trans_le honward.le)
    · rcases honward.stays y (.inl hy) with hy | hlt
      · refine .inr ⟨hy, stale, rest ++ new, ?_, hstale⟩
        rw [htimers, hsplit, List.append_assoc, List.cons_append]
      · exact .inl hlt
  · rcases h with hlt | ⟨hy, stale, rest, hsplit, hstale⟩
    · exact .inl (hlt.trans_le honward.le)
    · rw [htimers] at hsplit
      cases stale with
      | nil =>
        cases hsplit
        exact .inl (hleaves hy)
      | cons z stale =>
        rw [List.cons_append, List.cons.injEq] at hsplit
        rcases honward.stays y (.inl hy) with hy | hlt
        · exact .inr ⟨hy, stale, rest, hsplit.2, fun x hx => hstale (List.mem_cons_of_mem z hx)⟩
        · exact .inl hlt

/-- Of the buffered packets, the one that arrived first has the first timer. -/
theorem first_timer {es es' : List Event} {y : Nat}
    (hr : (timed maxPending).run (es ++ .arrive y :: es') = some t)
    (hy : y ∈ t.log.buffer.buffered)
    (hfirst : ∀ z ∈ t.log.buffer.buffered, .arrive z ∉ es) :
    ∃ stale rest, t.timers = stale ++ y :: rest ∧ ∀ z ∈ stale, z ∉ t.log.buffer.buffered := by
  rw [TransitionSystem.run, TransitionSystem.runFrom_append] at hr
  obtain ⟨u, hu, hr⟩ := Option.bind_eq_some_iff.mp hr
  obtain ⟨v, hv, hr⟩ := TransitionSystem.runFrom_cons.mp hr
  have hbefore (z : Nat) : z ∈ u.log.arrived ↔ .arrive z ∈ es := mem_arrived_run (log_runFrom hu)
  have hnext : Next u.log.arrived y v := by
    simp only [timed, Timed.step] at hv
    obtain ⟨log, hlog, rfl⟩ := Option.map_eq_some_iff.mp hv
    cases hlog
    rcases mem_arrive_or_lt maxPending u.log.buffer y with hmem | hlt
    · have hle := (onward_arrive maxPending u.log.buffer y).le
      have hahead := hle.trans_lt ((u.log.buffer.arrive maxPending y).1.above y hmem)
      refine .inr ⟨hmem, u.timers, [], ?_, (covered_run hu).arrived⟩
      rw [if_pos hahead]
    · exact .inl hlt
  have hstep (t : Timed) (e : Event) (t' : Timed) (h : Next u.log.arrived y t) (_ : True)
      (hs : (timed maxPending).step t e = some t') : Next u.log.arrived y t' := next_step h hs
  rcases TransitionSystem.invariant_runFrom hstep hnext (TransitionSystem.meets_true _ _ es') hr
    with hlt | ⟨_, stale, rest, hsplit, hstale⟩
  · exact absurd (t.log.buffer.above y hy) (Nat.lt_asymm hlt)
  · exact ⟨stale, rest, hsplit, fun z hz hmem => hfirst z hmem ((hbefore z).mp (hstale hz))⟩

end NewbMeasurements.Reordering
