import Mathlib

/-!
One direction of a datagram network. Every datagram ever sent stays in the list
with the number of its copies that still travel, so that a datagram can be
duplicated, lost, delayed and overtaken at will. Whether a copy has reached the
receiver is remembered too; it says when losing a copy is harmless.
-/

namespace NewbMeasurements.Datagrams

structure Datagram (α : Type*) where
  content : α
  copies : Nat
  delivered : Bool
  deriving DecidableEq, Repr

abbrev Network (α : Type*) := List (Datagram α)

namespace Network

variable {α : Type*}

def send (n : Network α) (x : α) : Network α := n ++ [⟨x, 1, false⟩]

/-- The contents of everything ever sent, oldest first. -/
def sent (n : Network α) : List α := n.map Datagram.content

/-- Some copy of a datagram with this content still travels. -/
def InFlight (n : Network α) (x : α) : Prop := ∃ d ∈ n, d.content = x ∧ 0 < d.copies

/-- A datagram with this content still travels and no copy of it has arrived. -/
def Outstanding (n : Network α) (x : α) : Prop :=
  ∃ d ∈ n, d.content = x ∧ 0 < d.copies ∧ d.delivered = false

/-- Change datagram `i`, of which a copy has to be travelling. -/
def onCopy (n : Network α) (i : Nat) (f : Datagram α → Datagram α) : Option (Network α) :=
  match n[i]? with
  | some d => if 0 < d.copies then some (n.set i (f d)) else none
  | none => none

def duplicate (n : Network α) (i : Nat) : Option (Network α) :=
  n.onCopy i fun d => { d with copies := d.copies + 1 }

def lose (n : Network α) (i : Nat) : Option (Network α) :=
  n.onCopy i fun d => { d with copies := d.copies - 1 }

/-- Hand one copy of datagram `i` to the receiver. -/
def deliver (n : Network α) (i : Nat) : Option (α × Network α) :=
  match n[i]? with
  | some d =>
    if 0 < d.copies then
      some (d.content, n.set i { d with copies := d.copies - 1, delivered := true })
    else none
  | none => none

/-- Losing one copy of datagram `i` still leaves a delivered or a travelling one. -/
def Spare (n : Network α) (i : Nat) : Prop :=
  ∃ d, n[i]? = some d ∧ (d.delivered = true ∨ 1 < d.copies)

/-- Datagram `i` is the first one that has not arrived. -/
def InOrder (n : Network α) (i : Nat) : Prop :=
  (∀ d ∈ n.take i, d.delivered = true) ∧ ∀ d ∈ n.drop i, d.delivered = false

instance (n : Network α) (i : Nat) : Decidable (n.InOrder i) := inferInstanceAs (Decidable (_ ∧ _))

@[simp] theorem sent_send (n : Network α) (x : α) : (n.send x).sent = n.sent ++ [x] := by
  simp [sent, send]

theorem InFlight.mem_sent {n : Network α} {x : α} (h : n.InFlight x) : x ∈ n.sent := by
  obtain ⟨d, hd, hx, _⟩ := h
  exact hx ▸ List.mem_map_of_mem hd

theorem inFlight_send {n : Network α} {x y : α} : (n.send x).InFlight y ↔ n.InFlight y ∨ y = x := by
  constructor
  · rintro ⟨d, hd, rfl, hc⟩
    rcases List.mem_append.mp hd with hd | hd
    · exact .inl ⟨d, hd, rfl, hc⟩
    · rw [List.mem_singleton.mp hd]
      exact .inr rfl
  · rintro (⟨d, hd, rfl, hc⟩ | rfl)
    · exact ⟨d, List.mem_append_left _ hd, rfl, hc⟩
    · exact ⟨⟨y, 1, false⟩, List.mem_append_right _ (List.mem_singleton.mpr rfl), rfl, Nat.one_pos⟩

/-- A datagram that changes but keeps its content sends nothing new on its way. -/
theorem inFlight_of_set {n : Network α} {i : Nat} {d d' : Datagram α} {y : α}
    (hd : n[i]? = some d) (hc : 0 < d.copies) (hx : d'.content = d.content)
    (h : Network.InFlight (n.set i d') y) : n.InFlight y := by
  obtain ⟨e, he, hy, hpos⟩ := h
  rcases List.mem_or_eq_of_mem_set he with hmem | rfl
  · exact ⟨e, hmem, hy, hpos⟩
  · exact ⟨d, List.mem_of_getElem? hd, hx.symm.trans hy, hc⟩

theorem onCopy_cases {n n' : Network α} {i : Nat} {f : Datagram α → Datagram α}
    (h : n.onCopy i f = some n') :
    ∃ d, n[i]? = some d ∧ 0 < d.copies ∧ n' = n.set i (f d) := by
  unfold onCopy at h
  split at h
  · rename_i d hd
    split at h
    · rename_i hc
      cases h
      exact ⟨d, hd, hc, rfl⟩
    · cases h
  · cases h

theorem deliver_cases {n n' : Network α} {i : Nat} {x : α} (h : n.deliver i = some (x, n')) :
    ∃ d, n[i]? = some d ∧ 0 < d.copies ∧ d.content = x ∧
      n' = n.set i { d with copies := d.copies - 1, delivered := true } := by
  unfold deliver at h
  split at h
  · rename_i d hd
    split at h
    · rename_i hc
      cases h
      exact ⟨d, hd, hc, rfl, rfl⟩
    · cases h
  · cases h

theorem deliver_of_getElem? {n : Network α} {i : Nat} {d : Datagram α} (hd : n[i]? = some d)
    (hc : 0 < d.copies) :
    n.deliver i = some (d.content,
      n.set i { d with copies := d.copies - 1, delivered := true }) := by
  simp [deliver, hd, hc]

theorem sent_set {n : Network α} {i : Nat} {d d' : Datagram α} (hd : n[i]? = some d)
    (h : d'.content = d.content) : sent (n.set i d') = n.sent := by
  apply List.ext_getElem?
  intro j
  simp only [sent, List.getElem?_map, List.getElem?_set]
  split
  · rename_i hij
    subst hij
    obtain ⟨hlt, hget⟩ := List.getElem?_eq_some_iff.mp hd
    simp [hlt, hget, h]
  · rfl

theorem sent_onCopy {n n' : Network α} {i : Nat} {f : Datagram α → Datagram α}
    (h : n.onCopy i f = some n') (hf : ∀ d, (f d).content = d.content) : n'.sent = n.sent := by
  obtain ⟨d, hd, _, rfl⟩ := onCopy_cases h
  exact sent_set hd (hf d)

theorem sent_duplicate {n n' : Network α} {i : Nat} (h : n.duplicate i = some n') :
    n'.sent = n.sent := sent_onCopy h fun _ => rfl

theorem sent_lose {n n' : Network α} {i : Nat} (h : n.lose i = some n') :
    n'.sent = n.sent := sent_onCopy h fun _ => rfl

theorem inFlight_of_onCopy {n n' : Network α} {i : Nat} {f : Datagram α → Datagram α} {y : α}
    (h : n.onCopy i f = some n') (hf : ∀ d, (f d).content = d.content) (hy : n'.InFlight y) :
    n.InFlight y := by
  obtain ⟨d, hd, hc, rfl⟩ := onCopy_cases h
  exact inFlight_of_set hd hc (hf d) hy

theorem inFlight_of_duplicate {n n' : Network α} {i : Nat} {y : α} (h : n.duplicate i = some n')
    (hy : n'.InFlight y) : n.InFlight y := inFlight_of_onCopy h (fun _ => rfl) hy

theorem inFlight_of_lose {n n' : Network α} {i : Nat} {y : α} (h : n.lose i = some n')
    (hy : n'.InFlight y) : n.InFlight y := inFlight_of_onCopy h (fun _ => rfl) hy

/-- What arrives was on its way, and nothing else is afterwards. -/
theorem inFlight_of_deliver {n n' : Network α} {i : Nat} {x : α} (h : n.deliver i = some (x, n')) :
    n.InFlight x ∧ ∀ y, n'.InFlight y → n.InFlight y := by
  obtain ⟨d, hd, hc, rfl, rfl⟩ := deliver_cases h
  refine ⟨⟨d, List.mem_of_getElem? hd, rfl, hc⟩, ?_⟩
  intro y hy
  refine inFlight_of_set hd hc ?_ hy
  rfl

/-- What is on its way can arrive. -/
theorem InFlight.exists_deliver {n : Network α} {x : α} (h : n.InFlight x) :
    ∃ i n', n.deliver i = some (x, n') := by
  obtain ⟨d, hd, rfl, hc⟩ := h
  obtain ⟨i, hi⟩ := List.mem_iff_getElem?.mp hd
  exact ⟨i, _, deliver_of_getElem? hi hc⟩

/-- What arrives is what was sent as datagram `i`, and it stays in the record. -/
theorem sent_deliver {n n' : Network α} {i : Nat} {x : α} (h : n.deliver i = some (x, n')) :
    n'.sent = n.sent ∧ n.sent[i]? = some x := by
  obtain ⟨d, hd, _, rfl, rfl⟩ := deliver_cases h
  exact ⟨sent_set hd rfl, by simp [sent, hd]⟩

/-- The only copy of a datagram is lost right after it has been sent. -/
theorem exists_lose_send (n : Network α) (x : α) :
    ∃ n', (n.send x).lose n.length = some n' ∧ ∀ y, n'.InFlight y → n.InFlight y := by
  have hlast : (n.send x)[n.length]? = some ⟨x, 1, false⟩ := by
    rw [send, List.getElem?_append_right (Nat.le_refl _), Nat.sub_self]
    rfl
  refine ⟨n ++ [⟨x, 0, false⟩], ?_, ?_⟩
  · rw [lose, onCopy, hlast]
    simp [send]
  · rintro y ⟨d, hd, rfl, hc⟩
    rcases List.mem_append.mp hd with hd | hd
    · exact ⟨d, hd, rfl, hc⟩
    · rw [List.mem_singleton.mp hd] at hc
      exact absurd hc (Nat.lt_irrefl 0)

/-- No datagram has lost its last copy. -/
def Kept (n : Network α) : Prop := ∀ d ∈ n, 0 < d.copies

theorem kept_send {n : Network α} (h : n.Kept) (x : α) : (n.send x).Kept := by
  intro d hd
  rcases List.mem_append.mp hd with hd | hd
  · exact h d hd
  · rw [List.mem_singleton.mp hd]
    exact Nat.one_pos

/-- Where nothing is lost, everything ever sent can arrive, again and again. -/
theorem Kept.exists_deliver {n : Network α} (h : n.Kept) {x : α} (hx : x ∈ n.sent) :
    ∃ i n₁ n₂, n.duplicate i = some n₁ ∧ n₁.deliver i = some (x, n₂) ∧ n₂.Kept ∧
      n₂.sent = n.sent := by
  obtain ⟨d, hd, rfl⟩ := List.mem_map.mp hx
  obtain ⟨i, hi⟩ := List.mem_iff_getElem?.mp hd
  have hc := h d hd
  have hdup : n.duplicate i = some (n.set i { d with copies := d.copies + 1 }) := by
    simp [duplicate, onCopy, hi, hc]
  have hi' : (n.set i { d with copies := d.copies + 1 })[i]? =
      some { d with copies := d.copies + 1 } := by
    rw [List.getElem?_set_self (List.getElem?_eq_some_iff.mp hi).1]
  have hdel := deliver_of_getElem? hi' (Nat.succ_pos _)
  refine ⟨i, _, _, hdup, hdel, ?_, ?_⟩
  · intro e he
    rcases List.mem_or_eq_of_mem_set he with he | rfl
    · rcases List.mem_or_eq_of_mem_set he with he | rfl
      · exact h e he
      · exact Nat.succ_pos _
    · exact hc
  · exact (sent_deliver hdel).1.trans (sent_duplicate hdup)

/-- The first `k` datagrams have arrived at least once, none of the later ones
has, and each of the later ones still has a copy on its way. -/
def ArrivedUpTo (n : Network α) (k : Nat) : Prop :=
  ∀ i d, n[i]? = some d → (d.delivered = true ↔ i < k) ∧ (d.delivered = false → 0 < d.copies)

theorem arrivedUpTo_nil : ArrivedUpTo ([] : Network α) 0 := by
  intro i d h
  simp at h

theorem arrivedUpTo_send {n : Network α} {k : Nat} (h : n.ArrivedUpTo k) (hk : k ≤ n.length)
    (x : α) : (n.send x).ArrivedUpTo k := by
  intro i d hi
  rcases Nat.lt_or_ge i n.length with hlt | hge
  · rw [send, List.getElem?_append_left hlt] at hi
    exact h i d hi
  · rw [send, List.getElem?_append_right hge] at hi
    cases hj : i - n.length with
    | zero =>
      rw [hj] at hi
      simp only [List.getElem?_cons_zero, Option.some.injEq] at hi
      subst hi
      simp only [Bool.false_eq_true, false_iff, Nat.not_lt, Nat.zero_lt_one, implies_true, and_true]
      omega
    | succ j =>
      rw [hj] at hi
      simp at hi

/-- A change of one datagram that keeps its delivery mark, and a copy of it
while it has not arrived. -/
theorem arrivedUpTo_onCopy {n n' : Network α} {i k : Nat} {f : Datagram α → Datagram α}
    (h : n.ArrivedUpTo k) (hn : n.onCopy i f = some n')
    (hd : ∀ d, (f d).delivered = d.delivered)
    (hc : ∀ d, n[i]? = some d → d.delivered = false → 0 < d.copies → 0 < (f d).copies) :
    n'.ArrivedUpTo k := by
  obtain ⟨d, hi, hpos, rfl⟩ := onCopy_cases hn
  intro j d' hj
  by_cases hij : i = j
  · subst hij
    obtain ⟨hlt, _⟩ := List.getElem?_eq_some_iff.mp hi
    simp only [List.getElem?_set, if_true, hlt, Option.some.injEq] at hj
    subst hj
    rw [hd]
    exact ⟨(h i d hi).1, fun hf => hc d hi hf hpos⟩
  · rw [List.getElem?_set, if_neg hij] at hj
    exact h j d' hj

theorem arrivedUpTo_duplicate {n n' : Network α} {i k : Nat} (h : n.ArrivedUpTo k)
    (hn : n.duplicate i = some n') : n'.ArrivedUpTo k :=
  arrivedUpTo_onCopy h hn (fun _ => rfl) fun _ _ _ _ => Nat.succ_pos _

theorem arrivedUpTo_lose {n n' : Network α} {i k : Nat} (h : n.ArrivedUpTo k) (hs : n.Spare i)
    (hn : n.lose i = some n') : n'.ArrivedUpTo k := by
  apply arrivedUpTo_onCopy h hn (fun _ => rfl)
  intro d hd hf _
  obtain ⟨e, he, hsp⟩ := hs
  rw [hd] at he
  cases he
  rcases hsp with hdel | hcop
  · rw [hdel] at hf
    cases hf
  · show 0 < d.copies - 1
    omega

/-- Another copy of a datagram that has arrived, or the first copy of the next one. -/
theorem arrivedUpTo_deliver {n n' : Network α} {i k : Nat} {x : α} (h : n.ArrivedUpTo k)
    (hi : i ≤ k) (hn : n.deliver i = some (x, n')) :
    n'.ArrivedUpTo (if i = k then k + 1 else k) := by
  obtain ⟨d, hd, _, rfl, rfl⟩ := deliver_cases hn
  intro j d' hj
  by_cases hij : i = j
  · subst hij
    obtain ⟨hlt, _⟩ := List.getElem?_eq_some_iff.mp hd
    simp only [List.getElem?_set, if_true, hlt, Option.some.injEq] at hj
    subst hj
    simp only [true_iff, Bool.true_eq_false, false_implies, and_true]
    split <;> omega
  · rw [List.getElem?_set, if_neg hij] at hj
    have hj' := h j d' hj
    constructor
    · rw [hj'.1]
      split <;> omega
    · exact hj'.2

/-- The next datagram is still outstanding and can be delivered. -/
theorem ArrivedUpTo.next {n : Network α} {k : Nat} (h : n.ArrivedUpTo k) (hk : k < n.length) :
    ∃ d, n[k]? = some d ∧ 0 < d.copies ∧ d.delivered = false := by
  refine ⟨n[k], List.getElem?_eq_getElem hk, ?_⟩
  have hn := h k n[k] (List.getElem?_eq_getElem hk)
  have hf : n[k].delivered = false := by
    cases hdel : n[k].delivered with
    | false => rfl
    | true => exact absurd (hn.1.mp hdel) (Nat.lt_irrefl k)
  exact ⟨hn.2 hf, hf⟩

theorem ArrivedUpTo.inOrder {n : Network α} {k : Nat} (h : n.ArrivedUpTo k) : n.InOrder k := by
  constructor
  · intro d hd
    obtain ⟨i, hi, rfl⟩ := List.mem_take_iff_getElem.mp hd
    have hlt : i < k ∧ i < n.length := Nat.lt_min.mp hi
    exact (h i _ (List.getElem?_eq_getElem hlt.2)).1.mpr hlt.1
  · intro d hd
    obtain ⟨i, hi, rfl⟩ := List.mem_drop_iff_getElem.mp hd
    have hlt : k + i < n.length := by omega
    rw [← Bool.not_eq_true, (h (k + i) _ (List.getElem?_eq_getElem hlt)).1]
    omega

/-- The datagram whose turn it is has the index up to which all have arrived. -/
theorem ArrivedUpTo.eq_of_inOrder {n : Network α} {i k : Nat} (h : n.ArrivedUpTo k)
    (ho : n.InOrder i) (hi : i < n.length) : i = k := by
  have harrived := h i n[i] (List.getElem?_eq_getElem hi)
  have hnot : n[i].delivered = false := by
    apply ho.2
    exact List.mem_drop_iff_getElem.mpr ⟨0, by omega, by simp⟩
  rw [hnot] at harrived
  have hle : k ≤ i := by
    by_contra hlt
    exact absurd (harrived.1.mpr (Nat.lt_of_not_le hlt)) (by simp)
  rcases Nat.lt_or_eq_of_le hle with hlt | heq
  · have hk : k < n.length := Nat.lt_trans hlt hi
    have hdel : n[k].delivered = true := by
      apply ho.1
      exact List.mem_take_iff_getElem.mpr ⟨k, by omega, rfl⟩
    have hk' := (h k n[k] (List.getElem?_eq_getElem hk)).1.mp hdel
    omega
  · exact heq.symm

end Network

end NewbMeasurements.Datagrams
