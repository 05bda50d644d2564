import Mathlib

/-!
A reorder buffer over numbered packets: the expected packet is delivered with the
buffered ones that follow it directly, a later one is buffered, an earlier one is
discarded, and a buffer that holds too many is delivered as a whole. The numbers
are natural numbers here, so that they do not wrap.
-/

namespace NewbMeasurements.Reordering

/-- The numbers of a list that follow each other from `e` on, and the rest. -/
def following : Nat → List Nat → List Nat × List Nat
  | _, [] => ([], [])
  | e, x :: xs =>
    if x = e then (x :: (following (e + 1) xs).1, (following (e + 1) xs).2) else ([], x :: xs)

theorem following_append (e : Nat) (xs : List Nat) :
    (following e xs).1 ++ (following e xs).2 = xs := by
  induction xs generalizing e with
  | nil => rfl
  | cons x xs ih =>
    unfold following
    split
    · rw [List.cons_append, ih]
    · rfl

/-- What is left starts behind the numbers that follow each other. -/
theorem lt_of_mem_following {e : Nat} {xs : List Nat} (hs : xs.Pairwise (· < ·))
    (he : ∀ x ∈ xs, e ≤ x) {x : Nat} (hx : x ∈ (following e xs).2) :
    e + (following e xs).1.length < x := by
  induction xs generalizing e with
  | nil => cases hx
  | cons y ys ih =>
    obtain ⟨hy, hys⟩ := List.pairwise_cons.mp hs
    have hle := he y List.mem_cons_self
    unfold following at hx ⊢
    split at hx
    · rename_i heq
      rw [if_pos heq, List.length_cons]
      have hnext := ih hys (fun z hz => heq ▸ hy z hz) hx
      omega
    · rename_i hne
      rw [if_neg hne, List.length_nil]
      rcases List.mem_cons.mp hx with rfl | hmem
      · omega
      · have := hy x hmem
        omega

/-- The next packet to be delivered, and the numbers of the later ones that have
arrived, in order. -/
@[ext] structure Reorder where
  expected : Nat
  buffered : List Nat
  sorted : buffered.Pairwise (· < ·)
  above : ∀ x ∈ buffered, expected < x

namespace Reorder

/-- `len` packets are buffered, directly behind the expected one. -/
def behind (e len : Nat) : Reorder where
  expected := e
  buffered := List.range' (e + 1) len
  sorted := List.pairwise_lt_range'
  above x hx := (List.mem_range'_1.mp hx).1

/-- Nothing is buffered. -/
def empty (expected : Nat) : Reorder := behind expected 0

/-- The buffer with one more packet; a number that is there already is kept once. -/
def insert (n : Nat) (buffered : List Nat) : List Nat :=
  if n ∈ buffered then buffered else buffered.orderedInsert (· ≤ ·) n

theorem mem_insert {n x : Nat} {buffered : List Nat} :
    x ∈ insert n buffered ↔ x = n ∨ x ∈ buffered := by
  unfold insert
  split
  · constructor
    · exact .inr
    · rintro (rfl | h) <;> assumption
  · exact List.mem_orderedInsert _

theorem sorted_insert {n : Nat} {buffered : List Nat} (h : buffered.Pairwise (· < ·)) :
    (insert n buffered).Pairwise (· < ·) := by
  unfold insert
  split
  · exact h
  · rename_i hn
    have hle : buffered.Pairwise (· ≤ ·) := h.imp Nat.le_of_lt
    have hnodup : (buffered.orderedInsert (· ≤ ·) n).Nodup := by
      rw [(List.perm_orderedInsert _ n buffered).nodup_iff, List.nodup_cons]
      exact ⟨hn, h.imp Nat.ne_of_lt⟩
    exact ((hle.orderedInsert n _).and hnodup).imp fun h => Nat.lt_of_le_of_ne h.1 h.2

/-- The packet with the expected number: what follows it directly is delivered too. -/
def advance (r : Reorder) : Reorder × List Nat :=
  let run := following (r.expected + 1) r.buffered
  ({ expected := r.expected + 1 + run.1.length
     buffered := run.2
     sorted := by
       have hs := r.sorted
       rw [← following_append (r.expected + 1) r.buffered] at hs
       exact (List.pairwise_append.mp hs).2.1
     above := fun _ hx => lt_of_mem_following r.sorted r.above hx },
    r.expected :: run.1)

/-- A packet from behind the expected one. -/
def buffer (r : Reorder) (n : Nat) (hn : r.expected < n) : Reorder where
  expected := r.expected
  buffered := insert n r.buffered
  sorted := sorted_insert r.sorted
  above x hx := by
    rcases mem_insert.mp hx with rfl | hx
    · exact hn
    · exact r.above x hx

/-- The whole buffer is delivered, and the next packet is the one behind it. -/
def overflow (r : Reorder) : Reorder × List Nat :=
  (empty ((r.buffered.getLast?.getD r.expected) + 1), r.buffered)

/-- A packet arrives: the new state, and the numbers that are delivered. -/
def read (maxPending : Nat) (r : Reorder) (n : Nat) : Reorder × List Nat :=
  if n = r.expected then r.advance
  else if hn : r.expected < n then
    let r' := r.buffer n hn
    if maxPending < r'.buffered.length then r'.overflow else (r', [])
  else (r, [])

/-! ## A buffer without gaps -/

theorem following_range' (e len : Nat) :
    following e (List.range' e len) = (List.range' e len, []) := by
  induction len generalizing e with
  | zero => rfl
  | succ len ih => simp [List.range'_succ, following, ih]

theorem insert_range' (e len : Nat) :
    insert (e + len) (List.range' e len) = List.range' e (len + 1) := by
  have hnot : e + len ∉ List.range' e len := by
    rw [List.mem_range'_1]
    omega
  rw [insert, if_neg hnot, List.range'_1_concat]
  induction len generalizing e with
  | zero => rfl
  | succ len ih =>
    rw [List.range'_succ, List.orderedInsert_cons, if_neg (by omega), List.cons_append]
    congr 1
    have hshift : e + (len + 1) = e + 1 + len := by omega
    rw [hshift]
    apply ih
    rw [List.mem_range'_1]
    omega

/-- The missing packet arrives. -/
theorem read_expected (maxPending e len : Nat) : (behind e len).read maxPending e =
    (empty (e + 1 + len), e :: List.range' (e + 1) len) := by
  have hrun := following_range' (e + 1) len
  have hread : (behind e len).read maxPending e = (behind e len).advance := if_pos rfl
  rw [hread, advance]
  refine Prod.ext (Reorder.ext ?_ ?_) ?_
  · show e + 1 + (following (e + 1) (List.range' (e + 1) len)).1.length = e + 1 + len
    rw [hrun, List.length_range']
  · show (following (e + 1) (List.range' (e + 1) len)).2 = []
    rw [hrun]
  · show e :: (following (e + 1) (List.range' (e + 1) len)).1 = _
    rw [hrun]

theorem buffer_behind (e len : Nat) (h : (behind e len).expected < e + 1 + len) :
    (behind e len).buffer (e + 1 + len) h = behind e (len + 1) :=
  Reorder.ext rfl (insert_range' (e + 1) len)

/-- The next packet arrives behind a missing one, and there is room for it. -/
theorem read_buffered {maxPending e len : Nat} (h : len + 1 ≤ maxPending) :
    (behind e len).read maxPending (e + 1 + len) = (behind e (len + 1), []) := by
  have hlt : (behind e len).expected < e + 1 + len := by
    show e < e + 1 + len
    omega
  have hne : e + 1 + len ≠ (behind e len).expected := Nat.ne_of_gt hlt
  have hroom : ¬ maxPending < (behind e (len + 1)).buffered.length := by
    show ¬ maxPending < (List.range' (e + 1) (len + 1)).length
    rw [List.length_range']
    omega
  simp only [read, if_neg hne, dif_pos hlt, buffer_behind, if_neg hroom]

/-- The next packet arrives behind a missing one, and there is no room for it. -/
theorem read_overflow {maxPending e len : Nat} (h : maxPending < len + 1) :
    (behind e len).read maxPending (e + 1 + len) =
      (empty (e + 1 + len + 1), List.range' (e + 1) (len + 1)) := by
  have hlt : (behind e len).expected < e + 1 + len := by
    show e < e + 1 + len
    omega
  have hne : e + 1 + len ≠ (behind e len).expected := Nat.ne_of_gt hlt
  have hfull : maxPending < (behind e (len + 1)).buffered.length := by
    show maxPending < (List.range' (e + 1) (len + 1)).length
    rw [List.length_range']
    exact h
  simp only [read, if_neg hne, dif_pos hlt, buffer_behind, if_pos hfull, overflow]
  have hlast : (behind e (len + 1)).buffered.getLast? = some (e + 1 + len) := by
    show (List.range' (e + 1) (len + 1)).getLast? = _
    rw [List.range'_1_concat, List.getLast?_append]
    rfl
  rw [hlast]
  rfl

end Reorder

end NewbMeasurements.Reordering
