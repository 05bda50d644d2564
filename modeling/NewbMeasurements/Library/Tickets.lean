import Mathlib

/-!
Numbers that are handed out one at a time, with gaps that are left and filled
later. The state carries as its invariant that the numbers below the next one are
partitioned: each of them is handed out once, or it is a gap.
-/

namespace NewbMeasurements.Tickets

/-- `handed` are the numbers handed out so far, in order; `gaps` the numbers below
`next` that have been left out, oldest first. -/
structure Dispenser where
  next : Nat
  handed : List Nat
  gaps : List Nat
  gaps_sorted : gaps.Pairwise (· < ·)
  perm : (handed ++ gaps).Perm (List.range next)

namespace Dispenser

def initial : Dispenser := ⟨0, [], [], .nil, .refl _⟩

theorem lt_next_of_mem_gaps (d : Dispenser) {x : Nat} (h : x ∈ d.gaps) : x < d.next :=
  List.mem_range.mp (d.perm.subset (List.mem_append_right _ h))

/-- Hand out the next number. -/
def hand (d : Dispenser) : Dispenser where
  next := d.next + 1
  handed := d.handed ++ [d.next]
  gaps := d.gaps
  gaps_sorted := d.gaps_sorted
  perm := by
    rw [List.range_succ, List.append_assoc]
    exact (List.perm_append_comm.append_left d.handed).trans
      (by simpa using d.perm.append_right [d.next])

/-- Leave out the next number. -/
def leave (d : Dispenser) : Dispenser where
  next := d.next + 1
  handed := d.handed
  gaps := d.gaps ++ [d.next]
  gaps_sorted := by
    refine List.pairwise_append.mpr ⟨d.gaps_sorted, List.pairwise_singleton _ _, ?_⟩
    intro x hx y hy
    rw [List.mem_singleton.mp hy]
    exact d.lt_next_of_mem_gaps hx
  perm := by
    rw [List.range_succ, ← List.append_assoc]
    exact d.perm.append_right [d.next]

/-- Hand out the oldest number that has been left out. -/
def recover (d : Dispenser) {x : Nat} {rest : List Nat} (h : d.gaps = x :: rest) : Dispenser where
  next := d.next
  handed := d.handed ++ [x]
  gaps := rest
  gaps_sorted := (List.pairwise_cons.mp (h ▸ d.gaps_sorted)).2
  perm := by
    rw [List.append_assoc, List.singleton_append, ← h]
    exact d.perm

theorem nodup (d : Dispenser) : (d.handed ++ d.gaps).Nodup :=
  d.perm.nodup_iff.mpr List.nodup_range

theorem handed_nodup (d : Dispenser) : d.handed.Nodup := (List.nodup_append.mp d.nodup).1

theorem disjoint (d : Dispenser) {x : Nat} (h : x ∈ d.handed) : x ∉ d.gaps :=
  fun hg => (List.nodup_append.mp d.nodup).2.2 x h x hg rfl

theorem lt_next_iff (d : Dispenser) {x : Nat} : x < d.next ↔ x ∈ d.handed ∨ x ∈ d.gaps := by
  rw [← List.mem_range, ← d.perm.mem_iff, List.mem_append]

/-- The oldest gap is the smallest number that has not been handed out. -/
theorem least_gap (d : Dispenser) {x : Nat} {rest : List Nat} (h : d.gaps = x :: rest) :
    x ∉ d.handed ∧ ∀ y, y ∉ d.handed → x ≤ y := by
  have hx : x ∈ d.gaps := h ▸ List.mem_cons_self
  refine ⟨fun hh => d.disjoint hh hx, ?_⟩
  intro y hy
  by_cases hlt : y < d.next
  · have hg := (d.lt_next_iff.mp hlt).resolve_left hy
    rw [h, List.mem_cons] at hg
    rcases hg with rfl | hg
    · exact Nat.le_refl _
    · exact Nat.le_of_lt ((List.pairwise_cons.mp (h ▸ d.gaps_sorted)).1 y hg)
  · have := d.lt_next_of_mem_gaps hx
    omega

end Dispenser

end NewbMeasurements.Tickets
