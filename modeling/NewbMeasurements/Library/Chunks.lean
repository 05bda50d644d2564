import Mathlib

/-!
Buffers cut into chunks by a list of sizes, and lists of chunks that differ in
empty ones only.
-/

namespace NewbMeasurements.Chunks

variable {α : Type*}

/-- A buffer that grows behind the part that is cut keeps its chunks. -/
theorem splitLengths_append_right {sizes : List Nat} {buffer : List α}
    (h : sizes.sum ≤ buffer.length) (more : List α) :
    sizes.splitLengths (buffer ++ more) = sizes.splitLengths buffer := by
  induction sizes generalizing buffer with
  | nil => rfl
  | cons n sizes ih =>
    rw [List.sum_cons] at h
    have hn : n ≤ buffer.length := by omega
    have hrest : sizes.sum ≤ (buffer.drop n).length := by
      rw [List.length_drop]
      omega
    rw [List.splitLengths_cons, List.splitLengths_cons, List.take_append_of_le_length hn,
      List.drop_append_of_le_length hn, ih hrest]

/-- The last chunk starts where the sizes before it end. -/
theorem splitLengths_concat (sizes : List Nat) (n : Nat) (buffer : List α) :
    (sizes ++ [n]).splitLengths buffer =
      sizes.splitLengths buffer ++ [(buffer.drop sizes.sum).take n] := by
  induction sizes generalizing buffer with
  | nil => simp
  | cons k sizes ih => simp [ih, List.drop_drop]

/-- Sizes that sum to zero cut empty chunks only. -/
theorem eq_nil_of_mem_splitLengths {sizes : List Nat} {buffer chunk : List α}
    (h : sizes.sum = 0) (hc : chunk ∈ sizes.splitLengths buffer) : chunk = [] := by
  induction sizes generalizing buffer with
  | nil => cases hc
  | cons n sizes ih =>
    rw [List.sum_cons, Nat.add_eq_zero_iff] at h
    rw [List.splitLengths_cons, h.1, List.take_zero, List.drop_zero, List.mem_cons] at hc
    exact hc.elim id (ih h.2)

/-! ## Chunks that are not empty -/

def nonEmpty (chunks : List (List α)) : List (List α) := chunks.filter fun c => !c.isEmpty

@[simp] theorem nonEmpty_nil : nonEmpty ([] : List (List α)) = [] := rfl

@[simp] theorem nonEmpty_append (xs ys : List (List α)) :
    nonEmpty (xs ++ ys) = nonEmpty xs ++ nonEmpty ys := List.filter_append ..

theorem nonEmpty_eq_nil {xs : List (List α)} (h : ∀ c ∈ xs, c = []) : nonEmpty xs = [] := by
  apply List.filter_eq_nil_iff.mpr
  intro c hc
  simp [h c hc]

theorem nonEmpty_eq_self {xs : List (List α)} (h : ∀ c ∈ xs, c ≠ []) : nonEmpty xs = xs := by
  apply List.filter_eq_self.mpr
  intro c hc
  simpa using h c hc

/-- `xs` is `ys` without some of its empty chunks. -/
structure Trims (xs ys : List (List α)) : Prop where
  sublist : xs.Sublist ys
  nonEmpty : nonEmpty xs = nonEmpty ys

namespace Trims

variable {xs xs' ys ys' zs : List (List α)}

theorem refl (xs : List (List α)) : Trims xs xs := ⟨List.Sublist.refl _, rfl⟩

theorem trans (h : Trims xs ys) (h' : Trims ys zs) : Trims xs zs :=
  ⟨h.sublist.trans h'.sublist, h.nonEmpty.trans h'.nonEmpty⟩

theorem append (h : Trims xs ys) (h' : Trims xs' ys') : Trims (xs ++ xs') (ys ++ ys') :=
  ⟨h.sublist.append h'.sublist, by rw [nonEmpty_append, nonEmpty_append, h.nonEmpty, h'.nonEmpty]⟩

theorem of_empty (h : ∀ c ∈ ys, c = []) : Trims [] ys :=
  ⟨List.nil_sublist _, (nonEmpty_eq_nil h).symm⟩

end Trims

/-- No empty chunk lies between two others. -/
def NoEmptyBetween (chunks : List (List α)) : Prop :=
  ∀ before after, chunks = before ++ [] :: after →
    (∀ c ∈ before, c = []) ∨ ∀ c ∈ after, c = []

/-- What neither starts nor ends with an empty chunk has lost all of them, where
none lies between two others. -/
theorem Trims.eq_nonEmpty {xs ys : List (List α)} (h : Trims xs ys) (hy : NoEmptyBetween ys)
    (hfirst : ∀ c ∈ xs.head?, c ≠ []) (hlast : ∀ c ∈ xs.getLast?, c ≠ []) :
    xs = Chunks.nonEmpty ys := by
  have hall : ∀ c ∈ xs, c ≠ [] := by
    rintro c hc rfl
    obtain ⟨left, right, rfl⟩ := List.append_of_mem hc
    obtain ⟨before, rest, rfl, hl, hrest⟩ := List.append_sublist_iff.mp h.sublist
    obtain ⟨skipped, after, rfl, hmem, hr⟩ := List.cons_sublist_iff.mp hrest
    obtain ⟨s, t, rfl⟩ := List.append_of_mem hmem
    have hsplit := hy (before ++ s) (t ++ after) (by simp)
    rcases hsplit with hb | ha
    · cases left with
      | nil => exact hfirst [] (by simp) rfl
      | cons x left =>
        have hx : x ∈ before := hl.subset List.mem_cons_self
        exact hfirst x (by simp) (hb x (List.mem_append_left _ hx))
    · cases hright : right.getLast? with
      | none =>
        have hnil : right = [] := List.getLast?_eq_none_iff.mp hright
        exact hlast [] (by simp [hnil]) rfl
      | some x =>
        have hx : x ∈ after := hr.subset (List.mem_of_getLast? hright)
        apply hlast x _ (ha x (List.mem_append_right _ hx))
        simp [List.getLast?_append, List.getLast?_cons, hright]
  rw [← h.nonEmpty, nonEmpty_eq_self hall]

/-- What is left of chunks that lose empty ones at both ends only still has the
empty ones between the others. -/
theorem nil_mem_of_ends {left xs right before after : List (List α)}
    (h : left ++ (xs ++ right) = before ++ [] :: after) (hleft : ∀ c ∈ left, c = [])
    (hright : ∀ c ∈ right, c = []) (hbefore : ∃ c ∈ before, c ≠ [])
    (hafter : ∃ c ∈ after, c ≠ []) : [] ∈ xs := by
  obtain ⟨b, hb, hbne⟩ := hbefore
  obtain ⟨a, ha, hane⟩ := hafter
  rcases List.append_eq_append_iff.mp h with ⟨before', rfl, hx⟩ | ⟨c, rfl, _⟩
  · rcases List.append_eq_append_iff.mp hx with ⟨c, _, hc⟩ | ⟨c, rfl, hc⟩
    · have hmem : a ∈ right := by
        rw [hc]
        exact List.mem_append_right _ (List.mem_cons_of_mem _ ha)
      exact absurd (hright a hmem) hane
    · cases c with
      | nil =>
        have hmem : a ∈ right := by
          rw [List.nil_append] at hc
          exact hc ▸ List.mem_cons_of_mem _ ha
        exact absurd (hright a hmem) hane
      | cons x c =>
        rw [List.cons_append, List.cons.injEq] at hc
        simp [hc.1]
  · exact absurd (hleft b (List.mem_append_left _ hb)) hbne

end NewbMeasurements.Chunks
