import Mathlib

/-!
Readers that take a stream in blocks and say before each block how long it is to be.
A reader is fed one element at a time, so that it does not matter how the stream is
cut; whole segments and whole blocks are runs of such steps.
-/

namespace NewbMeasurements.Blocks

/-- A reader in state `s` asks for a block of `want s` elements, and makes of it a new
state and some messages. -/
structure BlockReader (σ β μ : Type*) where
  want : σ → Nat
  take : σ → List β → σ × List μ

/-- What a reader has got to. `collected` is what there is of the next block. -/
structure Progress (σ β μ : Type*) where
  state : σ
  collected : List β := []
  messages : List μ := []

namespace BlockReader

variable {σ β μ : Type*} (R : BlockReader σ β μ)

/-- One more element. A reader that wants nothing never completes a block. -/
def feed (p : Progress σ β μ) (b : β) : Progress σ β μ :=
  if p.collected.length + 1 = R.want p.state then
    { state := (R.take p.state (p.collected ++ [b])).1
      messages := p.messages ++ (R.take p.state (p.collected ++ [b])).2 }
  else { p with collected := p.collected ++ [b] }

def feeds (p : Progress σ β μ) (bs : List β) : Progress σ β μ := bs.foldl R.feed p

@[simp] theorem feeds_nil (p : Progress σ β μ) : R.feeds p [] = p := rfl

@[simp] theorem feeds_cons (p : Progress σ β μ) (b : β) (bs : List β) :
    R.feeds p (b :: bs) = R.feeds (R.feed p b) bs := rfl

theorem feeds_append (p : Progress σ β μ) (bs cs : List β) :
    R.feeds p (bs ++ cs) = R.feeds (R.feeds p bs) cs := by
  simp [feeds, List.foldl_append]

/-- The messages of a part of the stream are the first ones of the whole. -/
theorem messages_prefix_feeds (p : Progress σ β μ) (bs : List β) :
    p.messages <+: (R.feeds p bs).messages := by
  induction bs generalizing p with
  | nil => exact List.prefix_refl _
  | cons b bs ih =>
    refine List.IsPrefix.trans ?_ (ih _)
    simp only [feed]
    split
    · exact List.prefix_append _ _
    · exact List.prefix_refl _

theorem messages_feeds_prefix (p : Progress σ β μ) {bs cs : List β} (h : bs <+: cs) :
    (R.feeds p bs).messages <+: (R.feeds p cs).messages := by
  obtain ⟨rest, rfl⟩ := h
  rw [feeds_append]
  exact R.messages_prefix_feeds _ _

variable {R} {p : Progress σ β μ}

/-- A segment that does not complete the block. -/
theorem feeds_of_lt {bs : List β} (h : p.collected.length + bs.length < R.want p.state) :
    R.feeds p bs = { p with collected := p.collected ++ bs } := by
  induction bs generalizing p with
  | nil => simp
  | cons b bs ih =>
    rw [List.length_cons] at h
    have hstep : R.feed p b = { p with collected := p.collected ++ [b] } := by
      rw [feed, if_neg (by omega)]
    rw [feeds_cons, hstep, ih]
    · simp
    · simp only [List.length_append, List.length_singleton]
      omega

/-- A segment that completes the block, and no more. -/
theorem feeds_of_eq {bs : List β} (hne : bs ≠ [])
    (h : p.collected.length + bs.length = R.want p.state) :
    R.feeds p bs =
      { state := (R.take p.state (p.collected ++ bs)).1
        messages := p.messages ++ (R.take p.state (p.collected ++ bs)).2 } := by
  obtain ⟨front, b, rfl⟩ := List.eq_nil_or_concat bs |>.resolve_left hne
  rw [List.concat_eq_append] at h ⊢
  rw [List.length_append, List.length_singleton] at h
  have hfront : R.feeds p front = { p with collected := p.collected ++ front } :=
    feeds_of_lt (by omega)
  rw [feeds_append, hfront, feeds_cons, feeds_nil, feed,
    if_pos (by simp only [List.length_append]; omega), List.append_assoc]

/-- A reader that wants nothing hands on nothing any more. -/
theorem feeds_of_want_zero {bs : List β} (h : R.want p.state = 0) :
    R.feeds p bs = { p with collected := p.collected ++ bs } := by
  induction bs generalizing p with
  | nil => simp
  | cons b bs ih =>
    have hstep : R.feed p b = { p with collected := p.collected ++ [b] } := by
      rw [feed, if_neg (by omega)]
    rw [feeds_cons, hstep, ih (p := { p with collected := p.collected ++ [b] }) h]
    simp

end BlockReader

end NewbMeasurements.Blocks
