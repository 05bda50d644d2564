import Mathlib

/-!
One direction of a stream connection: the elements under way, and the reader at
its end, which hands them on as messages. A reader either hands on every segment
as it arrives, or collects frames of a fixed size. How the stream is cut into
segments is up to whoever lets them arrive.
-/

namespace NewbMeasurements.ByteStreams

inductive ReceivePolicy
  | segments
  | exactly (n : Nat)
  deriving DecidableEq, Repr

/-- `policy` is the one of the message that is being read, and `following` the one of
those after it. `frame` is what has arrived of a frame that is not complete yet. -/
structure Link (β : Type*) where
  stream : List β := []
  policy : ReceivePolicy := .segments
  following : ReceivePolicy := .segments
  frame : List β := []
  deriving DecidableEq, Repr

namespace Link

variable {β : Type*}

def write (l : Link β) (bs : List β) : Link β := { l with stream := l.stream ++ bs }

/-- A policy that holds at once. -/
def configure (l : Link β) (p : ReceivePolicy) : Link β := { l with policy := p, following := p }

/-- A policy that holds from the next message on. -/
def configureNext (l : Link β) (p : ReceivePolicy) : Link β := { l with following := p }

/-- A message has been read. -/
def prepareNextRead (l : Link β) : Link β := { l with policy := l.following }

/-- Everything written that the reader has not handed on. -/
def held (l : Link β) : List β := l.frame ++ l.stream

/-- Hand the next segment to the reader; the second component is the message
that it hands on. A reader of frames asks for no more than its frame lacks. -/
def arrive (l : Link β) (k : Nat) : Option (Link β × Option (List β)) :=
  if 0 < k ∧ k ≤ l.stream.length then
    match l.policy with
    | .segments => some ({ l with stream := l.stream.drop k }, some (l.stream.take k))
    | .exactly n =>
      let frame := l.frame ++ l.stream.take k
      if frame.length < n then
        some ({ l with stream := l.stream.drop k, frame := frame }, none)
      else if frame.length = n then
        some ({ l with stream := l.stream.drop k, frame := [] }, some frame)
      else none
  else none

@[simp] theorem held_write (l : Link β) (bs : List β) : (l.write bs).held = l.held ++ bs := by
  simp [held, write]

@[simp] theorem frame_write (l : Link β) (bs : List β) : (l.write bs).frame = l.frame := rfl

/-- Nothing arrives on a link that holds nothing. -/
theorem arrive_of_held_nil {l : Link β} (h : l.held = []) (k : Nat) : l.arrive k = none := by
  have hs : l.stream = [] := (List.append_eq_nil_iff.mp h).2
  simp only [arrive, hs, List.length_nil]
  exact if_neg (by omega)

theorem arrive_segments {l l' : Link β} {k : Nat} {out : Option (List β)}
    (hp : l.policy = .segments) (h : l.arrive k = some (l', out)) :
    out = some (l.stream.take k) ∧ l' = { l with stream := l.stream.drop k } := by
  simp only [arrive, hp] at h
  split at h
  · cases h
    exact ⟨rfl, by rw [← hp]⟩
  · cases h

theorem arrive_exactly {l l' : Link β} {n k : Nat} {out : Option (List β)}
    (hp : l.policy = .exactly n) (h : l.arrive k = some (l', out)) :
    (out = none ∧ (l.frame ++ l.stream.take k).length < n ∧
      l' = { l with stream := l.stream.drop k, frame := l.frame ++ l.stream.take k }) ∨
    (out = some (l.frame ++ l.stream.take k) ∧ (l.frame ++ l.stream.take k).length = n ∧
      l' = { l with stream := l.stream.drop k, frame := [] }) := by
  simp only [arrive, hp] at h
  split at h
  · split at h
    · rename_i hlt
      cases h
      exact .inl ⟨rfl, hlt, by rw [← hp]⟩
    · split at h
      · rename_i heq
        cases h
        exact .inr ⟨rfl, heq, by rw [← hp]⟩
      · cases h
  · cases h

/-- A reader of frames hands on the bytes in order, and none twice. -/
theorem held_arrive {l l' : Link β} {n k : Nat} {out : Option (List β)}
    (hp : l.policy = .exactly n) (h : l.arrive k = some (l', out)) :
    l.held = out.getD [] ++ l'.held := by
  rcases arrive_exactly hp h with ⟨rfl, _, rfl⟩ | ⟨rfl, _, rfl⟩ <;> simp [held]

/-- A link on which one block of a frame's size is under way and nothing else:
what has arrived of it is less than the whole. -/
structure Carries (l : Link β) (n : Nat) (block : List β) : Prop where
  held : l.held = block
  length : block.length = n
  frame : l.frame.length < n

/-- Arrivals change no policy, and take at least one element. -/
theorem arrive_keeps {l l' : Link β} {k : Nat} {out : Option (List β)}
    (h : l.arrive k = some (l', out)) :
    l'.policy = l.policy ∧ l'.following = l.following ∧ l'.stream.length < l.stream.length := by
  have hlt (hk : 0 < k ∧ k ≤ l.stream.length) : (l.stream.drop k).length < l.stream.length := by
    rw [List.length_drop]
    omega
  unfold arrive at h
  split at h
  · rename_i hk
    split at h
    · cases h
      exact ⟨rfl, rfl, hlt hk⟩
    · dsimp only at h
      split at h
      · cases h
        exact ⟨rfl, rfl, hlt hk⟩
      · split at h
        · cases h
          exact ⟨rfl, rfl, hlt hk⟩
        · cases h
  · cases h

/-- A segment of that block either leaves it incomplete, or completes it. -/
theorem arrive_of_carries {l l' : Link β} {n k : Nat} {block : List β} {out : Option (List β)}
    (hc : l.Carries n block) (hp : l.policy = .exactly n)
    (h : l.arrive k = some (l', out)) :
    (out = none ∧ l'.Carries n block ∧ l'.policy = .exactly n) ∨
      (out = some block ∧ l'.held = [] ∧ l'.frame = [] ∧ l'.policy = .exactly n) := by
  have hh := held_arrive hp h
  rw [hc.held] at hh
  rcases arrive_exactly hp h with ⟨rfl, hlt, rfl⟩ | ⟨rfl, heq, rfl⟩
  · exact .inl ⟨rfl, ⟨hh.symm, hc.length, hlt⟩, hp⟩
  · -- the frame is as long as the block, so nothing is left behind it
    have hlen := congrArg List.length hh
    rw [hc.length, Option.getD_some, List.length_append, heq] at hlen
    have hnil := List.length_eq_zero_iff.mp (Nat.left_eq_add.mp hlen)
    rw [hnil, Option.getD_some, List.append_nil] at hh
    exact .inr ⟨by rw [hh], hnil, rfl, hp⟩

/-- All that is left of the block can arrive in one segment. -/
theorem exists_arrive {l : Link β} {n : Nat} {block : List β} (hc : l.Carries n block)
    (hp : l.policy = .exactly n ∨ (l.policy = .segments ∧ l.frame = [])) :
    ∃ r, l.arrive l.stream.length = some r := by
  have hlen := congrArg List.length hc.held
  rw [held, List.length_append, hc.length] at hlen
  have hpos := hc.frame
  have hk : 0 < l.stream.length ∧ l.stream.length ≤ l.stream.length := by omega
  rcases hp with hp | ⟨hp, _⟩
  · have hframe : (l.frame ++ l.stream.take l.stream.length).length = n := by
      rw [List.take_length, List.length_append]
      omega
    rw [arrive, if_pos hk, hp]
    dsimp only
    rw [if_neg (Nat.not_lt.mpr hframe.ge), if_pos hframe]
    exact ⟨_, rfl⟩
  · rw [arrive, if_pos hk, hp]
    exact ⟨_, rfl⟩

/-- Without a frame to fill, a segment of the whole block is handed on as it is. -/
theorem arrive_whole {l l' : Link β} {n : Nat} {block : List β} {out : Option (List β)}
    (hc : l.Carries n block) (hp : l.policy = .segments) (hf : l.frame = [])
    (h : l.arrive n = some (l', out)) :
    out = some block ∧ l'.held = [] ∧ l'.frame = [] ∧ l'.policy = .segments := by
  obtain ⟨rfl, rfl⟩ := arrive_segments hp h
  have hs : l.stream = block := by simpa [Link.held, hf] using hc.held
  have hn : n = l.stream.length := by rw [hs, hc.length]
  refine ⟨by rw [hn, List.take_length, hs], ?_, hf, hp⟩
  simp [Link.held, hf, hn]

/-- A block of which nothing has arrived can arrive in one segment. -/
theorem exists_arrive_whole {l : Link β} {n : Nat} {block : List β}
    (hc : l.Carries n block) (hp : l.policy = .exactly n ∨ l.policy = .segments)
    (hf : l.frame = []) :
    ∃ l', l.arrive n = some (l', some block) ∧ l'.held = [] ∧ l'.frame = [] ∧
      l'.policy = l.policy := by
  have hs : l.stream = block := by simpa [Link.held, hf] using hc.held
  have hn : l.stream.length = n := by rw [hs, hc.length]
  have hpos := hc.frame
  have hk : 0 < n ∧ n ≤ l.stream.length := by omega
  have htake : l.stream.take n = block := by rw [← hn, List.take_length, hs]
  have hdrop : l.stream.drop n = [] := by rw [← hn, List.drop_length]
  have hblock := hc.length
  refine ⟨{ l with stream := [], frame := [] }, ?_, rfl, rfl, rfl⟩
  rcases hp with hp | hp
  · simp only [arrive, if_pos hk, hp, hf, List.nil_append, htake, hdrop, hblock,
      if_neg (Nat.lt_irrefl n), if_true]
  · simp only [arrive, if_pos hk, hp, hf, htake, hdrop]

end Link

end NewbMeasurements.ByteStreams
