import Mathlib

/-!
What a ping-pong run is for: `m` messages go out one after the other, each is
answered once, and the next one goes out only when the last answer is in. The
states carry this as their invariant; nothing is said of how messages travel.
-/

namespace NewbMeasurements

open Relation (ReflTransGen)

/-- `served` messages have been taken by the server, `answered` answers by the client. -/
structure Exchange (m : Nat) where
  started : Bool
  served : Nat
  answered : Nat
  answered_le_served : answered ≤ served
  served_le_succ : served ≤ answered + 1
  served_le : served ≤ m
  idle : started = false → served = 0

namespace Exchange

variable {m : Nat}

/-- How many messages the client has sent. -/
def asked (e : Exchange m) : Nat := if e.started then min (e.answered + 1) m else 0

/-- How many messages and answers have been taken. -/
def progress (e : Exchange m) : Nat := e.served + e.answered

def initial (m : Nat) : Exchange m := ⟨false, 0, 0, Nat.le_refl _, by omega, by omega, fun _ => rfl⟩

def start (e : Exchange m) : Exchange m := { e with started := true, idle := by simp }

theorem started_of_served_lt {e : Exchange m} (h : e.served < e.asked) : e.started = true := by
  cases hs : e.started with
  | true => rfl
  | false => simp [asked, hs] at h

theorem asked_of_started {e : Exchange m} (h : e.started = true) :
    e.asked = min (e.answered + 1) m := by
  simp [asked, h]

theorem asked_le_succ (e : Exchange m) : e.asked ≤ e.answered + 1 := by
  unfold asked
  split <;> omega

theorem served_le_asked (e : Exchange m) : e.served ≤ e.asked := by
  have h₁ := e.served_le_succ
  have h₂ := e.served_le
  cases hs : e.started with
  | true =>
    rw [asked_of_started hs]
    omega
  | false =>
    rw [e.idle hs]
    omega

/-- The server takes the message that is under way. -/
def serve (e : Exchange m) (h : e.served < e.asked) : Exchange m where
  started := e.started
  served := e.served + 1
  answered := e.answered
  answered_le_served := Nat.le_succ_of_le e.answered_le_served
  served_le_succ := by
    rw [asked_of_started (started_of_served_lt h)] at h
    omega
  served_le := by
    rw [asked_of_started (started_of_served_lt h)] at h
    omega
  idle hs := by simp [started_of_served_lt h] at hs

/-- The client takes the answer that is under way. -/
def answer (e : Exchange m) (h : e.answered < e.served) : Exchange m where
  started := e.started
  served := e.served
  answered := e.answered + 1
  answered_le_served := h
  served_le_succ := Nat.le_succ_of_le e.served_le_succ
  served_le := e.served_le
  idle := e.idle

inductive Step : Exchange m → Exchange m → Prop
  | start (e : Exchange m) : e.started = false → Step e e.start
  | serve (e : Exchange m) (h : e.served < e.asked) : Step e (e.serve h)
  | answer (e : Exchange m) (h : e.answered < e.served) : Step e (e.answer h)

@[simp] theorem initial_served : (initial m).served = 0 := rfl
@[simp] theorem initial_answered : (initial m).answered = 0 := rfl
@[simp] theorem initial_started : (initial m).started = false := rfl
@[simp] theorem initial_asked : (initial m).asked = 0 := rfl
@[simp] theorem start_served (e : Exchange m) : e.start.served = e.served := rfl
@[simp] theorem start_answered (e : Exchange m) : e.start.answered = e.answered := rfl
@[simp] theorem start_started (e : Exchange m) : e.start.started = true := rfl
@[simp] theorem serve_served (e : Exchange m) (h) : (e.serve h).served = e.served + 1 := rfl
@[simp] theorem serve_answered (e : Exchange m) (h) : (e.serve h).answered = e.answered := rfl
@[simp] theorem serve_started (e : Exchange m) (h) : (e.serve h).started = e.started := rfl
@[simp] theorem serve_asked (e : Exchange m) (h) : (e.serve h).asked = e.asked := rfl
@[simp] theorem answer_served (e : Exchange m) (h) : (e.answer h).served = e.served := rfl
@[simp] theorem answer_answered (e : Exchange m) (h) :
    (e.answer h).answered = e.answered + 1 := rfl
@[simp] theorem answer_started (e : Exchange m) (h) : (e.answer h).started = e.started := rfl

/-- Before it starts nothing has been answered. -/
theorem answered_of_idle {e : Exchange m} (h : e.started = false) : e.answered = 0 := by
  have h₁ := e.answered_le_served
  have h₂ := e.idle h
  omega

theorem started_of_answered_lt {e : Exchange m} (h : e.answered < e.served) :
    e.started = true := by
  cases hs : e.started with
  | true => rfl
  | false =>
    rw [e.idle hs] at h
    exact absurd h (Nat.not_lt_zero _)

/-- The start sends the first message. -/
theorem start_asked {e : Exchange m} (h : e.started = false) (hm : 1 ≤ m) :
    e.start.asked = 1 := by
  rw [asked_of_started (start_started e), start_answered, answered_of_idle h]
  omega

/-- A message is under way to the server exactly where none is to the client. -/
theorem turn (e : Exchange m) (hs : e.started = true) (hm : e.answered < m) :
    (e.served = e.answered ∧ e.served < e.asked) ∨
      (e.served = e.answered + 1 ∧ ¬ e.served < e.asked) := by
  have h₁ := e.answered_le_served
  have h₂ := e.served_le_succ
  rw [asked_of_started hs]
  omega

theorem asked_of_turn {e : Exchange m} (h : e.answered < e.served) : e.asked = e.served := by
  have h₁ := e.served_le_succ
  have h₂ := e.served_le
  rw [asked_of_started (started_of_answered_lt h)]
  omega

/-- An answer that is not the last one lets the next message go out. -/
theorem answer_asked {e : Exchange m} (h : e.answered < e.served) :
    (e.answer h).asked = if e.answered + 1 = m then e.served else e.served + 1 := by
  have hs := started_of_answered_lt h
  have h₁ := e.served_le_succ
  have h₂ := e.served_le
  rw [asked_of_started (by rw [answer_started, hs]), answer_answered]
  split <;> omega

theorem served_of_complete {e : Exchange m} (h : e.answered = m) : e.served = m := by
  have h₁ := e.answered_le_served
  have h₂ := e.served_le
  omega

/-- Once all answers are in, all messages have been sent. -/
theorem asked_of_complete {e : Exchange m} (hm : 1 ≤ m) (h : e.answered = m) : e.asked = m := by
  have hserved := served_of_complete h
  cases hs : e.started with
  | true =>
    rw [asked_of_started hs]
    omega
  | false =>
    have := e.idle hs
    omega

theorem progress_step {e e' : Exchange m} (h : Step e e') :
    e'.progress = e.progress ∨ e'.progress = e.progress + 1 := by
  cases h with
  | start => exact .inl rfl
  | serve =>
    right
    simp only [progress, serve_served, serve_answered]
    omega
  | answer =>
    right
    simp only [progress, answer_served, answer_answered]
    omega

/-- Until all answers are in, some step can be taken. -/
theorem exists_step (e : Exchange m) (hm : e.answered < m) : ∃ e', Step e e' := by
  cases hs : e.started with
  | false => exact ⟨_, .start e hs⟩
  | true =>
    rcases e.turn hs hm with ⟨_, h⟩ | ⟨hserved, _⟩
    · exact ⟨_, .serve e h⟩
    · have h : e.answered < e.served := by omega
      exact ⟨_, .answer e h⟩

theorem progress_le (e : Exchange m) : e.progress ≤ 2 * m := by
  have h₁ := e.answered_le_served
  have h₂ := e.served_le
  unfold progress
  omega

/-- How many steps are left. -/
def remaining (e : Exchange m) : Nat := 2 * m - e.progress + (!e.started).toNat

theorem remaining_step {e e' : Exchange m} (h : Step e e') : e'.remaining < e.remaining := by
  have hle := e'.progress_le
  cases h with
  | start hs =>
    simp only [remaining, start_started, hs, Bool.not_true, Bool.not_false, Bool.toNat_false,
      Bool.toNat_true]
    exact Nat.lt_succ_self _
  | serve =>
    simp only [remaining, progress, serve_served, serve_answered, serve_started] at hle ⊢
    omega
  | answer =>
    simp only [remaining, progress, answer_served, answer_answered, answer_started] at hle ⊢
    omega

/-- By induction on what is left to do: from a state that has been started, either
side's step is progress. -/
theorem exists_complete_of_started (n : Nat) {e : Exchange m} (hs : e.started = true)
    (hn : e.progress + n = 2 * m) : ∃ e' : Exchange m, ReflTransGen Step e e' ∧ e'.answered = m := by
  induction n generalizing e with
  | zero =>
    have h₁ := e.answered_le_served
    have h₂ := e.served_le
    unfold progress at hn
    exact ⟨e, .refl, by omega⟩
  | succ n ih =>
    have hlt : e.answered < m := by
      have h₁ := e.answered_le_served
      have h₂ := e.served_le
      unfold progress at hn
      omega
    rcases e.turn hs hlt with ⟨_, h⟩ | ⟨hserved, _⟩
    · have hnext : (e.serve h).progress + n = 2 * m := by
        simp only [progress, serve_served, serve_answered] at hn ⊢
        omega
      obtain ⟨e', hpath, hdone⟩ := ih (e := e.serve h) hs hnext
      exact ⟨e', .head (.serve e h) hpath, hdone⟩
    · have h : e.answered < e.served := by omega
      have hnext : (e.answer h).progress + n = 2 * m := by
        simp only [progress, answer_served, answer_answered] at hn ⊢
        omega
      obtain ⟨e', hpath, hdone⟩ := ih (e := e.answer h) hs hnext
      exact ⟨e', .head (.answer e h) hpath, hdone⟩

/-- **Completion is possible.**  From every state a path of steps leads to the
complete exchange. -/
theorem exists_complete (e : Exchange m) :
    ∃ e' : Exchange m, ReflTransGen Step e e' ∧ e'.answered = m := by
  cases hs : e.started with
  | true => exact exists_complete_of_started _ hs (Nat.add_sub_of_le e.progress_le)
  | false =>
    obtain ⟨e', hpath, hdone⟩ := exists_complete_of_started _ (start_started e)
      (Nat.add_sub_of_le e.start.progress_le)
    exact ⟨e', .head (.start e hs) hpath, hdone⟩

end Exchange

end NewbMeasurements
