import Mathlib

/-!
Labelled transition systems with executable steps: runs, runs whose every step
meets a condition, the invariant rule, and the two directions of a refinement
of such a system into a step relation on abstract states.
-/

namespace NewbMeasurements.Transitions

open Relation (ReflTransGen)

/-- `step s a` is the state after action `a`; it is `none` where `a` is not
enabled in `s`. -/
structure TransitionSystem (σ α : Type*) where
  init : σ
  step : σ → α → Option σ

namespace TransitionSystem

variable {σ α ε : Type*}

/-- The state in which a list of actions ends, if each of them is enabled. -/
def runFrom (T : TransitionSystem σ α) : σ → List α → Option σ
  | s, [] => some s
  | s, a :: as => (T.step s a).bind fun s' => T.runFrom s' as

def run (T : TransitionSystem σ α) (as : List α) : Option σ := T.runFrom T.init as

/-- Every action of the run meets `ok` in the state in which it is taken. -/
def Meets (T : TransitionSystem σ α) (ok : σ → α → Prop) : σ → List α → Prop
  | _, [] => True
  | s, a :: as => ok s a ∧ ∀ s', T.step s a = some s' → T.Meets ok s' as

@[simp] theorem runFrom_nil (T : TransitionSystem σ α) (s : σ) : T.runFrom s [] = some s := rfl

/-- The first step of a run, and the rest of it. -/
theorem runFrom_cons {T : TransitionSystem σ α} {s s' : σ} {a : α} {as : List α} :
    T.runFrom s (a :: as) = some s' ↔ ∃ t, T.step s a = some t ∧ T.runFrom t as = some s' := by
  simp [runFrom, Option.bind_eq_some_iff]

theorem runFrom_append (T : TransitionSystem σ α) (s : σ) (as bs : List α) :
    T.runFrom s (as ++ bs) = (T.runFrom s as).bind fun t => T.runFrom t bs := by
  induction as generalizing s with
  | nil => rfl
  | cons a as ih =>
    simp only [List.cons_append, runFrom, Option.bind_assoc]
    congr 1
    funext t
    exact ih t

theorem meets_append {T : TransitionSystem σ α} {ok : σ → α → Prop} {s t : σ} {as bs : List α}
    (h : T.Meets ok s as) (ht : T.runFrom s as = some t) (hb : T.Meets ok t bs) :
    T.Meets ok s (as ++ bs) := by
  induction as generalizing s with
  | nil =>
    simp only [runFrom_nil, Option.some.injEq] at ht
    subst ht
    exact hb
  | cons a as ih =>
    obtain ⟨u, hu, hr⟩ := runFrom_cons.mp ht
    constructor
    · exact h.1
    · intro u' hu'
      rw [hu] at hu'
      cases hu'
      exact ih (h.2 u hu) hr

theorem meets_mono {T : TransitionSystem σ α} {ok ok' : σ → α → Prop}
    (himp : ∀ s a, ok s a → ok' s a) {s : σ} {as : List α} (h : T.Meets ok s as) :
    T.Meets ok' s as := by
  induction as generalizing s with
  | nil => trivial
  | cons a as ih => exact ⟨himp s a h.1, fun t ht => ih (h.2 t ht)⟩

theorem meets_of_mem {T : TransitionSystem σ α} {ok : σ → α → Prop} {as : List α}
    (h : ∀ s, ∀ a ∈ as, ok s a) {s : σ} : T.Meets ok s as := by
  induction as generalizing s with
  | nil => trivial
  | cons a as ih =>
    exact ⟨h s a List.mem_cons_self, fun t _ => ih fun u b hb => h u b (List.mem_cons_of_mem _ hb)⟩

theorem meets_of_forall {T : TransitionSystem σ α} {ok : σ → α → Prop} (h : ∀ s a, ok s a)
    (s : σ) (as : List α) : T.Meets ok s as :=
  meets_of_mem fun s a _ => h s a

theorem meets_true (T : TransitionSystem σ α) (s : σ) (as : List α) :
    T.Meets (fun _ _ => True) s as :=
  meets_of_forall (fun _ _ => trivial) s as

/-- Whether a run meets a condition can be computed. -/
instance decidableMeets (T : TransitionSystem σ α) (ok : σ → α → Prop)
    [∀ s a, Decidable (ok s a)] : ∀ (s : σ) (as : List α), Decidable (T.Meets ok s as)
  | _, [] => isTrue trivial
  | s, a :: as =>
    match h : T.step s a with
    | none => decidable_of_iff (ok s a) (by simp [Meets, h])
    | some t =>
      have := decidableMeets T ok t as
      decidable_of_iff (ok s a ∧ T.Meets ok t as) (by simp [Meets, h])

/-- A map of states that the steps respect, the runs respect. -/
theorem runFrom_map {τ : Type*} {T : TransitionSystem σ α} {U : TransitionSystem τ α} {f : σ → τ}
    (hstep : ∀ s a, (T.step s a).map f = U.step (f s) a) (s : σ) (as : List α) :
    (T.runFrom s as).map f = U.runFrom (f s) as := by
  induction as generalizing s with
  | nil => rfl
  | cons a as ih =>
    rw [runFrom, runFrom, ← hstep s a, Option.map_bind, Option.bind_map]
    congr 1
    funext t
    exact ih t

/-- **Invariant rule.**  What every step that meets `ok` preserves holds at the
end of every run whose steps meet `ok`. -/
theorem invariant_runFrom {T : TransitionSystem σ α} {ok : σ → α → Prop} {Inv : σ → Prop}
    (hstep : ∀ s a s', Inv s → ok s a → T.step s a = some s' → Inv s')
    {s s' : σ} {as : List α} (hs : Inv s) (hm : T.Meets ok s as)
    (hr : T.runFrom s as = some s') : Inv s' := by
  induction as generalizing s with
  | nil =>
    simp only [runFrom_nil, Option.some.injEq] at hr
    exact hr ▸ hs
  | cons a as ih =>
    obtain ⟨t, ht, hr⟩ := runFrom_cons.mp hr
    exact ih (hstep s a t hs hm.1 ht) (hm.2 t ht) hr

/-- **Refinement rule.**  If every step that meets `ok` from a state related to
`e` ends in a state related to `e` or to an abstract successor of `e`, then so
does every run whose steps meet `ok`, with a path of abstract steps. -/
theorem refinement_runFrom {T : TransitionSystem σ α} {ok : σ → α → Prop}
    {R : σ → ε → Prop} {Step : ε → ε → Prop}
    (hstep : ∀ s a s' e, R s e → ok s a → T.step s a = some s' →
      R s' e ∨ ∃ e', Step e e' ∧ R s' e')
    {s s' : σ} {e : ε} {as : List α} (hs : R s e) (hm : T.Meets ok s as)
    (hr : T.runFrom s as = some s') : ∃ e', ReflTransGen Step e e' ∧ R s' e' := by
  induction as generalizing s e with
  | nil =>
    simp only [runFrom_nil, Option.some.injEq] at hr
    exact ⟨e, .refl, hr ▸ hs⟩
  | cons a as ih =>
    obtain ⟨t, ht, hr⟩ := runFrom_cons.mp hr
    rcases hstep s a t e hs hm.1 ht with h | ⟨e₁, he₁, h⟩
    · exact ih h (hm.2 t ht) hr
    · obtain ⟨e', he', h'⟩ := ih h (hm.2 t ht) hr
      exact ⟨e', ReflTransGen.head he₁ he', h'⟩

/-- **Realisation rule.**  If every abstract step from `e` can be taken by an
action that meets `ok` from any state related to `e`, then every abstract path
is realised by a run whose steps meet `ok`. -/
theorem realisation_runFrom {T : TransitionSystem σ α} {ok : σ → α → Prop}
    {R : σ → ε → Prop} {Step : ε → ε → Prop}
    (hstep : ∀ s e e', R s e → Step e e' →
      ∃ a s', ok s a ∧ T.step s a = some s' ∧ R s' e')
    {s : σ} {e e' : ε} (hs : R s e) (he : ReflTransGen Step e e') :
    ∃ as s', T.Meets ok s as ∧ T.runFrom s as = some s' ∧ R s' e' := by
  induction he with
  | refl => exact ⟨[], s, trivial, rfl, hs⟩
  | @tail e₁ e₂ _ h ih =>
    obtain ⟨as, t, hm, hr, ht⟩ := ih
    obtain ⟨a, s', hok, hs', hR⟩ := hstep t e₁ e₂ ht h
    refine ⟨as ++ [a], s', meets_append hm hr ⟨hok, fun _ _ => trivial⟩, ?_, hR⟩
    simp [runFrom_append, hr, runFrom, hs']

/-- **Simulation rule.**  If every step from a state related to `t` is matched by a
run of the other system from `t`, then so is every run. -/
theorem simulation_runFrom {τ β : Type*} {T : TransitionSystem σ α} {U : TransitionSystem τ β}
    {R : σ → τ → Prop}
    (hstep : ∀ s a s' t, R s t → T.step s a = some s' → ∃ bs t', U.runFrom t bs = some t' ∧ R s' t')
    {s s' : σ} {t : τ} {as : List α} (hs : R s t) (hr : T.runFrom s as = some s') :
    ∃ bs t', U.runFrom t bs = some t' ∧ R s' t' := by
  induction as generalizing s t with
  | nil =>
    simp only [runFrom_nil, Option.some.injEq] at hr
    exact ⟨[], t, rfl, hr ▸ hs⟩
  | cons a as ih =>
    obtain ⟨u, hu, hr⟩ := runFrom_cons.mp hr
    obtain ⟨bs, t₁, hr₁, h₁⟩ := hstep s a u t hs hu
    obtain ⟨cs, t₂, hr₂, h₂⟩ := ih h₁ hr
    refine ⟨bs ++ cs, t₂, ?_, h₂⟩
    rw [runFrom_append, hr₁, Option.bind_some, hr₂]

/-! ## Runs that end -/

/-- **Descent rule.**  A run from a state in which `Inv` holds is no longer than the
rank that it uses up, if every step that meets `ok` uses up some. -/
theorem length_add_rank_le {T : TransitionSystem σ α} {ok : σ → α → Prop} {Inv : σ → Prop}
    (rank : σ → Nat)
    (hstep : ∀ s a s', Inv s → ok s a → T.step s a = some s' → Inv s' ∧ rank s' < rank s)
    {s s' : σ} {as : List α} (hs : Inv s) (hm : T.Meets ok s as)
    (hr : T.runFrom s as = some s') : as.length + rank s' ≤ rank s := by
  induction as generalizing s with
  | nil =>
    simp only [runFrom_nil, Option.some.injEq] at hr
    subst hr
    simp
  | cons a as ih =>
    obtain ⟨t, ht, hr⟩ := runFrom_cons.mp hr
    obtain ⟨hinv, hlt⟩ := hstep s a t hs hm.1 ht
    have hle := ih hinv (hm.2 t ht) hr
    rw [List.length_cons]
    omega

/-- Every run whose steps meet `ok` reaches a state in which `done` holds: until
then it can go on, and it has gone on for a bounded number of steps only. -/
structure Inevitable (T : TransitionSystem σ α) (ok : σ → α → Prop) (done : σ → Prop) : Prop where
  continues : ∀ as s, T.Meets ok T.init as → T.run as = some s → ¬ done s →
    ∃ a s', ok s a ∧ T.step s a = some s'
  bounded : ∃ bound, ∀ as s, T.Meets ok T.init as → T.run as = some s → ¬ done s →
    as.length ≤ bound

/-- The last step of a run. -/
theorem runFrom_concat {T : TransitionSystem σ α} {s s' : σ} {a : α} {as : List α} :
    T.runFrom s (as ++ [a]) = some s' ↔
      ∃ t, T.runFrom s as = some t ∧ T.step t a = some s' := by
  simp [runFrom_append, Option.bind_eq_some_iff, runFrom]

theorem meets_of_append {T : TransitionSystem σ α} {ok : σ → α → Prop} {s t : σ} {as bs : List α}
    (h : T.Meets ok s (as ++ bs)) (ht : T.runFrom s as = some t) :
    T.Meets ok s as ∧ T.Meets ok t bs := by
  induction as generalizing s with
  | nil =>
    cases ht
    exact ⟨trivial, h⟩
  | cons a as ih =>
    obtain ⟨u, hu, hr⟩ := runFrom_cons.mp ht
    refine ⟨⟨h.1, ?_⟩, (ih (h.2 u hu) hr).2⟩
    intro v hv
    rw [hu] at hv
    cases hv
    exact (ih (h.2 u hu) hr).1

/-- What is inevitable happens in some run. -/
theorem Inevitable.exists_run {T : TransitionSystem σ α} {ok : σ → α → Prop} {done : σ → Prop}
    (h : T.Inevitable ok done) :
    ∃ as s, T.Meets ok T.init as ∧ T.run as = some s ∧ done s := by
  obtain ⟨bound, hbound⟩ := h.bounded
  by_contra hnone
  have hundone : ∀ as s, T.Meets ok T.init as → T.run as = some s → ¬ done s :=
    fun as s hm hr hd => hnone ⟨as, s, hm, hr, hd⟩
  -- a run without end, one step at a time
  have hlong : ∀ n, ∃ as s, T.Meets ok T.init as ∧ T.run as = some s ∧ as.length = n := by
    intro n
    induction n with
    | zero => exact ⟨[], T.init, trivial, rfl, rfl⟩
    | succ n ih =>
      obtain ⟨as, s, hm, hr, hlen⟩ := ih
      obtain ⟨a, s', hok, hs⟩ := h.continues as s hm hr (hundone as s hm hr)
      refine ⟨as ++ [a], s', meets_append hm hr ⟨hok, fun _ _ => trivial⟩, ?_, ?_⟩
      · exact runFrom_concat.mpr ⟨s, hr, hs⟩
      · rw [List.length_append, hlen, List.length_singleton]
  obtain ⟨as, s, hm, hr, hlen⟩ := hlong (bound + 1)
  have hle := hbound as s hm hr (hundone as s hm hr)
  omega

/-- **Ranking rule.**  `done` is inevitable if, up to it, a step that meets `ok`
is enabled and every such step from a state related to `e` leads to a state
related to one of lower rank. -/
theorem inevitable_of_ranking {T : TransitionSystem σ α} {ok : σ → α → Prop} {done : σ → Prop}
    (R : σ → ε → Prop) (rank : ε → Nat) {e₀ : ε} (hinit : R T.init e₀)
    (hstep : ∀ s a s' e, R s e → ¬ done s → ok s a → T.step s a = some s' →
      done s' ∨ ∃ e', R s' e' ∧ rank e' < rank e)
    (henabled : ∀ s e, R s e → ¬ done s → ∃ a s', ok s a ∧ T.step s a = some s')
    (hstable : ∀ s a s', done s → T.step s a = some s' → done s') :
    T.Inevitable ok done := by
  have hrun : ∀ as s, T.Meets ok T.init as → T.run as = some s → ¬ done s →
      ∃ e, R s e ∧ as.length + rank e ≤ rank e₀ := by
    intro as
    induction as using List.reverseRecOn with
    | nil =>
      intro s _ hr _
      cases hr
      exact ⟨e₀, hinit, by simp⟩
    | append_singleton as a ih =>
      intro s hm hr hd
      obtain ⟨t, ht, hs⟩ := runFrom_concat.mp hr
      obtain ⟨hmeets, hok⟩ := meets_of_append hm ht
      have hundone : ¬ done t := fun h => hd (hstable t a s h hs)
      obtain ⟨e, hR, hle⟩ := ih t hmeets ht hundone
      rcases hstep t a s e hR hundone hok.1 hs with h | ⟨e', hR', hlt⟩
      · exact absurd h hd
      · refine ⟨e', hR', ?_⟩
        rw [List.length_append, List.length_singleton]
        omega
  constructor
  · intro as s hm hr hd
    obtain ⟨e, hR, _⟩ := hrun as s hm hr hd
    exact henabled s e hR hd
  · refine ⟨rank e₀, ?_⟩
    intro as s hm hr hd
    obtain ⟨e, _, hle⟩ := hrun as s hm hr hd
    omega

end TransitionSystem

end NewbMeasurements.Transitions
