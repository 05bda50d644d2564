import NewbMeasurements.Framing

/-!
What has to hold of the layers on top of `reliability` for the results about a
stack: they send nothing of their own accord, they hand on only what has been
written, and they hand on a frame whose turn it is. `raw` keeps these laws, and
`ordering` keeps them if the layer on top of it does.
-/

namespace NewbMeasurements.Protocols

open Words (Bytes)
open Layers (SequenceType encodeSequence decodeSequence orderingHeaderLen
  decodeSequence_encodeSequence_append)
open NewbOrdering (Pending isGreater)
open Actors (Atom)

variable {σ μ α : Type}

/-! ## What is asked of the parent -/

/-- The packets that a call asks its parent to send. -/
def packets : List (Request μ) → List Bytes
  | [] => []
  | .packet bytes :: rs => bytes :: packets rs
  | _ :: rs => packets rs

/-- The timeouts that a call sets. -/
def timeouts : List (Request μ) → List (Atom × UInt32)
  | [] => []
  | .setTimeout _ atm id :: rs => (atm, id) :: timeouts rs
  | _ :: rs => timeouts rs

theorem packets_append (rs rs' : List (Request μ)) :
    packets (rs ++ rs') = packets rs ++ packets rs' := by
  induction rs with
  | nil => rfl
  | cons r rs ih => cases r <;> simp [packets, ih]

/-- The layers above `reliability` send no packets of their own accord. -/
structure Quiet (next : Layer σ μ) : Prop where
  read : ∀ s bytes, packets (next.read s bytes).requests = []
  timeout : ∀ s atm id, packets (next.timeout s atm id).requests = []

variable {next : Layer σ μ}

theorem quiet_raw : Quiet raw := ⟨fun _ _ => rfl, fun _ _ _ => rfl⟩

theorem packets_andThen (r : Outcome σ μ) {f : σ → Outcome σ μ}
    (hr : packets r.requests = []) (hf : packets (f r.state).requests = []) :
    packets (r.andThen f).requests = [] := by
  unfold Outcome.andThen
  split
  · exact hr
  · rw [packets_append, hr, hf, List.append_nil]

theorem Quiet.deliverPending (h : Quiet next) (rounds : Nat)
    (o : OrderingState σ) : packets (OrderingState.deliverPending next rounds o).requests = [] := by
  induction rounds generalizing o with
  | zero => rfl
  | succ rounds ih =>
    unfold OrderingState.deliverPending
    split
    · rfl
    · exact packets_andThen _ (h.read _ _) (ih _)

theorem Quiet.addPending (h : Quiet next) (o : OrderingState σ) (bytes : Bytes)
    (seq : SequenceType) :
    packets (OrderingState.addPending next o bytes seq).requests = [] := by
  have htimeouts : packets (o.pendingTimeout (μ := μ) seq) = [] := by
    unfold OrderingState.pendingTimeout
    split <;> rfl
  simp only [OrderingState.addPending]
  split
  · exact htimeouts
  · split
    · rw [packets_append, h.deliverPending, htimeouts, List.append_nil]
    · exact htimeouts

/-- `ordering` is as quiet as what is on top of it. -/
theorem Quiet.ordering (h : Quiet next) (maxPendingMessages : Nat) :
    Quiet (ordering maxPendingMessages next) where
  read o bytes := by
    show packets (OrderingState.read next o bytes).requests = []
    unfold OrderingState.read
    split
    · rfl
    · split
      · exact packets_andThen _ (h.read _ _) (h.deliverPending _ _)
      · split
        · exact h.addPending _ _ _
        · rfl
  timeout o atm id := by
    show packets (OrderingState.timeout next o atm id).requests = []
    unfold OrderingState.timeout
    split
    · split
      · exact h.deliverPending _ _
      · rfl
    · exact h.timeout _ _ _

/-! ## What is handed on -/

@[simp] theorem handled_map {τ : Type} (f : σ → τ) (r : Outcome σ μ) :
    (r.map f).handled = r.handled := rfl

theorem mem_handled_andThen {r : Outcome σ μ} {f : σ → Outcome σ μ} {msg : μ}
    (h : msg ∈ (r.andThen f).handled) : msg ∈ r.handled ∨ msg ∈ (f r.state).handled := by
  unfold Outcome.andThen at h
  split at h
  · exact .inl h
  · rw [Outcome.handled, List.filterMap_append, List.mem_append] at h
    exact h

/-- The frame `f` carries a message for which `p` holds. -/
def Framed (F : Framing next α) (p : α → Prop) (f : Bytes) : Prop :=
  ∃ s x, p x ∧ f = F.frame s x

theorem Framed.mono {F : Framing next α} {p q : α → Prop} (hpq : ∀ x, p x → q x) {f : Bytes}
    (h : Framed F p f) : Framed F q f := by
  obtain ⟨s, x, hx, rfl⟩ := h
  exact ⟨s, x, hpq x hx, rfl⟩

/-- A call leaves a state in which `Q` holds and hands on messages of `p` only. -/
structure Yields (message : α → μ) (p : α → Prop) (Q : σ → Prop) (r : Outcome σ μ) : Prop where
  state : Q r.state
  handled : ∀ msg ∈ r.handled, ∃ x, p x ∧ msg = message x

theorem Yields.andThen {message : α → μ} {p : α → Prop} {Q Q' : σ → Prop} {r : Outcome σ μ}
    {f : σ → Outcome σ μ} (h : Yields message p Q r) (himp : ∀ s, Q s → Q' s)
    (hf : ∀ s, Q s → Yields message p Q' (f s)) : Yields message p Q' (r.andThen f) := by
  have hnext := hf r.state h.state
  constructor
  · unfold Outcome.andThen
    split
    · exact himp _ h.state
    · exact hnext.state
  · intro msg hmsg
    rcases mem_handled_andThen hmsg with hmsg | hmsg
    · exact h.handled msg hmsg
    · exact hnext.handled msg hmsg

theorem Yields.map {τ : Type} {message : α → μ} {p : α → Prop} {Q : σ → Prop} {R : τ → Prop}
    {r : Outcome σ μ} (h : Yields message p Q r) {f : σ → τ} (himp : ∀ s, Q s → R (f s)) :
    Yields message p R (r.map f) :=
  ⟨himp _ h.state, h.handled⟩

/-- A layer that keeps and hands on nothing but messages whose frames it has been
given: where all of these are of `p`, all that it holds and hands on is of `p`. -/
structure Transparent (F : Framing next α) (message : α → μ) where
  Holds : (α → Prop) → σ → Prop
  mono : ∀ {p q : α → Prop} {s : σ}, (∀ x, p x → q x) → Holds p s → Holds q s
  init : ∀ p, Holds p next.init.state
  closed : ∀ {p : α → Prop} {s : σ} (x : α), Holds p s → Holds p (F.closed s x)
  read : ∀ {p : α → Prop} {s : σ} {f : Bytes}, Holds p s → Framed F p f →
    Yields message p (Holds p) (next.read s f)
  timeout : ∀ {p : α → Prop} {s : σ} (atm : Atom) (id : UInt32), Holds p s →
    Yields message p (Holds p) (next.timeout s atm id)

namespace Transparent

def raw : Transparent Framing.raw id where
  Holds _ _ := True
  mono _ _ := trivial
  init _ := trivial
  closed _ _ := trivial
  read := by
    rintro p s f _ ⟨_, x, hx, hf⟩
    refine ⟨trivial, ?_⟩
    intro msg hmsg
    exact ⟨x, hx, (List.mem_singleton.mp hmsg).trans hf⟩
  timeout _ _ _ := ⟨trivial, List.forall_mem_nil _⟩

variable {F : Framing next α} {message : α → μ} (T : Transparent F message) {p : α → Prop}

/-- `ordering` also holds the frames that are pending. -/
def PendingHolds (p : α → Prop) (o : OrderingState σ) : Prop :=
  T.Holds p o.next ∧ ∀ entry ∈ o.pending, Framed F p entry.2

theorem mem_insert {k : SequenceType} {bytes : Bytes} {pending : Pending}
    {entry : SequenceType × Bytes} (h : entry ∈ Pending.insert k bytes pending) :
    entry.2 = bytes ∨ entry ∈ pending := by
  induction pending with
  | nil => exact .inl (List.mem_singleton.mp h ▸ rfl)
  | cons e rest ih =>
    unfold Pending.insert at h
    split at h
    · rcases List.mem_cons.mp h with rfl | h
      · exact .inl rfl
      · exact .inr h
    · split at h
      · rcases List.mem_cons.mp h with rfl | h
        · exact .inr List.mem_cons_self
        · exact (ih h).imp_right (List.mem_cons_of_mem _)
      · rcases List.mem_cons.mp h with rfl | h
        · exact .inl rfl
        · exact .inr (List.mem_cons_of_mem _ h)

theorem deliverPending (rounds : Nat) {o : OrderingState σ} (h : T.PendingHolds p o) :
    Yields message p (T.PendingHolds p) (OrderingState.deliverPending next rounds o) := by
  induction rounds generalizing o with
  | zero => exact ⟨h, List.forall_mem_nil _⟩
  | succ rounds ih =>
    unfold OrderingState.deliverPending
    split
    · exact ⟨h, List.forall_mem_nil _⟩
    · rename_i entry hfind
      have hread := T.read h.1 (h.2 entry (List.mem_of_find?_eq_some hfind))
      refine (hread.map (R := T.PendingHolds p) ?_).andThen (fun _ h => h) fun _ => ih
      intro s hs
      refine ⟨hs, ?_⟩
      intro e he
      exact h.2 e (List.mem_of_mem_eraseP he)

theorem handled_append_pendingTimeout (o : OrderingState σ) (seq : SequenceType)
    (r : Outcome (OrderingState σ) μ) :
    ({ r with requests := o.pendingTimeout seq ++ r.requests } : Outcome _ μ).handled =
      r.handled := by
  unfold OrderingState.pendingTimeout
  split <;> rfl

theorem addPending {o : OrderingState σ} {bytes : Bytes} (h : T.PendingHolds p o)
    (hf : Framed F p (bytes.drop orderingHeaderLen)) (seq : SequenceType) :
    Yields message p (T.PendingHolds p) (OrderingState.addPending next o bytes seq) := by
  have hinsert : ∀ entry ∈ Pending.insert seq (bytes.drop orderingHeaderLen) o.pending,
      Framed F p entry.2 := by
    intro entry hentry
    rcases mem_insert hentry with heq | hmem
    · rwa [heq]
    · exact h.2 entry hmem
  have hnone : ∀ o' : OrderingState σ, ({ state := o', requests := o.pendingTimeout seq } :
      Outcome (OrderingState σ) μ).handled = [] := by
    intro o'
    have := handled_append_pendingTimeout o seq ({ state := o' } : Outcome (OrderingState σ) μ)
    rwa [List.append_nil] at this
  simp only [OrderingState.addPending]
  split
  · refine ⟨⟨h.1, hinsert⟩, ?_⟩
    rw [hnone]
    exact List.forall_mem_nil _
  · split
    · rename_i first _ _ _
      have hall : T.PendingHolds p { o with
          pending := Pending.insert seq (bytes.drop orderingHeaderLen) o.pending
          seqRead := first.1 } := ⟨h.1, hinsert⟩
      have hdeliver := T.deliverPending (Pending.insert seq (bytes.drop orderingHeaderLen)
        o.pending).length hall
      refine ⟨hdeliver.state, ?_⟩
      rw [handled_append_pendingTimeout]
      exact hdeliver.handled
    · refine ⟨⟨h.1, hinsert⟩, ?_⟩
      rw [hnone]
      exact List.forall_mem_nil _

def ordering (maxPendingMessages : Nat) :
    Transparent (F.ordering maxPendingMessages) message where
  Holds p := T.PendingHolds p
  mono himp h := ⟨T.mono himp h.1, fun e he => (h.2 e he).mono himp⟩
  init p := ⟨T.init p, List.forall_mem_nil _⟩
  closed x h := ⟨T.closed x h.1, h.2⟩
  read := by
    rintro p o f h ⟨o', x, hx, rfl⟩
    have hdec : decodeSequence (encodeSequence o'.seqWrite ++ F.frame o'.next x) =
        some o'.seqWrite := decodeSequence_encodeSequence_append _ _
    have hf : Framed F p
        ((encodeSequence o'.seqWrite ++ F.frame o'.next x).drop orderingHeaderLen) :=
      ⟨o'.next, x, hx, rfl⟩
    show Yields message p (T.PendingHolds p)
      (OrderingState.read next o (encodeSequence o'.seqWrite ++ F.frame o'.next x))
    rw [OrderingState.read, hdec]
    dsimp only
    split
    · refine ((T.read h.1 hf).map (R := T.PendingHolds p) ?_).andThen (fun _ h => h) ?_
      · exact fun _ hs => ⟨hs, h.2⟩
      · exact fun o ho => T.deliverPending _ ho
    · split
      · exact ⟨(T.addPending h hf _).state, (T.addPending h hf _).handled⟩
      · exact ⟨h, List.forall_mem_nil _⟩
  timeout := by
    intro p o atm id h
    show Yields message p (T.PendingHolds p) (OrderingState.timeout next o atm id)
    unfold OrderingState.timeout
    split
    · split
      · exact T.deliverPending _ ⟨h.1, h.2⟩
      · exact ⟨h, List.forall_mem_nil _⟩
    · refine (T.timeout atm id h.1).map ?_
      exact fun _ hs => ⟨hs, h.2⟩

end Transparent

/-! ## Frames whose turn it is -/

/-- A layer that hands on a frame at once if it has got all the earlier ones, and
keeps quiet about an earlier one or hands it on again; it can tell `limit` earlier
ones from later ones. `Writes n`: the next frame is the `n`-th. `Expects n`: the
first `n` frames have arrived. -/
structure InOrder (F : Framing next α) (message : α → μ) (limit : Nat) where
  Writes : Nat → σ → Prop
  Expects : Nat → σ → Prop
  writes_init : Writes 0 next.init.state
  expects_init : Expects 0 next.init.state
  writes_closed : ∀ {n s} (x : α), Writes n s → Writes (n + 1) (F.closed s x)
  expects_closed : ∀ {n s} (x : α), Expects n s → Expects n (F.closed s x)
  writes_read : ∀ {n s} (f : Bytes), Writes n s → Writes n (next.read s f).state
  writes_timeout : ∀ {n s} (atm : Atom) (id : UInt32), Writes n s →
    Writes n (next.timeout s atm id).state
  read_next : ∀ {n s s'} (x : α), Writes n s' → Expects n s →
    (next.read s (F.frame s' x)).handled = [message x] ∧
      Expects (n + 1) (next.read s (F.frame s' x)).state
  read_old : ∀ {i n s s'} (x : α), Writes i s' → Expects n s → i < n → n ≤ limit →
    ((next.read s (F.frame s' x)).handled = [] ∨
      (next.read s (F.frame s' x)).handled = [message x]) ∧
      Expects n (next.read s (F.frame s' x)).state
  timeout : ∀ {n s} (atm : Atom) (id : UInt32), Expects n s →
    (next.timeout s atm id).handled = [] ∧ Expects n (next.timeout s atm id).state

namespace InOrder

/-- `raw` hands on everything, old frames too. -/
def raw (limit : Nat) : InOrder Framing.raw id limit where
  Writes _ _ := True
  Expects _ _ := True
  writes_init := trivial
  expects_init := trivial
  writes_closed _ _ := trivial
  expects_closed _ _ := trivial
  writes_read _ _ := trivial
  writes_timeout _ _ _ := trivial
  read_next _ _ _ := ⟨rfl, trivial⟩
  read_old _ _ _ _ _ := ⟨.inr rfl, trivial⟩
  timeout _ _ _ := ⟨rfl, trivial⟩

variable {F : Framing next α} {message : α → μ} {limit : Nat} (O : InOrder F message limit)

/-- The next sequence number is that of the `n`-th frame. -/
def SeqWrites (n : Nat) (o : OrderingState σ) : Prop :=
  o.seqWrite = UInt16.ofNat n ∧ O.Writes n o.next

/-- Nothing is pending. -/
def SeqExpects (n : Nat) (o : OrderingState σ) : Prop :=
  o.seqRead = UInt16.ofNat n ∧ o.pending = [] ∧ O.Expects n o.next

theorem ofNat_succ (n : Nat) : UInt16.ofNat n + 1 = UInt16.ofNat (n + 1) := by simp

theorem state_andThen {P : σ → Prop} {r : Outcome σ μ} {f : σ → Outcome σ μ} (hr : P r.state)
    (hf : P (f r.state).state) : P (r.andThen f).state := by
  unfold Outcome.andThen
  split
  · exact hr
  · exact hf

theorem seqWrites_deliverPending (rounds : Nat) {n : Nat} {o : OrderingState σ}
    (h : O.SeqWrites n o) : O.SeqWrites n (OrderingState.deliverPending next rounds o).state := by
  induction rounds generalizing o with
  | zero => exact h
  | succ rounds ih =>
    unfold OrderingState.deliverPending
    split
    · exact h
    · rename_i entry _
      have hread : O.SeqWrites n { o with
          next := (next.read o.next entry.2).state
          pending := o.pending.eraseP (Pending.same o.seqRead)
          seqRead := o.seqRead + 1 } := ⟨h.1, O.writes_read _ h.2⟩
      exact state_andThen hread (ih hread)

theorem seqWrites_addPending {n : Nat} {o : OrderingState σ} (h : O.SeqWrites n o) (bytes : Bytes)
    (seq : SequenceType) : O.SeqWrites n (OrderingState.addPending next o bytes seq).state := by
  simp only [OrderingState.addPending]
  split
  · exact h
  · split
    · exact O.seqWrites_deliverPending _ ⟨h.1, h.2⟩
    · exact h

/-- An earlier frame that is not too old has a smaller sequence number. -/
theorem not_isGreater {i n : Nat} (hi : i < n) (hn : n ≤ i + 32767) :
    UInt16.ofNat i ≠ UInt16.ofNat n ∧
      isGreater (UInt16.ofNat i) (UInt16.ofNat n) = false := by
  constructor
  · intro heq
    have hnat := congrArg UInt16.toNat heq
    rw [UInt16.toNat_ofNat', UInt16.toNat_ofNat'] at hnat
    omega
  · simp only [isGreater, Bool.or_eq_false_iff, Bool.and_eq_false_iff, decide_eq_false_iff_not,
      gt_iff_lt, UInt16.lt_iff_toNat_lt, UInt16.le_iff_toNat_le, UInt16.toNat_sub,
      UInt16.toNat_ofNat', UInt16.reduceToNat]
    omega

/-- With `ordering` an earlier frame is told from a later one by its distance. -/
def ordering (maxPendingMessages : Nat) (hl : limit ≤ 32767) :
    InOrder (F.ordering maxPendingMessages) message limit where
  Writes := O.SeqWrites
  Expects := O.SeqExpects
  writes_init := ⟨rfl, O.writes_init⟩
  expects_init := ⟨rfl, rfl, O.expects_init⟩
  writes_closed x h := by
    refine ⟨?_, O.writes_closed x h.2⟩
    rw [← ofNat_succ, ← h.1]
    rfl
  expects_closed x h := ⟨h.1, h.2.1, O.expects_closed x h.2.2⟩
  writes_read := by
    intro n o f h
    show O.SeqWrites n (OrderingState.read next o f).state
    unfold OrderingState.read
    split
    · exact h
    · split
      · have hread : O.SeqWrites n { o with
            next := (next.read o.next (f.drop orderingHeaderLen)).state
            seqRead := o.seqRead + 1 } := ⟨h.1, O.writes_read _ h.2⟩
        exact state_andThen hread (O.seqWrites_deliverPending _ hread)
      · split
        · exact O.seqWrites_addPending h _ _
        · exact h
  writes_timeout := by
    intro n o atm id h
    show O.SeqWrites n (OrderingState.timeout next o atm id).state
    unfold OrderingState.timeout
    split
    · split
      · exact O.seqWrites_deliverPending _ ⟨h.1, h.2⟩
      · exact h
    · exact ⟨h.1, O.writes_timeout _ _ h.2⟩
  read_next := by
    intro n o o' x hw he
    have hdec : decodeSequence (encodeSequence o'.seqWrite ++ F.frame o'.next x) =
        some o'.seqWrite := decodeSequence_encodeSequence_append _ _
    have hseq : o'.seqWrite = o.seqRead := hw.1.trans he.1.symm
    obtain ⟨hh, hs⟩ := O.read_next x hw.2 he.2.2
    have hdrop : (encodeSequence o'.seqWrite ++ F.frame o'.next x).drop orderingHeaderLen =
      F.frame o'.next x := rfl
    show (OrderingState.read next o (encodeSequence o'.seqWrite ++ F.frame o'.next x)).handled = _ ∧
      O.SeqExpects (n + 1)
        (OrderingState.read next o (encodeSequence o'.seqWrite ++ F.frame o'.next x)).state
    have hsucc : o.seqRead + 1 = UInt16.ofNat (n + 1) := by rw [he.1, ofNat_succ]
    have hexp : O.SeqExpects (n + 1) { o with
        next := (next.read o.next (F.frame o'.next x)).state
        seqRead := o.seqRead + 1 } := ⟨hsucc, he.2.1, hs⟩
    simp only [OrderingState.read, hdec, if_pos hseq, hdrop, Outcome.andThen, Outcome.map, he.2.1,
      List.length_nil, OrderingState.deliverPending, List.append_nil]
    rw [he.2.1] at hexp
    split <;> exact ⟨hh, hexp⟩
  read_old := by
    intro i n o o' x hw he hi hn
    have hdec : decodeSequence (encodeSequence o'.seqWrite ++ F.frame o'.next x) =
        some o'.seqWrite := decodeSequence_encodeSequence_append _ _
    obtain ⟨hne, hng⟩ := not_isGreater hi (by omega : n ≤ i + 32767)
    rw [← hw.1, ← he.1] at hne hng
    have hread : OrderingState.read next o (encodeSequence o'.seqWrite ++ F.frame o'.next x) =
        { state := o } := by
      simp only [OrderingState.read, hdec, if_neg hne, hng, Bool.false_eq_true, if_false]
    show ((OrderingState.read next o (encodeSequence o'.seqWrite ++ F.frame o'.next x)).handled = []
      ∨ _) ∧ O.SeqExpects n
        (OrderingState.read next o (encodeSequence o'.seqWrite ++ F.frame o'.next x)).state
    rw [hread]
    exact ⟨.inl rfl, he⟩
  timeout := by
    intro n o atm id he
    show (OrderingState.timeout next o atm id).handled = [] ∧
      O.SeqExpects n (OrderingState.timeout next o atm id).state
    unfold OrderingState.timeout
    split
    · rw [he.2.1, List.any_nil, if_neg (by decide)]
      exact ⟨rfl, he⟩
    · obtain ⟨hh, hs⟩ := O.timeout atm id he.2.2
      exact ⟨hh, he.1, he.2.1, hs⟩

end InOrder

end NewbMeasurements.Protocols
