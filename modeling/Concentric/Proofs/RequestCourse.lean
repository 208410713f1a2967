import Concentric.Proofs.BlockWalk
import Concentric.Request

/-! The course of a request. All that a request does is written down in its order, from reading the
first value to the chain of the last position, and its answer is what the course ends with. So the
block parser and the outline are asked once or not at all, and the chains are those of the positions
that come before the cancellation, each as if it were asked for alone. -/

namespace Concentric

/-- The chains of positions, one after another, without those that are empty. -/
def Selection.chains (s : Selection) (ps : List Position) : Except Failure (List Chain) :=
  (ps.mapM s.chain).map fun cs => cs.filter fun c => !c.isEmpty

/-- What a provider has for the selections of a document, with an outline of its own. -/
def Provider.selection (provider : Provider) (d : Document) (outline : List Heading) : Selection :=
  ⟨d, (provider.tokens d).1, outline, provider.depthCap⟩

namespace Request

/-- The positions that are begun: those before the first at which the request is cancelled. -/
def begun (cancelled : Checkpoint → Bool) (positions : List Position) : List Position :=
  (positions.zipIdx.takeWhile fun p => !cancelled (.position p.2)).map (·.1)

/-- What a request does: it reads a value, looks whether it has been cancelled, asks for tokens or
for an outline, or starts on a position. -/
inductive Event
  | read (index : Nat)
  | look (checkpoint : Checkpoint)
  | parse
  | outline
  | start (index : Nat)
  deriving DecidableEq, Repr

/-- A part of a request: what it does, in its order, and what it ends with. -/
structure Course (α : Type) where
  events : List Event
  ending : Except Failure α

instance : Monad Course where
  pure a := ⟨[], .ok a⟩
  bind c f := match c.ending with
    | .ok a => ⟨c.events ++ (f a).events, (f a).ending⟩
    | .error e => ⟨c.events, .error e⟩

/-- A part that does one thing. -/
def Course.one {α : Type} (e : Event) (ending : Except Failure α) : Course α := ⟨[e], ending⟩

/-- Reads positions, from the value with an index on. -/
def readFrom (i : Nat) : List Value → Course (List Position)
  | [] => pure []
  | v :: vs => do
    let p ← .one (.read i) (Position.ofValue v)
    let ps ← readFrom (i + 1) vs
    return p :: ps

/-- Starts on positions, from the one with an index on, until the request is cancelled. -/
def collectFrom (s : Selection) (cancelled : Checkpoint → Bool) (i : Nat) :
    List Position → Course (List Chain)
  | [] => pure []
  | p :: ps => do
    if ← .one (.look (.position i)) (.ok (cancelled (.position i))) then pure []
    else
      let c ← .one (.start i) (s.chain p)
      let cs ← collectFrom s cancelled (i + 1) ps
      return if c.isEmpty then cs else c :: cs

/-- What a request does with its positions. -/
def answering (provider : Provider) (d : Document) (cancelled : Checkpoint → Bool)
    (positions : List Position) : Course (List Chain) :=
  if positions.isEmpty then pure []
  else do
    if ← .one (.look .begin) (.ok (cancelled .begin)) then pure []
    else
      let tokens ← .one .parse (.ok (provider.tokens d).1)
      let outline ← .one .outline (provider.outline d tokens)
      collectFrom ⟨d, tokens, outline, provider.depthCap⟩ cancelled 0 positions

/-- The course of a request. -/
def course (provider : Provider) (d : Document) (values : List Value)
    (cancelled : Checkpoint → Bool) : Course (List Chain) :=
  readFrom 0 values >>= answering provider d cancelled

/-- The chains that a request is answered with. -/
def chains (provider : Provider) (d : Document) (values : List Value)
    (cancelled : Checkpoint → Bool) : Except Failure (List Chain) :=
  (answer provider d values cancelled).map (·.chains)

/-- A request that has been cancelled stays so. -/
def Stays (cancelled : Checkpoint → Bool) : Prop :=
  ∀ i j, i ≤ j → cancelled (.position i) = true → cancelled (.position j) = true

/-- How many of the first positions are looked at before the request is cancelled. -/
def inTime (cancelled : Checkpoint → Bool) (n : Nat) : Nat :=
  (List.range n).countP fun i => !cancelled (.position i)

/-! ## Courses -/

section

variable {α β : Type} {c : Course α} {f : α → Course β} {a : α} {e : Failure}

theorem Course.bind_of_ok (h : c.ending = .ok a) :
    (c >>= f) = ⟨c.events ++ (f a).events, (f a).ending⟩ := by
  show (match c.ending with | .ok a => _ | .error e => _ : Course β) = _
  rw [h]

theorem Course.bind_of_error (h : c.ending = .error e) : (c >>= f) = ⟨c.events, .error e⟩ := by
  show (match c.ending with | .ok a => _ | .error e => _ : Course β) = _
  rw [h]

theorem Course.one_bind (a : α) (e : Event) (f : α → Course β) :
    (Course.one e (.ok a) >>= f) = ⟨e :: (f a).events, (f a).ending⟩ := rfl

theorem Course.events_bind_pure (c : Course α) (g : α → β) :
    (c >>= fun a => pure (g a)).events = c.events := by
  cases h : c.ending with
  | ok a =>
    rw [bind_of_ok h]
    exact List.append_nil _
  | error e => rw [bind_of_error h]

theorem Course.ending_bind (c : Course α) (f : α → Course β) :
    (c >>= f).ending = c.ending >>= fun a => (f a).ending := by
  cases h : c.ending with
  | ok a =>
    rw [bind_of_ok h]
    rfl
  | error e =>
    rw [bind_of_error h]
    rfl

end

/-! ## Reading values -/

theorem ending_readFrom (i : Nat) (vs : List Value) :
    (readFrom i vs).ending = vs.mapM Position.ofValue := by
  induction vs generalizing i with
  | nil => rfl
  | cons v vs ih =>
    unfold readFrom
    rw [List.mapM_cons, Course.ending_bind]
    refine congrArg (Position.ofValue v >>= ·) (funext fun p => ?_)
    rw [Course.ending_bind, ih]
    rfl

/-- Values are read one after another up to the first that is no position. -/
theorem events_readFrom (i : Nat) (vs : List Value) :
    ∃ k, (readFrom i vs).events = (List.range' i k).map .read ∧
      ∀ ps, vs.mapM Position.ofValue = .ok ps → k = vs.length := by
  induction vs generalizing i with
  | nil => exact ⟨0, rfl, fun _ _ => rfl⟩
  | cons v vs ih =>
    unfold readFrom
    cases hv : Position.ofValue v with
    | error e =>
      refine ⟨1, by rw [Course.bind_of_error rfl]; rfl, fun ps hps => ?_⟩
      rw [List.mapM_cons, hv] at hps
      cases hps
    | ok p =>
      obtain ⟨k, hevents, hlength⟩ := ih (i + 1)
      refine ⟨k + 1, ?_, fun ps hps => ?_⟩
      · rw [Course.one_bind, Course.events_bind_pure, hevents, List.range'_succ, List.map_cons]
      · rw [List.mapM_cons] at hps
        obtain ⟨p, -, hps⟩ := Failure.bind_eq_ok.mp hps
        obtain ⟨qs, hqs, -⟩ := Failure.bind_eq_ok.mp hps
        rw [hlength qs hqs, List.length_cons]

/-! ## Chains one after another -/

section

variable {s : Selection} {p : Position} {ps qs : List Position}

theorem chains_cons (s : Selection) (p : Position) (ps : List Position) :
    s.chains (p :: ps) = do
      let c ← s.chain p
      let cs ← s.chains ps
      return if c.isEmpty then cs else c :: cs := by
  unfold Selection.chains
  rw [List.mapM_cons]
  cases s.chain p with
  | error e => rfl
  | ok c =>
    rw [Failure.ok_bind, Failure.ok_bind]
    cases ps.mapM s.chain with
    | error e => rfl
    | ok cs =>
      show Except.ok ((c :: cs).filter _) = Except.ok (if c.isEmpty then _ else _)
      cases hc : c.isEmpty with
      | false => rw [List.filter_cons_of_pos (by rw [hc]; rfl), if_neg Bool.false_ne_true]
      | true => rw [List.filter_cons_of_neg (by rw [hc]; exact Bool.false_ne_true), if_pos rfl]

theorem chains_append (s : Selection) (ps qs : List Position) :
    s.chains (ps ++ qs) = do return (← s.chains ps) ++ (← s.chains qs) := by
  unfold Selection.chains
  rw [List.mapM_append]
  cases ps.mapM s.chain with
  | error e => rfl
  | ok cs =>
    rw [Failure.ok_bind]
    cases qs.mapM s.chain with
    | error e => rfl
    | ok cs' =>
      show Except.ok ((cs ++ cs').filter _) = Except.ok (_ ++ _)
      rw [List.filter_append]

/-- What is started on at the front of a list is a part of what is started on in the whole. -/
theorem chains_take {cs : List Chain} (k : Nat) (h : s.chains ps = .ok cs) :
    ∃ cs', s.chains (ps.take k) = .ok cs' ∧ cs' <+: cs := by
  rw [← List.take_append_drop k ps, chains_append] at h
  obtain ⟨front, hfront, h⟩ := Failure.bind_eq_ok.mp h
  obtain ⟨back, -, h⟩ := Failure.bind_eq_ok.mp h
  exact ⟨front, hfront, back, Except.ok.inj h⟩

end

/-! ## Positions in time -/

section

variable {s : Selection} {cancelled : Checkpoint → Bool} {i : Nat} {ps : List Position}

theorem begun_from (h : Stays cancelled) (i : Nat) (ps : List Position) :
    ((ps.zipIdx i).takeWhile fun p => !cancelled (.position p.2)).map (·.1) =
      ps.take ((List.range' i ps.length).countP fun j => !cancelled (.position j)) := by
  induction ps generalizing i with
  | nil => rfl
  | cons p ps ih =>
    rw [List.zipIdx_cons, List.length_cons, List.range'_succ]
    cases hi : cancelled (.position i) with
    | false =>
      rw [List.takeWhile_cons_of_pos (by rw [hi]; rfl), List.countP_cons_of_pos (by rw [hi]; rfl),
        List.map_cons, ih, List.take_succ_cons]
    | true =>
      have hlater : (List.range' (i + 1) ps.length).countP
          (fun j => !cancelled (.position j)) = 0 := by
        refine List.countP_eq_zero.mpr fun j hj => ?_
        have hle := (List.mem_range'_1.mp hj).1
        rw [h i j (by omega) hi]
        exact Bool.false_ne_true
      rw [List.takeWhile_cons_of_neg (by rw [hi]; exact Bool.false_ne_true),
        List.countP_cons_of_neg (by rw [hi]; exact Bool.false_ne_true), hlater]
      rfl

/-- The positions that are begun are the first ones, as many as are looked at in time. -/
theorem begun_eq_take (h : Stays cancelled) (ps : List Position) :
    begun cancelled ps = ps.take (inTime cancelled ps.length) := by
  unfold begun inTime
  rw [List.range_eq_range']
  exact begun_from h 0 ps

theorem begun_uncancelled (ps : List Position) : begun (fun _ => false) ps = ps := by
  have hall : inTime (fun _ => false) ps.length = ps.length := by
    show (List.range ps.length).countP (fun _ => true) = _
    rw [List.countP_true, List.length_range]
  have hstays : Stays fun _ => false := fun _ _ _ h => h
  rw [begun_eq_take hstays, hall, List.take_length]

/-- The loop over positions ends with the chains of those that are begun. -/
theorem ending_collectFrom (s : Selection) (cancelled : Checkpoint → Bool) (i : Nat)
    (ps : List Position) : (collectFrom s cancelled i ps).ending =
      s.chains (((ps.zipIdx i).takeWhile fun p => !cancelled (.position p.2)).map (·.1)) := by
  induction ps generalizing i with
  | nil => rfl
  | cons p ps ih =>
    unfold collectFrom
    rw [Course.ending_bind, List.zipIdx_cons]
    show (if cancelled (.position i) then _ else _ : Course (List Chain)).ending = _
    cases hi : cancelled (.position i) with
    | true =>
      rw [List.takeWhile_cons_of_neg (by rw [hi]; exact Bool.false_ne_true)]
      rfl
    | false =>
      rw [List.takeWhile_cons_of_pos (by rw [hi]; rfl), List.map_cons, chains_cons, ← ih]
      show (Course.one _ _ >>= _ : Course (List Chain)).ending = _
      rw [Course.ending_bind]
      refine congrArg (s.chain p >>= ·) (funext fun c => ?_)
      rw [Course.ending_bind]
      rfl

/-- The loop looks and starts, and does nothing else. -/
theorem events_collectFrom (s : Selection) (cancelled : Checkpoint → Bool) (i : Nat)
    (ps : List Position) : ∀ e ∈ (collectFrom s cancelled i ps).events,
      ∃ j, e = .look (.position j) ∨ e = .start j := by
  induction ps generalizing i with
  | nil =>
    intro e he
    cases he
  | cons p ps ih =>
    unfold collectFrom
    rw [Course.one_bind]
    intro e he
    rcases List.mem_cons.mp he with rfl | he
    · exact ⟨i, Or.inl rfl⟩
    cases hi : cancelled (.position i) with
    | true =>
      rw [hi] at he
      cases he
    | false =>
      rw [hi, if_neg Bool.false_ne_true] at he
      cases hc : s.chain p with
      | error f =>
        rw [hc, Course.bind_of_error rfl] at he
        exact ⟨i, Or.inr (List.mem_singleton.mp he)⟩
      | ok c =>
        rw [hc, Course.one_bind, Course.events_bind_pure] at he
        rcases List.mem_cons.mp he with rfl | he
        · exact ⟨i, Or.inr rfl⟩
        · exact ih (i + 1) e he

end

/-! ## Requests -/

section

variable {provider : Provider} {d : Document} {values more : List Value}
  {cancelled : Checkpoint → Bool} {ps qs : List Position} {f : Failure}

theorem course_of_error (h : values.mapM Position.ofValue = .error f) :
    (course provider d values cancelled).ending = .error f ∧
      ∃ k, (course provider d values cancelled).events = (List.range k).map .read := by
  obtain ⟨k, hevents, -⟩ := events_readFrom 0 values
  unfold course
  rw [Course.bind_of_error ((ending_readFrom 0 values).trans h)]
  exact ⟨rfl, k, by rw [List.range_eq_range']; exact hevents⟩

/-- Once all values have been read, nothing else is read. -/
theorem course_of_ok (h : values.mapM Position.ofValue = .ok ps) :
    course provider d values cancelled =
      ⟨(List.range values.length).map .read ++ (answering provider d cancelled ps).events,
        (answering provider d cancelled ps).ending⟩ := by
  obtain ⟨k, hevents, hlength⟩ := events_readFrom 0 values
  unfold course
  rw [Course.bind_of_ok ((ending_readFrom 0 values).trans h), hevents, hlength ps h,
    ← List.range_eq_range']

/-- Without positions, or where the request has been cancelled before it begins, nothing is asked
for. -/
theorem course_idle (h : values.mapM Position.ofValue = .ok ps)
    (hidle : ps = [] ∨ cancelled .begin = true) :
    (course provider d values cancelled).ending = .ok [] ∧
      ∃ later, (course provider d values cancelled).events =
        (List.range values.length).map .read ++ later ∧ ∀ e ∈ later, e = .look .begin := by
  rw [course_of_ok h]
  unfold answering
  cases ps with
  | nil => exact ⟨rfl, [], rfl, fun e he => absurd he List.not_mem_nil⟩
  | cons p ps =>
    have hbegin : cancelled .begin = true := hidle.resolve_left (List.cons_ne_nil _ _)
    rw [List.isEmpty_cons, if_neg Bool.false_ne_true, Course.one_bind, if_pos hbegin]
    exact ⟨rfl, [.look .begin], rfl, fun e he => List.mem_singleton.mp he⟩

/-- Else tokens and the outline are asked for, each one time, and then the positions follow. -/
theorem course_begun (h : values.mapM Position.ofValue = .ok ps) (hne : ps ≠ [])
    (hbegin : cancelled .begin = false) :
    (course provider d values cancelled).ending = (do
        let outline ← provider.outline d (provider.tokens d).1
        (provider.selection d outline).chains (begun cancelled ps)) ∧
      ∃ loop, (course provider d values cancelled).events =
        (List.range values.length).map .read ++ .look .begin :: .parse :: .outline :: loop ∧
        ∀ e ∈ loop, ∃ j, e = .look (.position j) ∨ e = .start j := by
  have hpos : ¬ ps.isEmpty = true := fun hnil => hne (List.isEmpty_iff.mp hnil)
  have hgo : ¬ cancelled .begin = true := Bool.eq_false_iff.mp hbegin
  rw [course_of_ok h]
  unfold answering
  rw [if_neg hpos, Course.one_bind, if_neg hgo, Course.one_bind]
  cases provider.outline d (provider.tokens d).1 with
  | error e => exact ⟨rfl, [], rfl, fun e he => absurd he List.not_mem_nil⟩
  | ok outline =>
    have hloop := events_collectFrom (provider.selection d outline) cancelled 0 ps
    exact ⟨ending_collectFrom (provider.selection d outline) _ _ _, _, rfl, hloop⟩

/-- What has been counted before counts on, and the chains come after those that are there. -/
theorem startFrom_eq (s : Selection) (cancelled : Checkpoint → Bool) (i : Nat) (r : Reply)
    (ps : List Position) : startFrom s cancelled i r ps =
      let first := ((ps.zipIdx i).takeWhile fun p => !cancelled (.position p.2)).map (·.1)
      (s.chains first).map fun cs =>
        { r with begun := r.begun + first.length, chains := r.chains ++ cs } := by
  induction ps generalizing i r with
  | nil => simp [startFrom, Selection.chains, Except.map, pure, Except.pure]
  | cons p ps ih =>
    unfold startFrom
    rw [List.zipIdx_cons]
    cases hi : cancelled (.position i) with
    | true =>
      rw [List.takeWhile_cons_of_neg (by rw [hi]; exact Bool.false_ne_true)]
      simp [Selection.chains, Except.map, pure, Except.pure]
    | false =>
      rw [List.takeWhile_cons_of_pos (by rw [hi]; rfl), if_neg Bool.false_ne_true, List.map_cons]
      dsimp only
      rw [chains_cons, List.length_cons]
      unfold Reply.start
      cases s.chain p with
      | error f => rfl
      | ok c =>
        rw [Failure.ok_bind, Failure.ok_bind]
        show startFrom s cancelled (i + 1) _ ps = _
        rw [ih]
        dsimp only
        generalize ((ps.zipIdx (i + 1)).takeWhile fun p => !cancelled (.position p.2)).map (·.1) = first
        cases s.chains first with
        | error f => rfl
        | ok cs =>
          show Except.ok _ = Except.ok _
          cases c.isEmpty <;> simp [Nat.add_assoc, Nat.add_comm 1]

/-- An answer has the chains of the positions that are begun, and what was asked for them. -/
theorem answer_of_ok (h : values.mapM Position.ofValue = .ok ps) (hne : ps ≠ [])
    (hbegin : cancelled .begin = false) : answer provider d values cancelled = do
      let outline ← provider.outline d (provider.tokens d).1
      let cs ← (provider.selection d outline).chains (begun cancelled ps)
      return ⟨cs, 1, 1, ps.length, (begun cancelled ps).length, (provider.tokens d).2⟩ := by
  have hgo : ¬ (ps.isEmpty || cancelled .begin) = true := by
    simpa [List.isEmpty_iff, hbegin] using hne
  unfold answer
  rw [h, Failure.ok_bind, if_neg hgo]
  unfold Reply.parse Reply.outline
  dsimp only
  cases provider.outline d (provider.tokens d).1 with
  | error e => rfl
  | ok outline =>
    rw [Failure.ok_bind]
    show startFrom (provider.selection d outline) cancelled 0 _ ps = _
    rw [startFrom_eq, Failure.ok_bind]
    show ((provider.selection d outline).chains (begun cancelled ps)).map _ = _
    cases (provider.selection d outline).chains (begun cancelled ps) with
    | error e => rfl
    | ok cs => simp [Except.map, Failure.ok_bind, pure, Except.pure, begun]

theorem answer_of_error (h : values.mapM Position.ofValue = .error f) :
    answer provider d values cancelled = .error f := by
  unfold answer
  rw [h]
  rfl

theorem answer_idle (h : values.mapM Position.ofValue = .ok ps)
    (hidle : ps = [] ∨ cancelled .begin = true) : answer provider d values cancelled = .ok {} := by
  have hstop : (ps.isEmpty || cancelled .begin) = true := by
    rwa [Bool.or_eq_true, List.isEmpty_iff]
  unfold answer
  rw [h, Failure.ok_bind, if_pos hstop]
  rfl

theorem chains_of_error (h : values.mapM Position.ofValue = .error f) :
    chains provider d values cancelled = .error f := by
  unfold chains
  rw [answer_of_error h]
  rfl

theorem chains_of_ok (h : values.mapM Position.ofValue = .ok ps) :
    chains provider d values cancelled =
      if ps = [] ∨ cancelled .begin = true then .ok [] else
        provider.outline d (provider.tokens d).1 >>= fun outline =>
          (provider.selection d outline).chains (begun cancelled ps) := by
  unfold chains
  split
  · next hidle =>
    rw [answer_idle h hidle]
    rfl
  · next hgo =>
    obtain ⟨hne, hbegin⟩ := not_or.mp hgo
    rw [answer_of_ok h hne (Bool.eq_false_iff.mpr hbegin)]
    cases provider.outline d (provider.tokens d).1 with
    | error e => rfl
    | ok outline =>
      rw [Failure.ok_bind, Failure.ok_bind]
      cases (provider.selection d outline).chains (begun cancelled ps) <;> rfl

/-- The answer is what the course ends with. -/
theorem chains_eq_ending (provider : Provider) (d : Document) (values : List Value)
    (cancelled : Checkpoint → Bool) :
    chains provider d values cancelled = (course provider d values cancelled).ending := by
  cases h : values.mapM Position.ofValue with
  | error f => rw [chains_of_error h, (course_of_error h).1]
  | ok ps =>
    rw [chains_of_ok h]
    split
    · next hidle => exact (course_idle h hidle).1.symm
    · next hgo =>
      obtain ⟨hne, hbegin⟩ := not_or.mp hgo
      exact (course_begun h hne (Bool.eq_false_iff.mpr hbegin)).1.symm

/-- Without cancellation one list of positions after another is answered with their answers one
after another. -/
theorem chains_append_uncancelled (hps : values.mapM Position.ofValue = .ok ps)
    (hqs : more.mapM Position.ofValue = .ok qs) :
    chains provider d (values ++ more) (fun _ => false) = do
      return (← chains provider d values fun _ => false) ++
        (← chains provider d more fun _ => false) := by
  have hall : (values ++ more).mapM Position.ofValue = .ok (ps ++ qs) := by
    rw [List.mapM_append, hps, hqs]
    rfl
  have hnever : ∀ rs : List Position, (rs = [] ∨ (fun _ : Checkpoint => false) .begin = true) ↔
      rs = [] := fun rs => or_iff_left Bool.false_ne_true
  rw [chains_of_ok hall, chains_of_ok hps, chains_of_ok hqs]
  simp only [hnever, begun_uncancelled]
  cases ps with
  | nil =>
    rw [if_pos rfl, List.nil_append, Failure.ok_bind]
    split
    · rfl
    · cases provider.outline d (provider.tokens d).1 with
      | error e => rfl
      | ok outline =>
        rw [Failure.ok_bind]
        cases (provider.selection d outline).chains qs <;> rfl
  | cons p ps =>
    have hne : p :: ps ≠ [] := List.cons_ne_nil _ _
    rw [if_neg (List.append_ne_nil_of_left_ne_nil hne qs), if_neg hne]
    cases provider.outline d (provider.tokens d).1 with
    | error e => rfl
    | ok outline =>
      rw [Failure.ok_bind, Failure.ok_bind, chains_append]
      refine congrArg ((provider.selection d outline).chains (p :: ps) >>= ·) (funext fun cs => ?_)
      cases qs with
      | nil => rfl
      | cons q qs => rfl

/-- A request that is cancelled is answered with a part of the answer that it would have had. -/
theorem chains_prefix (hstays : Stays cancelled) {cs : List Chain}
    (h : chains provider d values (fun _ => false) = .ok cs) :
    ∃ cs', chains provider d values cancelled = .ok cs' ∧ cs' <+: cs := by
  cases hps : values.mapM Position.ofValue with
  | error f =>
    rw [chains_of_error hps] at h
    cases h
  | ok ps =>
    rw [chains_of_ok hps] at h ⊢
    by_cases hidle : ps = [] ∨ cancelled .begin = true
    · rw [if_pos hidle]
      exact ⟨[], rfl, List.nil_prefix⟩
    · have hgo : ¬ (ps = [] ∨ (fun _ : Checkpoint => false) .begin = true) := fun hor =>
        hidle (Or.inl (hor.resolve_right Bool.false_ne_true))
      rw [if_neg hgo, begun_uncancelled] at h
      obtain ⟨outline, houtline, h⟩ := Failure.bind_eq_ok.mp h
      rw [if_neg hidle, houtline, Failure.ok_bind, begun_eq_take hstays]
      exact chains_take _ h

theorem count_reads {e : Event} (hne : ∀ i, e ≠ .read i) (n : Nat) (later : List Event) :
    ((List.range n).map Event.read ++ later).count e = later.count e := by
  have hnone : ((List.range n).map Event.read).count e = 0 := by
    refine List.count_eq_zero.mpr fun he => ?_
    obtain ⟨i, -, rfl⟩ := List.mem_map.mp he
    exact hne i rfl
  rw [List.count_append, hnone, Nat.zero_add]

/-- What the reply counts is what the course has. -/
theorem counts_eq {reply : Reply} (h : answer provider d values cancelled = .ok reply) :
    reply.parses = (course provider d values cancelled).events.count .parse ∧
      reply.outlines = (course provider d values cancelled).events.count .outline := by
  have hparse : ∀ i, Event.parse ≠ .read i := fun _ => Event.noConfusion
  have houtline : ∀ i, Event.outline ≠ .read i := fun _ => Event.noConfusion
  cases hps : values.mapM Position.ofValue with
  | error f =>
    rw [answer_of_error hps] at h
    cases h
  | ok ps =>
  by_cases hidle : ps = [] ∨ cancelled .begin = true
  · obtain ⟨-, later, hevents, hlater⟩ := course_idle (d := d) hps hidle
    rw [answer_idle hps hidle] at h
    obtain rfl := Except.ok.inj h
    rw [hevents, count_reads hparse, count_reads houtline]
    exact ⟨(List.count_eq_zero.mpr fun he => Event.noConfusion (hlater _ he)).symm,
      (List.count_eq_zero.mpr fun he => Event.noConfusion (hlater _ he)).symm⟩
  · obtain ⟨hne, hbegin⟩ := not_or.mp hidle
    rw [Bool.not_eq_true] at hbegin
    obtain ⟨-, loop, hevents, hloop⟩ := course_begun (d := d) hps hne hbegin
    rw [answer_of_ok hps hne hbegin] at h
    obtain ⟨outline, -, h⟩ := Failure.bind_eq_ok.mp h
    obtain ⟨cs, -, h⟩ := Failure.bind_eq_ok.mp h
    obtain rfl := Except.ok.inj h
    have hnone : ∀ e : Event, (∀ j, e ≠ .look (.position j)) → (∀ j, e ≠ .start j) →
        loop.count e = 0 := by
      intro e hlook hstart
      refine List.count_eq_zero.mpr fun he => ?_
      obtain ⟨j, rfl | rfl⟩ := hloop e he
      · exact hlook j rfl
      · exact hstart j rfl
    have hp := hnone .parse (fun _ => Event.noConfusion) fun _ => Event.noConfusion
    have ho := hnone .outline (fun _ => Event.noConfusion) fun _ => Event.noConfusion
    rw [hevents, count_reads hparse, count_reads houtline]
    constructor
    · rw [List.count_cons_of_ne Event.noConfusion, List.count_cons_self,
        List.count_cons_of_ne Event.noConfusion, hp]
    · rw [List.count_cons_of_ne Event.noConfusion, List.count_cons_of_ne Event.noConfusion,
        List.count_cons_self, ho]

end

/-- A request reads all its values first and fails if one of them is no position, before it has
asked for anything. Without positions, or if it has been cancelled by then, it is answered with no
chain and nothing is asked for. Else tokens and an outline are asked for one time each, and the
answer has the chains of the positions that are looked at in time. So without cancellation the
answers to two requests make up the answer to both, and an answer to a cancelled request is the
front part of the whole one. -/
theorem answer_course {provider : Provider} {d : Document} {values : List Value}
    {cancelled : Checkpoint → Bool} (hstays : Stays cancelled) :
    chains provider d values cancelled = (course provider d values cancelled).ending ∧
    (∀ reply, answer provider d values cancelled = .ok reply →
      reply.parses = (course provider d values cancelled).events.count .parse ∧
      reply.outlines = (course provider d values cancelled).events.count .outline) ∧
    (∀ f, values.mapM Position.ofValue = .error f →
      chains provider d values cancelled = .error f ∧
      ∃ k, (course provider d values cancelled).events = (List.range k).map .read) ∧
    (∀ ps, values.mapM Position.ofValue = .ok ps →
      (ps = [] ∨ cancelled .begin = true →
        chains provider d values cancelled = .ok [] ∧
        ∃ later, (course provider d values cancelled).events =
          (List.range values.length).map .read ++ later ∧ ∀ e ∈ later, e = .look .begin) ∧
      (ps ≠ [] → cancelled .begin = false →
        (chains provider d values cancelled = do
          let outline ← provider.outline d (provider.tokens d).1
          (provider.selection d outline).chains (ps.take (inTime cancelled ps.length))) ∧
        ∃ loop, (course provider d values cancelled).events =
          (List.range values.length).map .read ++ .look .begin :: .parse :: .outline :: loop ∧
          ∀ e ∈ loop, ∃ j, e = .look (.position j) ∨ e = .start j) ∧
      (∀ more qs, more.mapM Position.ofValue = .ok qs →
        chains provider d (values ++ more) (fun _ => false) = do
          return (← chains provider d values fun _ => false) ++
            (← chains provider d more fun _ => false))) ∧
    ∀ cs, chains provider d values (fun _ => false) = .ok cs →
      ∃ cs', chains provider d values cancelled = .ok cs' ∧ cs' <+: cs := by
  have hending := chains_eq_ending provider d values cancelled
  refine ⟨hending, fun reply => counts_eq, fun f hf => ?_, fun ps hps => ⟨fun hidle => ?_, ?_, ?_⟩,
    fun cs => chains_prefix hstays⟩
  · exact ⟨chains_of_error hf, (course_of_error hf).2⟩
  · obtain ⟨hidle, hevents⟩ := @course_idle provider d _ _ _ hps hidle
    exact ⟨hending.trans hidle, hevents⟩
  · intro hne hbegin
    obtain ⟨hbegun, hevents⟩ := @course_begun provider d _ _ _ hps hne hbegin
    rw [begun_eq_take hstays] at hbegun
    exact ⟨hending.trans hbegun, hevents⟩
  · exact fun more qs hqs => chains_append_uncancelled hps hqs

/-- Cancelled while the first position is worked on. -/
def afterFirst : Checkpoint → Bool
  | .position (_ + 1) => true
  | _ => false

theorem afterFirst_stays : Stays afterFirst := by
  intro i j hle h
  cases j with
  | zero =>
    obtain rfl := Nat.le_zero.mp hle
    exact h
  | succ j => rfl

/-- Of the two lines of the list the first has its chain and the second is not begun. -/
theorem topList_answered : chains (.ofTokens Selection.topListTokens none none) Selection.topList
    [.position ⟨1, 0⟩, .position ⟨2, 0⟩] afterFirst =
      .ok [[⟨1, 1⟩, ⟨1, 2⟩, ⟨0, 2⟩].map (Rows.step Selection.topList)] := by
  have hread : [Value.position ⟨1, 0⟩, .position ⟨2, 0⟩].mapM Position.ofValue =
      .ok [⟨1, 0⟩, ⟨2, 0⟩] := rfl
  have hchain : Selection.chain ⟨Selection.topList, Selection.topListTokens,
      Selection.topListOutline, .whole (4 : Nat)⟩ ⟨1, 0⟩ =
        .ok ([⟨1, 1⟩, ⟨1, 2⟩, ⟨0, 2⟩].map (Rows.step Selection.topList)) :=
    Selection.chain_eq Selection.topList_shaped rfl rfl (by simp)
  obtain ⟨-, -, -, hok, -⟩ := @answer_course (.ofTokens Selection.topListTokens none none)
    Selection.topList _ _ afterFirst_stays
  rw [((hok _ hread).2.1 (List.cons_ne_nil _ _) rfl).1]
  have houtline : Outline.ofTokens Selection.topList Selection.topListTokens =
      .ok Selection.topListOutline := rfl
  show (Outline.ofTokens Selection.topList Selection.topListTokens >>= _) = _
  rw [houtline, Failure.ok_bind]
  show Selection.chains _ [⟨1, 0⟩] = _
  rw [chains_cons]
  show (Selection.chain ⟨Selection.topList, Selection.topListTokens, Selection.topListOutline,
    .whole (4 : Nat)⟩ ⟨1, 0⟩ >>= _) = _
  rw [hchain]
  rfl

end Request

end Concentric
