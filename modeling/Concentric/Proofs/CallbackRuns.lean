import Concentric.Cancellation
import Mathlib.Data.List.Induction
import Mathlib.Data.List.Flatten
import Mathlib.Data.List.Nodup
import Mathlib.Data.List.Pairwise

/-! Callbacks and their runs. Whatever is done with a signal, in whatever order, each callback runs
once for each time that it is registered if the signal is given at all, and not at all otherwise:
those that wait run in their order when the signal is given first, the others when they are
registered. That some of them fail with an error, register others or give the signal again changes
nothing. Only an interruption among those that wait has the rest of these never run. -/

namespace Concentric

/-- What is done with a signal: a callback is registered, or the signal is given. -/
inductive Operation
  | register (c : Callback)
  | cancel

namespace Callback

def name : Callback → String
  | mk name _ _ _ => name

/-- What a callback does with the signal while it runs. -/
def operations : Callback → List Operation
  | mk _ others cancels _ => others.map Operation.register ++ if cancels then [.cancel] else []

def fails : Callback → Option Severity
  | mk _ _ _ fails => fails

mutual

/-- The names of a callback and of all that it may register. -/
def names : Callback → List String
  | mk name others _ _ => name :: namesAll others

def namesAll : List Callback → List String
  | [] => []
  | c :: cs => names c ++ namesAll cs

end

theorem name_mem_run (c : Callback) : c.name ∈ c.run.noted := by
  cases c
  simp [name, run]

mutual

/-- A run notes no name more often than there are callbacks of the name. -/
theorem noted_run_sublist : ∀ c : Callback, c.run.noted.Sublist c.names
  | mk name others _ _ => by
    rw [run, names]
    exact (noted_runAll_sublist others).cons_cons name

theorem noted_runAll_sublist : ∀ cs : List Callback, (runAll cs).noted.Sublist (namesAll cs)
  | [] => List.Sublist.refl []
  | c :: cs => by
    have hfirst := noted_run_sublist c
    rw [runAll, namesAll]
    dsimp only
    split
    · exact hfirst.trans (List.sublist_append_left _ _)
    · exact hfirst.append (noted_runAll_sublist cs)

end

/-- The callbacks that come to their turn if these wait for the signal: those up to the first that is
interrupted. -/
def delivered : List Callback → List Callback
  | [] => []
  | c :: cs => c :: if c.run.isInterrupted then [] else delivered cs

theorem delivered_prefix (cs : List Callback) : delivered cs <+: cs := by
  induction cs with
  | nil => exact List.prefix_rfl
  | cons c cs ih =>
    unfold delivered
    split
    · exact (List.prefix_cons_inj c).mpr (List.nil_prefix)
    · exact (List.prefix_cons_inj c).mpr ih

/-- All come to their turn if none of them but the last is interrupted. -/
theorem delivered_eq {cs : List Callback} (h : ∀ c ∈ cs.dropLast, c.run.isInterrupted = false) :
    delivered cs = cs := by
  induction cs with
  | nil => rfl
  | cons c cs ih =>
    unfold delivered
    cases cs with
    | nil => simp [delivered]
    | cons c' cs =>
      rw [List.dropLast_cons_cons, List.forall_mem_cons] at h
      rw [h.1, if_neg Bool.false_ne_true, ih h.2]

/-- What callbacks note that run one after another. -/
def noting (cs : List Callback) : List String := cs.flatMap fun c => c.run.noted

theorem noting_append (cs more : List Callback) :
    noting (cs ++ more) = noting cs ++ noting more := List.flatMap_append

theorem noting_sublist (cs : List Callback) : (noting cs).Sublist (cs.flatMap names) :=
  List.Sublist.flatMap_right cs fun c _ => noted_run_sublist c

end Callback

namespace Operation

variable {ops : List Operation} {op : Operation}

def step (s : Cancellation) : Operation → Cancellation.Step
  | register c => s.register c
  | cancel => s.cancel

def isCancel : Operation → Bool
  | register _ => false
  | cancel => true

def callback? : Operation → Option Callback
  | register c => some c
  | cancel => none

/-- One of the operations gives the signal. -/
def given (ops : List Operation) : Bool := ops.any isCancel

/-- The callbacks that operations register, in their order. -/
def registered (ops : List Operation) : List Callback := ops.filterMap callback?

/-- The callbacks that wait when the signal is given first. -/
def early : List Operation → List Callback
  | [] | cancel :: _ => []
  | register c :: ops => c :: early ops

/-- The callbacks that are registered after that. -/
def late : List Operation → List Callback
  | [] => []
  | cancel :: ops => registered ops
  | register _ :: ops => late ops

/-- The callbacks that have run after operations. -/
def ran (ops : List Operation) : List Callback :=
  if given ops then Callback.delivered (early ops) ++ late ops else []

/-- The callbacks that an operation runs after others: those that wait for the signal, as they come
to their turn, if it is the first to give it, and one that is registered later by itself. -/
def runs (before : List Operation) : Operation → List Callback
  | register c => if given before then [c] else []
  | cancel => if given before then [] else Callback.delivered (registered before)

theorem given_append (ops more : List Operation) :
    given (ops ++ more) = (given ops || given more) := List.any_append

theorem registered_append (ops more : List Operation) :
    registered (ops ++ more) = registered ops ++ registered more := List.filterMap_append

@[simp] theorem given_register (ops : List Operation) (c : Callback) :
    given (ops ++ [register c]) = given ops := by
  rw [given_append]
  exact Bool.or_false _

@[simp] theorem given_cancel (ops : List Operation) : given (ops ++ [cancel]) = true := by
  rw [given_append]
  exact Bool.or_true _

@[simp] theorem registered_register (ops : List Operation) (c : Callback) :
    registered (ops ++ [register c]) = registered ops ++ [c] := registered_append ops [register c]

theorem early_append_late (ops : List Operation) : early ops ++ late ops = registered ops := by
  induction ops with
  | nil => rfl
  | cons op ops ih =>
    cases op with
    | register c => exact congrArg (c :: ·) ih
    | cancel => rfl

theorem early_of_given (h : given ops = true) (more : List Operation) :
    early (ops ++ more) = early ops := by
  induction ops with
  | nil => cases h
  | cons op ops ih =>
    cases op with
    | register c => exact congrArg (c :: ·) (ih h)
    | cancel => rfl

theorem late_of_given (h : given ops = true) (more : List Operation) :
    late (ops ++ more) = late ops ++ registered more := by
  induction ops with
  | nil => cases h
  | cons op ops ih =>
    cases op with
    | register c => exact ih h
    | cancel => exact registered_append ops more

theorem early_of_not_given (h : given ops = false) (more : List Operation) :
    early (ops ++ more) = registered ops ++ early more := by
  induction ops with
  | nil => rfl
  | cons op ops ih =>
    cases op with
    | register c => exact congrArg (c :: ·) (ih h)
    | cancel => cases h

theorem late_of_not_given (h : given ops = false) (more : List Operation) :
    late (ops ++ more) = late more := by
  induction ops with
  | nil => rfl
  | cons op ops ih =>
    cases op with
    | register c => exact ih h
    | cancel => cases h

/-- One more operation adds the callbacks that it runs. -/
theorem ran_concat (ops : List Operation) (op : Operation) :
    ran (ops ++ [op]) = ran ops ++ runs ops op := by
  unfold ran
  cases hops : given ops with
  | true =>
    have hmore : given (ops ++ [op]) = true := by rw [given_append, hops, Bool.true_or]
    rw [if_pos hmore, if_pos rfl, early_of_given hops, late_of_given hops, List.append_assoc]
    cases op <;> simp [runs, hops, registered, callback?]
  | false =>
    cases op with
    | register c => simp [runs, hops]
    | cancel =>
      rw [if_pos (given_cancel ops), early_of_not_given hops, late_of_not_given hops]
      simp [runs, hops, early, late, registered]

theorem ran_sublist (ops : List Operation) : (ran ops).Sublist (registered ops) := by
  unfold ran
  split
  · rw [← early_append_late]
    exact (Callback.delivered_prefix _).sublist.append (List.Sublist.refl _)
  · exact List.nil_sublist _

/-- All that are registered have run if the signal was given, unless one that waited was interrupted
before another one. -/
theorem ran_eq (h : ∀ c ∈ (early ops).dropLast, c.run.isInterrupted = false) :
    ran ops = if given ops then registered ops else [] := by
  rw [ran, Callback.delivered_eq h, early_append_late]

end Operation

namespace Cancellation

open Operation

variable {s : Cancellation} {ops : List Operation}

/-- The signal after operations, all of which are done whether one of them fails or not. -/
def after (s : Cancellation) (ops : List Operation) : Cancellation :=
  ops.foldl (fun s op => (op.step s).signal) s

/-- Operations one after another, up to the first that fails. -/
def perform (s : Cancellation) : List Operation → Step
  | [] => { signal := s }
  | op :: ops =>
    let r := op.step s
    match r.failure with
    | some _ => r
    | none =>
      let rest := r.signal.perform ops
      { rest with notices := r.notices ++ rest.notices }

/-- What the run of a callback leads to: its name is noted, it does what it does with the signal, and
then it fails if it is to. -/
def running (s : Cancellation) (c : Callback) : Step :=
  let r := (s.note [c.name]).perform c.operations
  { r with failure := r.failure.or (c.fails.map fun severity =>
      (⟨c.name, severity⟩ : CallbackFault).failure) }

@[simp] theorem note_note (s : Cancellation) (names more : List String) :
    (s.note names).note more = s.note (names ++ more) := by
  simp [note]

theorem register_of_requested (h : s.requested = true) (c : Callback) :
    s.register c = { signal := s.note c.run.noted
                     failure := c.run.failed.map (·.failure) } := by
  rw [register, if_pos h]

/-- Callbacks that are registered once the signal is given run up to the first that fails, and what
is to be done after them is done if none does. -/
theorem perform_registers (h : s.requested = true) (cs : List Callback) (ops : List Operation) :
    s.perform (cs.map Operation.register ++ ops) = match (Callback.runAll cs).failed with
      | some fault => { signal := s.note (Callback.runAll cs).noted
                        failure := some fault.failure }
      | none => (s.note (Callback.runAll cs).noted).perform ops := by
  induction cs generalizing s with
  | nil => simp [Callback.runAll, note]
  | cons c cs ih =>
    rw [List.map_cons, List.cons_append, perform, Operation.step, register_of_requested h,
      Callback.runAll]
    cases hfailed : c.run.failed with
    | some fault => simp
    | none =>
      have hrest := ih (s := s.note c.run.noted) h
      simp only [Option.map_none, hrest, List.nil_append]
      cases (Callback.runAll cs).failed <;> simp

/-- A callback that runs at once does what it does with the signal itself. -/
theorem register_eq_running (h : s.requested = true) (c : Callback) :
    s.register c = s.running c := by
  obtain ⟨name, others, cancels, fails⟩ := c
  -- To give the signal once more leads to nothing.
  have hcancels : ∀ names : List String,
      (s.note names).perform (if cancels then [.cancel] else []) = { signal := s.note names } := by
    intro names
    cases cancels with
    | false => rfl
    | true =>
      have hgiven : (s.note names).requested = true := h
      simp [perform, Operation.step, cancel_of_requested hgiven]
  rw [register_of_requested h, running, Callback.operations,
    perform_registers (s := s.note [Callback.name _]) h, note_note, hcancels, Callback.run]
  cases (Callback.runAll others).failed with
  | some inner => simp [Callback.name]
  | none => simp [Callback.name, Callback.fails, Option.map_map, Function.comp_def]

theorem after_registers (h : s.requested = true) (cs : List Callback) :
    s.after (cs.map Operation.register) = s.note (Callback.noting cs) := by
  induction cs generalizing s with
  | nil => simp [after, note, Callback.noting]
  | cons c cs ih =>
    have hrest := ih (s := s.note c.run.noted) h
    rw [List.map_cons, after, List.foldl_cons, Operation.step, register_of_requested h]
    exact hrest.trans (note_note s _ _)

/-- Callbacks that waited note their names as they come to their turn. -/
theorem signal_deliver (s : Cancellation) (cs : List Callback) :
    (s.deliver cs).signal = s.note (Callback.noting (Callback.delivered cs)) := by
  induction cs generalizing s with
  | nil => simp [deliver, note, Callback.delivered, Callback.noting]
  | cons c cs ih =>
    rw [deliver, Callback.delivered]
    cases hcut : c.run.isInterrupted with
    | true => simp [Callback.noting]
    | false =>
      have hrest := ih (s.note c.run.noted)
      rw [note_note] at hrest
      simpa [hcut, Callback.noting] using hrest

/-- Giving the signal to callbacks fails just as the first one that is interrupted. -/
theorem failure_deliver (s : Cancellation) (cs : List Callback) : (s.deliver cs).failure =
    (cs.find? fun c => c.run.isInterrupted).bind fun c => c.run.failed.map (·.failure) := by
  induction cs generalizing s with
  | nil => rfl
  | cons c cs ih =>
    rw [deliver, List.find?_cons]
    cases hcut : c.run.isInterrupted with
    | true => simp
    | false => simpa [hcut] using ih (s.note c.run.noted)

/-- Callbacks that wait and come to their turn run as if they were registered just after the signal
was given. -/
theorem signal_cancel (h : s.requested = false) :
    s.cancel.signal = ({ s with requested := true, waiting := [] } : Cancellation).after
      ((Callback.delivered s.waiting).map Operation.register) := by
  rw [after_registers rfl, cancel, if_neg (by simp [h])]
  exact signal_deliver _ _

/-- The signal that operations lead to: the callbacks wait in their order until it is given, and those
that are to run have when it is. -/
def reached (ops : List Operation) : Cancellation :=
  if given ops then ⟨true, [], Callback.noting (ran ops)⟩ else ⟨false, registered ops, []⟩

theorem reached_of_given (h : given ops = true) :
    reached ops = ⟨true, [], Callback.noting (ran ops)⟩ := if_pos h

theorem reached_of_not_given (h : given ops = false) :
    reached ops = ⟨false, registered ops, []⟩ := if_neg (by simp [h])

theorem after_concat (s : Cancellation) (ops : List Operation) (op : Operation) :
    s.after (ops ++ [op]) = (op.step (s.after ops)).signal := by
  rw [after, List.foldl_append]
  rfl

/-- One more operation leads from the signal that is reached to the next. -/
theorem step_reached (ops : List Operation) (op : Operation) :
    (op.step (reached ops)).signal = reached (ops ++ [op]) := by
  cases hops : given ops with
  | true =>
    have hmore : given (ops ++ [op]) = true := by rw [given_append, hops, Bool.true_or]
    rw [reached_of_given hops, reached_of_given hmore, ran_concat, Callback.noting_append]
    cases op with
    | register c => simp [step, register, note, runs, hops, Callback.noting]
    | cancel => simp [step, cancel, runs, hops, Callback.noting]
  | false =>
    have hnone : ran ops = [] := if_neg (by simp [hops])
    rw [reached_of_not_given hops]
    cases op with
    | register c =>
      rw [reached_of_not_given (by rw [given_register, hops]), registered_register]
      rfl
    | cancel =>
      -- All that wait come to their turn now, up to the first that is interrupted.
      rw [reached_of_given (given_cancel ops), ran_concat, hnone]
      show (deliver _ _).signal = _
      rw [signal_deliver]
      simp [runs, hops, note]

theorem after_eq (ops : List Operation) : ({} : Cancellation).after ops = reached ops := by
  induction ops using List.reverseRecOn with
  | nil => rfl
  | append_singleton ops op ih => rw [after_concat, ih, step_reached]

theorem requested_after (ops : List Operation) :
    (({} : Cancellation).after ops).requested = given ops := by
  rw [after_eq]
  cases h : given ops with
  | true => rw [reached_of_given h]
  | false => rw [reached_of_not_given h]

theorem noted_after (ops : List Operation) :
    (({} : Cancellation).after ops).noted = Callback.noting (ran ops) := by
  rw [after_eq]
  cases h : given ops with
  | true => rw [reached_of_given h]
  | false =>
    rw [reached_of_not_given h, ran, h]
    rfl

theorem noted_step (ops : List Operation) (op : Operation) :
    (op.step (({} : Cancellation).after ops)).signal.noted =
      (({} : Cancellation).after ops).noted ++ Callback.noting (runs ops op) := by
  rw [← after_concat, noted_after, noted_after, ran_concat, Callback.noting_append]

/-- Where no two callbacks have a name in common, each that is registered has its name noted once if
it has run, and not at all otherwise. -/
theorem count_after (hnames : ((registered ops).flatMap Callback.names).Nodup) {c : Callback}
    (hc : c ∈ registered ops) [Decidable (c ∈ ran ops)] :
    (({} : Cancellation).after ops).noted.count c.name = if c ∈ ran ops then 1 else 0 := by
  have hran := ran_sublist ops
  rw [noted_after]
  split
  · next hmem =>
    have hnodup := hnames.sublist
      ((Callback.noting_sublist (ran ops)).trans (hran.flatMap Callback.names))
    exact List.count_eq_one_of_mem hnodup (List.mem_flatMap.mpr ⟨c, hmem, c.name_mem_run⟩)
  · next hnot =>
    rw [List.count_eq_zero]
    intro hname
    obtain ⟨c', hc', hin⟩ := List.mem_flatMap.mp ((Callback.noting_sublist _).subset hname)
    have : Std.Symm (Function.onFun List.Disjoint Callback.names) :=
      ⟨fun _ _ hdisjoint => List.disjoint_symm hdisjoint⟩
    have hapart := (List.nodup_flatMap.mp hnames).2.forall hc (hran.subset hc')
      fun heq => hnot (heq ▸ hc')
    exact hapart ((Callback.noted_run_sublist c).subset c.name_mem_run) hin

/-- After any operations on a new signal it is given if one of them gives it, and stays given. If it
is given, each callback that was registered has run once, in the order of the registrations, and
otherwise none has; this leaves out those that waited for the signal behind one that was interrupted
when it was given. An operation after them runs those that wait if it is the first to give the
signal, whichever of these fail with an error, or else the one callback that it registers, if the
signal is given; that failure, or the interruption of one that waited, is one of the operation. What
a callback does with the signal while it runs, it does with the same signal. -/
theorem after_once (ops : List Operation) :
    (({} : Cancellation).after ops).requested = given ops ∧
    (∀ more, (({} : Cancellation).after ops).requested = true →
      (({} : Cancellation).after (ops ++ more)).requested = true) ∧
    (({} : Cancellation).after ops).noted = Callback.noting (ran ops) ∧
    ((∀ c ∈ (early ops).dropLast, c.run.isInterrupted = false) →
      ran ops = if given ops then registered ops else []) ∧
    (((registered ops).flatMap Callback.names).Nodup →
      (∀ c ∈ (early ops).dropLast, c.run.isInterrupted = false) → ∀ c ∈ registered ops,
      (({} : Cancellation).after ops).noted.count c.name = if given ops then 1 else 0) ∧
    (∀ op : Operation, (op.step (({} : Cancellation).after ops)).signal.noted =
      (({} : Cancellation).after ops).noted ++ Callback.noting (runs ops op)) ∧
    (({} : Cancellation).after ops).cancel.failure = (if given ops then none else
      ((registered ops).find? fun c => c.run.isInterrupted).bind fun c =>
        c.run.failed.map (·.failure)) ∧
    (∀ c, ((({} : Cancellation).after ops).register c).failure =
      if given ops then c.run.failed.map (·.failure) else none) ∧
    (given ops = true → ∀ c,
      (({} : Cancellation).after ops).register c = (({} : Cancellation).after ops).running c) ∧
    (given ops = false → (({} : Cancellation).after ops).cancel.signal =
      (⟨true, [], []⟩ : Cancellation).after
        ((Callback.delivered (registered ops)).map Operation.register)) := by
  have hrequested := requested_after ops
  refine ⟨hrequested, fun more h => ?_, noted_after ops, ran_eq, fun hnames hcalm c hc => ?_,
    noted_step ops, ?_, fun c => ?_, fun hgiven c => ?_, fun hgiven => ?_⟩
  · rw [requested_after, given_append, ← hrequested, h]
    rfl
  · classical
    rw [count_after hnames hc, ran_eq hcalm]
    cases given ops with
    | true => exact if_pos hc
    | false => rfl
  · cases hgiven : given ops with
    | true =>
      rw [cancel_of_requested (hrequested.trans hgiven)]
      rfl
    | false =>
      rw [after_eq, reached_of_not_given hgiven]
      exact failure_deliver _ _
  · rw [register, hrequested]
    cases given ops <;> rfl
  · exact register_eq_running (hrequested.trans hgiven) c
  · rw [signal_cancel (hrequested.trans hgiven), after_eq, reached_of_not_given hgiven]

/-- The first of two callbacks that wait registers another and fails. The second runs all the same,
and so does one that is registered later; the signal is given once more without effect. -/
theorem failingFirst_once :
    let first := Callback.mk "a" [.mk "b" [] true none] false (some .error)
    let ops := [.register first, .register (.mk "c" [] false none), .cancel,
      .register (.mk "d" [] false none), .cancel]
    (({} : Cancellation).after ops).requested = true ∧
      (({} : Cancellation).after ops).noted = ["a", "b", "c", "d"] ∧
      (({} : Cancellation).after ops).noted.count first.name = 1 := by
  intro first ops
  obtain ⟨hrequested, -, hnoted, hran, hcount, -⟩ := after_once ops
  have hgiven : given ops = true := rfl
  have hnames : ((registered ops).flatMap Callback.names).Nodup := by decide
  have hcalm : ∀ c ∈ (early ops).dropLast, c.run.isInterrupted = false := by
    intro c hc
    obtain rfl := List.mem_singleton.mp hc
    rfl
  refine ⟨hrequested, ?_, ?_⟩
  · rw [hnoted, hran hcalm, hgiven]
    decide
  · rw [hcount hnames hcalm first List.mem_cons_self, hgiven]
    rfl

/-- The first of two callbacks that wait is interrupted. The second never runs, though the signal is
given twice. -/
theorem interruptedFirst_lost :
    let second := Callback.mk "b" [] false none
    let ops := [.register (.mk "a" [] false (some .interruption)), .register second, .cancel, .cancel]
    (({} : Cancellation).after ops).requested = true ∧ second ∈ registered ops ∧
      ((registered ops).flatMap Callback.names).Nodup ∧
      (({} : Cancellation).after ops).noted.count second.name = 0 := by
  refine ⟨rfl, List.mem_cons_of_mem _ List.mem_cons_self, by decide, by decide⟩

end Cancellation

end Concentric
