import Mathlib.Data.List.Induction

/-!
# Programs that may fault, and runs of events

`Returns` is the only judgement about a program: from a state it ends without a
fault, in a state and with a value. Sequencing is rewritten by
`returns_bind_iff`, so a program is executed symbolically one effect at a time.
`execute` folds a step over a list of events; invariants and histories of a run
follow from one step.
-/

namespace FsProtection.Base

variable {State Value Other Event : Type} {Fault : Type}

/-- A program over a state, ending with a value or with a fault. -/
abbrev Program (State Fault : Type) := StateT State (Except Fault)

/-- The program started in `before` ends without a fault. -/
def Returns (program : Program State Fault Value) (before : State) (value : Value)
    (after : State) : Prop :=
  program.run before = .ok (value, after)

/-- A program returns in one way at most. -/
theorem Returns.unique {program : Program State Fault Value} {before after other : State}
    {value second : Value} (first : Returns program before value after)
    (again : Returns program before second other) : value = second ∧ after = other := by
  have equal := first.symm.trans again
  simpa using equal

@[simp] theorem returns_pure_iff {before after : State} {value result : Value} :
    Returns (pure value : Program State Fault Value) before result after ↔
      result = value ∧ after = before := by
  have ran : (pure value : Program State Fault Value).run before = .ok (value, before) := rfl
  rw [Returns, ran, Except.ok.injEq, Prod.mk.injEq, eq_comm, @eq_comm _ before]

/-- A sequence returns exactly when its first part returns and the rest returns
from the state the first part left. -/
theorem returns_bind_iff {first : Program State Fault Other}
    {rest : Other → Program State Fault Value} {before after : State} {value : Value} :
    Returns (first >>= rest) before value after ↔
      ∃ result middle, Returns first before result middle ∧
        Returns (rest result) middle value after := by
  unfold Returns
  rw [StateT.run_bind]
  cases first.run before with
  | error fault => simp [bind, Except.bind]
  | ok outcome =>
      obtain ⟨result, middle⟩ := outcome
      constructor
      · intro continued
        exact ⟨result, middle, rfl, continued⟩
      · rintro ⟨_, _, same, continued⟩
        cases same
        exact continued

/-- Programs one after the other return. -/
theorem Returns.bind {first : Program State Fault Other}
    {rest : Other → Program State Fault Value} {before middle after : State}
    {result : Other} {value : Value} (start : Returns first before result middle)
    (continued : Returns (rest result) middle value after) :
    Returns (first >>= rest) before value after :=
  returns_bind_iff.mpr ⟨result, middle, start, continued⟩

/-- A sequence whose first part has a known outcome is its rest. -/
theorem returns_bind_of_returns {first : Program State Fault Other}
    {rest : Other → Program State Fault Value} {before middle after : State}
    {result : Other} {value : Value} (start : Returns first before result middle) :
    Returns (first >>= rest) before value after ↔ Returns (rest result) middle value after := by
  rw [returns_bind_iff]
  constructor
  · rintro ⟨_, _, again, continued⟩
    obtain ⟨rfl, rfl⟩ := start.unique again
    exact continued
  · exact fun continued => ⟨result, middle, start, continued⟩

/-- A sequence succeeds exactly when its first part does and the rest does on its value. -/
theorem bind_eq_ok_iff {first : Except Fault Value} {rest : Value → Except Fault Other}
    {result : Other} :
    (first >>= rest) = .ok result ↔ ∃ value, first = .ok value ∧ rest value = .ok result := by
  cases first <;> simp [bind, Except.bind]

/-- A computation that runs a program first succeeds exactly when the program returns
and the rest succeeds on the outcome. -/
theorem run_bind_eq_ok {program : Program State Fault Value} {before : State}
    {rest : Value × State → Except Fault Other} {result : Other} :
    (program.run before >>= rest) = .ok result ↔
      ∃ value after, Returns program before value after ∧ rest (value, after) = .ok result := by
  unfold Returns
  cases program.run before with
  | error fault => simp [bind, Except.bind]
  | ok outcome =>
      obtain ⟨value, after⟩ := outcome
      simp [bind, Except.bind]

@[simp] theorem returns_map_iff {change : Value → Other} {program : Program State Fault Value}
    {before after : State} {result : Other} :
    Returns (change <$> program) before result after ↔
      ∃ value, Returns program before value after ∧ result = change value := by
  rw [← bind_pure_comp, returns_bind_iff]
  simp only [returns_pure_iff]
  constructor
  · rintro ⟨value, middle, returned, rfl, rfl⟩
    exact ⟨value, returned, rfl⟩
  · rintro ⟨value, returned, rfl⟩
    exact ⟨value, after, returned, rfl, rfl⟩

@[simp] theorem returns_throw_iff {fault : Fault} {before after : State} {value : Value} :
    Returns (throw fault : Program State Fault Value) before value after ↔ False := by
  simp [Returns, throw, throwThe, MonadExceptOf.throw, StateT.run, StateT.lift, bind, Except.bind]

@[simp] theorem returns_get_iff {before after result : State} :
    Returns (get : Program State Fault State) before result after ↔
      result = before ∧ after = before := by
  simp [Returns, pure, Except.pure, eq_comm]

@[simp] theorem returns_modify_iff {update : State → State} {before after : State} {value : Unit} :
    Returns (modify update : Program State Fault Unit) before value after ↔
      after = update before := by
  simp [Returns, pure, Except.pure, eq_comm]

theorem returns_modify {update : State → State} {before : State} :
    Returns (modify update : Program State Fault Unit) before () (update before) :=
  returns_modify_iff.mpr rfl

@[simp] theorem returns_set_iff {next before after : State} {value : Unit} :
    Returns (set next : Program State Fault Unit) before value after ↔ after = next := by
  simp [Returns, pure, Except.pure, eq_comm]

/-- An outcome that is known returns or faults, and changes nothing. -/
@[simp] theorem returns_lift_iff {outcome : Except Fault Value} {before after : State}
    {value : Value} :
    Returns (liftM outcome : Program State Fault Value) before value after ↔
      outcome = .ok value ∧ after = before := by
  cases outcome <;>
    simp [Returns, liftM, monadLift, MonadLift.monadLift, StateT.run, StateT.lift, bind,
      Except.bind, pure, Except.pure, eq_comm]

/-- A program on a part of the state. -/
def onPart {Part : Type} (view : State → Part) (update : Part → State → State)
    (program : Program Part Fault Value) : Program State Fault Value := do
  let state ← get
  let outcome ← (program.run (view state) : Except Fault (Value × Part))
  set (update outcome.2 state)
  return outcome.1

/-- On a part of the state a program returns as it does alone, and the rest stays. -/
theorem returns_onPart_iff {Part : Type} {view : State → Part} {update : Part → State → State}
    {program : Program Part Fault Value} {before after : State} {value : Value} :
    Returns (onPart view update program) before value after ↔
      ∃ part, Returns program (view before) value part ∧ after = update part before := by
  simp only [onPart, returns_bind_iff, returns_get_iff, returns_lift_iff, returns_set_iff,
    returns_pure_iff]
  constructor
  · rintro ⟨_, _, ⟨rfl, rfl⟩, ⟨value, part⟩, _, ⟨ran, rfl⟩, _, _, rfl, rfl, rfl⟩
    exact ⟨part, ran, rfl⟩
  · rintro ⟨part, ran, rfl⟩
    exact ⟨before, before, ⟨rfl, rfl⟩, (value, part), before, ⟨ran, rfl⟩, (), _, rfl, rfl, rfl⟩

/-- No outcome of the program changes what is observed of the state. -/
def Preserves (observe : State → Other) (program : Program State Fault Value) : Prop :=
  ∀ before value after, Returns program before value after → observe after = observe before

section Preserves

variable {Observed : Type} {observe : State → Observed}

/-- What each of two programs preserves, both do. -/
theorem Preserves.bind {first : Program State Fault Other}
    {rest : Other → Program State Fault Value} (start : Preserves observe first)
    (continued : ∀ result, Preserves observe (rest result)) :
    Preserves observe (first >>= rest) := by
  intro before value after ran
  obtain ⟨result, middle, ranFirst, ranRest⟩ := returns_bind_iff.mp ran
  exact (continued result _ _ _ ranRest).trans (start _ _ _ ranFirst)

theorem preserves_pure (value : Value) :
    Preserves observe (pure value : Program State Fault Value) := by
  intro before result after ran
  rw [(returns_pure_iff.mp ran).2]

theorem preserves_throw (fault : Fault) :
    Preserves observe (throw fault : Program State Fault Value) :=
  fun _ _ _ ran => (returns_throw_iff.mp ran).elim

theorem preserves_lift (outcome : Except Fault Value) :
    Preserves observe (liftM outcome : Program State Fault Value) := by
  intro before value after ran
  rw [(returns_lift_iff.mp ran).2]

theorem preserves_get : Preserves observe (get : Program State Fault State) := by
  intro before value after ran
  rw [(returns_get_iff.mp ran).2]

/-- An update preserves what it does not touch. -/
theorem preserves_modify {update : State → State}
    (same : ∀ state, observe (update state) = observe state) :
    Preserves observe (modify update : Program State Fault Unit) := by
  intro before value after ran
  rw [returns_modify_iff.mp ran, same]

end Preserves

/-- The program returns from `before` exactly when it is safe, and then with a value and
a state as described. -/
structure Settles (program : Program State Fault Value) (before : State) (safe : Prop)
    (post : Value → State → Prop) : Prop where
  returned : ∀ {value after}, Returns program before value after → safe ∧ post value after
  returns : safe → ∃ value after, Returns program before value after

namespace Settles

variable {program : Program State Fault Value} {before : State} {safe : Prop}
  {post : Value → State → Prop}

/-- A program that settles and is safe has an outcome. -/
theorem outcome (settles : Settles program before safe post) (isSafe : safe) :
    ∃ value after, Returns program before value after ∧ post value after := by
  obtain ⟨value, after, ran⟩ := settles.returns isSafe
  exact ⟨value, after, ran, (settles.returned ran).2⟩

/-- One run that returns settles a program that is safe, -/
theorem of_returns {value : Value} {after : State} (ran : Returns program before value after)
    (isSafe : safe) (holds : post value after) : Settles program before safe post where
  returned again := by
    obtain ⟨rfl, rfl⟩ := ran.unique again
    exact ⟨isSafe, holds⟩
  returns _ := ⟨value, after, ran⟩

/-- and none settles one that is not. -/
theorem of_faults (faults : ∀ value after, ¬ Returns program before value after)
    (faulty : ¬ safe) : Settles program before safe post where
  returned ran := absurd ran (faults _ _)
  returns isSafe := absurd isSafe faulty

/-- Safety may be said otherwise, and the promise weakened. -/
theorem imp (settles : Settles program before safe post) {other : Prop} (same : safe ↔ other)
    {weaker : Value → State → Prop}
    (weaken : safe → ∀ value after, post value after → weaker value after) :
    Settles program before other weaker where
  returned ran := by
    obtain ⟨isSafe, holds⟩ := settles.returned ran
    exact ⟨same.mp isSafe, weaken isSafe _ _ holds⟩
  returns isSafe := settles.returns (same.mpr isSafe)

/-- A sequence is safe when its first part is, and its rest is safe after every outcome
the first part may have. -/
theorem bind (settles : Settles program before safe post)
    {rest : Value → Program State Fault Other} {next : Prop} {final : Other → State → Prop}
    (continues : safe → ∀ value after, post value after → Settles (rest value) after next final) :
    Settles (program >>= rest) before (safe ∧ next) final where
  returned ran := by
    obtain ⟨value, middle, first, second⟩ := returns_bind_iff.mp ran
    obtain ⟨isSafe, holds⟩ := settles.returned first
    obtain ⟨nextSafe, done⟩ := (continues isSafe value middle holds).returned second
    exact ⟨⟨isSafe, nextSafe⟩, done⟩
  returns := by
    rintro ⟨isSafe, nextSafe⟩
    obtain ⟨value, middle, first, holds⟩ := settles.outcome isSafe
    obtain ⟨result, after, second⟩ := (continues isSafe value middle holds).returns nextSafe
    exact ⟨result, after, first.bind second⟩

/-- What is known of a program that changes its value at the end is known of the program. -/
theorem of_map {change : Value → Other} {post : Other → State → Prop}
    (settles : Settles (change <$> program) before safe post) :
    Settles program before safe fun value after => post (change value) after where
  returned ran := settles.returned (returns_map_iff.mpr ⟨_, ran, rfl⟩)
  returns isSafe := by
    obtain ⟨_, after, ran⟩ := settles.returns isSafe
    obtain ⟨value, ran, _⟩ := returns_map_iff.mp ran
    exact ⟨value, after, ran⟩

/-- A sequence whose rest is always safe is safe when its first part is. -/
theorem andThen (settles : Settles program before safe post)
    {rest : Value → Program State Fault Other} {final : Other → State → Prop}
    (continues : safe → ∀ value after, post value after → Settles (rest value) after True final) :
    Settles (program >>= rest) before safe final :=
  (settles.bind continues).imp (by simp) fun _ _ _ done => done

/-- A sequence is as safe as its rest where the rest is safe only if the first part is. -/
theorem bindNeeded (settles : Settles program before safe post)
    {rest : Value → Program State Fault Other} {next : Prop} {final : Other → State → Prop}
    (needed : next → safe)
    (continues : safe → ∀ value after, post value after → Settles (rest value) after next final) :
    Settles (program >>= rest) before next final :=
  (settles.bind continues).imp (and_iff_right_of_imp needed) fun _ _ _ done => done

/-- A sequence whose first part has a known outcome settles as its rest does. -/
theorem after {first : Program State Fault Other} {result : Other} {middle : State}
    {rest : Other → Program State Fault Value} (ran : Returns first before result middle)
    (settles : Settles (rest result) middle safe post) :
    Settles (first >>= rest) before safe post where
  returned done := settles.returned ((returns_bind_of_returns ran).mp done)
  returns isSafe := by
    obtain ⟨value, final, done⟩ := settles.returns isSafe
    exact ⟨value, final, ran.bind done⟩

end Settles

/-- The program started in `before` ends with the fault. -/
def Faults (program : Program State Fault Value) (before : State) (fault : Fault) : Prop :=
  program.run before = .error fault

section Faults

variable {program : Program State Fault Value} {before : State} {fault : Fault}

/-- A program that faults does not return, whatever it would have returned. -/
theorem Faults.not_returns (faults : Faults program before fault) (value : Value)
    (after : State) : ¬ Returns program before value after := by
  intro ran
  cases faults.symm.trans ran

theorem Returns.not_faults {value : Value} {after : State}
    (ran : Returns program before value after) : ¬ Faults program before fault :=
  fun faults => faults.not_returns value after ran

/-- A program that does not return faults. -/
theorem exists_faults (never : ∀ value after, ¬ Returns program before value after) :
    ∃ fault, Faults program before fault := by
  unfold Faults
  cases outcome : program.run before with
  | error fault => exact ⟨fault, rfl⟩
  | ok outcome' => exact absurd outcome (never outcome'.1 outcome'.2)

/-- A sequence faults exactly when its first part does, or the rest does from the state the
first part left. -/
theorem faults_bind_iff {first : Program State Fault Other}
    {rest : Other → Program State Fault Value} :
    Faults (first >>= rest) before fault ↔
      Faults first before fault ∨
        ∃ result middle, Returns first before result middle ∧
          Faults (rest result) middle fault := by
  unfold Faults Returns
  rw [StateT.run_bind]
  cases first.run before with
  | error other => simp [bind, Except.bind]
  | ok outcome =>
      obtain ⟨result, middle⟩ := outcome
      simp [bind, Except.bind]

/-- A sequence whose first part has a known outcome faults as its rest does. -/
theorem faults_bind_of_returns {first : Program State Fault Other}
    {rest : Other → Program State Fault Value} {result : Other} {middle : State}
    (start : Returns first before result middle) :
    Faults (first >>= rest) before fault ↔ Faults (rest result) middle fault := by
  rw [faults_bind_iff]
  constructor
  · rintro (faults | ⟨_, _, again, faults⟩)
    · exact absurd start (faults.not_returns _ _)
    · obtain ⟨rfl, rfl⟩ := start.unique again
      exact faults
  · exact fun faults => .inr ⟨result, middle, start, faults⟩

/-- A sequence whose first part settles faults when that part does, or when it is safe and
the rest faults after each of its outcomes. -/
theorem Settles.faults_bind_iff {first : Program State Fault Other} {safe wrong : Prop}
    {post : Other → State → Prop} {rest : Other → Program State Fault Value}
    (settles : Settles first before safe post)
    (continues : safe → ∀ value after, post value after →
      (Faults (rest value) after fault ↔ wrong)) :
    Faults (first >>= rest) before fault ↔ Faults first before fault ∨ safe ∧ wrong := by
  rw [Base.faults_bind_iff]
  refine or_congr_right ⟨?_, ?_⟩
  · rintro ⟨value, middle, ran, faults⟩
    obtain ⟨isSafe, holds⟩ := settles.returned ran
    exact ⟨isSafe, (continues isSafe value middle holds).mp faults⟩
  · rintro ⟨isSafe, isWrong⟩
    obtain ⟨value, middle, ran, holds⟩ := settles.outcome isSafe
    exact ⟨value, middle, ran, (continues isSafe value middle holds).mpr isWrong⟩

@[simp] theorem faults_map_iff {change : Value → Other} :
    Faults (change <$> program) before fault ↔ Faults program before fault := by
  unfold Faults
  rw [StateT.run_map]
  cases program.run before <;> simp [Functor.map, Except.map]

@[simp] theorem faults_pure_iff {value : Value} :
    Faults (pure value : Program State Fault Value) before fault ↔ False := by
  have ran : (pure value : Program State Fault Value).run before = .ok (value, before) := rfl
  simp [Faults, ran]

@[simp] theorem faults_throw_iff {thrown : Fault} :
    Faults (throw thrown : Program State Fault Value) before fault ↔ fault = thrown := by
  simp [Faults, throw, throwThe, MonadExceptOf.throw, StateT.run, StateT.lift, bind, Except.bind,
    eq_comm]

@[simp] theorem faults_get_iff :
    Faults (get : Program State Fault State) before fault ↔ False := by
  simp [Faults, pure, Except.pure]

@[simp] theorem faults_modify_iff {update : State → State} :
    Faults (modify update : Program State Fault Unit) before fault ↔ False := by
  simp [Faults, pure, Except.pure]

@[simp] theorem faults_set_iff {next : State} :
    Faults (set next : Program State Fault Unit) before fault ↔ False := by
  simp [Faults, pure, Except.pure]

@[simp] theorem faults_lift_iff {outcome : Except Fault Value} :
    Faults (liftM outcome : Program State Fault Value) before fault ↔ outcome = .error fault := by
  cases outcome <;>
    simp [Faults, liftM, monadLift, MonadLift.monadLift, StateT.run, StateT.lift, bind,
      Except.bind, pure, Except.pure]

end Faults

/-- The run on a part, as an equation. -/
theorem run_onPart {Part : Type} {view : State → Part} {update : Part → State → State}
    {program : Program Part Fault Value} {before : State} :
    (onPart view update program).run before =
      (program.run (view before)).map fun outcome => (outcome.1, update outcome.2 before) := by
  cases outcome : program.run (view before) with
  | error fault =>
      have faults : Faults (onPart view update program) before fault := by
        simp [onPart, faults_bind_iff, outcome]
      exact faults
  | ok result =>
      have ran : Returns (onPart view update program) before result.1 (update result.2 before) :=
        returns_onPart_iff.mpr ⟨result.2, outcome, rfl⟩
      exact ran

/-- The program does to a part of the state what the original does, whatever it keeps
beside that part. -/
def Tracks {Part : Type} (view : State → Part) (program : Program State Fault Value)
    (original : Program Part Fault Value) : Prop :=
  ∀ before, (program.run before).map (fun outcome => (outcome.1, view outcome.2)) =
    original.run (view before)

namespace Tracks

variable {Part : Type} {view : State → Part} {program : Program State Fault Value}
  {original : Program Part Fault Value}

/-- The original returns exactly when the program does, with the part the program leaves. -/
theorem returns_iff (tracks : Tracks view program original) {before : State} {value : Value}
    {part : Part} :
    Returns original (view before) value part ↔
      ∃ after, Returns program before value after ∧ view after = part := by
  unfold Returns
  rw [← tracks before]
  cases program.run before with
  | error fault => simp [Except.map]
  | ok outcome =>
      obtain ⟨result, after⟩ := outcome
      simp [Except.map, and_assoc]

/-- What a tracking program returns, the original returns from what is seen. -/
theorem returned (tracks : Tracks view program original) {before after : State} {value : Value}
    (ran : Returns program before value after) :
    Returns original (view before) value (view after) :=
  tracks.returns_iff.mpr ⟨after, ran, rfl⟩

theorem of_pure (value : Value) : Tracks view (pure value : Program State Fault Value)
    (pure value) := fun _ => rfl

theorem of_throw (fault : Fault) : Tracks view (throw fault : Program State Fault Value)
    (throw fault) := fun _ => rfl

/-- Tracking is kept one after the other. -/
theorem bind {first : Program State Fault Other} {firstOriginal : Program Part Fault Other}
    {rest : Other → Program State Fault Value} {restOriginal : Other → Program Part Fault Value}
    (start : Tracks view first firstOriginal)
    (continued : ∀ result, Tracks view (rest result) (restOriginal result)) :
    Tracks view (first >>= rest) (firstOriginal >>= restOriginal) := by
  intro before
  rw [StateT.run_bind, StateT.run_bind, ← start before]
  cases first.run before with
  | error fault => rfl
  | ok outcome => exact continued outcome.1 outcome.2

/-- A part of a program that always returns and leaves the view alone may be left out. -/
theorem beside {ghost : Program State Fault Other} {rest : Other → Program State Fault Value}
    (silent : ∀ before, ∃ result after, Returns ghost before result after ∧
      view after = view before)
    (continued : ∀ result, Tracks view (rest result) original) :
    Tracks view (ghost >>= rest) original := by
  intro before
  obtain ⟨result, after, ran, same⟩ := silent before
  rw [StateT.run_bind, ran, ← same, ← continued result after]
  rfl

/-- A program on a part does to it what it does. -/
theorem of_onPart {update : Part → State → State}
    (lens : ∀ part state, view (update part state) = part) :
    Tracks view (onPart view update original) original := by
  intro before
  rw [run_onPart]
  cases original.run (view before) <;> simp [Except.map, lens]

end Tracks

/-- Fold a step that may fault over a list of events. -/
def execute (step : State → Event → Except Fault State) (start : State) (events : List Event) :
    Except Fault State :=
  events.foldlM step start

variable {step : State → Event → Except Fault State}

/-- A run may be taken apart at its last event, -/
theorem execute_snoc {start : State} {events : List Event} {event : Event} {final : State} :
    execute step start (events ++ [event]) = .ok final ↔
      ∃ middle, execute step start events = .ok middle ∧ step middle event = .ok final := by
  simp only [execute, List.foldlM_append, List.foldlM_cons, List.foldlM_nil]
  cases events.foldlM step start with
  | error fault => simp [bind, Except.bind]
  | ok middle =>
      cases outcome : step middle event <;>
        simp [bind, Except.bind, pure, Except.pure, outcome]

/-- at its first, -/
theorem execute_cons {start : State} {event : Event} {events : List Event} {final : State} :
    execute step start (event :: events) = .ok final ↔
      ∃ middle, step start event = .ok middle ∧ execute step middle events = .ok final := by
  simp only [execute, List.foldlM_cons]
  cases step start event <;> simp [bind, Except.bind]

/-- and anywhere else. -/
theorem execute_append {start : State} {first rest : List Event} {final : State} :
    execute step start (first ++ rest) = .ok final ↔
      ∃ middle, execute step start first = .ok middle ∧ execute step middle rest = .ok final := by
  induction first generalizing start with
  | nil => simp [execute, pure, Except.pure]
  | cons event others ih =>
      simp only [List.cons_append, execute_cons, ih]
      constructor
      · rintro ⟨next, stepped, middle, ran, ranOn⟩
        exact ⟨middle, ⟨next, stepped, ran⟩, ranOn⟩
      · rintro ⟨middle, ⟨next, stepped, ran⟩, ranOn⟩
        exact ⟨next, stepped, middle, ran, ranOn⟩

/-- A relation between the events so far and the state, set up by the empty run
and kept by each step that returns, holds after every run that returns. -/
theorem execute_history (Holds : List Event → State → Prop) {start final : State}
    {events : List Event} (initial : Holds [] start)
    (preserved : ∀ past before event after, Holds past before →
      step before event = .ok after → Holds (past ++ [event]) after)
    (ran : execute step start events = .ok final) : Holds events final := by
  induction events using List.reverseRecOn generalizing final with
  | nil =>
      cases ran
      exact initial
  | append_singleton events event ih =>
      obtain ⟨middle, ranFirst, stepped⟩ := execute_snoc.mp ran
      exact preserved events middle event final (ih ranFirst) stepped

/-- A relation that each admitted step keeps holds after every run of such steps. -/
theorem execute_history_of (Holds : List Event → State → Prop)
    {Admitted : State → Event → Prop} {start final : State} {events : List Event}
    (initial : Holds [] start)
    (preserved : ∀ past before event after, Holds past before → Admitted before event →
      step before event = .ok after → Holds (past ++ [event]) after)
    (admitted : ∀ past event before, past ++ [event] <+: events →
      execute step start past = .ok before → Admitted before event)
    (ran : execute step start events = .ok final) : Holds events final := by
  induction events using List.reverseRecOn generalizing final with
  | nil =>
      cases ran
      exact initial
  | append_singleton events event ih =>
      obtain ⟨middle, first, stepped⟩ := execute_snoc.mp ran
      refine preserved events middle event final (ih ?_ first)
        (admitted events event middle (List.prefix_refl _) first) stepped
      exact fun past other before early =>
        admitted past other before (early.trans (List.prefix_append events [event]))

/-- When the relation makes every event return that is admitted in the state it comes to,
runs of such events return. -/
theorem execute_total_of (Holds : List Event → State → Prop) {Admitted : State → Event → Prop}
    {start : State} {events : List Event} (initial : Holds [] start)
    (progress : ∀ past before event, Holds past before → Admitted before event →
      ∃ after, step before event = .ok after ∧ Holds (past ++ [event]) after)
    (admitted : ∀ past event before, past ++ [event] <+: events →
      execute step start past = .ok before → Admitted before event) :
    ∃ final, execute step start events = .ok final ∧ Holds events final := by
  induction events using List.reverseRecOn with
  | nil => exact ⟨start, rfl, initial⟩
  | append_singleton events event ih =>
      obtain ⟨middle, ran, holds⟩ := ih fun past other before first =>
        admitted past other before (first.trans (List.prefix_append events [event]))
      obtain ⟨final, stepped, done⟩ :=
        progress events middle event holds (admitted events event middle (List.prefix_refl _) ran)
      exact ⟨final, execute_snoc.mpr ⟨middle, ran, stepped⟩, done⟩

/-- When the relation makes every admitted event return, admitted runs return. -/
theorem execute_total (Holds : List Event → State → Prop) {Admitted : Event → Prop}
    {start : State} {events : List Event} (initial : Holds [] start)
    (progress : ∀ past before event, Holds past before → Admitted event →
      ∃ after, step before event = .ok after ∧ Holds (past ++ [event]) after)
    (admitted : ∀ event ∈ events, Admitted event) :
    ∃ final, execute step start events = .ok final ∧ Holds events final := by
  refine execute_total_of Holds initial progress fun past event _ first _ => ?_
  exact admitted event (first.subset (by simp))

end FsProtection.Base
