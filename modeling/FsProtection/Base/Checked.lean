import FsProtection.Base.Program

/-!
# Programs with checks added

A program is run with checks that stop it with faults of their own. `Erases` says that a
checked program which no check stops is the program without the checks, up to what its
values keep for the checks.
-/

namespace FsProtection.Base

variable {State Value Other Plain PlainOther Fault Wider : Type} {embed : Fault → Wider}

/-- A program whose faults are taken for those of a wider kind. -/
def widen (embed : Fault → Wider) (program : Program State Fault Value) :
    Program State Wider Value :=
  fun state => (program.run state).mapError embed

/-- Another type of faults changes no run that returns. -/
@[simp] theorem returns_widen_iff {program : Program State Fault Value} {before after : State}
    {value : Value} :
    Returns (widen embed program) before value after ↔ Returns program before value after := by
  have ran : (widen embed program).run before = (program.run before).mapError embed := rfl
  unfold Returns
  rw [ran]
  cases program.run before <;> simp [Except.mapError]

theorem faults_widen_iff {program : Program State Fault Value} {before : State} {fault : Wider} :
    Faults (widen embed program) before fault ↔
      ∃ inner, Faults program before inner ∧ fault = embed inner := by
  have ran : (widen embed program).run before = (program.run before).mapError embed := rfl
  unfold Faults
  rw [ran]
  cases program.run before <;> simp [Except.mapError, eq_comm]

/-- What is known of a program is known of it among wider faults. -/
theorem Settles.widen {program : Program State Fault Value} {before : State} {safe : Prop}
    {post : Value → State → Prop} (settles : Settles program before safe post) :
    Settles (widen embed program) before safe post where
  returned ran := settles.returned (returns_widen_iff.mp ran)
  returns isSafe := by
    obtain ⟨value, after, ran⟩ := settles.returns isSafe
    exact ⟨value, after, returns_widen_iff.mpr ran⟩

/-- A check either lets the program go on in the same state or stops it, with a fault that
is none of the program's own. -/
structure IsCheck (embed : Fault → Wider) (check : Program State Wider Unit) : Prop where
  passes : ∀ {before value after}, Returns check before value after → after = before
  stops : ∀ {before fault}, ¬ Faults check before (embed fault)

/-- A check may let everything pass, -/
theorem IsCheck.of_pass : IsCheck embed (pure () : Program State Wider Unit) where
  passes ran := (returns_pure_iff.mp ran).2
  stops := faults_pure_iff.mp

/-- or stop everything, at a fault of its own. -/
theorem IsCheck.of_stop {fault : Wider} (own : ∀ inner, embed inner ≠ fault) :
    IsCheck embed (throw fault : Program State Wider Unit) where
  passes ran := (returns_throw_iff.mp ran).elim
  stops faults := own _ (faults_throw_iff.mp faults)

/-- The checked program does what the plain one does, or is stopped by a check. -/
structure Erases (embed : Fault → Wider) (erase : Value → Plain)
    (checked : Program State Wider Value) (plain : Program State Fault Plain) : Prop where
  returns : ∀ {before value after}, Returns checked before value after →
    Returns plain before (erase value) after
  faults : ∀ {before fault}, Faults checked before (embed fault) → Faults plain before fault

namespace Erases

variable {erase : Value → Plain} {eraseOther : Other → PlainOther}

theorem of_pure {value : Value} {plain : Plain} (same : erase value = plain) :
    Erases embed erase (pure value : Program State Wider Value)
      (pure plain : Program State Fault Plain) where
  returns ran := by
    obtain ⟨rfl, rfl⟩ := returns_pure_iff.mp ran
    exact returns_pure_iff.mpr ⟨same, rfl⟩
  faults faults := (faults_pure_iff.mp faults).elim

/-- A program without checks erases to itself. -/
theorem of_widen (injective : Function.Injective embed) (program : Program State Fault Value) :
    Erases embed id (Base.widen embed program) program where
  returns ran := returns_widen_iff.mp ran
  faults faults := by
    obtain ⟨inner, faults, same⟩ := faults_widen_iff.mp faults
    exact injective same ▸ faults

/-- Checks are erased piece by piece. -/
theorem bind {first : Program State Wider Other} {plainFirst : Program State Fault PlainOther}
    {rest : Other → Program State Wider Value} {plainRest : PlainOther → Program State Fault Plain}
    (start : Erases embed eraseOther first plainFirst)
    (continued : ∀ value, Erases embed erase (rest value) (plainRest (eraseOther value))) :
    Erases embed erase (first >>= rest) (plainFirst >>= plainRest) where
  returns ran := by
    obtain ⟨value, middle, ranFirst, ranRest⟩ := returns_bind_iff.mp ran
    exact (start.returns ranFirst).bind ((continued value).returns ranRest)
  faults faults := by
    refine faults_bind_iff.mpr ((faults_bind_iff.mp faults).imp start.faults ?_)
    rintro ⟨value, middle, ran, faults⟩
    exact ⟨_, middle, start.returns ran, (continued value).faults faults⟩

/-- What is added to the value of a program at its end is erased again. -/
theorem mapped {checked : Program State Wider Other} {plain : Program State Fault Plain}
    {eraseInner : Other → Plain} (start : Erases embed eraseInner checked plain)
    {add : Other → Value} (same : ∀ value, erase (add value) = eraseInner value) :
    Erases embed erase (checked >>= fun value => pure (add value)) plain where
  returns ran := by
    obtain ⟨value, middle, ranChecked, done⟩ := returns_bind_iff.mp ran
    obtain ⟨rfl, rfl⟩ := returns_pure_iff.mp done
    exact (same value).symm ▸ start.returns ranChecked
  faults faults := by
    rcases faults_bind_iff.mp faults with stopped | ⟨_, _, _, done⟩
    · exact start.faults stopped
    · exact (faults_pure_iff.mp done).elim

/-- A check in front of a program may be left out. -/
theorem check {guard : Program State Wider Unit} (isCheck : IsCheck embed guard)
    {rest : Unit → Program State Wider Value} {plain : Program State Fault Plain}
    (continued : Erases embed erase (rest ()) plain) :
    Erases embed erase (guard >>= rest) plain where
  returns ran := by
    obtain ⟨_, middle, passed, ran⟩ := returns_bind_iff.mp ran
    exact continued.returns (isCheck.passes passed ▸ ran)
  faults faults := by
    rcases faults_bind_iff.mp faults with stopped | ⟨_, middle, passed, faults⟩
    · exact absurd stopped isCheck.stops
    · exact continued.faults (isCheck.passes passed ▸ faults)

end Erases

end FsProtection.Base
