import FsProtection.Base.Program

/-!
# Programs cut into accesses

A script is a program written as the accesses it makes to a shared state, so that others
may run between any two of them. `whole` is the program when nobody does. `Keeps` is what a
script promises the others, who promise it theirs: what each of its accesses may do to the
state, and what holds when it is done.
-/

namespace FsProtection.Base

variable {Access State Fault Value Other : Type} {Answer : Access → Type}

/-- What is left to do: nothing, or an access and what follows its answer. -/
inductive Script (Access : Type) (Answer : Access → Type) (Value : Type) where
  | done (value : Value)
  | access (request : Access) (rest : Answer request → Script Access Answer Value)

namespace Script

/-- A script goes on with another. -/
def bind : Script Access Answer Other → (Other → Script Access Answer Value) →
    Script Access Answer Value
  | .done value, continued => continued value
  | .access request rest, continued => .access request fun answer => (rest answer).bind continued

instance : Monad (Script Access Answer) where
  pure := .done
  bind := Script.bind

theorem bind_done (script : Script Access Answer Value) : script.bind .done = script := by
  induction script with
  | done value => rfl
  | access request rest ih => exact congrArg (Script.access request) (funext ih)

theorem bind_bind {Last : Type} (first : Script Access Answer Other)
    (second : Other → Script Access Answer Value) (third : Value → Script Access Answer Last) :
    (first.bind second).bind third = first.bind fun value => (second value).bind third := by
  induction first with
  | done value => rfl
  | access request rest ih => exact congrArg (Script.access request) (funext ih)

instance : LawfulMonad (Script Access Answer) :=
  LawfulMonad.mk' _ bind_done (fun _ _ => rfl) bind_bind

/-- One access, and its answer. -/
def call (request : Access) : Script Access Answer (Answer request) := .access request .done

section Whole

variable (perform : (request : Access) → Program State Fault (Answer request))

/-- The program a script is when nothing runs between its accesses. -/
def whole : Script Access Answer Value → Program State Fault Value
  | .done value => return value
  | .access request rest => do
      let answer ← perform request
      whole (rest answer)

/-- One access of what is left of a script. -/
def advance : Script Access Answer Value → Program State Fault (Script Access Answer Value)
  | .done value => return .done value
  | .access request rest => do
      let answer ← perform request
      return rest answer

variable {perform}

@[simp] theorem whole_pure (value : Value) :
    (pure value : Script Access Answer Value).whole perform = pure value := rfl

/-- A single access is performed. -/
@[simp] theorem whole_call (request : Access) :
    (call request : Script Access Answer _).whole perform = perform request := by
  simp [call, whole]

/-- Run at once, scripts one after the other are the programs one after the other. -/
@[simp] theorem whole_bind (first : Script Access Answer Other)
    (continued : Other → Script Access Answer Value) :
    (first >>= continued).whole perform =
      first.whole perform >>= fun value => (continued value).whole perform := by
  induction first with
  | done value =>
      rw [whole, pure_bind]
      rfl
  | access request rest ih =>
      change (do
        let answer ← perform request
        whole perform (rest answer >>= continued)) = _
      simp only [whole, bind_assoc, ih]

@[simp] theorem whole_map (change : Other → Value) (script : Script Access Answer Other) :
    (change <$> script).whole perform = change <$> script.whole perform := by
  rw [← bind_pure_comp, whole_bind, ← bind_pure_comp]
  rfl

/-- A script for each item is the program for each item. -/
@[simp] theorem whole_forM {Item : Type} (items : List Item)
    (body : Item → Script Access Answer Unit) :
    (items.forM body).whole perform = items.forM fun item => (body item).whole perform := by
  induction items with
  | nil => rfl
  | cons item rest ih =>
      change whole perform (body item >>= fun _ => rest.forM body) = _
      rw [whole_bind, ih]
      rfl

/-- One access of a script that begins with it. -/
theorem returns_advance_iff {request : Access}
    {continued : Answer request → Script Access Answer Value}
    {following : Script Access Answer Value} {s after : State} :
    Returns ((call request >>= continued).advance perform) s following after ↔
      ∃ answer, Returns (perform request) s answer after ∧ following = continued answer := by
  change Returns (do
    let answer ← perform request
    return continued answer) s following after ↔ _
  simp only [returns_bind_iff, returns_pure_iff]
  constructor
  · rintro ⟨answer, _, ran, rfl, rfl⟩
    exact ⟨answer, ran, rfl⟩
  · rintro ⟨answer, ran, rfl⟩
    exact ⟨answer, after, ran, rfl, rfl⟩

end Whole

section Keeps

variable {perform : (request : Access) → Program State Fault (Answer request)}
  {rely guarantee weaker : State → State → Prop} {post : Value → State → Prop} {s after : State}

/-- Whatever the others do that the rely allows, each access that returns does to the state
what the guarantee allows, and at the end of the script its value and the state are as the
postcondition says. -/
def Keeps (perform : (request : Access) → Program State Fault (Answer request))
    (rely guarantee : State → State → Prop) (post : Value → State → Prop) :
    Script Access Answer Value → State → Prop
  | .done value, s => ∀ here, rely s here → post value here
  | .access request rest, s => ∀ here, rely s here →
      ∀ answer after, Returns (perform request) here answer after →
        guarantee here after ∧ Keeps perform rely guarantee post (rest answer) after

/-- A script that is done keeps what holds whatever the others did. -/
theorem keeps_pure {value : Value} (holds : ∀ here, rely s here → post value here) :
    (pure value : Script Access Answer Value).Keeps perform rely guarantee post s := holds

/-- An access, and what follows its answer. -/
theorem keeps_call {request : Access} {continued : Answer request → Script Access Answer Value}
    (kept : ∀ here, rely s here → ∀ answer after, Returns (perform request) here answer after →
      guarantee here after ∧ (continued answer).Keeps perform rely guarantee post after) :
    (call request >>= continued).Keeps perform rely guarantee post s := kept

/-- An access whose outcome is known. -/
theorem keeps_returns {request : Access} {continued : Answer request → Script Access Answer Value}
    (answer : Answer request) (kept : ∀ here, rely s here → ∃ after,
      Returns (perform request) here answer after ∧ guarantee here after ∧
        (continued answer).Keeps perform rely guarantee post after) :
    (call request >>= continued).Keeps perform rely guarantee post s := by
  refine keeps_call fun here relied other last again => ?_
  obtain ⟨after, ran, allowed, goesOn⟩ := kept here relied
  obtain ⟨rfl, rfl⟩ := ran.unique again
  exact ⟨allowed, goesOn⟩

/-- What a script keeps is kept by what goes on from it. -/
theorem Keeps.bind {first : Script Access Answer Other}
    {continued : Other → Script Access Answer Value} (refl : ∀ s, rely s s)
    (keeps : first.Keeps perform rely guarantee
      (fun value after => (continued value).Keeps perform rely guarantee post after) s) :
    (first >>= continued).Keeps perform rely guarantee post s := by
  induction first generalizing s with
  | done value => exact keeps s (refl s)
  | access request rest ih =>
      intro here relied answer after ran
      obtain ⟨allowed, goesOn⟩ := keeps here relied answer after ran
      exact ⟨allowed, ih answer goesOn⟩

/-- It may promise less. -/
theorem Keeps.imp {script : Script Access Answer Value} {more : Value → State → Prop}
    (keeps : script.Keeps perform rely guarantee post s)
    (allows : ∀ before after, guarantee before after → weaker before after)
    (implied : ∀ value after, post value after → more value after) :
    script.Keeps perform rely weaker more s := by
  induction script generalizing s with
  | done value => exact fun here relied => implied value here (keeps here relied)
  | access request rest ih =>
      intro here relied answer after ran
      obtain ⟨allowed, goesOn⟩ := keeps here relied answer after ran
      exact ⟨allows _ _ allowed, ih answer goesOn⟩

/-- A loop over some items, by what holds when it has done some of them. -/
theorem keeps_forM {Item : Type} {body : Item → Script Access Answer Unit}
    (Holds : List Item → State → Prop) (refl : ∀ s, rely s s)
    (stable : ∀ done s here, Holds done s → rely s here → Holds done here)
    (each : ∀ done item s, Holds done s → (body item).Keeps perform rely guarantee
      (fun _ after => Holds (done ++ [item]) after) s)
    (items : List Item) {done : List Item} (holds : Holds done s) :
    (items.forM body).Keeps perform rely guarantee
      (fun _ after => Holds (done ++ items) after) s := by
  induction items generalizing s done with
  | nil => exact fun here relied => by simpa using stable done s here holds relied
  | cons item rest ih =>
      change (body item >>= fun _ => rest.forM body).Keeps perform rely guarantee _ s
      refine Keeps.bind refl ((each done item s holds).imp (fun _ _ => id)
        fun _ after further => ?_)
      simpa using ih further

/-- What the others do leaves the promise in force. -/
theorem Keeps.stable {script : Script Access Answer Value}
    (keeps : script.Keeps perform rely guarantee post s) (relied : rely s after)
    (trans : ∀ {first second third}, rely first second → rely second third → rely first third) :
    script.Keeps perform rely guarantee post after := by
  cases script with
  | done value => exact fun here later => keeps here (trans relied later)
  | access request rest => exact fun here later => keeps here (trans relied later)

/-- An access leaves a script that still keeps what it promised. -/
theorem Keeps.advance {script next : Script Access Answer Value} (refl : ∀ s, rely s s)
    (keeps : script.Keeps perform rely guarantee post s)
    (ran : Returns (script.advance perform) s next after) :
    (after = s ∨ guarantee s after) ∧ next.Keeps perform rely guarantee post after := by
  cases script with
  | done value =>
      obtain ⟨rfl, rfl⟩ := returns_pure_iff.mp ran
      exact ⟨.inl rfl, keeps⟩
  | access request rest =>
      obtain ⟨answer, middle, answered, ended⟩ := returns_bind_iff.mp ran
      obtain ⟨rfl, rfl⟩ := returns_pure_iff.mp ended
      obtain ⟨allowed, goesOn⟩ := keeps s (refl s) answer after answered
      exact ⟨.inr allowed, goesOn⟩

end Keeps

end Script

end FsProtection.Base
