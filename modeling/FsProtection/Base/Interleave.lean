import Mathlib.Logic.Function.Basic
import FsProtection.Base.Script

/-!
# Scripts side by side

A service is called any number of times, and the calls make their accesses to one state in
any order, with anything else happening between them. `Abide` is the rule for promises that
the calls make each other, `Simulates` the one for two services of the same scripts.
-/

namespace FsProtection.Base

variable {Request Outside Access State Other Fault Value : Type} {Answer : Access → Type}

/-- What can be called, what its accesses do to the state, and what else changes it. -/
structure Service (Request Outside State Fault Value : Type) {Access : Type}
    (Answer : Access → Type) where
  script : Request → Script Access Answer Value
  perform : (access : Access) → Program State Fault (Answer access)
  elsewhere : Outside → State → State

/-- The state, and what is left of each call. -/
structure Running (State Value : Type) {Access : Type} (Answer : Access → Type) where
  shared : State
  calls : Nat → Option (Script Access Answer Value)

/-- A call begins or makes its next access, or something happens elsewhere. -/
inductive CallEvent (Request Outside : Type) where
  | begins (call : Nat) (request : Request)
  | access (call : Nat)
  | elsewhere (outside : Outside)

def CallEvent.isAccess : CallEvent Request Outside → Bool
  | .access _ => true
  | _ => false

/-- After an access of a call. -/
def Running.accessed (s : Running State Value Answer) (call : Nat)
    (rest : Script Access Answer Value) (shared : State) : Running State Value Answer where
  shared := shared
  calls := Function.update s.calls call (some rest)

namespace Service

def step (service : Service Request Outside State Fault Value Answer)
    (s : Running State Value Answer) :
    CallEvent Request Outside → Except Fault (Running State Value Answer)
  | .begins call request =>
      match s.calls call with
      | some _ => return s
      | none => return s.accessed call (service.script request) s.shared
  | .access call =>
      match s.calls call with
      | none => return s
      | some rest => do
          let (rest, shared) ← (rest.advance service.perform).run s.shared
          return s.accessed call rest shared
  | .elsewhere outside => return { s with shared := service.elsewhere outside s.shared }

/-- What a step does. -/
inductive Moves (service : Service Request Outside State Fault Value Answer)
    (s : Running State Value Answer) :
    CallEvent Request Outside → Running State Value Answer → Prop where
  | began (call : Nat) (request : Request) (idle : s.calls call = none) :
      Moves service s (.begins call request)
        (s.accessed call (service.script request) s.shared)
  | again (call : Nat) (request : Request) (rest : Script Access Answer Value)
      (here : s.calls call = some rest) : Moves service s (.begins call request) s
  | absent (call : Nat) (idle : s.calls call = none) : Moves service s (.access call) s
  | accessed (call : Nat) (rest following : Script Access Answer Value) (shared : State)
      (here : s.calls call = some rest)
      (ran : Returns (rest.advance service.perform) s.shared following shared) :
      Moves service s (.access call) (s.accessed call following shared)
  | elsewhere (outside : Outside) :
      Moves service s (.elsewhere outside) { s with shared := service.elsewhere outside s.shared }

section Steps

variable {service : Service Request Outside State Fault Value Answer}
  {s next : Running State Value Answer} {call other : Nat}
  {rest following : Script Access Answer Value} {shared : State}

theorem update_eq_some {f : Nat → Option Other} {new found : Other} :
    Function.update f call (some new) other = some found ↔
      other = call ∧ found = new ∨ other ≠ call ∧ f other = some found := by
  by_cases same : other = call
  · subst same
    simp [eq_comm]
  · simp [same]

@[simp] theorem accessed_self : (s.accessed call following shared).calls call = some following :=
  Function.update_self ..

theorem accessed_ne (apart : other ≠ call) :
    (s.accessed call following shared).calls other = s.calls other := Function.update_of_ne apart ..

theorem accessed_idle (idle : (s.accessed call following shared).calls other = none) :
    other ≠ call ∧ s.calls other = none := by
  by_cases same : other = call
  · subst same
    simp [Running.accessed] at idle
  · exact ⟨same, accessed_ne same ▸ idle⟩

theorem step_access (here : s.calls call = some rest) :
    service.step s (.access call) = .ok next ↔ ∃ following shared,
      Returns (rest.advance service.perform) s.shared following shared ∧
        next = s.accessed call following shared := by
  simp only [step, here]
  constructor
  · intro stepped
    obtain ⟨following, shared, ran, answered⟩ := run_bind_eq_ok.mp stepped
    cases answered
    exact ⟨following, shared, ran, rfl⟩
  · rintro ⟨following, shared, ran, rfl⟩
    exact run_bind_eq_ok.mpr ⟨following, shared, ran, rfl⟩

theorem step_moves {event : CallEvent Request Outside} (stepped : service.step s event = .ok next) :
    service.Moves s event next := by
  cases event with
  | begins call request =>
      cases here : s.calls call with
      | none =>
          simp only [step, here] at stepped
          cases stepped
          exact .began call request here
      | some rest =>
          simp only [step, here] at stepped
          cases stepped
          exact .again call request rest here
  | access call =>
      cases here : s.calls call with
      | none =>
          simp only [step, here] at stepped
          cases stepped
          exact .absent call here
      | some rest =>
          obtain ⟨following, shared, ran, rfl⟩ := (step_access here).mp stepped
          exact .accessed call rest following shared here ran
  | elsewhere outside =>
      cases stepped
      exact .elsewhere outside

/-- A call that never begins. -/
theorem calls_unbegun {events : List (CallEvent Request Outside)}
    (ran : execute service.step s events = .ok next) (idle : s.calls call = none)
    (never : ∀ request, .begins call request ∉ events) : next.calls call = none := by
  have kept := execute_history
    (fun past next => (∀ request, .begins call request ∉ past) → next.calls call = none)
    (fun _ => idle) (fun past before event after holds stepped never => ?_) ran
  · exact kept never
  · have was := holds fun request member => never request (List.mem_append_left _ member)
    cases step_moves stepped with
    | began other request _ =>
        have apart : call ≠ other := by
          rintro rfl
          exact never request (by simp)
        rw [accessed_ne apart, was]
    | accessed other rest following shared here _ =>
        have apart : call ≠ other := by
          rintro rfl
          cases was.symm.trans here
        rw [accessed_ne apart, was]
    | again | absent | elsewhere => exact was

end Steps

section Simulates

variable {Concrete Abstract ConcreteFault AbstractFault : Type}
  {concrete : Service Request Outside Concrete ConcreteFault Value Answer}
  {abstract : Service Request Outside Abstract AbstractFault Value Answer}
  {Related : Concrete → Abstract → Prop}

/-- A service whose accesses do what those of another do, where that one says what they do. -/
structure Simulates (concrete : Service Request Outside Concrete ConcreteFault Value Answer)
    (abstract : Service Request Outside Abstract AbstractFault Value Answer)
    (Related : Concrete → Abstract → Prop) : Prop where
  script : ∀ request, concrete.script request = abstract.script request
  access : ∀ {request s t answer later}, Related s t →
    Returns (abstract.perform request) t answer later →
      ∃ after, Returns (concrete.perform request) s answer after ∧ Related after later

theorem Simulates.advance (simulates : Simulates concrete abstract Related)
    {rest following : Script Access Answer Value} {s : Concrete} {t later : Abstract}
    (related : Related s t) (ran : Returns (rest.advance abstract.perform) t following later) :
    ∃ after, Returns (rest.advance concrete.perform) s following after ∧ Related after later := by
  cases rest with
  | done value =>
      obtain ⟨rfl, rfl⟩ := returns_pure_iff.mp ran
      exact ⟨s, returns_pure_iff.mpr ⟨rfl, rfl⟩, related⟩
  | access request continued =>
      obtain ⟨answer, _, answered, ended⟩ := returns_bind_iff.mp ran
      obtain ⟨rfl, rfl⟩ := returns_pure_iff.mp ended
      obtain ⟨after, answered, related⟩ := simulates.access related answered
      exact ⟨after, answered.bind (returns_pure_iff.mpr ⟨rfl, rfl⟩), related⟩

theorem Simulates.step (simulates : Simulates concrete abstract Related) {s : Concrete}
    {t : Abstract} {calls : Nat → Option (Script Access Answer Value)}
    {later : Running Abstract Value Answer} {event : CallEvent Request Outside}
    (related : Related s t)
    (elsewhere : ∀ outside, event = .elsewhere outside →
      Related (concrete.elsewhere outside s) (abstract.elsewhere outside t))
    (stepped : abstract.step ⟨t, calls⟩ event = .ok later) :
    ∃ after, concrete.step ⟨s, calls⟩ event = .ok ⟨after, later.calls⟩ ∧
      Related after later.shared := by
  cases event with
  | begins call request =>
      cases here : calls call with
      | none =>
          simp only [Service.step, here] at stepped ⊢
          cases stepped
          rw [simulates.script]
          exact ⟨s, rfl, related⟩
      | some rest =>
          simp only [Service.step, here] at stepped ⊢
          cases stepped
          exact ⟨s, rfl, related⟩
  | access call =>
      cases here : calls call with
      | none =>
          simp only [Service.step, here] at stepped ⊢
          cases stepped
          exact ⟨s, rfl, related⟩
      | some rest =>
          obtain ⟨following, shared, ran, rfl⟩ := (step_access (s := ⟨t, calls⟩) here).mp stepped
          obtain ⟨after, ran, related⟩ := simulates.advance related ran
          exact ⟨after, (step_access (s := ⟨s, calls⟩) here).mpr ⟨following, after, ran, rfl⟩,
            related⟩
  | elsewhere outside =>
      cases stepped
      exact ⟨_, rfl, elsewhere outside rfl⟩

/-- What one does in any order of its accesses the other does. -/
theorem Simulates.run (simulates : Simulates concrete abstract Related)
    {events : List (CallEvent Request Outside)} {s : Concrete} {t : Abstract}
    {calls : Nat → Option (Script Access Answer Value)} {later : Running Abstract Value Answer}
    (related : Related s t)
    (elsewhere : ∀ outside, .elsewhere outside ∈ events → ∀ s t, Related s t →
      Related (concrete.elsewhere outside s) (abstract.elsewhere outside t))
    (ran : execute abstract.step ⟨t, calls⟩ events = .ok later) :
    ∃ after, execute concrete.step ⟨s, calls⟩ events = .ok ⟨after, later.calls⟩ ∧
      Related after later.shared := by
  induction events generalizing s t calls with
  | nil =>
      cases ran
      exact ⟨s, rfl, related⟩
  | cons event rest ih =>
      obtain ⟨middle, stepped, ran⟩ := execute_cons.mp ran
      obtain ⟨after, moved, related⟩ := simulates.step related
        (fun outside same => elsewhere outside (by simp [same]) _ _ related) stepped
      obtain ⟨last, ended, related⟩ := ih related
        (fun outside member => elsewhere outside (List.mem_cons_of_mem _ member)) ran
      exact ⟨last, execute_cons.mpr ⟨_, moved, ended⟩, related⟩

end Simulates

end Service

section SideBySide

variable {Index : Type}
  {perform : Index → (request : Access) → Program State Fault (Answer request)}
  {rely guarantee : Index → State → State → Prop} {post : Index → Value → State → Prop}
  {calls : Index → Option (Script Access Answer Value)} {s after : State} {call : Index}
  {script next : Script Access Answer Value}

/-- Scripts side by side, each of which keeps what it promised the others. -/
def Script.Abide (perform : Index → (request : Access) → Program State Fault (Answer request))
    (rely guarantee : Index → State → State → Prop) (post : Index → Value → State → Prop)
    (calls : Index → Option (Script Access Answer Value)) (s : State) : Prop :=
  ∀ call script, calls call = some script →
    script.Keeps (perform call) (rely call) (guarantee call) (post call) s

/-- What each of them relies on leaves all of them their promises. -/
theorem Script.Abide.stable (abide : Abide perform rely guarantee post calls s)
    (relied : ∀ call, rely call s after)
    (trans : ∀ call {first second third}, rely call first second → rely call second third →
      rely call first third) : Abide perform rely guarantee post calls after :=
  fun call script here => (abide call script here).stable (relied call) (trans call)

/-- An access of one, which its guarantee allows and the others rely on. -/
theorem Script.Abide.advance [DecidableEq Index] (abide : Abide perform rely guarantee post calls s)
    (here : calls call = some script) (refl : ∀ call s, rely call s s)
    (trans : ∀ call {first second third}, rely call first second → rely call second third →
      rely call first third)
    (allows : ∀ other, other ≠ call → guarantee call s after → rely other s after)
    (ran : Returns (script.advance (perform call)) s next after) :
    (after = s ∨ guarantee call s after) ∧
      Abide perform rely guarantee post (Function.update calls call (some next)) after := by
  obtain ⟨moved, goesOn⟩ := (abide call script here).advance (refl call) ran
  refine ⟨moved, fun other following found => ?_⟩
  by_cases same : other = call
  · subst same
    rw [Function.update_self] at found
    exact Option.some.inj found ▸ goesOn
  · rw [Function.update_of_ne same] at found
    have relied : rely other s after := by
      rcases moved with rfl | allowed
      · exact refl other after
      · exact allows other same allowed
    exact (abide other following found).stable relied (trans other)

end SideBySide

end FsProtection.Base
