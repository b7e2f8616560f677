import FsProtection.Base.Program

/-!
# Loops

A loop whose turns are programs, run with fuel, so that a run that is cut short differs
from one that was left. What is known of one turn gives that a loop is left with a result,
that it ends, or that it never does.
-/

namespace FsProtection.Base

variable {World Fault State Result : Type}

/-- How a turn of a loop ends: the loop goes on, or is left. -/
inductive Turn (State Result : Type) where
  | again (next : State)
  | left (result : Result)

/-- At most that many turns; without a result the loop is still running. -/
def loop (turn : State → Program World Fault (Turn State Result)) :
    Nat → State → Program World Fault (Option Result)
  | 0, _ => return none
  | fuel + 1, state => do
      match ← turn state with
      | .again next => loop turn fuel next
      | .left result => return some result

variable {turn : State → Program World Fault (Turn State Result)} {state next : State}
  {w middle after : World} {fuel : Nat}

/-- Where a loop may be between two turns. -/
inductive Reaches (turn : State → Program World Fault (Turn State Result)) (state : State)
    (w : World) : State → World → Prop where
  | start : Reaches turn state w state w
  | again {current next : State} {middle after : World}
      (prior : Reaches turn state w current middle)
      (turned : Returns (turn current) middle (.again next) after) :
      Reaches turn state w next after

/-- With enough fuel the loop is not still running: it was left, or a turn faulted. -/
def Ends (turn : State → Program World Fault (Turn State Result)) (state : State)
    (w : World) : Prop :=
  ∃ fuel, ∀ after, ¬ Returns (loop turn fuel state) w none after

theorem loop_left {result : Result} (turned : Returns (turn state) w (.left result) after) :
    Returns (loop turn (fuel + 1) state) w (some result) after :=
  turned.bind (returns_pure_iff.mpr ⟨rfl, rfl⟩)

theorem loop_again_iff {outcome : Option Result}
    (turned : Returns (turn state) w (.again next) middle) :
    Returns (loop turn (fuel + 1) state) w outcome after ↔
      Returns (loop turn fuel next) middle outcome after :=
  returns_bind_of_returns turned

/-- A loop that is still running went on in each of its turns. -/
theorem returns_loop_none_iff :
    Returns (loop turn (fuel + 1) state) w none after ↔
      ∃ next middle, Returns (turn state) w (.again next) middle ∧
        Returns (loop turn fuel next) middle none after := by
  constructor
  · intro running
    obtain ⟨turned, middle, ran, rest⟩ := returns_bind_iff.mp running
    cases turned with
    | again next => exact ⟨next, middle, ran, rest⟩
    | left result => cases (returns_pure_iff.mp rest).1
  · rintro ⟨next, middle, turned, rest⟩
    exact (loop_again_iff turned).mpr rest

/-- A property of the start that every turn keeps holds wherever the loop may be. -/
theorem Reaches.keeps (Holds : State → World → Prop) (reaches : Reaches turn state w next after)
    (initial : Holds state w)
    (kept : ∀ {current following : State} {before later : World}, Holds current before →
      Returns (turn current) before (.again following) later → Holds following later) :
    Holds next after := by
  induction reaches with
  | start => exact initial
  | again _ turned ih => exact kept ih turned

theorem Reaches.first (turned : Returns (turn state) w (.again next) middle)
    {last : State} (reaches : Reaches turn next middle last after) :
    Reaches turn state w last after := by
  induction reaches with
  | start => exact .again .start turned
  | again _ again ih => exact .again ih again

/-- A loop each of whose turns lowers a measure ends. -/
theorem Ends.of_measure (measure : State → World → Nat)
    (falls : ∀ {current following : State} {before later : World},
      Reaches turn state w current before →
      Returns (turn current) before (.again following) later →
        measure following later < measure current before) :
    Ends turn state w := by
  refine ⟨measure state w + 1, fun after running => ?_⟩
  generalize enough : measure state w + 1 = fuel at running
  have bounded : measure state w < fuel := by omega
  clear enough
  induction fuel generalizing state w with
  | zero => cases bounded
  | succ fuel ih =>
      obtain ⟨next, middle, turned, rest⟩ := returns_loop_none_iff.mp running
      have lower := falls .start turned
      exact ih (fun reaches => falls (reaches.first turned)) rest (by omega)

/-- A loop that goes on to where it never ends does not end. -/
theorem not_ends_of_again (turned : Returns (turn state) w (.again next) middle)
    (never : ¬ Ends turn next middle) : ¬ Ends turn state w := by
  rintro ⟨fuel, ended⟩
  cases fuel with
  | zero => exact ended w (returns_pure_iff.mpr ⟨rfl, rfl⟩)
  | succ fuel =>
      exact never ⟨fuel, fun after running => ended after ((loop_again_iff turned).mpr running)⟩

/-- A loop whose turns all go on never ends. -/
theorem not_ends_of_invariant (Holds : State → World → Prop)
    (goes : ∀ {current : State} {before : World}, Holds current before →
      ∃ following later, Returns (turn current) before (.again following) later ∧
        Holds following later)
    (initial : Holds state w) : ¬ Ends turn state w := by
  rintro ⟨fuel, ended⟩
  suffices running : ∃ after, Returns (loop turn fuel state) w none after by
    obtain ⟨after, running⟩ := running
    exact ended after running
  clear ended
  induction fuel generalizing state w with
  | zero => exact ⟨w, returns_pure_iff.mpr ⟨rfl, rfl⟩⟩
  | succ fuel ih =>
      obtain ⟨next, middle, turned, holds⟩ := goes initial
      obtain ⟨after, running⟩ := ih holds
      exact ⟨after, (loop_again_iff turned).mpr running⟩

end FsProtection.Base
