import FsProtection.Base.Loop
import FsProtection.Client.Terminal

/-!
# The client's command loop

The loop of `main` over what is left of standard input.
-/

namespace FsProtection

open Base

/-- The client between two reads. -/
structure Client where
  input : Bytes
  command : Int
  list : ClientList
  kills : Nat
  removals : Nat
  adds : Nat

abbrev MainM := Program Client Fault

namespace Client

section Model

variable (env : Surroundings)

/-- `refreshstdin`. The `break` stands outside the `if`, so it is one `getchar`. -/
def refreshstdin : MainM Unit := modify fun s => { s with input := s.input.tail }

/-- `scanf ("%d", &number)`, which leaves a number alone that it does not read. -/
def scanNumber (number : Int) : MainM Int := do
  let s ← get
  set { s with input := (scanInt s.input).2 }
  return (scanInt s.input).1.getD number

/-- `scanf ("%c", &type)`. -/
def scanType (type : Byte) : MainM Byte := do
  let s ← get
  set { s with input := s.input.tail }
  return s.input.head?.getD type

def readline : MainM (Option Bytes) := do
  let s ← get
  set { s with input := (env.readline s.input).2 }
  return (env.readline s.input).1

def onList {Value : Type} (program : ClientM Value) : MainM Value :=
  onPart list (fun list s => { s with list := list }) program

/-- `addFile` with its reads. The type is read behind the copying of the line, where a fault
hides the read. -/
def addFile : MainM Unit := do
  refreshstdin
  let line ← readline env
  let s ← get
  set { s with adds := s.adds + 1 }
  let type ← scanType (env.typeBefore s.adds line)
  onList (ClientList.addPath (env.filePath s.adds line) type)

/-- `removeFile` with its reads. What it prints before them changes nothing. -/
def removeFile : MainM Unit := do
  let s ← get
  match s.list.root with
  | none => return
  | some _ => do
      set { s with removals := s.removals + 1 }
      refreshstdin
      let number ← scanNumber (env.number s.removals)
      onList (ClientList.removeFile number)

/-- `kill (pid, SIGTERM)`, and whether it succeeds. -/
def kill : MainM Bool := do
  let s ← get
  set { s with kills := s.kills + 1 }
  return env.kill s.kills

/-- The `switch` of `main`. The menu, and what `exitall` does, are not seen here. -/
def dispatch (command : Int) : MainM (Turn Unit Unit) := do
  if command = 1 then
    let _ ← onList ClientList.printFileList
    return .again ()
  else if command = 2 then
    addFile env
    return .again ()
  else if command = 3 then
    removeFile env
    return .again ()
  else if command = 9 then
    if ← kill env then
      return .left ()
    else
      return .again ()
  else
    return .again ()

/-- A turn of the loop of `main`. -/
def turn (_ : Unit) : MainM (Turn Unit Unit) := do
  let s ← get
  let command ← scanNumber s.command
  modify fun s => { s with command := command }
  dispatch env command

/-- The client before the loop, where `command` holds what was there before. -/
def start (place : Nat → Nat) (input : Bytes) (command : Int) : Client :=
  ⟨input, command, ClientList.initial place, 0, 0, 0⟩

/-- A turn consumes a character of the input, or the loop is left, if only by a fault. -/
def Progresses (s : Client) : Prop :=
  ∀ after, Returns (turn env ()) s (.again ()) after → after.input.length < s.input.length

/-- What `scanf` takes a character of, or a kept command that takes one or quits. -/
def Consumes (s : Client) : Prop :=
  Begins s.input ∨ s.command = 2 ∨ (s.command = 3 ∧ s.list.root ≠ none ∧ s.input ≠ []) ∨
    s.command = 9 ∧ env.kill s.kills = true

end Model

section Spec

variable {env : Surroundings} {s after : Client} {Value : Type}

@[simp] theorem returns_refreshstdin_iff {value : Unit} :
    Returns refreshstdin s value after ↔ after = { s with input := s.input.tail } := by
  simp [refreshstdin]

@[simp] theorem returns_scanNumber_iff {number value : Int} :
    Returns (scanNumber number) s value after ↔
      value = (scanInt s.input).1.getD number ∧
        after = { s with input := (scanInt s.input).2 } := by
  simp [scanNumber, returns_bind_iff, and_comm]

@[simp] theorem returns_scanType_iff {type value : Byte} :
    Returns (scanType type) s value after ↔
      value = s.input.head?.getD type ∧ after = { s with input := s.input.tail } := by
  simp [scanType, returns_bind_iff, and_comm]

@[simp] theorem returns_readline_iff {line : Option Bytes} :
    Returns (readline env) s line after ↔
      line = (env.readline s.input).1 ∧
        after = { s with input := (env.readline s.input).2 } := by
  simp [readline, returns_bind_iff, and_comm]

@[simp] theorem returns_kill_iff {killed : Bool} :
    Returns (kill env) s killed after ↔
      killed = env.kill s.kills ∧ after = { s with kills := s.kills + 1 } := by
  simp [kill, returns_bind_iff, and_comm]

@[simp] theorem returns_onList_iff {program : ClientM Value} {value : Value} :
    Returns (onList program) s value after ↔
      ∃ list, Returns program s.list value list ∧ after = { s with list := list } :=
  returns_onPart_iff

/-- What a program leaves of the input is the end of it. -/
def Shrinks (program : MainM Value) : Prop :=
  ∀ s value after, Returns program s value after → after.input <:+ s.input

theorem Shrinks.bind {Other : Type} {first : MainM Other} {rest : Other → MainM Value}
    (start : Shrinks first) (continued : ∀ result, Shrinks (rest result)) :
    Shrinks (first >>= rest) := by
  intro s value after ran
  obtain ⟨result, middle, ranFirst, ranRest⟩ := returns_bind_iff.mp ran
  exact (continued result _ _ _ ranRest).trans (start _ _ _ ranFirst)

theorem shrinks_pure (value : Value) : Shrinks (pure value) := by
  intro s result after ran
  obtain ⟨_, rfl⟩ := returns_pure_iff.mp ran
  exact List.suffix_rfl

theorem onList_shrinks (program : ClientM Value) : Shrinks (onList program) := by
  intro s value after ran
  obtain ⟨list, _, rfl⟩ := returns_onList_iff.mp ran
  exact List.suffix_rfl

theorem kill_shrinks : Shrinks (kill env) := by
  intro s value after ran
  obtain ⟨_, rfl⟩ := returns_kill_iff.mp ran
  exact List.suffix_rfl

/-- A node that was added was filled in. -/
theorem addPath_filled {list final : ClientList} {path : Except Fault (SizedBytes filepathSize)}
    {type : Byte} (ran : Returns (ClientList.addPath path type) list () final) :
    ∃ filePath, path = .ok filePath := by
  obtain ⟨_, _, allocated, _⟩ := returns_bind_iff.mp ran
  obtain ⟨filePath, taken, _⟩ := fillFile_returned allocated
  exact ⟨filePath, taken⟩

theorem addFile_iff :
    Returns (addFile env) s () after ↔
      ∃ list, Returns (ClientList.addPath (env.filePath s.adds (env.readline s.input.tail).1)
          ((env.readline s.input.tail).2.head?.getD
            (env.typeBefore s.adds (env.readline s.input.tail).1))) s.list () list ∧
        after = ⟨(env.readline s.input.tail).2.tail, s.command, list, s.kills, s.removals,
          s.adds + 1⟩ := by
  simp [addFile, returns_bind_iff]

/-- `addFile` takes a character at least: without one `readline` answers NULL. -/
theorem addFile_progresses (ran : Returns (addFile env) s () after) :
    after.input.length < s.input.length := by
  obtain ⟨list, added, rfl⟩ := addFile_iff.mp ran
  cases input : s.input with
  | cons byte others =>
      have rest := ((List.tail_suffix _).trans (env.readlineRest others)).length_le
      exact Nat.lt_succ_of_le rest
  | nil =>
      obtain ⟨filePath, taken⟩ := addPath_filled added
      rw [input, List.tail_nil, env.readlineEnd] at taken
      cases taken

theorem removeFile_empty (empty : s.list.root = none) :
    Returns (removeFile env) s () after ↔ after = s := by
  rw [removeFile, returns_bind_of_returns (returns_get_iff.mpr ⟨rfl, rfl⟩), empty]
  simp

/-- With files `removeFile` takes one character, and a number behind it. -/
theorem removeFile_iff {pfile : Nat} (some : s.list.root = some pfile) :
    Returns (removeFile env) s () after ↔
      ∃ list, Returns (ClientList.removeFile
          ((scanInt s.input.tail).1.getD (env.number s.removals))) s.list () list ∧
        after = ⟨(scanInt s.input.tail).2, s.command, list, s.kills, s.removals + 1,
          s.adds⟩ := by
  rw [removeFile, returns_bind_of_returns (returns_get_iff.mpr ⟨rfl, rfl⟩), some]
  simp [returns_bind_iff]

theorem addFile_shrinks : Shrinks (addFile env) := by
  intro s value after ran
  obtain ⟨list, _, rfl⟩ := addFile_iff.mp ran
  exact ((List.tail_suffix _).trans (env.readlineRest _)).trans (List.tail_suffix _)

theorem removeFile_shrinks : Shrinks (removeFile env) := by
  intro s value after ran
  cases root : s.list.root with
  | none =>
      obtain rfl := (removeFile_empty root).mp ran
      exact List.suffix_rfl
  | some pfile =>
      obtain ⟨list, _, rfl⟩ := (removeFile_iff root).mp ran
      exact (scanInt_suffix _).trans (List.tail_suffix _)

theorem dispatch_shrinks (command : Int) : Shrinks (dispatch env command) := by
  unfold dispatch
  split
  · exact (onList_shrinks _).bind fun _ => shrinks_pure _
  split
  · exact addFile_shrinks.bind fun _ => shrinks_pure _
  split
  · exact removeFile_shrinks.bind fun _ => shrinks_pure _
  split
  · refine kill_shrinks.bind fun killed => ?_
    cases killed with
    | true => exact shrinks_pure _
    | false => exact shrinks_pure _
  · exact shrinks_pure _

/-- A turn reads a command and then does it. -/
theorem returns_turn_iff {outcome : Turn Unit Unit} :
    Returns (turn env ()) s outcome after ↔
      Returns (dispatch env ((scanInt s.input).1.getD s.command))
        { s with input := (scanInt s.input).2, command := (scanInt s.input).1.getD s.command }
        outcome after := by
  simp [turn, returns_bind_iff]

/-- A turn that reads nothing does what the last one did. -/
theorem returns_turn_stuck_iff (stuck : ¬ Begins s.input) {outcome : Turn Unit Unit} :
    Returns (turn env ()) s outcome after ↔ Returns (dispatch env s.command) s outcome after := by
  rw [returns_turn_iff, scanInt_stuck stuck]
  rfl

theorem progresses_of_begins (begins : Begins s.input) : Progresses env s := by
  intro after ran
  have rest := (dispatch_shrinks _ _ _ _ (returns_turn_iff.mp ran)).length_le
  exact rest.trans_lt (scanInt_consumes begins)

/-- A kept command that takes a character, or quits. -/
theorem dispatch_progresses (kept : s.command = 2 ∨
      (s.command = 3 ∧ s.list.root ≠ none ∧ s.input ≠ []) ∨
      s.command = 9 ∧ env.kill s.kills = true)
    (ran : Returns (dispatch env s.command) s (.again ()) after) :
    after.input.length < s.input.length := by
  rcases kept with isAdd | ⟨isRemove, listed, typed⟩ | ⟨isQuit, kills⟩
  · rw [isAdd] at ran
    obtain ⟨_, _, added, done⟩ := returns_bind_iff.mp ran
    rw [(returns_pure_iff.mp done).2]
    exact addFile_progresses added
  · rw [isRemove] at ran
    obtain ⟨_, _, removed, done⟩ := returns_bind_iff.mp ran
    rw [(returns_pure_iff.mp done).2]
    obtain ⟨pfile, root⟩ := Option.ne_none_iff_exists'.mp listed
    obtain ⟨list, _, rfl⟩ := (removeFile_iff root).mp removed
    have shorter := (scanInt_suffix s.input.tail).length_le
    have positive := List.length_pos_iff.mpr typed
    rw [List.length_tail] at shorter
    dsimp only
    omega
  · rw [isQuit] at ran
    obtain ⟨killed, _, called, done⟩ := returns_bind_iff.mp ran
    rw [(returns_kill_iff.mp called).1, kills] at done
    cases (returns_pure_iff.mp done).1

/-- A turn that neither reads a command nor keeps one that reads goes on where it was. -/
theorem turn_stays {nodes : List (Nat × ClientEntry)} (represents : s.list.Represents nodes)
    (idle : ¬ Consumes env s) :
    ∃ after, Returns (turn env ()) s (.again ()) after ∧ after.input = s.input := by
  have stuck : ¬ Begins s.input := fun begins => idle (.inl begins)
  suffices stays : ∃ after, Returns (dispatch env s.command) s (.again ()) after ∧
      after.input = s.input by
    obtain ⟨after, ran, same⟩ := stays
    exact ⟨after, (returns_turn_stuck_iff stuck).mpr ran, same⟩
  unfold dispatch
  split
  · have printed := ClientList.returns_printFileList represents.list
    exact ⟨_, (returns_onList_iff.mpr ⟨_, printed, rfl⟩).bind
      (returns_pure_iff.mpr ⟨rfl, rfl⟩), rfl⟩
  split
  · exact absurd (.inr (.inl ‹_›)) idle
  split
  · rename_i isRemove
    cases root : s.list.root with
    | none =>
        exact ⟨s, ((removeFile_empty root).mpr rfl).bind (returns_pure_iff.mpr ⟨rfl, rfl⟩), rfl⟩
    | some pfile =>
        have empty : s.input = [] := by
          by_contra typed
          exact idle (.inr (.inr (.inl ⟨isRemove, by simp [root], typed⟩)))
        obtain ⟨list, removed, _⟩ := ClientList.removeFile_returns represents
          ((scanInt s.input.tail).1.getD (env.number s.removals))
        refine ⟨_, ((removeFile_iff root).mpr ⟨list, removed, rfl⟩).bind
          (returns_pure_iff.mpr ⟨rfl, rfl⟩), ?_⟩
        rw [empty]
        rfl
  split
  · rename_i isQuit
    have alive : env.kill s.kills = false := by
      by_contra killed
      exact idle (.inr (.inr (.inr ⟨isQuit, Bool.eq_true_of_not_eq_false killed⟩)))
    refine ⟨{ s with kills := s.kills + 1 }, (returns_kill_iff.mpr ⟨rfl, rfl⟩).bind ?_, rfl⟩
    rw [alive]
    exact returns_pure_iff.mpr ⟨rfl, rfl⟩
  · exact ⟨s, returns_pure_iff.mpr ⟨rfl, rfl⟩, rfl⟩

theorem progresses_iff {nodes : List (Nat × ClientEntry)} (represents : s.list.Represents nodes) :
    Progresses env s ↔ Consumes env s := by
  constructor
  · intro progresses
    by_contra idle
    obtain ⟨after, ran, same⟩ := turn_stays represents idle
    exact absurd (congrArg List.length same) (progresses after ran).ne
  · intro consumes
    by_cases begins : Begins s.input
    · exact progresses_of_begins begins
    · intro after ran
      exact dispatch_progresses (consumes.resolve_left begins)
        ((returns_turn_stuck_iff begins).mp ran)

/-- The nodes are a list. -/
def Listed (s : Client) : Prop := ∃ nodes, s.list.Represents nodes

theorem addFile_listed (listed : Listed s) (ran : Returns (addFile env) s () after) :
    Listed after := by
  obtain ⟨list, added, rfl⟩ := addFile_iff.mp ran
  obtain ⟨nodes, represents⟩ := listed
  obtain ⟨filePath, taken⟩ := addPath_filled added
  obtain ⟨final, address, expected, represented, _⟩ :=
    ClientList.addPath_returns represents taken _
  obtain ⟨_, rfl⟩ := added.unique expected
  exact ⟨_, represented⟩

theorem removeFile_listed (listed : Listed s) (ran : Returns (removeFile env) s () after) :
    Listed after := by
  cases root : s.list.root with
  | none =>
      rw [(removeFile_empty root).mp ran]
      exact listed
  | some pfile =>
      obtain ⟨list, removed, rfl⟩ := (removeFile_iff root).mp ran
      obtain ⟨nodes, represents⟩ := listed
      obtain ⟨final, expected, represented, _⟩ := ClientList.removeFile_returns represents _
      obtain ⟨_, rfl⟩ := removed.unique expected
      exact ⟨_, represented⟩

theorem dispatch_listed {command : Int} {outcome : Turn Unit Unit} (listed : Listed s)
    (ran : Returns (dispatch env command) s outcome after) : Listed after := by
  unfold dispatch at ran
  split at ran
  · obtain ⟨_, _, shown, done⟩ := returns_bind_iff.mp ran
    rw [(returns_pure_iff.mp done).2]
    obtain ⟨list, printed, rfl⟩ := returns_onList_iff.mp shown
    obtain ⟨nodes, represents⟩ := listed
    obtain ⟨_, rfl⟩ := printed.unique (ClientList.returns_printFileList represents.list)
    exact ⟨nodes, represents⟩
  split at ran
  · obtain ⟨_, _, added, done⟩ := returns_bind_iff.mp ran
    rw [(returns_pure_iff.mp done).2]
    exact addFile_listed listed added
  split at ran
  · obtain ⟨_, _, removed, done⟩ := returns_bind_iff.mp ran
    rw [(returns_pure_iff.mp done).2]
    exact removeFile_listed listed removed
  split at ran
  · obtain ⟨killed, _, called, done⟩ := returns_bind_iff.mp ran
    obtain ⟨_, rfl⟩ := returns_kill_iff.mp called
    split at done
    · rw [(returns_pure_iff.mp done).2]
      exact listed
    · rw [(returns_pure_iff.mp done).2]
      exact listed
  · rw [(returns_pure_iff.mp ran).2]
    exact listed

theorem turn_listed {outcome : Turn Unit Unit} (listed : Listed s)
    (ran : Returns (turn env ()) s outcome after) : Listed after := by
  have scanned : Listed { s with
      input := (scanInt s.input).2, command := (scanInt s.input).1.getD s.command } := listed
  exact dispatch_listed scanned (returns_turn_iff.mp ran)

/-- Between two turns the nodes are a list. -/
theorem reaches_listed {place : Nat → Nat} {input : Bytes} {command : Int}
    (reaches : Reaches (turn env) () (start place input command) () s) : Listed s :=
  reaches.keeps (fun _ s => Listed s) ⟨[], IsList.empty place, rfl⟩ turn_listed

/-- Each turn takes a character or leaves the loop, which therefore ends, exactly when every
turn begins with something to read as a number, or with a kept command that reads or quits. -/
theorem main_loop_iff (env : Surroundings) (place : Nat → Nat) (input : Bytes) (command : Int) :
    ((∀ s, Reaches (turn env) () (start place input command) () s → Progresses env s) ∧
        Ends (turn env) () (start place input command)) ↔
      ∀ s, Reaches (turn env) () (start place input command) () s → Consumes env s := by
  constructor
  · rintro ⟨progresses, _⟩ s reaches
    obtain ⟨nodes, represents⟩ := reaches_listed reaches
    exact (progresses_iff represents).mp (progresses s reaches)
  · intro consumes
    have progresses : ∀ s, Reaches (turn env) () (start place input command) () s →
        Progresses env s := by
      intro s reaches
      obtain ⟨nodes, represents⟩ := reaches_listed reaches
      exact (progresses_iff represents).mpr (consumes s reaches)
    refine ⟨progresses, .of_measure (fun _ s => s.input.length) fun reaches turned => ?_⟩
    exact progresses _ reaches _ turned

end Spec

/-- A terminal whose `readline` takes a line, and a `kill` that succeeds. In front of
`filePath` is what the allocator keeps there. -/
def terminal : Surroundings where
  readline input :=
    if input = [] then (none, [])
    else (some (input.takeWhile (· ≠ newline)), (input.dropWhile (· ≠ newline)).tail)
  kill _ := true
  number _ := 0
  front _ := SizedBytes.zeros 2
  goesOn _ := true
  readlineRest input := by
    split
    · exact List.nil_suffix
    · exact (List.tail_suffix _).trans (List.dropWhile_suffix _)
  readlineEnd := rfl

section Idle

variable {env : Surroundings} {s : Client}

theorem dispatch_idle {command : Int} (idle : command ∉ [1, 2, 3, 9]) :
    Returns (dispatch env command) s (.again ()) s := by
  simp only [List.mem_cons, List.not_mem_nil, or_false, not_or] at idle
  obtain ⟨notPrint, notAdd, notRemove, notQuit⟩ := idle
  rw [dispatch, if_neg notPrint, if_neg notAdd, if_neg notRemove, if_neg notQuit]
  exact returns_pure_iff.mpr ⟨rfl, rfl⟩

/-- Behind a command that does nothing, input that is no number keeps the loop running. -/
theorem not_ends_of_stuck {rest : Bytes} {idle : Int} (isIdle : idle ∉ [1, 2, 3, 9])
    (read : scanInt s.input = (some idle, rest)) (stuck : ¬ Begins rest) :
    ¬ Ends (turn env) () s := by
  refine not_ends_of_invariant
    (fun _ later => later.input = s.input ∨ later.input = rest ∧ later.command = idle) ?_
    (.inl rfl)
  rintro current later (unread | ⟨left, kept⟩)
  · refine ⟨(), { later with input := rest, command := idle }, returns_turn_iff.mpr ?_,
      .inr ⟨rfl, rfl⟩⟩
    rw [unread, read]
    exact dispatch_idle isIdle
  · refine ⟨(), later, ?_, .inr ⟨left, kept⟩⟩
    rw [← left] at stuck
    rw [← kept] at isIdle
    exact (returns_turn_stuck_iff stuck).mpr (dispatch_idle isIdle)

/-- An addition of an empty line does not stop the client. -/
theorem emptyLine_turn {rest : Bytes} {type : Byte} (listed : Listed s)
    (read : scanInt s.input = (some 2, newline :: newline :: type :: rest)) :
    ∃ after, Returns (turn terminal ()) s (.again ()) after ∧ after.input = rest := by
  obtain ⟨nodes, represents⟩ := listed
  have reads : terminal.goesOn s.adds = true := rfl
  obtain ⟨filePath, taken⟩ := Surroundings.filePath_goesOn reads []
  obtain ⟨list, _, added, _⟩ := ClientList.addPath_returns represents taken type
  have added : Returns (addFile terminal)
      { s with input := newline :: newline :: type :: rest, command := 2 } ()
      ⟨rest, 2, list, s.kills, s.removals, s.adds + 1⟩ :=
    addFile_iff.mpr ⟨list, added, rfl⟩
  refine ⟨⟨rest, 2, list, s.kills, s.removals, s.adds + 1⟩, returns_turn_iff.mpr ?_, rfl⟩
  rw [read]
  exact added.bind (returns_pure_iff.mpr ⟨rfl, rfl⟩)

end Idle

/-- A word that is no number, and the end of the input without the quit command, are read
again and again, also behind an empty line, which is stored outside its `filePath`. -/
theorem words_spin :
    ¬ Ends (turn terminal) () (start id (lit "4x") 0) ∧
      ¬ Ends (turn terminal) () (start id (lit "4") 0) ∧
        ¬ Ends (turn terminal) () (start id (lit "2\n\nr\n4x") 0) := by
  have idle : (4 : Int) ∉ [1, 2, 3, 9] := by decide
  have word : scanInt (lit "4x") = (some 4, lit "x") := by decide
  have ended : scanInt (lit "4") = (some 4, []) := by decide
  have letter : ¬ Begins (lit "x") := by
    unfold Begins
    decide
  have nothing : ¬ Begins [] := by
    unfold Begins
    decide
  have behind : scanInt (lit "\n4x") = (some 4, lit "x") := by decide
  have adds : scanInt (lit "2\n\nr\n4x") = (some 2, newline :: newline :: 114 :: lit "\n4x") := by
    decide
  obtain ⟨after, turned, left⟩ := emptyLine_turn (s := start id (lit "2\n\nr\n4x") 0)
    ⟨[], IsList.empty id, rfl⟩ adds
  rw [← left] at behind
  exact ⟨not_ends_of_stuck idle word letter, not_ends_of_stuck idle ended nothing,
    not_ends_of_again turned (not_ends_of_stuck idle behind letter)⟩

end Client

end FsProtection
