import FsProtection.Kernel.Interface

/-!
# `create_list` and `destroy_list`

The parser of rule texts, and what it computes: the rule lines of a text up to the
first line without `@`, each installed when its path opens. The inner `strsep`
rewrites the variable the outer loop tests, so a line without `@` ends the loop.
-/

namespace FsProtection

open Base

def newline : Byte := 10

def atSign : Byte := 64

/-- `sizeof` of a pointer on the target, which is what the callers of `create_list`
pass as the size of a text. -/
def sizeofPointer : Nat := 4

section Model

variable {σ : Type} (k : Kernel σ)

def filpOpen (path : Bytes) : Program σ Fault (Option File) := do
  let state ← get
  let answer := k.filpOpen path state
  set answer.2
  return answer.1

def filpClose (file : File) : Program σ Fault Unit :=
  modify (k.filpClose file)

/-- The list under construction and the count `create_list` returns. -/
structure ListState where
  top : List FileNode
  cnt : Nat

/-- Nodes linked in behind the last valid one, each counted. -/
def ListState.append (state : ListState) (nodes : List FileNode) : ListState :=
  ⟨state.top ++ nodes, state.cnt + nodes.length⟩

@[simp] theorem ListState.append_nil (state : ListState) : state.append [] = state := by
  simp [ListState.append]

@[simp] theorem ListState.append_append (state : ListState) (first second : List FileNode) :
    (state.append first).append second = state.append (first ++ second) := by
  simp [ListState.append, Nat.add_assoc]

/-- The body of the loop of `create_list` on the line the outer `strsep` cut off:
the list, and `p_str1` as the inner `strsep` leaves it. -/
def createListLine (line : Bytes) (state : ListState) :
    Program σ Fault (ListState × Option Bytes) := do
  let (pSubstr1, pStr1) := strsep (some line) atSign
  match pSubstr1 with
  | none => return (state, pStr1)
  | some path =>
      let fs ← if path = [] then pure none else filpOpen k path
      match fs with
      | none => return (state, pStr1)
      | some file =>
          let type ← (protectTypeFromStr pStr1 : Except Fault ProtectType)
          let node := FileNode.make path file.inode type
          filpClose k file
          return (state.append [node], pStr1)

/-- The loop of `create_list`: the list, and `tmp_data` as the last `strsep` leaves
it. At a NULL `tmp_data` both `strsep` calls answer NULL and the loop ends. -/
def createListLoop (tmpData : Option Bytes) (state : ListState) :
    Program σ Fault (ListState × Option Bytes) := do
  match tmpData with
  | none => return (state, none)
  | some text =>
      let line := text.takeWhile (· != newline)
      let (state, pStr1) ← createListLine k line state
      if pStr1.isSome then
        createListLoop (strsep (some text) newline).2 state
      else
        return (state, (strsep (some text) newline).2)
termination_by pending tmpData
decreasing_by exact strsep_pending_lt text newline

/-- `create_list`: the number of rules appended and the list. `rdt` is the region
its argument points into, `size` the size it allocates for the scratch copy. -/
def createList (top : List FileNode) (rdt : Bytes) (size : Nat) :
    Program σ Fault (Nat × List FileNode) := do
  if Terminated rdt ∧ (cstr rdt).length < k.vmallocRoom size then
    let (state, _tmpData) ← createListLoop k (some (cstr rdt)) ⟨top, 0⟩
    return (state.cnt, state.top)
  else
    throw .overrun

/-- `destroy_list` leaves the root NULL. -/
def destroyList (_top : List FileNode) : List FileNode := []

/-- The list a text installs when none was installed before. -/
def installed (before : σ) (text : Bytes) : Except Fault (List FileNode) :=
  ((createList k [] (text ++ [0]) sizeofPointer).run before).map fun outcome => outcome.1.2

end Model

/-- A line of the form path, `@`, type. -/
structure RuleLine where
  path : Bytes
  type : ProtectType
deriving DecidableEq

def RuleLine.ofLine (line : Bytes) : RuleLine where
  path := line.takeWhile (· != atSign)
  type := protectTypeOfString (line.dropWhile (· != atSign)).tail

/-- The inode a path of a rule text opens to; the empty path is not opened. -/
def pathOpens (opens : Bytes → Option InodeAddr) (path : Bytes) : Option InodeAddr :=
  if path = [] then none else opens path

/-- The node a rule line installs. -/
def RuleLine.install (opens : Bytes → Option InodeAddr) (line : RuleLine) : Option FileNode :=
  (pathOpens opens line.path).map fun inode => FileNode.make line.path inode line.type

/-- The inode a path opens to in a state. -/
def Kernel.opensIn {σ : Type} (k : Kernel σ) (state : σ) (path : Bytes) : Option InodeAddr :=
  (k.filpOpen path state).1.map File.inode

/-- The state after a look at a line: what opened is closed. -/
def Kernel.afterLine {σ : Type} (k : Kernel σ) (line : Bytes) (state : σ) : σ :=
  if line.takeWhile (· != atSign) = [] then state
  else
    match k.filpOpen (line.takeWhile (· != atSign)) state with
    | (none, next) => next
    | (some file, next) => k.filpClose file next

/-- The state after a look at lines, up to the first one without `@`. -/
def Kernel.afterLines {σ : Type} (k : Kernel σ) : List Bytes → σ → σ
  | [], state => state
  | line :: rest, state =>
      if atSign ∈ line then k.afterLines rest (k.afterLine line state) else k.afterLine line state

/-- Every line that is looked at has a type if its path opens, in the state that the
lines before it left. -/
def Kernel.ParsesIn {σ : Type} (k : Kernel σ) : List Bytes → σ → Prop
  | [], _ => True
  | line :: rest, state =>
      if atSign ∈ line then k.ParsesIn rest (k.afterLine line state)
      else pathOpens (k.opensIn state) line = none

/-- The rules of the lines that are looked at, each for the inode its path opened to. -/
def Kernel.parsedIn {σ : Type} (k : Kernel σ) : List Bytes → σ → List FileNode
  | [], _ => []
  | line :: rest, state =>
      if atSign ∈ line then
        ((RuleLine.ofLine line).install (k.opensIn state)).toList ++
          k.parsedIn rest (k.afterLine line state)
      else []

/-- The lines of a text. -/
def textLines (text : Bytes) : List Bytes := text.splitOn newline

/-- The lines the parser reads as rules: those before the first line without `@`. -/
def ruleLines (lines : List Bytes) : List RuleLine :=
  (lines.takeWhile (atSign ∈ ·)).map RuleLine.ofLine

/-- The list the lines of a rule text denote. -/
def parseLines (opens : Bytes → Option InodeAddr) (lines : List Bytes) : List FileNode :=
  (ruleLines lines).filterMap (RuleLine.install opens)

/-- The line that ends the parse, if there is one, does not open: it has no `@`, so
`protectTypeFromStr` would be called on NULL. -/
def Parses (opens : Bytes → Option InodeAddr) : List Bytes → Prop
  | [] => True
  | line :: rest => if atSign ∈ line then Parses opens rest else pathOpens opens line = none

instance Parses.decidable (opens : Bytes → Option InodeAddr) :
    (lines : List Bytes) → Decidable (Parses opens lines)
  | [] => isTrue trivial
  | line :: rest =>
      have := Parses.decidable opens rest
      inferInstanceAs
        (Decidable (if atSign ∈ line then Parses opens rest else pathOpens opens line = none))

/-- `filp_open` is a function of the path for a view of the kernel's state which
opening and closing leave alone. -/
structure PathView {σ : Type} (k : Kernel σ) (opens : σ → Bytes → Option InodeAddr) : Prop where
  opened : ∀ path state, (k.filpOpen path state).1.map File.inode = opens state path
  openKeeps : ∀ path state, opens (k.filpOpen path state).2 = opens state
  closeKeeps : ∀ file state, opens (k.filpClose file state) = opens state

section Lines

variable {opens : Bytes → Option InodeAddr}

@[simp] theorem parseLines_nil : parseLines opens [] = [] := rfl

theorem parseLines_typed {line : Bytes} (typed : atSign ∈ line) (rest : List Bytes) :
    parseLines opens (line :: rest) =
      ((RuleLine.ofLine line).install opens).toList ++ parseLines opens rest := by
  cases installed : (RuleLine.ofLine line).install opens <;>
    simp [parseLines, ruleLines, typed, installed]

theorem parseLines_bare {line : Bytes} (bare : atSign ∉ line) (rest : List Bytes) :
    parseLines opens (line :: rest) = [] := by
  simp [parseLines, ruleLines, bare]

/-- The lines of a text from its first one on. -/
theorem textLines_eq (text : Bytes) :
    textLines text = text.takeWhile (· != newline) ::
      match (strsep (some text) newline).2 with
      | none => []
      | some rest => textLines rest :=
  splitOn_eq_strsep text newline

theorem textLines_append (front back : Bytes) :
    textLines (front ++ newline :: back) = textLines front ++ textLines back :=
  List.splitOnP_append_cons front back (by simp)

/-- Lines that each end in a newline are the lines of their text, with an empty one behind
them. -/
theorem textLines_ended {lines : List Bytes} (single : ∀ line ∈ lines, newline ∉ line) :
    textLines (lines.flatMap (· ++ [newline])) = lines ++ [[]] := by
  induction lines with
  | nil => rfl
  | cons line rest ih =>
      have alone : textLines line = [line] :=
        List.splitOn_eq_singleton (single line List.mem_cons_self)
      rw [List.flatMap_cons, List.append_assoc, List.singleton_append, textLines_append, alone,
        ih fun other member => single other (List.mem_cons_of_mem _ member)]
      rfl

/-- A line is cut at its first `@`. -/
theorem ofLine_append {path : Bytes} (noMark : atSign ∉ path) (type : Bytes) :
    RuleLine.ofLine (path ++ atSign :: type) = ⟨path, protectTypeOfString type⟩ := by
  have passes : ∀ byte ∈ path, (byte != atSign) = true := by
    intro byte member
    simpa using fun same : byte = atSign => noMark (same ▸ member)
  simp [RuleLine.ofLine, List.takeWhile_append_of_pos passes, List.dropWhile_append_of_pos passes]

/-- What lines with a type install: the nodes of those whose path opens. -/
theorem mem_parseLines_iff {lines : List Bytes} (typed : ∀ line ∈ lines, atSign ∈ line)
    {node : FileNode} :
    node ∈ parseLines opens (lines ++ [[]]) ↔
      ∃ line ∈ lines, (RuleLine.ofLine line).install opens = some node := by
  have whole : (lines ++ [[]]).takeWhile (atSign ∈ ·) = lines := by
    rw [List.takeWhile_append_of_pos (by simpa using typed), List.takeWhile_cons_of_neg (by simp),
      List.append_nil]
  simp [parseLines, ruleLines, whole]

theorem takeWhile_atSign_of_notMem {line : Bytes} (bare : atSign ∉ line) :
    line.takeWhile (· != atSign) = line := by
  apply List.takeWhile_eq_self_iff.mpr
  intro byte member
  simpa using fun same : byte = atSign => bare (same ▸ member)

/-- Lines that have a type wherever their path opens parse. -/
theorem parses_of_typed {lines : List Bytes}
    (typed : ∀ line ∈ lines, atSign ∉ line → pathOpens opens line = none) :
    Parses opens lines := by
  induction lines with
  | nil => trivial
  | cons line rest ih =>
      rw [Parses]
      split
      · exact ih fun other member => typed other (List.mem_cons_of_mem _ member)
      · next bare => exact typed line List.mem_cons_self bare

end Lines

section Spec

variable {σ : Type} {k : Kernel σ} {opens : σ → Bytes → Option InodeAddr}

/-- A turn returns unless its line has no `@` and opens. It installs the rule of the line
if the path opens, and leaves what is behind the first `@`. -/
theorem createListLine_settles (line : Bytes) (state : ListState) (before : σ) :
    Settles (createListLine k line state) before
      (atSign ∉ line → pathOpens (k.opensIn before) line = none)
      fun outcome after =>
        outcome = (state.append ((RuleLine.ofLine line).install (k.opensIn before)).toList,
          (strsep (some line) atSign).2) ∧ after = k.afterLine line before := by
  by_cases empty : line.takeWhile (· != atSign) = []
  · have ran : Returns (createListLine k line state) before
        (state, (strsep (some line) atSign).2) before := by
      simp [createListLine, strsep, empty]
    refine Settles.of_returns ran (fun bare => ?_) ?_
    · rw [takeWhile_atSign_of_notMem bare] at empty
      simp [pathOpens, empty]
    · simp [Kernel.afterLine, empty, RuleLine.install, RuleLine.ofLine, pathOpens]
  · rcases opened : k.filpOpen (line.takeWhile (· != atSign)) before with ⟨answer, next⟩
    cases answer with
    | none =>
        have ran : Returns (createListLine k line state) before
            (state, (strsep (some line) atSign).2) next := by
          simp [createListLine, strsep, empty, filpOpen, returns_bind_iff, opened]
        refine Settles.of_returns ran (fun bare => ?_) ?_
        · rw [takeWhile_atSign_of_notMem bare] at opened
          simp [pathOpens, Kernel.opensIn, opened]
        · simp [Kernel.afterLine, empty, RuleLine.install, RuleLine.ofLine, pathOpens,
            Kernel.opensIn, opened]
    | some file =>
        by_cases typed : atSign ∈ line
        · have ran : Returns (createListLine k line state) before
              (state.append [.make (line.takeWhile (· != atSign)) file.inode
                  (protectTypeOfString (line.dropWhile (· != atSign)).tail)],
                some (line.dropWhile (· != atSign)).tail) (k.filpClose file next) := by
            simp [createListLine, strsep_of_mem typed, empty, filpOpen, filpClose,
              returns_bind_iff, opened, protectTypeFromStr]
          refine Settles.of_returns ran (absurd typed) ?_
          simp [Kernel.afterLine, empty, RuleLine.install, RuleLine.ofLine, pathOpens,
            Kernel.opensIn, opened, strsep_of_mem typed]
        · rw [takeWhile_atSign_of_notMem typed] at empty opened
          refine Settles.of_faults ?_ ?_
          · simp [createListLine, strsep_of_absent typed, empty, filpOpen, returns_bind_iff,
              opened, protectTypeFromStr]
          · simp [typed, pathOpens, empty, Kernel.opensIn, opened]

theorem PathView.opensIn (view : PathView k opens) (state : σ) : k.opensIn state = opens state :=
  funext fun path => view.opened path state

theorem PathView.afterLine_keeps (view : PathView k opens) (line : Bytes) (state : σ) :
    opens (k.afterLine line state) = opens state := by
  unfold Kernel.afterLine
  split
  · rfl
  · have kept := view.openKeeps (line.takeWhile (· != atSign)) state
    split
    · next opened =>
        rw [opened] at kept
        exact kept
    · next file next opened =>
        rw [opened] at kept
        exact (view.closeKeeps file next).trans kept

/-- What a turn that returns did: it made no node, or opened the path, made a node for
the inode it got and closed the file. -/
theorem createListLine_cases {line : Bytes} {state next : ListState} {pStr1 : Option Bytes}
    {before after : σ} (ran : Returns (createListLine k line state) before (next, pStr1) after) :
    (next = state ∧
      (after = before ∨ after = (k.filpOpen (line.takeWhile (· != atSign)) before).2)) ∨
    ∃ file type, (k.filpOpen (line.takeWhile (· != atSign)) before).1 = some file ∧
      next = state.append [.make (line.takeWhile (· != atSign)) file.inode type] ∧
      after = k.filpClose file (k.filpOpen (line.takeWhile (· != atSign)) before).2 := by
  obtain ⟨_, outcome, rfl⟩ := (createListLine_settles line state before).returned ran
  obtain ⟨rfl, _⟩ := Prod.mk.inj outcome
  by_cases empty : line.takeWhile (· != atSign) = []
  · left
    simp [Kernel.afterLine, empty, RuleLine.install, RuleLine.ofLine, pathOpens]
  · rcases opened : k.filpOpen (line.takeWhile (· != atSign)) before with ⟨answer, next⟩
    cases answer with
    | none =>
        left
        simp [Kernel.afterLine, empty, RuleLine.install, RuleLine.ofLine, pathOpens,
          Kernel.opensIn, opened]
    | some file =>
        right
        refine ⟨file, (RuleLine.ofLine line).type, rfl, ?_, ?_⟩
        · simp [empty, RuleLine.install, RuleLine.ofLine, pathOpens, Kernel.opensIn, opened]
        · simp [Kernel.afterLine, empty, opened]

/-- The loop of `create_list` over lines that are already cut. -/
def createLines (k : Kernel σ) : List Bytes → ListState → Program σ Fault ListState
  | [], state => return state
  | line :: rest, state => do
      let (state, pStr1) ← createListLine k line state
      if pStr1.isSome then createLines k rest state else return state

/-- The loop reads the lines of the text one after the other. -/
theorem createListLoop_lines (text : Bytes) (state : ListState) :
    Prod.fst <$> createListLoop k (some text) state = createLines k (textLines text) state := by
  induction size : text.length using Nat.strong_induction_on generalizing text state with
  | _ size ih =>
      subst size
      have shorter := strsep_pending_lt text newline
      rw [textLines_eq, createLines, createListLoop, map_bind]
      congr 1
      funext ⟨next, pStr1⟩
      cases pStr1 with
      | none => simp
      | some str =>
          cases cut : (strsep (some text) newline).2 with
          | none => simp [createListLoop, createLines]
          | some remaining =>
              rw [cut] at shorter
              simpa using ih remaining.length (by simpa [pending] using shorter) remaining next rfl

/-- The loop ends behind a line, or goes on with the rest of the text behind it. What holds
of the first and is handed on by the second holds of every run. -/
theorem createListLoop_induct
    {Holds : Bytes → ListState → σ → ListState → Option Bytes → σ → Prop}
    (last : ∀ text state before final pStr1 after,
      Returns (createListLine k (text.takeWhile (· != newline)) state) before (final, pStr1) after →
      (if pStr1.isSome then (strsep (some text) newline).2 else none) = none →
        Holds text state before final (strsep (some text) newline).2 after)
    (more : ∀ text state before next str middle remaining final rest after,
      Returns (createListLine k (text.takeWhile (· != newline)) state) before (next, some str)
        middle →
      (strsep (some text) newline).2 = some remaining →
      Holds remaining next middle final rest after → Holds text state before final rest after)
    {text : Bytes} {state final : ListState} {rest : Option Bytes} {before after : σ}
    (ran : Returns (createListLoop k (some text) state) before (final, rest) after) :
    Holds text state before final rest after := by
  induction size : text.length using Nat.strong_induction_on generalizing text state before with
  | _ size ih =>
      subst size
      have shorter := strsep_pending_lt text newline
      rw [createListLoop] at ran
      obtain ⟨⟨next, pStr1⟩, middle, line, continued⟩ := returns_bind_iff.mp ran
      cases pStr1 with
      | none =>
          obtain ⟨same, rfl⟩ := returns_pure_iff.mp continued
          obtain ⟨rfl, rfl⟩ := Prod.mk.inj same
          exact last text state before final none after line rfl
      | some str =>
          cases cut : (strsep (some text) newline).2 with
          | none =>
              simp only [cut, Option.isSome_some, if_true, createListLoop] at continued
              obtain ⟨same, rfl⟩ := returns_pure_iff.mp continued
              obtain ⟨rfl, rfl⟩ := Prod.mk.inj same
              rw [← cut]
              exact last text state before final (some str) after line cut
          | some remaining =>
              simp only [cut, Option.isSome_some, if_true] at continued shorter
              exact more text state before next str middle remaining final rest after line cut
                (ih remaining.length (by simpa [pending] using shorter) continued rfl)

/-- The loop returns when its lines parse, and appends their rules in order. -/
theorem createLines_settles (lines : List Bytes) (state : ListState) (before : σ) :
    Settles (createLines k lines state) before (k.ParsesIn lines before) fun outcome after =>
      outcome = state.append (k.parsedIn lines before) ∧ after = k.afterLines lines before := by
  induction lines generalizing state before with
  | nil =>
      exact .of_returns (returns_pure_iff.mpr ⟨rfl, rfl⟩) trivial
        ⟨(ListState.append_nil state).symm, rfl⟩
  | cons line rest ih =>
      have turn := createListLine_settles (k := k) line state before
      by_cases typed : atSign ∈ line
      · obtain ⟨_, _, ran, rfl, rfl⟩ := turn.outcome (absurd typed)
        rw [strsep_of_mem typed] at ran
        simp only [Kernel.ParsesIn, Kernel.parsedIn, Kernel.afterLines, if_pos typed,
          ← ListState.append_append]
        exact Settles.after ran (ih _ _)
      · have nothing : pathOpens (k.opensIn before) line = none →
            (RuleLine.ofLine line).install (k.opensIn before) = none := by
          intro unopened
          simp [RuleLine.install, RuleLine.ofLine, takeWhile_atSign_of_notMem typed, unopened]
        simp only [Kernel.ParsesIn, Kernel.parsedIn, Kernel.afterLines, if_neg typed,
          ListState.append_nil]
        refine (turn.imp ⟨fun safe => safe typed, fun unopened _ => unopened⟩
          fun _ _ _ holds => holds).andThen fun unopened _ _ holds => ?_
        obtain ⟨rfl, rfl⟩ := holds
        rw [nothing unopened, strsep_of_absent typed]
        exact .of_returns (returns_pure_iff.mpr ⟨rfl, rfl⟩) trivial ⟨by simp, rfl⟩

theorem createListLoop_settles (text : Bytes) (state : ListState) (before : σ) :
    Settles (createListLoop k (some text) state) before (k.ParsesIn (textLines text) before)
      fun outcome after => outcome.1 = state.append (k.parsedIn (textLines text) before) ∧
        after = k.afterLines (textLines text) before := by
  have lines := createLines_settles (k := k) (textLines text) state before
  rw [← createListLoop_lines] at lines
  exact lines.of_map

/-- `create_list` returns when the scratch copy holds its text and the lines parse, and
appends their rules in order. -/
theorem createList_settles (top : List FileNode) (rdt : Bytes) (size : Nat) (before : σ) :
    Settles (createList k top rdt size) before
      ((Terminated rdt ∧ (cstr rdt).length < k.vmallocRoom size) ∧
        k.ParsesIn (textLines (cstr rdt)) before)
      fun result after =>
        result = ((k.parsedIn (textLines (cstr rdt)) before).length,
          top ++ k.parsedIn (textLines (cstr rdt)) before) ∧
        after = k.afterLines (textLines (cstr rdt)) before := by
  unfold createList
  split
  · next fits =>
      refine ((createListLoop_settles (cstr rdt) ⟨top, 0⟩ before).andThen ?_).imp
        (by simp [fits]) fun _ _ _ holds => holds
      rintro _ ⟨state, rest⟩ after ⟨rfl, rfl⟩
      exact .of_returns (returns_pure_iff.mpr ⟨rfl, rfl⟩) trivial
        ⟨by simp [ListState.append], rfl⟩
  · next unfit =>
      exact .of_faults (by simp) fun both => unfit both.1

/-- With a view of the paths, it does not matter what was looked at before a line. -/
theorem PathView.lines (view : PathView k opens) (lines : List Bytes) (before : σ) :
    (k.ParsesIn lines before ↔ Parses (opens before) lines) ∧
      k.parsedIn lines before = parseLines (opens before) lines ∧
      opens (k.afterLines lines before) = opens before := by
  induction lines generalizing before with
  | nil => exact ⟨Iff.rfl, rfl, rfl⟩
  | cons line rest ih =>
      have kept := view.afterLine_keeps line before
      obtain ⟨parses, parsed, after⟩ := ih (k.afterLine line before)
      rw [kept] at parses parsed after
      by_cases typed : atSign ∈ line
      · simp only [Kernel.ParsesIn, Kernel.parsedIn, Kernel.afterLines, Parses, if_pos typed,
          parseLines_typed typed, view.opensIn]
        exact ⟨parses, by rw [parsed], after⟩
      · simp only [Kernel.ParsesIn, Kernel.parsedIn, Kernel.afterLines, Parses, if_neg typed,
          parseLines_bare typed, view.opensIn]
        exact ⟨trivial, trivial, kept⟩

/-- `create_list` appends the rules of the text before the first NUL of its region,
when the scratch copy holds that text. -/
theorem createList_returns (view : PathView k opens) (top : List FileNode) (size : Nat)
    {rdt : Bytes} {before : σ} (terminated : Terminated rdt)
    (room : (cstr rdt).length < k.vmallocRoom size)
    (parses : Parses (opens before) (textLines (cstr rdt))) :
    ∃ after, Returns (createList k top rdt size) before
      ((parseLines (opens before) (textLines (cstr rdt))).length,
        top ++ parseLines (opens before) (textLines (cstr rdt))) after ∧
      opens after = opens before := by
  obtain ⟨parsesIn, parsed, kept⟩ := view.lines (textLines (cstr rdt)) before
  obtain ⟨_, after, ran, rfl, rfl⟩ :=
    (createList_settles top rdt size before).outcome ⟨⟨terminated, room⟩, parsesIn.mpr parses⟩
  rw [parsed] at ran
  exact ⟨_, ran, kept⟩

/-- A `create_list` that returns had room for its text, and the text parsed. -/
theorem createList_returned (view : PathView k opens) {top : List FileNode} {rdt : Bytes}
    {size : Nat} {before after : σ} {result : Nat × List FileNode}
    (ran : Returns (createList k top rdt size) before result after) :
    result.2 = top ++ parseLines (opens before) (textLines (cstr rdt)) ∧
      opens after = opens before := by
  obtain ⟨_, parsed, kept⟩ := view.lines (textLines (cstr rdt)) before
  obtain ⟨_, rfl, rfl⟩ := (createList_settles top rdt size before).returned ran
  exact ⟨by rw [parsed], kept⟩

/-- A clean text that parses installs the rules of its lines. -/
theorem installed_eq (view : PathView k opens) {before : σ} {text : Bytes}
    (clean : (0 : Byte) ∉ text) (room : text.length < k.vmallocRoom sizeofPointer)
    (parses : Parses (opens before) (textLines text)) :
    installed k before text = .ok (parseLines (opens before) (textLines text)) := by
  have content : cstr (text ++ [0]) = text := cstr_append_zero clean []
  have terminated : Terminated (text ++ [0]) := by simp [Terminated]
  obtain ⟨after, ran, _⟩ :=
    createList_returns view [] sizeofPointer terminated (by rwa [content]) (by rwa [content])
  rw [content] at ran
  rw [installed, ran]
  rfl

end Spec

end FsProtection
