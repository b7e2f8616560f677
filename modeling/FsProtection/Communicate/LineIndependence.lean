import Mathlib.Data.List.Forall2
import FsProtection.Kernel.Quiet

/-!
# When the lines of a rule text are independent

`create_list` gives each line its own rule as long as no line without `@` stands
before it. `lines_independent_iff` says exactly which texts install what their lines
install one by one, and when a text can be cut in two.
-/

namespace FsProtection

open Base

/-- A NUL-free text below the buffer size for which the scratch copy has room, and
whose lines without `@` do not open. -/
structure RuleText {σ : Type} (k : Kernel σ) (opens : Bytes → Option InodeAddr)
    (text : Bytes) : Prop where
  clean : (0 : Byte) ∉ text
  short : text.length < bufferSize
  room : text.length < k.vmallocRoom sizeofPointer
  typed : ∀ line ∈ textLines text, atSign ∉ line → pathOpens opens line = none

/-- No line from the first line without `@` on has a path that opens. -/
def NothingBehindBare (opens : Bytes → Option InodeAddr) (lines : List Bytes) : Prop :=
  ∀ line ∈ lines.dropWhile (atSign ∈ ·), pathOpens opens (RuleLine.ofLine line).path = none

/-- No line before the first line without `@` has a path that opens. -/
def NothingBeforeBare (opens : Bytes → Option InodeAddr) (lines : List Bytes) : Prop :=
  ∀ line ∈ lines.takeWhile (atSign ∈ ·), pathOpens opens (RuleLine.ofLine line).path = none

section Lines

variable {opens : Bytes → Option InodeAddr}

theorem install_eq_none_iff {line : RuleLine} :
    line.install opens = none ↔ pathOpens opens line.path = none := by
  simp [RuleLine.install]

theorem parseLines_eq_nil_iff {lines : List Bytes} :
    parseLines opens lines = [] ↔ NothingBeforeBare opens lines := by
  simp [parseLines, ruleLines, NothingBeforeBare, install_eq_none_iff]

/-- What a single line installs. -/
theorem parseLines_singleton_eq_nil_iff {line : Bytes}
    (typed : atSign ∉ line → pathOpens opens line = none) :
    parseLines opens [line] = [] ↔ pathOpens opens (RuleLine.ofLine line).path = none := by
  rw [parseLines_eq_nil_iff, NothingBeforeBare]
  by_cases mark : atSign ∈ line
  · simp [mark]
  · simp [mark, RuleLine.ofLine, takeWhile_atSign_of_notMem mark, typed mark]

/-- Lines concatenate exactly when nothing behind a line without `@` opens. -/
theorem parseLines_eq_flatten_iff {lines : List Bytes}
    (typed : ∀ line ∈ lines, atSign ∉ line → pathOpens opens line = none) :
    parseLines opens lines = (lines.map fun line => parseLines opens [line]).flatten ↔
      NothingBehindBare opens lines := by
  induction lines with
  | nil => simp [NothingBehindBare]
  | cons line rest ih =>
      have restTyped : ∀ other ∈ rest, atSign ∉ other → pathOpens opens other = none :=
        fun other member => typed other (List.mem_cons_of_mem _ member)
      by_cases mark : atSign ∈ line
      · rw [List.map_cons, List.flatten_cons, parseLines_typed mark, parseLines_typed mark [],
          parseLines_nil, List.append_nil, List.append_cancel_left_eq, ih restTyped]
        simp [NothingBehindBare, mark]
      · have behind : (line :: rest).dropWhile (atSign ∈ ·) = line :: rest := by simp [mark]
        rw [parseLines_bare mark, NothingBehindBare, behind, eq_comm, List.flatten_eq_nil_iff]
        constructor
        · intro silent other member
          exact (parseLines_singleton_eq_nil_iff (typed other member)).mp
            (silent _ (List.mem_map_of_mem member))
        · rintro unopened part member
          obtain ⟨other, otherMember, rfl⟩ := List.mem_map.mp member
          exact (parseLines_singleton_eq_nil_iff (typed other otherMember)).mpr
            (unopened other otherMember)

/-- A list of lines cut in two parses to both parts exactly when the first part has
no line without `@` or the second part installs nothing. -/
theorem parseLines_append_iff {front back : List Bytes} :
    parseLines opens (front ++ back) = parseLines opens front ++ parseLines opens back ↔
      (∀ line ∈ front, atSign ∈ line) ∨ NothingBeforeBare opens back := by
  induction front with
  | nil => simp
  | cons line rest ih =>
      by_cases mark : atSign ∈ line
      · rw [List.cons_append, parseLines_typed mark, parseLines_typed mark, List.append_assoc,
          List.append_cancel_left_eq, ih]
        simp [mark]
      · rw [List.cons_append, parseLines_bare mark, parseLines_bare mark, List.nil_append,
          eq_comm, parseLines_eq_nil_iff]
        simp [mark]

end Lines

theorem forall₂_ok_iff {Input Output Error : Type} {run : Input → Except Error Output}
    {result : Input → Output} {inputs : List Input} {outputs : List Output}
    (each : ∀ input ∈ inputs, run input = .ok (result input)) :
    List.Forall₂ (fun input output => run input = .ok output) inputs outputs ↔
      outputs = inputs.map result := by
  induction inputs generalizing outputs with
  | nil => simp
  | cons input rest ih =>
      have restEach : ∀ other ∈ rest, run other = .ok (result other) :=
        fun other member => each other (List.mem_cons_of_mem _ member)
      have head := each input List.mem_cons_self
      cases outputs with
      | nil => simp
      | cons output others => simp [ih restEach, head, eq_comm]

section Installed

variable {σ : Type} {k : Kernel σ} {opens : σ → Bytes → Option InodeAddr} {before : σ}

theorem RuleText.installed_eq {text : Bytes} (view : PathView k opens)
    (rules : RuleText k (opens before) text) :
    installed k before text = .ok (parseLines (opens before) (textLines text)) :=
  FsProtection.installed_eq view rules.clean rules.room (parses_of_typed rules.typed)

/-- A part of a rule text, cut at line ends, is a rule text. -/
theorem RuleText.part {text part : Bytes} (rules : RuleText k (opens before) text)
    (sublist : part.Sublist text) (lines : ∀ line ∈ textLines part, line ∈ textLines text) :
    RuleText k (opens before) part where
  clean member := rules.clean (sublist.subset member)
  short := lt_of_le_of_lt sublist.length_le rules.short
  room := lt_of_le_of_lt sublist.length_le rules.room
  typed line member := rules.typed line (lines line member)

theorem RuleText.line {text line : Bytes} (rules : RuleText k (opens before) text)
    (member : line ∈ textLines text) :
    RuleText k (opens before) line ∧ textLines line = [line] := by
  obtain ⟨sublist, absent⟩ := splitOn_piece member
  have single : textLines line = [line] := List.splitOn_eq_singleton absent
  refine ⟨rules.part sublist ?_, single⟩
  intro other otherMember
  rw [single, List.mem_singleton] at otherMember
  exact otherMember ▸ member

theorem RuleText.front {front back : Bytes}
    (rules : RuleText k (opens before) (front ++ newline :: back)) :
    RuleText k (opens before) front :=
  rules.part (by simp) fun line member => by simp [textLines_append, member]

theorem RuleText.back {front back : Bytes}
    (rules : RuleText k (opens before) (front ++ newline :: back)) :
    RuleText k (opens before) back :=
  rules.part (by simp) fun line member => by simp [textLines_append, member]

/-- The lines of a rule text install their own lists. -/
theorem RuleText.lines_installed {text : Bytes} (view : PathView k opens)
    (rules : RuleText k (opens before) text) {parts : List (List FileNode)} :
    List.Forall₂ (fun line part => installed k before line = .ok part) (textLines text) parts ↔
      parts = (textLines text).map fun line => parseLines (opens before) [line] := by
  have each : ∀ line ∈ textLines text,
      installed k before line = .ok (parseLines (opens before) [line]) := by
    intro line member
    obtain ⟨lineRules, single⟩ := rules.line member
    rw [lineRules.installed_eq view, single]
  exact forall₂_ok_iff each

/-- A rule text installs what its lines install one by one exactly when nothing
behind a line without `@` opens; and a text cut at a line end installs what both
parts install exactly when the first part has no such line or the second part
installs nothing before its first one. -/
theorem lines_independent_iff (view : PathView k opens) (before : σ) :
    (∀ text, RuleText k (opens before) text →
      ((∃ parts, List.Forall₂ (fun line part => installed k before line = .ok part)
          (textLines text) parts ∧ installed k before text = .ok parts.flatten) ↔
        NothingBehindBare (opens before) (textLines text))) ∧
    ∀ front back, RuleText k (opens before) (front ++ newline :: back) →
      ((∃ first second, installed k before front = .ok first ∧
          installed k before back = .ok second ∧
          installed k before (front ++ newline :: back) = .ok (first ++ second)) ↔
        (∀ line ∈ textLines front, atSign ∈ line) ∨
          NothingBeforeBare (opens before) (textLines back)) := by
  constructor
  · intro text rules
    simp only [rules.lines_installed view, exists_eq_left, rules.installed_eq view,
      Except.ok.injEq]
    exact parseLines_eq_flatten_iff rules.typed
  · intro front back rules
    simp only [rules.front.installed_eq view, rules.back.installed_eq view,
      rules.installed_eq view, Except.ok.injEq, exists_and_left, exists_eq_left']
    rw [textLines_append, parseLines_append_iff]

end Installed

theorem lines_independent_two_rules :
    ∃ parts, List.Forall₂
        (fun line part => installed (Kernel.quiet oneFile) () line = .ok part)
        (textLines (lit "/f@r\n/f@w")) parts ∧
      installed (Kernel.quiet oneFile) () (lit "/f@r\n/f@w") = .ok parts.flatten :=
  ((lines_independent_iff (Kernel.quiet_pathView oneFile) ()).1 (lit "/f@r\n/f@w")
    ⟨by decide, by decide, by decide, by decide⟩).mpr (by unfold NothingBehindBare; decide)

/-- A blank line keeps the parser from the rule behind it. -/
theorem blank_line_drops_rule :
    RuleText (Kernel.quiet oneFile) oneFile (lit "\n/f@r") ∧
      ¬ ∃ parts, List.Forall₂
          (fun line part => installed (Kernel.quiet oneFile) () line = .ok part)
          (textLines (lit "\n/f@r")) parts ∧
        installed (Kernel.quiet oneFile) () (lit "\n/f@r") = .ok parts.flatten := by
  have rules : RuleText (Kernel.quiet oneFile) oneFile (lit "\n/f@r") :=
    ⟨by decide, by decide, by decide, by decide⟩
  have view := Kernel.quiet_pathView oneFile
  refine ⟨rules, ?_⟩
  rintro ⟨parts, each, whole⟩
  rw [rules.lines_installed view] at each
  subst each
  rw [rules.installed_eq view] at whole
  exact absurd whole (by decide)

end FsProtection
