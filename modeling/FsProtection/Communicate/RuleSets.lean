import FsProtection.Communicate.Lookup
import FsProtection.Kernel.Quiet
import FsProtection.Communicate.Proc

/-!
# Rule texts as sets

The lookups walk the list and stop at the first rule that matches, so the order of the
rules and their repetitions decide which message is sent. The answer is that of the set
of lines.
-/

namespace FsProtection

open Base

/-- A rule as it is spelled in a text: a path that fits its field, and any type. -/
structure SpelledRule where
  path : Bytes
  type : Bytes
  named : path ≠ []
  fits : path.length < filepathSize
  noMark : atSign ∉ path
  clean : (0 : Byte) ∉ path ++ type
  oneLine : newline ∉ path ++ type

def SpelledRule.line (rule : SpelledRule) : Bytes := rule.path ++ atSign :: rule.type

/-- The text of rules, each on a line of its own. -/
def spelled (rules : List SpelledRule) : Bytes :=
  (rules.map SpelledRule.line).flatMap (· ++ [newline])

section Texts

variable {opens : Bytes → Option InodeAddr} {rules : List SpelledRule}

theorem SpelledRule.marked {line : Bytes} (member : line ∈ rules.map SpelledRule.line) :
    atSign ∈ line := by
  obtain ⟨rule, _, rfl⟩ := List.mem_map.mp member
  simp [SpelledRule.line]

theorem textLines_spelled (rules : List SpelledRule) :
    textLines (spelled rules) = rules.map SpelledRule.line ++ [[]] := by
  refine textLines_ended fun line member => ?_
  obtain ⟨rule, _, rfl⟩ := List.mem_map.mp member
  have oneLine := rule.oneLine
  simp only [List.mem_append, not_or] at oneLine
  simp [SpelledRule.line, oneLine, show newline ≠ atSign by decide]

theorem spelled_clean (rules : List SpelledRule) : (0 : Byte) ∉ spelled rules := by
  intro member
  obtain ⟨line, inLines, inLine⟩ := List.mem_flatMap.mp member
  obtain ⟨rule, _, rfl⟩ := List.mem_map.mp inLines
  have clean := rule.clean
  simp only [List.mem_append, not_or] at clean
  simp [SpelledRule.line, clean, show (0 : Byte) ≠ atSign by decide,
    show (0 : Byte) ≠ newline by decide] at inLine

theorem parses_spelled (opens : Bytes → Option InodeAddr) (rules : List SpelledRule) :
    Parses opens (textLines (spelled rules)) := by
  rw [textLines_spelled]
  refine parses_of_typed fun line member bare => ?_
  rcases List.mem_append.mp member with inLines | empty
  · exact absurd (SpelledRule.marked inLines) bare
  · rw [List.mem_singleton.mp empty]
    rfl

/-- The nodes a text installs are those of its set of lines. -/
theorem mem_parsed_spelled_iff {node : FileNode} :
    node ∈ parseLines opens (textLines (spelled rules)) ↔
      ∃ line ∈ rules.map SpelledRule.line, (RuleLine.ofLine line).install opens = some node := by
  rw [textLines_spelled]
  exact mem_parseLines_iff fun line => SpelledRule.marked

end Texts

section Answers

variable {σ : Type} (k : Kernel σ)

/-- Two lookups in a state both return, with one answer. -/
def AnswerAlike (first second : HookM σ Bool) (m : Machine σ) : Prop :=
  ∃ answer after₁ after₂, Returns first m answer after₁ ∧ Returns second m answer after₂

/-- All lookups give the same answers: of every open descriptor, every inode number and
every string, for every type a rule can be enforced for. -/
def SameAnswers (first second : Globals) : Prop :=
  ∀ (m : Machine σ) (ptype : ProtectType), ptype ≠ .none →
    (∀ fd file, k.fget fd m.outside = some file →
      AnswerAlike (isFdProtected k first fd ptype) (isFdProtected k second fd ptype) m) ∧
    (∀ ino, AnswerAlike (isInoProtected k first ino ptype) (isInoProtected k second ino ptype) m) ∧
    ∀ path : Block, Terminated path.bytes →
      AnswerAlike (isPathProtected k first (some path) ptype)
        (isPathProtected k second (some path) ptype) m

end Answers

section Sets

variable {σ : Type} {k : Kernel σ} {opens : σ → Bytes → Option InodeAddr}

theorem any_eq_of_mem_iff {first second : List FileNode}
    (same : ∀ node, node ∈ first ↔ node ∈ second) (matched : FileNode → Bool) :
    first.any matched = second.any matched := by
  rw [Bool.eq_iff_iff, List.any_eq_true, List.any_eq_true]
  simp [same]

/-- Lists with the same nodes answer alike under the same switch. -/
theorem sameAnswers_of_mem_iff {first second : Globals}
    (sameSwitch : first.protectEnabeled = second.protectEnabeled)
    (same : ∀ node, node ∈ first.fileListRoot ↔ node ∈ second.fileListRoot) :
    SameAnswers k first second := by
  intro m ptype _
  have alike := any_eq_of_mem_iff same
  refine ⟨fun fd file found => ?_, fun ino => ?_, fun path ended => ?_⟩
  · by_cases enabled : first.protectEnabeled = true
    · have bySecond : Returns (isFdProtected k second fd ptype) m _ _ :=
        returns_isFdProtected_open (sameSwitch ▸ enabled) found
      rw [← alike] at bySecond
      exact ⟨_, _, _, returns_isFdProtected_open enabled found, bySecond⟩
    · rw [Bool.not_eq_true] at enabled
      exact ⟨_, _, _, returns_isFdProtected_disabled enabled fd,
        returns_isFdProtected_disabled (sameSwitch ▸ enabled) fd⟩
  · have bySecond : Returns (isInoProtected k second ino ptype) m _ _ := returns_isInoProtected ino
    rw [← alike] at bySecond
    exact ⟨_, _, _, returns_isInoProtected ino, bySecond⟩
  · have bySecond : Returns (isPathProtected k second (some path) ptype) m _ _ :=
      returns_isPathProtected (.inl ended)
    rw [← alike] at bySecond
    exact ⟨_, _, _, returns_isPathProtected (.inl ended), bySecond⟩

/-- A text of rules that fits is installed, and leaves the switch alone. -/
theorem install_spelled (view : PathView k opens) (rules : List SpelledRule) (s : ProcState σ)
    (fits : (spelled rules).length < bufferSize)
    (room : (spelled rules).length < k.vmallocRoom sizeofPointer) :
    ∃ ret after, Returns (procProtectWrite k (spelled rules) (spelled rules).length) s ret after ∧
      after.globals.fileListRoot = parseLines (opens s.outside) (textLines (spelled rules)) ∧
      after.globals.protectEnabeled = s.globals.protectEnabeled := by
  have arrives : written (spelled rules) (spelled rules).length = some (spelled rules) := by
    rw [written, if_pos (Nat.le_refl _), List.take_length, cstr_of_clean (spelled_clean rules)]
  obtain ⟨ret, after, ran⟩ := procProtectWrite_total (s := s) view fits fun text _ delivered => by
    cases arrives.symm.trans delivered
    exact ⟨room, parses_spelled _ rules⟩
  refine ⟨ret, after, ran, ?_⟩
  rcases procProtectWrite_cases view ran with
    ⟨empty, _, rfl⟩ | ⟨_, missed, _⟩ | ⟨_, text, raw, outside, delivered, _, _, rfl⟩
  · have nothing := List.eq_nil_of_length_eq_zero empty
    exact ⟨by rw [nothing]; rfl, rfl⟩
  · rw [arrives] at missed
    cases missed
  · cases arrives.symm.trans delivered
    exact ⟨rfl, rfl⟩

/-- Rule texts mean sets: two texts with the same lines, in any order and any number of
times, give the same answers when they are installed. -/
theorem rule_texts_mean_sets (view : PathView k opens) {first second : List SpelledRule}
    (sameLines : ∀ line, line ∈ first.map SpelledRule.line ↔ line ∈ second.map SpelledRule.line)
    (fits₁ : (spelled first).length < bufferSize) (fits₂ : (spelled second).length < bufferSize)
    (room₁ : (spelled first).length < k.vmallocRoom sizeofPointer)
    (room₂ : (spelled second).length < k.vmallocRoom sizeofPointer)
    {s₁ s₂ : ProcState σ} (samePaths : opens s₁.outside = opens s₂.outside)
    (sameSwitch : s₁.globals.protectEnabeled = s₂.globals.protectEnabeled) :
    ∃ ret₁ after₁ ret₂ after₂,
      Returns (procProtectWrite k (spelled first) (spelled first).length) s₁ ret₁ after₁ ∧
      Returns (procProtectWrite k (spelled second) (spelled second).length) s₂ ret₂ after₂ ∧
      SameAnswers k after₁.globals after₂.globals := by
  obtain ⟨ret₁, after₁, ran₁, list₁, switch₁⟩ := install_spelled view first s₁ fits₁ room₁
  obtain ⟨ret₂, after₂, ran₂, list₂, switch₂⟩ := install_spelled view second s₂ fits₂ room₂
  refine ⟨ret₁, after₁, ret₂, after₂, ran₁, ran₂, sameAnswers_of_mem_iff ?_ fun node => ?_⟩
  · rw [switch₁, switch₂, sameSwitch]
  · rw [list₁, list₂, mem_parsed_spelled_iff, mem_parsed_spelled_iff, samePaths]
    simp only [sameLines]

end Sets

section Examples

/-- A rule for a file that opens, with an unknown type. -/
def strangeRule : SpelledRule :=
  ⟨lit "/f", lit "x@y", by decide, by decide, by decide, by decide, by decide⟩

/-- A rule against reading it. -/
def readRule : SpelledRule :=
  ⟨lit "/f", lit "r", by decide, by decide, by decide, by decide, by decide⟩

/-- The two rules in one order and the other, with a repetition. -/
theorem two_orders_mean_one_set :
    ∃ ret₁ after₁ ret₂ after₂,
      Returns (procProtectWrite (Kernel.quiet oneFile) (spelled [strangeRule, readRule])
          (spelled [strangeRule, readRule]).length)
        ⟨Globals.initial (SizedBytes.zeros _), ()⟩ ret₁ after₁ ∧
      Returns (procProtectWrite (Kernel.quiet oneFile) (spelled [readRule, strangeRule, readRule])
          (spelled [readRule, strangeRule, readRule]).length)
        ⟨Globals.initial (SizedBytes.zeros _), ()⟩ ret₂ after₂ ∧
      SameAnswers (Kernel.quiet oneFile) after₁.globals after₂.globals := by
  refine rule_texts_mean_sets (Kernel.quiet_pathView oneFile) (fun line => ?_) (by decide)
    (by decide) (by decide) (by decide) rfl rfl
  simp only [List.map_cons, List.map_nil, List.mem_cons, List.not_mem_nil, or_false]
  tauto

end Examples

end FsProtection
