import FsProtection.Communicate.Proc
import FsProtection.Hooks.Enforcement

/-!
# Replacing the rules while calls are hooked

`proc_protect_write` destroys the list and then opens and appends line by line, with
nothing to keep other processes out. Here each of these is a step, and hooked calls and
the rest of the kernel run between them. Until the destruction the old list is in force;
from then on it is the rules of the lines looked at so far.
-/

namespace FsProtection

open Base

/-- How far a write is: its text is in the buffer, or is parsed line by line, or the write
is over. -/
inductive Phase where
  | received
  | parsing (tmpData : Bytes) (cnt : Nat)
  | finished

/-- A line `create_list` looked at, and the rule it made of it. -/
structure TakenLine where
  line : Bytes
  rule : Option FileNode

/-- The module in the course of a write. `taken` is a record only. -/
structure Update (σ : Type) where
  proc : ProcState σ
  phase : Phase
  taken : List TakenLine

/-- What may happen: the next step of the write, a hooked call of any process, and
anything elsewhere. -/
inductive UpdateEvent (σ : Type) where
  | advance
  | hook (call : Syscall) (userBuf : Bytes)
  | elsewhere (outside : σ)

namespace Update

variable {σ : Type}

/-- A write whose text was copied to the buffer. -/
def start (proc : ProcState σ) : Update σ := ⟨proc, .received, []⟩

def text (proc : ProcState σ) : Bytes := cstr proc.globals.rawDataBuff.1

def rules (s : Update σ) : List FileNode := s.proc.globals.fileListRoot

/-- The rules of the lines looked at so far. -/
def takenRules (s : Update σ) : List FileNode := s.taken.filterMap TakenLine.rule

def takenLines (s : Update σ) : List Bytes := s.taken.map TakenLine.line

/-- After a turn on a line: `state` is the list, `rest` what is left of the text. -/
def turned (k : Kernel σ) (s : Update σ) (line : Bytes) (state : ListState) (rest : Option Bytes)
    (outside : σ) : Update σ where
  proc := { s.proc.withRules state.top with outside := outside }
  phase :=
    match rest with
    | none => .finished
    | some text => .parsing text state.cnt
  taken := s.taken ++ [⟨line, (RuleLine.ofLine line).install (k.opensIn s.proc.outside)⟩]

/-- The next step of the write: `destroy_list` and the copy `create_list` makes, or one
turn of its loop. -/
def advance (k : Kernel σ) (s : Update σ) : Except Fault (Update σ) :=
  match s.phase with
  | .received =>
      if Terminated s.proc.globals.rawDataBuff.1 ∧
          (text s.proc).length < k.vmallocRoom sizeofPointer then
        .ok { s with
          proc := s.proc.withRules (destroyList s.rules)
          phase := .parsing (text s.proc) 0 }
      else .error .overrun
  | .parsing tmpData cnt => do
      let line := tmpData.takeWhile (· != newline)
      let outcome ← (createListLine k line ⟨s.rules, cnt⟩).run s.proc.outside
      let rest := if outcome.1.2.isSome then (strsep (some tmpData) newline).2 else none
      return s.turned k line outcome.1.1 rest outcome.2
  | .finished => return s

def step (k : Kernel σ) (s : Update σ) : UpdateEvent σ → Except Fault (Update σ)
  | .advance => s.advance k
  | .hook call userBuf => do
      let outcome ← (modified k s.proc.globals call).run (Machine.start s.proc.outside userBuf)
      return { s with proc := { s.proc with outside := outcome.2.outside } }
  | .elsewhere outside => return { s with proc := { s.proc with outside := outside } }

/-- What a step does to the rules: it destroys the old ones, makes those of a line, or
leaves them alone. -/
inductive Moves (k : Kernel σ) (s next : Update σ) : Prop where
  | destroyed (here : s.phase = .received) (rules : next.rules = [])
      (phase : next.phase = .parsing (text s.proc) 0) (taken : next.taken = s.taken)
  | turned {tmpData : Bytes} {cnt : Nat} (here : s.phase = .parsing tmpData cnt)
      (line : Bytes) (isLine : line = tmpData.takeWhile (· != newline)) (rule : Option FileNode)
      (made : rule = (RuleLine.ofLine line).install (k.opensIn s.proc.outside))
      (rules : next.rules = s.rules ++ rule.toList)
      (phase : next.phase = .finished ∧
          (atSign ∈ line → (strsep (some tmpData) newline).2 = none) ∨
        atSign ∈ line ∧ ∃ rest cnt, (strsep (some tmpData) newline).2 = some rest ∧
          next.phase = .parsing rest cnt)
      (taken : next.taken = s.taken ++ [⟨line, rule⟩])
  | idle (globals : next.proc.globals = s.proc.globals) (phase : next.phase = s.phase)
      (taken : next.taken = s.taken)

section Steps

variable {k : Kernel σ} {s next : Update σ}

theorem step_moves {event : UpdateEvent σ} (stepped : s.step k event = .ok next) :
    s.Moves k next := by
  cases event with
  | hook call userBuf =>
      obtain ⟨_, _, _, answered⟩ := run_bind_eq_ok.mp stepped
      cases answered
      exact .idle rfl rfl rfl
  | elsewhere outside =>
      cases stepped
      exact .idle rfl rfl rfl
  | advance =>
      cases here : s.phase with
      | finished =>
          simp only [step, advance, here] at stepped
          cases stepped
          exact .idle rfl rfl rfl
      | received =>
          simp only [step, advance, here] at stepped
          split at stepped
          · cases stepped
            exact .destroyed here rfl rfl rfl
          · cases stepped
      | parsing tmpData cnt =>
          simp only [step, advance, here] at stepped
          obtain ⟨⟨state, pStr1⟩, outside, ran, answered⟩ := run_bind_eq_ok.mp stepped
          obtain ⟨_, outcome, _⟩ := (createListLine_settles _ _ _).returned ran
          obtain ⟨made, isRest⟩ := Prod.mk.inj outcome
          cases answered
          refine .turned here _ rfl _ rfl (congrArg ListState.top made) ?_ rfl
          by_cases typed : atSign ∈ tmpData.takeWhile (· != newline)
          · rw [strsep_of_mem typed] at isRest
            cases cut : (strsep (some tmpData) newline).2 with
            | none => exact .inl ⟨by simp [turned], fun _ => rfl⟩
            | some rest => exact .inr ⟨typed, rest, state.cnt, rfl, by simp [turned, isRest]⟩
          · rw [strsep_of_absent typed] at isRest
            exact .inl ⟨by simp [turned, isRest], fun isTyped => absurd isTyped typed⟩

/-- What holds in the course of a write: the old list is in force until it is destroyed,
and afterwards the rules of the lines looked at, which are those the text begins with. -/
structure Holds (k : Kernel σ) (proc : ProcState σ) (s : Update σ) : Prop where
  received : s.phase = .received → s.proc.globals = proc.globals ∧ s.taken = []
  rules : s.phase ≠ .received → s.rules = s.takenRules
  parsing : ∀ tmpData cnt, s.phase = .parsing tmpData cnt →
    s.takenLines ++ textLines tmpData = textLines (text proc) ∧
      ∀ line ∈ s.takenLines, atSign ∈ line
  finished : s.phase = .finished → s.takenLines <+: textLines (text proc) ∧
    (textLines (text proc)).takeWhile (atSign ∈ ·) <+: s.takenLines
  made : ∀ taken ∈ s.taken,
    ∃ outside, taken.rule = (RuleLine.ofLine taken.line).install (k.opensIn outside)

theorem holds_start (proc : ProcState σ) : (start proc).Holds k proc where
  received _ := ⟨rfl, rfl⟩
  rules parsed := absurd rfl parsed
  parsing _ _ here := by cases here
  finished here := by cases here
  made _ member := absurd member List.not_mem_nil

variable {proc : ProcState σ}

/-- The turn on a line the text is at. -/
theorem Holds.turned (holds : s.Holds k proc) {tmpData : Bytes} {cnt : Nat}
    (here : s.phase = .parsing tmpData cnt) {line : Bytes}
    (isLine : line = tmpData.takeWhile (· != newline)) {rule : Option FileNode}
    (made : rule = (RuleLine.ofLine line).install (k.opensIn s.proc.outside))
    (rules : next.rules = s.rules ++ rule.toList)
    (phase : next.phase = .finished ∧
        (atSign ∈ line → (strsep (some tmpData) newline).2 = none) ∨
      atSign ∈ line ∧ ∃ rest cnt, (strsep (some tmpData) newline).2 = some rest ∧
        next.phase = .parsing rest cnt)
    (taken : next.taken = s.taken ++ [⟨line, rule⟩]) : next.Holds k proc := by
  obtain ⟨whole, typedBefore⟩ := holds.parsing tmpData cnt here
  have lines : next.takenLines = s.takenLines ++ [line] := by simp [takenLines, taken]
  have parsed : s.phase ≠ .received := by rw [here]; exact Phase.noConfusion
  have unreceived : next.phase ≠ .received := by
    rcases phase with ⟨ended, _⟩ | ⟨_, rest, cnt, _, goesOn⟩
    · rw [ended]; exact Phase.noConfusion
    · rw [goesOn]; exact Phase.noConfusion
  rw [textLines_eq, ← isLine] at whole
  exact {
    received := fun received => absurd received unreceived
    rules := fun _ => by
      rw [rules, holds.rules parsed, takenRules, takenRules, taken, List.filterMap_append]
      cases rule <;> rfl
    parsing := fun tmp cnt goesOn => by
      rcases phase with ⟨ended, _⟩ | ⟨typed, rest, _, cut, goesOn'⟩
      · rw [ended] at goesOn
        cases goesOn
      · rw [goesOn'] at goesOn
        cases goesOn
        rw [cut] at whole
        refine ⟨by rw [lines, ← whole]; simp, ?_⟩
        rw [lines, List.forall_mem_append, List.forall_mem_singleton]
        exact ⟨typedBefore, typed⟩
    finished := fun ended => by
      rcases phase with ⟨_, last⟩ | ⟨_, rest, _, _, goesOn⟩
      · rw [lines, ← whole]
        refine ⟨⟨_, List.append_assoc _ [line] _⟩, ?_⟩
        by_cases typed : atSign ∈ line
        · rw [last typed]
          exact List.takeWhile_prefix _
        · rw [List.takeWhile_append_of_pos (by simpa using typedBefore),
            List.takeWhile_cons_of_neg (by simpa using typed), List.append_nil]
          exact List.prefix_append _ _
      · rw [goesOn] at ended
        cases ended
    made := fun other member => by
      rw [taken] at member
      rcases List.mem_append.mp member with earlier | last
      · exact holds.made other earlier
      · rw [List.mem_singleton.mp last]
        exact ⟨_, made⟩ }

theorem Holds.step (holds : s.Holds k proc) (moves : s.Moves k next) : next.Holds k proc := by
  cases moves with
  | turned here line isLine rule made rules phase taken =>
      exact holds.turned here isLine made rules phase taken
  | destroyed here rules phase taken =>
      obtain ⟨old, nothing⟩ := holds.received here
      have empty : next.taken = [] := taken.trans nothing
      have sameText : text s.proc = text proc := by rw [text, text, old]
      exact {
        received := fun received => by
          rw [phase] at received
          cases received
        rules := fun _ => by rw [rules, takenRules, empty]; rfl
        parsing := fun tmpData cnt goesOn => by
          rw [phase] at goesOn
          cases goesOn
          rw [takenLines, empty, sameText]
          exact ⟨rfl, fun _ member => absurd member List.not_mem_nil⟩
        finished := fun ended => by
          rw [phase] at ended
          cases ended
        made := fun other member => by
          rw [empty] at member
          exact absurd member List.not_mem_nil }
  | idle globals phase taken =>
      have rules : next.rules = s.rules := congrArg Globals.fileListRoot globals
      exact {
        received := fun received => by
          obtain ⟨old, nothing⟩ := holds.received (phase ▸ received)
          exact ⟨globals.trans old, taken.trans nothing⟩
        rules := fun parsed => by
          rw [rules, takenRules, taken]
          exact holds.rules (phase ▸ parsed)
        parsing := fun tmpData cnt goesOn => by
          rw [takenLines, taken]
          exact holds.parsing tmpData cnt (phase ▸ goesOn)
        finished := fun ended => by
          rw [takenLines, taken]
          exact holds.finished (phase ▸ ended)
        made := fun other member => holds.made other (taken ▸ member) }

end Steps

section Runs

variable {k : Kernel σ} {proc : ProcState σ} {s : Update σ} {events : List (UpdateEvent σ)}

theorem run_holds (ran : execute (step k) (start proc) events = .ok s) : s.Holds k proc :=
  execute_history (fun _ s => s.Holds k proc) (holds_start proc)
    (fun _ _ _ _ holds stepped => holds.step (step_moves stepped)) ran

/-- Lines that were looked at stay looked at. -/
theorem run_grows {later : Update σ} (ran : execute (step k) s events = .ok later) :
    s.taken <+: later.taken ∧ (s.phase ≠ .received → later.phase ≠ .received) := by
  refine execute_history
    (fun _ later => s.taken <+: later.taken ∧ (s.phase ≠ .received → later.phase ≠ .received))
    ⟨List.prefix_refl _, id⟩ (fun _ middle _ next grown stepped => ?_) ran
  obtain ⟨longer, parsed⟩ := grown
  cases step_moves stepped with
  | destroyed _ _ phase taken =>
      rw [taken, phase]
      exact ⟨longer, fun _ => Phase.noConfusion⟩
  | turned here _ _ _ _ _ phase taken =>
      rw [taken]
      refine ⟨longer.trans (List.prefix_append _ _), fun _ => ?_⟩
      rcases phase with ⟨ended, _⟩ | ⟨_, rest, cnt, _, goesOn⟩
      · rw [ended]
        exact Phase.noConfusion
      · rw [goesOn]
        exact Phase.noConfusion
  | idle _ phase taken =>
      rw [taken, phase]
      exact ⟨longer, parsed⟩

/-- At every point of a write, whatever runs between its steps: until the destruction the
old list is in force. From then on a call is refused exactly when the rule of a line that
was looked at refuses it. These lines are the first ones of the text, they only become
more, and at the end all lines up to the first one without `@` are among them. -/
theorem update_protects (ran : execute (step k) (start proc) events = .ok s) :
    (s.phase = .received → s.proc.globals = proc.globals) ∧
    (s.phase ≠ .received →
      (∀ m call, call.Decided → (Refuses k s.proc.globals m call ↔
        ∃ taken ∈ s.taken, ∃ rule ∈ taken.rule, Refuses k (s.proc.globals.only rule) m call)) ∧
      s.takenLines <+: textLines (text proc) ∧
      (s.phase = .finished → (textLines (text proc)).takeWhile (atSign ∈ ·) <+: s.takenLines) ∧
      ∀ more later, execute (step k) s more = .ok later →
        later.phase ≠ .received ∧ s.taken <+: later.taken) ∧
    ∀ taken ∈ s.taken,
      ∃ outside, taken.rule = (RuleLine.ofLine taken.line).install (k.opensIn outside) := by
  have holds := run_holds ran
  refine ⟨fun received => (holds.received received).1, fun parsed => ⟨?_, ?_, ?_, ?_⟩, holds.made⟩
  · intro m call decided
    have inForce : s.proc.globals.fileListRoot = s.takenRules := holds.rules parsed
    rw [refuses_iff_exists decided, inForce]
    constructor
    · rintro ⟨rule, member, refuses⟩
      obtain ⟨taken, isTaken, isRule⟩ := List.mem_filterMap.mp member
      exact ⟨taken, isTaken, rule, isRule, refuses⟩
    · rintro ⟨taken, isTaken, rule, isRule, refuses⟩
      exact ⟨rule, List.mem_filterMap.mpr ⟨taken, isTaken, isRule⟩, refuses⟩
  · cases phase : s.phase with
    | received => exact absurd phase parsed
    | parsing tmpData cnt => exact ⟨_, (holds.parsing tmpData cnt phase).1⟩
    | finished => exact (holds.finished phase).1
  · exact fun ended => (holds.finished ended).2
  · intro more later ranOn
    obtain ⟨longer, stays⟩ := run_grows ranOn
    exact ⟨stays parsed, longer⟩

end Runs

section Writes

variable {k : Kernel σ} {s : Update σ}

theorem step_destroy (here : s.phase = .received)
    (fits : Terminated s.proc.globals.rawDataBuff.1 ∧
      (text s.proc).length < k.vmallocRoom sizeofPointer) :
    s.step k .advance = .ok { s with
      proc := s.proc.withRules []
      phase := .parsing (text s.proc) 0 } := by
  rw [step, advance, here]
  exact if_pos fits

theorem step_line {tmpData : Bytes} {cnt : Nat} (here : s.phase = .parsing tmpData cnt)
    {state : ListState} {pStr1 : Option Bytes} {outside : σ}
    (ran : Returns (createListLine k (tmpData.takeWhile (· != newline)) ⟨s.rules, cnt⟩)
      s.proc.outside (state, pStr1) outside) :
    s.step k .advance = .ok (s.turned k (tmpData.takeWhile (· != newline)) state
      (if pStr1.isSome then (strsep (some tmpData) newline).2 else none) outside) := by
  rw [step, advance, here]
  exact run_bind_eq_ok.mpr ⟨_, _, ran, rfl⟩

/-- The steps on the lines, with nothing between them, are the loop of `create_list`. -/
theorem loop_by_steps {tmpData : Bytes} {cnt : Nat} (here : s.phase = .parsing tmpData cnt)
    {state : ListState} {rest : Option Bytes} {outside : σ}
    (ran : Returns (createListLoop k (some tmpData) ⟨s.rules, cnt⟩) s.proc.outside (state, rest)
      outside) :
    ∃ steps taken, execute (step k) s (List.replicate steps .advance) =
      .ok ⟨{ s.proc.withRules state.top with outside := outside }, .finished, taken⟩ := by
  refine @createListLoop_induct _ k (fun tmpData state before final _ after => ∀ s : Update σ,
    s.phase = .parsing tmpData state.cnt → s.rules = state.top → s.proc.outside = before →
      ∃ steps taken, execute (step k) s (List.replicate steps .advance) =
        .ok ⟨{ s.proc.withRules final.top with outside := after }, .finished, taken⟩)
    ?_ ?_ _ _ _ _ _ _ ran s here rfl rfl
  · rintro tmpData ⟨_, _⟩ _ final pStr1 after line ends s here rfl rfl
    have stepped := step_line here line
    rw [ends] at stepped
    exact ⟨1, _, execute_cons.mpr ⟨_, stepped, rfl⟩⟩
  · rintro tmpData ⟨_, _⟩ _ next str middle remaining final _ after line cut ih s here rfl rfl
    have stepped := step_line here line
    simp only [cut, Option.isSome_some, if_true] at stepped
    obtain ⟨steps, taken, executed⟩ :=
      ih (s.turned k (tmpData.takeWhile (· != newline)) next (some remaining) middle) rfl rfl rfl
    exact ⟨steps + 1, taken, execute_cons.mpr ⟨_, stepped, executed⟩⟩

/-- The steps of a write, with nothing between them, are `proc_protect_write`. -/
theorem write_by_steps {buffer : Bytes} {count : Nat} {proc after : ProcState σ} {ret : Int}
    (ran : Returns (procProtectWrite k buffer count) proc ret after) (positive : count ≠ 0)
    {delivered : Bytes} (arrived : written buffer count = some delivered) :
    ∃ raw steps taken, text (proc.withRaw raw) = delivered ∧
      execute (step k) (start (proc.withRaw raw)) (List.replicate steps .advance) =
        .ok ⟨after, .finished, taken⟩ := by
  rw [procProtectWrite, if_neg positive] at ran
  rcases receive_cases ran with ⟨short, _⟩ | ⟨_, raw, received, _, terminated, same, acted⟩
  · rw [arrived] at short
    cases short
  rw [arrived] at received
  cases received
  obtain ⟨cnt, top, outside, parsed, rfl⟩ := returns_replaceRules_iff.mp acted
  rw [createList] at parsed
  split at parsed
  · next fits =>
      obtain ⟨⟨state, rest⟩, middle, looped, answered⟩ := returns_bind_iff.mp parsed
      obtain ⟨listed, rfl⟩ := returns_pure_iff.mp answered
      obtain ⟨_, rfl⟩ := Prod.mk.inj listed
      have stepped : (start (proc.withRaw raw)).step k .advance = _ := step_destroy rfl fits
      have parsing : ({ start (proc.withRaw raw) with
          proc := (proc.withRaw raw).withRules []
          phase := .parsing (text (proc.withRaw raw)) 0 } : Update σ).phase =
            .parsing (cstr raw.1) 0 := rfl
      obtain ⟨steps, taken, executed⟩ := loop_by_steps parsing looped
      exact ⟨raw, steps + 1, taken, same, execute_cons.mpr ⟨_, stepped, executed⟩⟩
  · simp at parsed

end Writes

section Window

/-- The file whose rule is in the old list is written again: the text is the line of that
rule. -/
def rewriting : ProcState Unit :=
  ProcState.withRaw ⟨onlyRule keepFile, ()⟩
    (receivedRaw (SizedBytes.zeros _) (lit "/home/f@d\n") ⟨10, by decide⟩)

theorem rewriting_text : Terminated rewriting.globals.rawDataBuff.1 ∧
    text rewriting = lit "/home/f@d\n" := by
  obtain ⟨terminated, same⟩ := @receivedRaw_text (SizedBytes.zeros bufferSize)
    (lit "/home/f@d\n") ⟨10, by decide⟩ (by decide)
  exact ⟨terminated, same.trans (by decide)⟩

/-- After its first step the write has destroyed the list. -/
theorem rewriting_destroyed :
    execute (step (Kernel.quiet homeFile)) (start rewriting) [.advance] =
      .ok ⟨rewriting.withRules [], .parsing (lit "/home/f@d\n") 0, []⟩ := by
  obtain ⟨terminated, same⟩ := rewriting_text
  have stepped := step_destroy (k := Kernel.quiet homeFile) (s := start rewriting) rfl
    ⟨terminated, by rw [start, same]; decide⟩
  rw [start, same] at stepped
  exact execute_cons.mpr ⟨_, stepped, rfl⟩

/-- After its second step the rule of the first line is made. -/
theorem rewriting_restored :
    execute (step (Kernel.quiet homeFile)) (start rewriting) [.advance, .advance] =
      .ok ⟨rewriting.withRules [keepFile], .parsing [] 1, [⟨lit "/home/f@d", some keepFile⟩]⟩ := by
  obtain ⟨_, same, answered⟩ := execute_cons.mp rewriting_destroyed
  obtain rfl := Except.ok.inj answered
  exact execute_cons.mpr ⟨_, same, execute_cons.mpr ⟨_, rfl, rfl⟩⟩

theorem keepFile_refused {globals : Globals} (member : keepFile ∈ globals.fileListRoot) :
    Refuses (Kernel.quiet homeFile) globals (Machine.start () []) (.unlink (lit "f")) := by
  have looked := Kernel.quiet_lookedUp homeFile 0 (lit "/home") (cstr (lit "f"))
  have ruled := hasPathRule_of_mem (k := Kernel.quiet homeFile) member rfl
  rw [keepFile_path] at ruled
  exact (modified_refuses_iff (by simp)).mpr ⟨quiet_pathSafe _ (by decide), _, looked, ruled⟩

/-- The call the rule refuses is refused again when its line was looked at. -/
theorem rewriting_protects :
    ∃ s, execute (step (Kernel.quiet homeFile)) (start rewriting) [.advance, .advance] = .ok s ∧
      Refuses (Kernel.quiet homeFile) s.proc.globals (Machine.start () []) (.unlink (lit "f")) := by
  obtain ⟨_, parsed, _⟩ := update_protects rewriting_restored
  obtain ⟨refuses, _⟩ := parsed Phase.noConfusion
  exact ⟨_, rewriting_restored, (refuses _ _ (by simp)).mpr
    ⟨_, List.mem_singleton_self _, keepFile, rfl, keepFile_refused (List.mem_singleton_self _)⟩⟩

/-- Between the destruction of the list and the line of the rule, the call that the rule
refuses before and after is passed on. -/
theorem rewriting_window :
    keepFile ∈ rewriting.globals.fileListRoot ∧
    keepFile ∈ parseLines homeFile (textLines (text rewriting)) ∧
    Refuses (Kernel.quiet homeFile) rewriting.globals (Machine.start () []) (.unlink (lit "f")) ∧
    ∃ s final, execute (step (Kernel.quiet homeFile)) (start rewriting) [.advance] = .ok s ∧
      ¬ Refuses (Kernel.quiet homeFile) s.proc.globals (Machine.start () []) (.unlink (lit "f")) ∧
      PassesOn (Kernel.quiet homeFile)
        (modified (Kernel.quiet homeFile) s.proc.globals (.unlink (lit "f")))
        (Machine.start () []) (.unlink (lit "f")) ∧
      execute (step (Kernel.quiet homeFile)) s [.advance, .advance] = .ok final ∧
      final.phase = .finished := by
  have member : keepFile ∈ rewriting.globals.fileListRoot := List.mem_singleton_self _
  refine ⟨member, ?_, keepFile_refused member, _, _, rewriting_destroyed, ?_, ?_, rfl, rfl⟩
  · have lines : textLines (lit "/home/f@d\n") = [lit "/home/f@d", []] := by decide
    have typed : atSign ∈ lit "/home/f@d" := by decide
    rw [rewriting_text.2, lines, parseLines_typed typed]
    exact List.mem_append_left _ (List.mem_singleton_self keepFile)
  · rw [refuses_iff_exists (by simp)]
    rintro ⟨rule, none, _⟩
    exact absurd none List.not_mem_nil
  · refine (modified_guards _ _ (by simp)).decides.passesOn_iff.mpr
      ⟨quiet_pathSafe _ (by decide), ?_⟩
    rintro ⟨text, _, ruled⟩
    exact absurd ruled (by simp [HasPathRule, rewriting, ProcState.withRules])

end Window

end Update

end FsProtection
