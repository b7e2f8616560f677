import FsProtection.Communicate.Proc
import FsProtection.Hooks.Descriptor
import FsProtection.Kernel.Quiet

/-!
# The configuration in force

What the proc files are for: the last text written and the last switch command
decide what is protected. `InForce` relates that configuration to the globals, and
each handler keeps it, except that `refresh` parses a buffer nothing ever fills.
-/

namespace FsProtection

open Base

/-- A write to one of the proc files, or anything else that happens in the kernel. -/
inductive ProcEvent (σ : Type) where
  | protect (buffer : Bytes) (count : Nat)
  | ctrl (buffer : Bytes) (count : Nat)
  | elsewhere (next : σ)

section Runs

variable {σ : Type} (k : Kernel σ)

def ProcEvent.handle : ProcEvent σ → ProcM σ Int
  | .protect buffer count => procProtectWrite k buffer count
  | .ctrl buffer count => procCtrlWrite k buffer count
  | .elsewhere next => do
      modify fun s => { s with outside := next }
      return 0

def procStep (s : ProcState σ) (event : ProcEvent σ) : Except Fault (ProcState σ) :=
  ((event.handle k).run s).map Prod.snd

/-- A run from the state `init_communicate` leaves. -/
def procRun (raw : SizedBytes bufferSize) (start : σ) (events : List (ProcEvent σ)) :
    Except Fault (ProcState σ) :=
  execute (procStep k) ⟨Globals.initial raw, start⟩ events

end Runs

/-- The rule text in force, if there is one, and the switch. -/
structure Configuration where
  text : Option Bytes
  enabled : Bool
deriving DecidableEq

namespace ProcEvent

variable {σ : Type}

/-- The command a ctrl write delivers. -/
def command (buffer : Bytes) (count : Nat) : Option Command :=
  (written buffer count).bind commandOf

/-- What an event puts in force as rule text, if it concerns the rules: a text, or
none for an empty write and for `clear`. -/
def setsText : ProcEvent σ → Option (Option Bytes)
  | .protect buffer count => if count = 0 then some none else (written buffer count).map some
  | .ctrl buffer count => if command buffer count = some .clear then some none else none
  | .elsewhere _ => none

/-- What an event turns the switch to, if it does. -/
def setsEnabled : ProcEvent σ → Option Bool
  | .protect _ _ => none
  | .ctrl buffer count =>
      if command buffer count = some .disable then some false
      else if command buffer count = some .enable then some true
      else none
  | .elsewhere _ => none

end ProcEvent

section InForce

variable {σ : Type}

/-- The configuration after some events: the last rule text and the last switch. -/
def configurationOf (events : List (ProcEvent σ)) : Configuration where
  text := (events.filterMap ProcEvent.setsText).getLast?.join
  enabled := (events.filterMap ProcEvent.setsEnabled).getLast?.getD true

/-- The rule lines of the text in force. -/
def Configuration.lines (configuration : Configuration) : List RuleLine :=
  configuration.text.toList.flatMap fun text => ruleLines (textLines text)

def Configuration.after (configuration : Configuration) (event : ProcEvent σ) : Configuration where
  text := event.setsText.getD configuration.text
  enabled := event.setsEnabled.getD configuration.enabled

theorem configurationOf_snoc (past : List (ProcEvent σ)) (event : ProcEvent σ) :
    configurationOf (past ++ [event]) = (configurationOf past).after event := by
  unfold configurationOf Configuration.after
  congr 1
  · cases sets : event.setsText <;> simp [List.filterMap_append, sets]
  · cases sets : event.setsEnabled <;> simp [List.filterMap_append, sets]

/-- What the events an admitted run consists of may be: writes below the buffer size
whose openable lines have a type and whose text fits the scratch copy, commands other
than `refresh`, and kernel activity that leaves the paths alone. -/
def Admitted (k : Kernel σ) (opens : σ → Bytes → Option InodeAddr)
    (paths : Bytes → Option InodeAddr) : ProcEvent σ → Prop
  | .protect buffer count =>
      count < bufferSize ∧ ∀ text, written buffer count = some text →
        text.length < k.vmallocRoom sizeofPointer ∧
        ∀ line ∈ textLines text, pathOpens paths (RuleLine.ofLine line).path ≠ none →
          atSign ∈ line
  | .ctrl buffer count => count < bufferSize ∧ ProcEvent.command buffer count ≠ some .refresh
  | .elsewhere next => opens next = paths

/-- The globals hold the configuration, over paths that open as given. -/
structure InForce (opens : σ → Bytes → Option InodeAddr) (paths : Bytes → Option InodeAddr)
    (configuration : Configuration) (s : ProcState σ) : Prop where
  cleared : s.globals.dataBuf = SizedBytes.zeros bufferSize
  samePaths : opens s.outside = paths
  rules : s.globals.fileListRoot = configuration.lines.filterMap (RuleLine.install paths)
  enabled : s.globals.protectEnabeled = configuration.enabled

section Steps

variable {k : Kernel σ} {opens : σ → Bytes → Option InodeAddr}
  {paths : Bytes → Option InodeAddr} {configuration : Configuration} {s after : ProcState σ}

theorem procStep_eq_ok {event : ProcEvent σ} :
    procStep k s event = .ok after ↔ ∃ ret, Returns (event.handle k) s ret after := by
  unfold procStep Returns
  cases (event.handle k).run s with
  | error fault => simp [Except.map]
  | ok outcome =>
      obtain ⟨ret, next⟩ := outcome
      simp [Except.map]

/-- An answer `-EFAULT` means the text buffer is all that changed. -/
theorem handle_efault (cleared : s.globals.dataBuf = SizedBytes.zeros bufferSize)
    (view : PathView k opens) {event : ProcEvent σ}
    (ran : Returns (event.handle k) s (-efault) after) : ∃ raw, after = s.withRaw raw := by
  cases event with
  | protect buffer count =>
      rcases procProtectWrite_cases view ran with
        ⟨_, other, _⟩ | ⟨_, _, _, same⟩ | ⟨_, _, _, _, _, other, _⟩
      · exact absurd other (by decide)
      · exact same
      · simp only [efault] at other
        omega
  | ctrl buffer count =>
      rcases procCtrlWrite_cases cleared ran with
        ⟨_, other, _⟩ | ⟨_, _, _, same⟩ | ⟨_, _, _, _, other, _⟩
      · exact absurd other (by decide)
      · exact same
      · simp only [efault] at other
        omega
  | elsewhere next =>
      simp [ProcEvent.handle, efault] at ran

/-- Nothing ever fills `data_buf`. -/
theorem procStep_cleared (view : PathView k opens) {event : ProcEvent σ}
    (cleared : s.globals.dataBuf = SizedBytes.zeros bufferSize)
    (ran : procStep k s event = .ok after) :
    after.globals.dataBuf = SizedBytes.zeros bufferSize := by
  obtain ⟨ret, ran⟩ := procStep_eq_ok.mp ran
  cases event with
  | protect buffer count =>
      rcases procProtectWrite_cases view ran with
        ⟨_, _, rfl⟩ | ⟨_, _, _, _, rfl⟩ | ⟨_, _, _, _, _, _, _, rfl⟩ <;> exact cleared
  | ctrl buffer count =>
      rcases procCtrlWrite_cases cleared ran with
        ⟨_, _, rfl⟩ | ⟨_, _, _, _, rfl⟩ | ⟨_, text, raw, _, _, rfl⟩
      · exact cleared
      · exact cleared
      · rcases commandOf text with _ | command
        · exact cleared
        · cases command <;> exact cleared
  | elsewhere next =>
      simp only [ProcEvent.handle, returns_bind_iff, returns_modify_iff, returns_pure_iff] at ran
      obtain ⟨_, _, rfl, _, rfl⟩ := ran
      exact cleared

theorem procRun_cleared (view : PathView k opens) {raw : SizedBytes bufferSize} {start : σ}
    {events : List (ProcEvent σ)} (ran : procRun k raw start events = .ok s) :
    s.globals.dataBuf = SizedBytes.zeros bufferSize :=
  execute_history (fun _ s => s.globals.dataBuf = SizedBytes.zeros bufferSize) rfl
    (fun _ _ _ _ cleared stepped => procStep_cleared view cleared stepped) ran

/-- A command other than `refresh` keeps the globals at the configuration. -/
theorem InForce.obey (inForce : InForce opens paths configuration s) (command : Option Command)
    (notRefresh : command ≠ some .refresh) {text : Option (Option Bytes)} {enabled : Option Bool}
    (setsText : text = if command = some .clear then some none else none)
    (setsEnabled : enabled = if command = some .disable then some false
      else if command = some .enable then some true else none) :
    InForce opens paths ⟨text.getD configuration.text, enabled.getD configuration.enabled⟩
      (s.obey command) := by
  obtain ⟨cleared, samePaths, rules, switch⟩ := inForce
  subst setsText setsEnabled
  rcases command with _ | command
  · exact ⟨cleared, samePaths, rules, switch⟩
  · cases command with
    | refresh => exact absurd rfl notRefresh
    | clear => exact ⟨cleared, samePaths, rfl, switch⟩
    | disable => exact ⟨cleared, samePaths, rules, rfl⟩
    | enable => exact ⟨cleared, samePaths, rules, rfl⟩

theorem InForce.withRaw (inForce : InForce opens paths configuration s)
    (raw : SizedBytes bufferSize) : InForce opens paths configuration (s.withRaw raw) :=
  ⟨inForce.cleared, inForce.samePaths, inForce.rules, inForce.enabled⟩

theorem InForce.text (inForce : InForce opens paths configuration s) {text : Bytes}
    {raw : SizedBytes bufferSize} {outside : σ} (samePaths : opens outside = paths) :
    InForce opens paths ⟨some text, configuration.enabled⟩
      { (s.withRaw raw).withRules (parseLines paths (textLines text)) with outside := outside } :=
  ⟨inForce.cleared, samePaths, by
    simp [Configuration.lines, parseLines, ProcState.withRules], inForce.enabled⟩

theorem InForce.noText (inForce : InForce opens paths configuration s) :
    InForce opens paths ⟨none, configuration.enabled⟩ (s.withRules []) :=
  ⟨inForce.cleared, inForce.samePaths, rfl, inForce.enabled⟩

theorem Admitted.parses {buffer : Bytes} {count : Nat}
    (admitted : Admitted k opens paths (.protect buffer count)) {text : Bytes}
    (delivered : written buffer count = some text) :
    text.length < k.vmallocRoom sizeofPointer ∧ Parses paths (textLines text) := by
  obtain ⟨room, typed⟩ := admitted.2 text delivered
  refine ⟨room, parses_of_typed fun line member bare => ?_⟩
  by_contra opened
  apply bare
  apply typed line member
  rwa [RuleLine.ofLine, takeWhile_atSign_of_notMem bare]

/-- Every admitted event returns and keeps the globals at the configuration. -/
theorem procStep_inForce (view : PathView k opens) {event : ProcEvent σ}
    (inForce : InForce opens paths configuration s) (admitted : Admitted k opens paths event) :
    ∃ after, procStep k s event = .ok after ∧
      InForce opens paths (configuration.after event) after := by
  simp only [procStep_eq_ok]
  cases event with
  | protect buffer count =>
      obtain ⟨ret, after, ran⟩ := procProtectWrite_total (s := s) view admitted.1
        fun text _ delivered => by
          rw [inForce.samePaths]
          exact admitted.parses delivered
      refine ⟨after, ⟨ret, ran⟩, ?_⟩
      rcases procProtectWrite_cases view ran with
        ⟨empty, _, rfl⟩ | ⟨nonempty, missed, _, raw, rfl⟩ |
        ⟨nonempty, text, raw, outside, delivered, _, kept, rfl⟩
      · simpa [Configuration.after, ProcEvent.setsText, ProcEvent.setsEnabled, empty]
          using inForce.noText
      · simpa [Configuration.after, ProcEvent.setsText, ProcEvent.setsEnabled, nonempty, missed]
          using inForce.withRaw raw
      · rw [inForce.samePaths] at kept ⊢
        simpa [Configuration.after, ProcEvent.setsText, ProcEvent.setsEnabled, nonempty, delivered]
          using inForce.text kept
  | ctrl buffer count =>
      obtain ⟨ret, after, ran⟩ := procCtrlWrite_total (k := k) inForce.cleared buffer admitted.1
      refine ⟨after, ⟨ret, ran⟩, ?_⟩
      rcases procCtrlWrite_cases inForce.cleared ran with
        ⟨rfl, _, rfl⟩ | ⟨_, missed, _, raw, rfl⟩ | ⟨_, text, raw, delivered, _, rfl⟩
      · exact inForce.obey none (by simp) rfl rfl
      · exact (inForce.withRaw raw).obey none (by simp)
          (by simp [ProcEvent.setsText, ProcEvent.command, missed])
          (by simp [ProcEvent.setsEnabled, ProcEvent.command, missed])
      · have command : ProcEvent.command buffer count = commandOf text := by
          simp [ProcEvent.command, delivered]
        have notRefresh := admitted.2
        rw [command] at notRefresh
        exact (inForce.withRaw raw).obey _ notRefresh
          (by simp [ProcEvent.setsText, command]) (by simp [ProcEvent.setsEnabled, command])
  | elsewhere next =>
      exact ⟨{ s with outside := next }, ⟨0, by simp [ProcEvent.handle]⟩,
        inForce.cleared, admitted, inForce.rules, inForce.enabled⟩

/-- Admitted runs return, and leave the configuration of their events in force. -/
theorem procRun_inForce (view : PathView k opens) (raw : SizedBytes bufferSize) {start : σ}
    (startPaths : opens start = paths) {events : List (ProcEvent σ)}
    (admitted : ∀ event ∈ events, Admitted k opens paths event) :
    ∃ final, procRun k raw start events = .ok final ∧
      InForce opens paths (configurationOf events) final := by
  refine execute_total (fun past s => InForce opens paths (configurationOf past) s)
    ⟨rfl, startPaths, rfl, rfl⟩ (fun past s event inForce fits => ?_) admitted
  rw [configurationOf_snoc]
  exact procStep_inForce view inForce fits

/-- The configured lines whose path opens have their rules in the list, and no others. -/
theorem InForce.any_inodeMatches (inForce : InForce opens paths configuration s)
    {inode : InodeAddr} {ptype : ProtectType} :
    s.globals.fileListRoot.any (inodeMatches inode ptype) = true ↔
      ∃ line ∈ configuration.lines, line.type = ptype ∧ pathOpens paths line.path = some inode := by
  rw [inForce.rules, List.any_filterMap, List.any_eq_true]
  refine exists_congr fun line => and_congr_right fun _ => ?_
  cases opened : pathOpens paths line.path <;>
    simp [RuleLine.install, opened, inodeMatches, FileNode.make, and_comm]

/-- What a guarded call on an open descriptor does is decided by the configuration. -/
theorem InForce.guardFd (inForce : InForce opens paths configuration s) {m : Machine σ}
    {fd : UInt32} {file : File} (found : k.fget fd m.outside = some file) (ptype : ProtectType)
    (call : Syscall) :
    ∃ ret after, Returns (guardFd k s.globals fd ptype call) m ret after ∧
      (Refused m ret after ↔ configuration.enabled = true ∧
        ∃ line ∈ configuration.lines, line.type = ptype ∧
          pathOpens paths line.path = some file.inode) := by
  rw [← inForce.any_inodeMatches, ← inForce.enabled]
  have decides := (guardFd_guards (k := k) s.globals (m := m) fd ptype call).decides
  simp only [found, Option.isSome_some, Option.some.injEq, exists_eq_left', implies_true]
    at decides
  exact decides.refused_iff.mpr ⟨trivial, Iff.rfl⟩

/-- The text in force was delivered by a protect write of the run. -/
theorem configurationOf_text {events : List (ProcEvent σ)} {text : Bytes}
    (inForce : (configurationOf events).text = some text) :
    ∃ buffer count, ProcEvent.protect buffer count ∈ events ∧ written buffer count = some text := by
  have last : (events.filterMap ProcEvent.setsText).getLast? = some (some text) := by
    simpa [configurationOf, Option.join_eq_some_iff] using inForce
  obtain ⟨event, member, sets⟩ := List.mem_filterMap.mp (List.mem_of_getLast? last)
  cases event with
  | protect buffer count =>
      refine ⟨buffer, count, member, ?_⟩
      by_cases empty : count = 0
      · simp [ProcEvent.setsText, empty] at sets
      · simpa [ProcEvent.setsText, empty] using sets
  | ctrl buffer count =>
      simp only [ProcEvent.setsText] at sets
      split at sets <;> simp at sets
  | elsewhere next => exact absurd sets (by simp [ProcEvent.setsText])

/-- The list `create_list` gives on the text in force. -/
def Configuration.parsed (k : Kernel σ) (state : σ) (configuration : Configuration) :
    Except Fault (List FileNode) :=
  match configuration.text with
  | none => .ok []
  | some text => installed k state text

theorem configurationOf_parsed (view : PathView k opens) {start : σ}
    (startPaths : opens start = paths) {events : List (ProcEvent σ)}
    (admitted : ∀ event ∈ events, Admitted k opens paths event) :
    (configurationOf events).parsed k start =
      .ok ((configurationOf events).lines.filterMap (RuleLine.install paths)) := by
  unfold Configuration.parsed Configuration.lines
  cases inForce : (configurationOf events).text with
  | none => rfl
  | some text =>
      obtain ⟨buffer, count, member, delivered⟩ := configurationOf_text inForce
      obtain ⟨room, parses⟩ := (admitted _ member).parses delivered
      have clean : (0 : Byte) ∉ text := by
        unfold written at delivered
        split at delivered
        · exact Option.some.inj delivered ▸ zero_notMem_cstr
        · simp at delivered
      rw [← startPaths] at parses ⊢
      simpa [parseLines] using installed_eq view clean room parses

/-- The path and type of a line, the path as a node stores it. -/
def RuleLine.entry (line : RuleLine) : SizedBytes filepathSize × ProtectType :=
  (pathField line.path, line.type)

def FileNode.entry (node : FileNode) : SizedBytes filepathSize × ProtectType :=
  (node.filePath, node.type)

/-- The list holds the entries of the configured lines whose path opens now. -/
def Reinstalled (opens : σ → Bytes → Option InodeAddr) (configuration : Configuration)
    (s : ProcState σ) : Prop :=
  s.globals.fileListRoot.map FileNode.entry =
    (configuration.lines.filter fun line => (pathOpens (opens s.outside) line.path).isSome).map
      RuleLine.entry

/-- A `refresh` command empties the list and does nothing else that shows. -/
theorem refresh_empties (cleared : s.globals.dataBuf = SizedBytes.zeros bufferSize)
    {buffer : Bytes} {count : Nat} (inside : count < bufferSize)
    (command : ProcEvent.command buffer count = some .refresh) :
    ∃ ret after, Returns (procCtrlWrite k buffer count) s ret after ∧
      after.globals.fileListRoot = [] ∧ after.outside = s.outside := by
  obtain ⟨ret, after, wrote⟩ := procCtrlWrite_total (k := k) cleared buffer inside
  refine ⟨ret, after, wrote, ?_⟩
  rcases procCtrlWrite_cases cleared wrote with
    ⟨rfl, _, rfl⟩ | ⟨_, missed, _⟩ | ⟨_, text, raw, delivered, _, rfl⟩
  · have silent : ProcEvent.command buffer 0 = none := rfl
    rw [silent] at command
    cases command
  · rw [ProcEvent.command, missed] at command
    cases command
  · rw [ProcEvent.command, delivered, Option.bind_some] at command
    rw [command]
    exact ⟨rfl, rfl⟩

end Steps

end InForce

/-- The writes of the session the examples run: one read rule, then the switch off and
on again. -/
def oneRuleSession : List (ProcEvent Unit) :=
  [.protect (lit "/f@r\n") 5, .ctrl (lit "disable") 7, .elsewhere (), .ctrl (lit "enable") 6]

theorem oneRuleSession_admitted :
    ∀ event ∈ oneRuleSession, Admitted (Kernel.quiet oneFile) (fun _ => oneFile) oneFile event := by
  have delivered : written (lit "/f@r\n") 5 = some (lit "/f@r\n") := by decide
  intro event member
  simp only [oneRuleSession, List.mem_cons, List.not_mem_nil, or_false] at member
  rcases member with rfl | rfl | rfl | rfl
  · refine ⟨by decide, fun text written => ?_⟩
    rw [delivered] at written
    cases written
    decide
  · exact ⟨by decide, by decide⟩
  · rfl
  · exact ⟨by decide, by decide⟩

theorem oneRuleSession_lines :
    (configurationOf oneRuleSession).lines = [⟨lit "/f", .read⟩] := by decide

section Refresh

variable {σ : Type} {k : Kernel σ} {opens : σ → Bytes → Option InodeAddr} {s : ProcState σ}

/-- `refresh` leaves an empty list, which is what the configuration asks for exactly
when no line in force has a path that opens. -/
theorem refresh_reinstalls_iff (view : PathView k opens) {raw : SizedBytes bufferSize} {start : σ}
    {events : List (ProcEvent σ)} (ran : procRun k raw start events = .ok s) {buffer : Bytes}
    {count : Nat} (inside : count < bufferSize)
    (command : ProcEvent.command buffer count = some .refresh) :
    ∃ ret after, Returns (procCtrlWrite k buffer count) s ret after ∧
      (Reinstalled opens (configurationOf events) after ↔
        ∀ line ∈ (configurationOf events).lines, pathOpens (opens s.outside) line.path = none) := by
  obtain ⟨ret, after, wrote, empty, same⟩ :=
    refresh_empties (k := k) (procRun_cleared view ran) inside command
  refine ⟨ret, after, wrote, ?_⟩
  rw [Reinstalled, empty, same, List.map_nil, eq_comm, List.map_eq_nil_iff,
    List.filter_eq_nil_iff]
  simp

end Refresh

/-- A rule for a file that is not there, and the switch off. -/
def missingSession : List (ProcEvent Unit) :=
  [.protect (lit "/g@r\n") 5, .elsewhere (), .ctrl (lit "disable") 7]

theorem missingSession_admitted :
    ∀ event ∈ missingSession, Admitted (Kernel.quiet oneFile) (fun _ => oneFile) oneFile event := by
  have delivered : written (lit "/g@r\n") 5 = some (lit "/g@r\n") := by decide
  intro event member
  simp only [missingSession, List.mem_cons, List.not_mem_nil, or_false] at member
  rcases member with rfl | rfl | rfl
  · refine ⟨by decide, fun text written => ?_⟩
    rw [delivered] at written
    cases written
    decide
  · rfl
  · exact ⟨by decide, by decide⟩

/-- The one line in force does not open, so that nothing is to be reinstalled. -/
theorem refresh_reinstalls_nothing :
    ∃ s ret after,
      procRun (Kernel.quiet oneFile) (SizedBytes.zeros _) () missingSession = .ok s ∧
      Returns (procCtrlWrite (Kernel.quiet oneFile) (lit "refresh") 7) s ret after ∧
      (configurationOf missingSession).lines = [⟨lit "/g", .read⟩] ∧
      Reinstalled (fun _ => oneFile) (configurationOf missingSession) after := by
  have view := Kernel.quiet_pathView oneFile
  have command : ProcEvent.command (lit "refresh") 7 = some .refresh := by decide
  have listed : (configurationOf missingSession).lines = [⟨lit "/g", .read⟩] := by decide
  obtain ⟨s, ran, _⟩ :=
    procRun_inForce view (SizedBytes.zeros _) (rfl : (fun _ => oneFile) () = oneFile)
      missingSession_admitted
  obtain ⟨ret, after, wrote, reinstalled⟩ := refresh_reinstalls_iff view ran (by decide) command
  refine ⟨s, ret, after, ran, wrote, listed, reinstalled.mpr ?_⟩
  rw [listed]
  decide

/-- A refresh after the session drops the rule although the file still opens. -/
theorem refresh_drops_rule :
    ∃ s ret after, procRun (Kernel.quiet oneFile) (SizedBytes.zeros _) () oneRuleSession = .ok s ∧
      Returns (procCtrlWrite (Kernel.quiet oneFile) (lit "refresh") 7) s ret after ∧
      ¬ Reinstalled (fun _ => oneFile) (configurationOf oneRuleSession) after := by
  have view := Kernel.quiet_pathView oneFile
  obtain ⟨s, ran, inForce⟩ :=
    procRun_inForce view (SizedBytes.zeros _) (rfl : (fun _ => oneFile) () = oneFile)
      oneRuleSession_admitted
  have command : ProcEvent.command (lit "refresh") 7 = some .refresh := by decide
  obtain ⟨ret, after, wrote, empty, _⟩ :=
    refresh_empties (k := Kernel.quiet oneFile) inForce.cleared (by decide) command
  refine ⟨s, ret, after, ran, wrote, ?_⟩
  rw [Reinstalled, empty, oneRuleSession_lines]
  decide

section Rules

variable {σ : Type} {k : Kernel σ} {opens : σ → Bytes → Option InodeAddr}
  {paths : Bytes → Option InodeAddr}

/-- The rules in force are those of the last configuration event. Every admitted run
returns; the list it leaves is what `create_list` gives on the last text delivered
and not cleared since, the switch is the last one set, a write answered with
`-EFAULT` changed neither, and reads and writes on open descriptors are refused
accordingly. -/
theorem rules_in_force (view : PathView k opens) (raw : SizedBytes bufferSize) {start : σ}
    (startPaths : opens start = paths) {events : List (ProcEvent σ)}
    (admitted : ∀ event ∈ events, Admitted k opens paths event) :
    ∃ final, procRun k raw start events = .ok final ∧
      (configurationOf events).parsed k start = .ok final.globals.fileListRoot ∧
      final.globals.protectEnabeled = (configurationOf events).enabled ∧
      (∀ past event, past ++ [event] <+: events →
        ∃ before ret after, procRun k raw start past = .ok before ∧
          Returns (event.handle k) before ret after ∧
          (ret = -efault → after.globals.fileListRoot = before.globals.fileListRoot ∧
            after.globals.protectEnabeled = before.globals.protectEnabeled)) ∧
      ∀ (m : Machine σ) (file : File),
        (∀ fd size, k.fget fd m.outside = some file →
          ∃ ret after, Returns (modifiedRead k final.globals fd size) m ret after ∧
            (Refused m ret after ↔ (configurationOf events).enabled = true ∧
              ∃ line ∈ (configurationOf events).lines, line.type = .read ∧
                pathOpens paths line.path = some file.inode)) ∧
        ∀ (fd : Int32) count, k.fget fd.toUInt32 m.outside = some file →
          ∃ ret after, Returns (modifiedWrite k final.globals fd count) m ret after ∧
            (Refused m ret after ↔ (configurationOf events).enabled = true ∧
              ∃ line ∈ (configurationOf events).lines, line.type = .write ∧
                pathOpens paths line.path = some file.inode) := by
  obtain ⟨final, ran, inForce⟩ := procRun_inForce view raw startPaths admitted
  refine ⟨final, ran, ?_, inForce.enabled, ?_, ?_⟩
  · rw [configurationOf_parsed view startPaths admitted, inForce.rules]
  · intro past event first
    have admittedPast : ∀ earlier ∈ past, Admitted k opens paths earlier :=
      fun earlier member => admitted earlier (first.subset (by simp [member]))
    obtain ⟨before, ranPast, inForcePast⟩ := procRun_inForce view raw startPaths admittedPast
    obtain ⟨after, stepped, _⟩ :=
      procStep_inForce view inForcePast (admitted event (first.subset (by simp)))
    obtain ⟨ret, handled⟩ := procStep_eq_ok.mp stepped
    refine ⟨before, ret, after, ranPast, handled, ?_⟩
    rintro rfl
    obtain ⟨raw, rfl⟩ := handle_efault inForcePast.cleared view handled
    exact ⟨rfl, rfl⟩
  · intro m file
    exact ⟨fun fd size found => inForce.guardFd found .read (.read fd size),
      fun fd count found => inForce.guardFd found .write (.write fd count)⟩

end Rules

/-- After the session the file is protected against reading. -/
theorem rules_in_force_oneRuleSession :
    ∃ final, procRun (Kernel.quiet oneFile) (SizedBytes.zeros _) () oneRuleSession = .ok final ∧
      ∃ ret after, Returns (modifiedRead (Kernel.quiet oneFile) final.globals 7 1)
        (Machine.start () []) ret after ∧ Refused (Machine.start () []) ret after := by
  obtain ⟨final, ran, _, _, _, guarded⟩ :=
    rules_in_force (Kernel.quiet_pathView oneFile) (SizedBytes.zeros _) rfl oneRuleSession_admitted
  obtain ⟨ret, after, read, decided⟩ := (guarded (Machine.start () []) ⟨7, 7⟩).1 7 1 rfl
  exact ⟨final, ran, ret, after, read, decided.mpr (by decide)⟩

end FsProtection
