import FsProtection.Configuration

/-!
# Configuring through the hooked write

The protect file and the ctrl file are written with the system call `modified_write`
guards, and nothing exempts them: a rule of type `w` for one of them refuses what would
replace it. Unless a text that was received asks for such a rule, every write arrives.
-/

namespace FsProtection

open Base

/-- The inodes of the two proc files that are written. -/
structure ProcFiles where
  protect : InodeAddr
  ctrl : InodeAddr
  apart : protect ≠ ctrl

/-- A call of `write`: the descriptor, the bytes that can be read from the buffer, and the
count. -/
structure WriteCall where
  fd : Int32
  buffer : Bytes
  count : UInt32

section Model

variable {σ : Type} (k : Kernel σ) (files : ProcFiles)

/-- The handler behind a file, if it is one of the proc files. -/
def ProcFiles.event (call : WriteCall) (inode : InodeAddr) : Option (ProcEvent σ) :=
  if inode = files.protect then some (.protect call.buffer call.count.toNat)
  else if inode = files.ctrl then some (.ctrl call.buffer call.count.toNat)
  else none

/-- The handler a call is for: the one behind the file its descriptor is open on. -/
def handlerOf (s : ProcState σ) (call : WriteCall) : Option (ProcEvent σ) :=
  (k.fget call.fd.toUInt32 s.outside).bind fun file => files.event call file.inode

/-- `modified_write` in a state of the module. -/
def hookedWrite (s : ProcState σ) (call : WriteCall) :
    Except Fault (Int32 × Machine σ) :=
  (modifiedWrite k s.globals call.fd call.count).run (Machine.start s.outside call.buffer)

/-- A write system call. When the hook calls the original, a proc file passes the write to
its handler. -/
def channelStep (s : ProcState σ) (call : WriteCall) : Except Fault (ProcState σ) := do
  let hook ← hookedWrite k s call
  if hook.2.calls = [] then return s
  else
    match handlerOf k files s call with
    | some event => procStep k s event
    | none => return { s with outside := hook.2.outside }

def channelRun (raw : SizedBytes bufferSize) (start : σ) (calls : List WriteCall) :
    Except Fault (ProcState σ) :=
  execute (channelStep k files) ⟨Globals.initial raw, start⟩ calls

/-- The hook does not refuse the call. -/
def Arrives (s : ProcState σ) (call : WriteCall) : Prop :=
  PassesOn k (modifiedWrite k s.globals call.fd call.count) (Machine.start s.outside call.buffer)
    (.write call.fd call.count)

/-- The call is a protect write that arrives, and its text asks for a rule of type `w` for an
inode. -/
def Locks (opens : σ → Bytes → Option InodeAddr) (s : ProcState σ) (call : WriteCall)
    (inode : InodeAddr) : Prop :=
  Arrives k s call ∧
  ∃ buffer count text, handlerOf k files s call = some (.protect buffer count) ∧
    written buffer count = some text ∧
    ∃ line ∈ ruleLines (textLines text), line.type = .write ∧
      pathOpens (opens s.outside) line.path = some inode

end Model

section Steps

variable {σ : Type} {k : Kernel σ} {files : ProcFiles} {opens : σ → Bytes → Option InodeAddr}
  {s after : ProcState σ} {call : WriteCall} {event : ProcEvent σ}

/-- A write that arrives at a proc file is handled there. -/
theorem Arrives.handled (arrives : Arrives k s call)
    (isFor : handlerOf k files s call = some event) :
    channelStep k files s call = procStep k s event := by
  obtain ⟨ret, last, ran, passed⟩ := arrives
  have called : last.calls = [.write call.fd call.count] := passed.calls
  have hook : hookedWrite k s call = .ok (ret, last) := ran
  rw [channelStep, hook]
  simp [bind, Except.bind, called, isFor]

/-- A protect write that arrives puts the rules of its text in force. -/
theorem Arrives.installs (view : PathView k opens) (arrives : Arrives k s call)
    {buffer : Bytes} {count : Nat} {text : Bytes}
    (isFor : handlerOf k files s call = some (.protect buffer count))
    (delivered : written buffer count = some text) (positive : count ≠ 0)
    (inside : count < bufferSize) (room : text.length < k.vmallocRoom sizeofPointer)
    (parses : Parses (opens s.outside) (textLines text)) :
    ∃ after, channelStep k files s call = .ok after ∧
      after.globals.fileListRoot = parseLines (opens s.outside) (textLines text) ∧
      after.globals.protectEnabeled = s.globals.protectEnabeled := by
  have total := procProtectWrite_total (s := s) view inside fun other _ same => by
    obtain rfl := Option.some.inj (delivered.symm.trans same)
    exact ⟨room, parses⟩
  obtain ⟨ret, after, ran⟩ := total
  refine ⟨after, (arrives.handled isFor).trans (procStep_eq_ok.mpr ⟨ret, ran⟩), ?_⟩
  rcases procProtectWrite_cases view ran with
    ⟨none, _⟩ | ⟨_, failed, _⟩ | ⟨_, other, raw, outside, same, _, _, rfl⟩
  · exact absurd none positive
  · rw [delivered] at failed
    cases failed
  · obtain rfl := Option.some.inj (delivered.symm.trans same)
    exact ⟨rfl, rfl⟩

/-- A hook that called the original passed the call on. -/
theorem hookedWrite_arrives {hook : Int32 × Machine σ} (hooked : hookedWrite k s call = .ok hook)
    (called : hook.2.calls ≠ []) : Arrives k s call := by
  have decides := (guardFd_guards (k := k) (m := Machine.start s.outside call.buffer) s.globals
    call.fd.toUInt32 .write (.write call.fd call.count)).decides
  have ran : Returns (modifiedWrite k s.globals call.fd call.count)
      (Machine.start s.outside call.buffer) hook.1 hook.2 := hooked
  obtain ⟨_, refused, passed⟩ := decides.returned ran
  exact ⟨_, _, ran, passed fun hit => called (refused hit).calls⟩

/-- What a write that returns did: it arrived at a handler, or changed no globals. -/
theorem channelStep_cases (stepped : channelStep k files s call = .ok after) :
    (Arrives k s call ∧
      ∃ event, handlerOf k files s call = some event ∧ procStep k s event = .ok after) ∨
      after.globals = s.globals := by
  obtain ⟨hook, hooked, stepped⟩ := bind_eq_ok_iff.mp stepped
  split at stepped
  · cases stepped
    exact .inr rfl
  · next called =>
      have arrives : Arrives k s call := hookedWrite_arrives hooked called
      split at stepped
      · exact .inl ⟨arrives, _, by assumption, stepped⟩
      · cases stepped
        exact .inr rfl

/-- On an open descriptor a write arrives exactly when protection is off, or no rule of
type `w` is for the inode. -/
theorem arrives_iff {file : File} (found : k.fget call.fd.toUInt32 s.outside = some file) :
    Arrives k s call ↔ ¬ (s.globals.protectEnabeled = true ∧
      ∃ rule ∈ s.globals.fileListRoot, rule.type = .write ∧ rule.inode = file.inode) := by
  have decides := (guardFd_guards (k := k) (m := Machine.start s.outside call.buffer) s.globals
    call.fd.toUInt32 .write (.write call.fd call.count)).decides
  rw [Arrives, modifiedWrite, decides.passesOn_iff]
  simp only [Machine.start, found, Option.isSome_some, implies_true, true_and, Option.some.injEq,
    exists_eq_left', List.any_eq_true, inodeMatches, decide_eq_true_eq]
  simp only [and_comm]

/-- No command makes a rule. -/
theorem mem_of_mem_obey {command : Option Command} {rule : FileNode}
    (member : rule ∈ (s.obey command).globals.fileListRoot) :
    rule ∈ s.globals.fileListRoot := by
  cases command with
  | none => exact member
  | some command =>
      cases command with
      | refresh => exact absurd member List.not_mem_nil
      | clear => exact absurd member List.not_mem_nil
      | disable => exact member
      | enable => exact member

/-- A rule in force after an event was in force before, or comes from a line of the text it
delivered. -/
theorem procStep_rules (view : PathView k opens)
    (cleared : s.globals.dataBuf = SizedBytes.zeros bufferSize)
    (stepped : procStep k s event = .ok after) {rule : FileNode}
    (member : rule ∈ after.globals.fileListRoot) :
    rule ∈ s.globals.fileListRoot ∨
      ∃ buffer count text, event = .protect buffer count ∧ written buffer count = some text ∧
        ∃ line ∈ ruleLines (textLines text), line.install (opens s.outside) = some rule := by
  obtain ⟨ret, ran⟩ := procStep_eq_ok.mp stepped
  cases event with
  | protect buffer count =>
      rcases procProtectWrite_cases view ran with
        ⟨_, _, rfl⟩ | ⟨_, _, _, raw, rfl⟩ | ⟨_, text, raw, outside, delivered, _, _, rfl⟩
      · exact absurd member List.not_mem_nil
      · exact .inl member
      · obtain ⟨line, isLine, installed⟩ := List.mem_filterMap.mp member
        exact .inr ⟨buffer, count, text, rfl, delivered, line, isLine, installed⟩
  | ctrl buffer count =>
      rcases procCtrlWrite_cases cleared ran with
        ⟨_, _, rfl⟩ | ⟨_, _, _, raw, rfl⟩ | ⟨_, text, raw, _, _, rfl⟩
      · exact .inl member
      · exact .inl member
      · have was : rule ∈ (s.withRaw raw).globals.fileListRoot := mem_of_mem_obey member
        exact .inl was
  | elsewhere next =>
      simp only [ProcEvent.handle, returns_bind_iff, returns_modify_iff, returns_pure_iff] at ran
      obtain ⟨_, _, rfl, _, rfl⟩ := ran
      exact .inl member

/-- The cleared buffer stays so, and a rule of type `w` that a write made was asked for by
its text. -/
theorem channelStep_rules (view : PathView k opens)
    (cleared : s.globals.dataBuf = SizedBytes.zeros bufferSize)
    (stepped : channelStep k files s call = .ok after) :
    after.globals.dataBuf = SizedBytes.zeros bufferSize ∧
      ∀ rule ∈ after.globals.fileListRoot, rule.type = .write →
        rule ∈ s.globals.fileListRoot ∨ Locks k files opens s call rule.inode := by
  rcases channelStep_cases stepped with ⟨arrives, event, isFor, handled⟩ | same
  · refine ⟨procStep_cleared view cleared handled, fun rule member typed => ?_⟩
    rcases procStep_rules view cleared handled member with
      earlier | ⟨buffer, count, text, rfl, delivered, line, isLine, installed⟩
    · exact .inl earlier
    · obtain ⟨inode, opened, rfl⟩ := Option.map_eq_some_iff.mp installed
      exact .inr ⟨arrives, buffer, count, text, isFor, delivered, line, isLine, typed, opened⟩
  · rw [same]
    exact ⟨cleared, fun rule member _ => .inl member⟩

/-- Every rule of type `w` in force was asked for by a text that was received. -/
theorem channelRun_rules (view : PathView k opens) {raw : SizedBytes bufferSize} {start : σ}
    {calls : List WriteCall} (ran : channelRun k files raw start calls = .ok s)
    {rule : FileNode} (member : rule ∈ s.globals.fileListRoot) (typed : rule.type = .write) :
    ∃ past call before, past ++ [call] <+: calls ∧ channelRun k files raw start past = .ok before ∧
      Locks k files opens before call rule.inode := by
  have history := execute_history (fun past (s : ProcState σ) =>
    channelRun k files raw start past = .ok s ∧
    s.globals.dataBuf = SizedBytes.zeros bufferSize ∧
    ∀ rule ∈ s.globals.fileListRoot, rule.type = .write →
      ∃ earlier call before, earlier ++ [call] <+: past ∧
        channelRun k files raw start earlier = .ok before ∧
        Locks k files opens before call rule.inode)
    ⟨rfl, rfl, fun _ member => absurd member List.not_mem_nil⟩ ?_ ran
  · exact history.2.2 rule member typed
  · rintro past before call after ⟨ranBefore, cleared, asked⟩ stepped
    obtain ⟨stillCleared, made⟩ := channelStep_rules view cleared stepped
    refine ⟨execute_snoc.mpr ⟨before, ranBefore, stepped⟩, stillCleared,
      fun rule member typed => ?_⟩
    rcases made rule member typed with was | locks
    · obtain ⟨earlier, other, state, first, ranEarlier, locked⟩ := asked rule was typed
      exact ⟨earlier, other, state, first.trans (List.prefix_append past [call]), ranEarlier,
        locked⟩
    · exact ⟨past, call, before, List.prefix_refl _, ranBefore, locks⟩

/-- After any writes through the hook, a write to an open file arrives exactly when
protection is off or no rule of type `w` in force is for the file. Where no text that was
received asked for such a rule, it arrives, and a proc file hands it to its handler. -/
theorem channel_open_unless_locked (view : PathView k opens) (files : ProcFiles)
    {raw : SizedBytes bufferSize} {start : σ} {calls : List WriteCall}
    (ran : channelRun k files raw start calls = .ok s) {call : WriteCall} {file : File}
    (found : k.fget call.fd.toUInt32 s.outside = some file) :
    (Arrives k s call ↔ ¬ (s.globals.protectEnabeled = true ∧
      ∃ rule ∈ s.globals.fileListRoot, rule.type = .write ∧ rule.inode = file.inode)) ∧
    ((∀ past other before, past ++ [other] <+: calls →
        channelRun k files raw start past = .ok before →
        ¬ Locks k files opens before other file.inode) →
      Arrives k s call ∧ ∀ event, files.event call file.inode = some event →
        channelStep k files s call = procStep k s event) := by
  refine ⟨arrives_iff found, fun unlocked => ?_⟩
  have arrives : Arrives k s call := by
    refine (arrives_iff found).mpr fun ⟨_, rule, member, typed, same⟩ => ?_
    obtain ⟨past, other, before, first, ranBefore, locks⟩ :=
      channelRun_rules view ran member typed
    exact unlocked past other before first ranBefore (same ▸ locks)
  refine ⟨arrives, fun event isFor => arrives.handled ?_⟩
  rw [handlerOf, found]
  exact isFor

end Steps

section Examples

/-- The proc files of the module, on the inodes 4 and 5. -/
def procFiles : ProcFiles := ⟨4, 5, by decide⟩

def procPaths (path : Bytes) : Option InodeAddr :=
  if path = lit "/proc/gsfileprotection/protect" then some 4
  else if path = lit "/proc/gsfileprotection/ctrl" then some 5
  else none

/-- The module before any write. -/
def fresh : ProcState Unit := ⟨Globals.initial (SizedBytes.zeros _), ()⟩

theorem fresh_arrives (opens : Bytes → Option InodeAddr) {call : WriteCall} {file : File}
    (found : (Kernel.quiet opens).fget call.fd.toUInt32 () = some file) :
    Arrives (Kernel.quiet opens) fresh call :=
  (arrives_iff (s := fresh) found).mpr fun ⟨_, _, member, _⟩ => absurd member List.not_mem_nil

/-- A protect write of one rule, of type `r`. -/
def readOne : WriteCall where
  fd := 4
  buffer := lit "/f@r\n"
  count := 5

/-- A ctrl write that disables protection. -/
def disableCall : WriteCall where
  fd := 5
  buffer := lit "disable"
  count := 7

/-- After the write of one rule of type `r`, protection can still be disabled. -/
theorem readOne_leaves_open :
    ∃ s, channelRun (Kernel.quiet oneFile) procFiles (SizedBytes.zeros _) () [readOne] = .ok s ∧
      Arrives (Kernel.quiet oneFile) s disableCall ∧
      channelStep (Kernel.quiet oneFile) procFiles s disableCall =
        procStep (Kernel.quiet oneFile) s (.ctrl (lit "disable") 7) := by
  have view := Kernel.quiet_pathView oneFile
  have parses : Parses oneFile (textLines (cstr readOne.buffer)) := by decide
  have arrives : Arrives (Kernel.quiet oneFile) fresh readOne :=
    @fresh_arrives oneFile readOne ⟨4, 4⟩ rfl
  have isFor : handlerOf (Kernel.quiet oneFile) procFiles fresh readOne =
      some (.protect readOne.buffer 5) := rfl
  have delivered : written readOne.buffer 5 = some (cstr readOne.buffer) := rfl
  obtain ⟨s, stepped, _⟩ :=
    arrives.installs view isFor delivered (by decide) (by decide) (by decide) parses
  have ran : channelRun (Kernel.quiet oneFile) procFiles (SizedBytes.zeros _) () [readOne] =
      .ok s :=
    execute_cons.mpr ⟨s, stepped, rfl⟩
  have found : (Kernel.quiet oneFile).fget disableCall.fd.toUInt32 s.outside = some ⟨5, 5⟩ := rfl
  refine ⟨s, ran, ?_⟩
  have unlocked : ∀ past other before, past ++ [other] <+: [readOne] →
      channelRun (Kernel.quiet oneFile) procFiles (SizedBytes.zeros _) () past = .ok before →
      ¬ Locks (Kernel.quiet oneFile) procFiles (fun _ => oneFile) before other 5 := by
    rintro past other before first _
      ⟨_, buffer, count, text, forProtect, asked, line, isLine, typed, _⟩
    have isRead : other = readOne := by
      have member : other ∈ [readOne] :=
        first.subset (List.mem_append_right past (List.mem_singleton_self other))
      exact List.mem_singleton.mp member
    subst isRead
    obtain ⟨rfl, rfl⟩ := ProcEvent.protect.inj (Option.some.inj forProtect)
    obtain rfl := Option.some.inj asked
    have type : ∀ line ∈ ruleLines (textLines (cstr (lit "/f@r\n"))), line.type ≠ .write := by
      decide
    exact type line isLine typed
  obtain ⟨reaches, handled⟩ :=
    (channel_open_unless_locked view procFiles ran found).2 unlocked
  exact ⟨reaches, handled _ rfl⟩

/-- A protect write that asks for rules for both files. -/
def lockBoth : WriteCall where
  fd := 4
  buffer := lit "/proc/gsfileprotection/protect@w\n/proc/gsfileprotection/ctrl@w\n"
  count := 63

/-- The lines of that text. -/
def lockLines : List RuleLine :=
  [⟨lit "/proc/gsfileprotection/protect", .write⟩, ⟨lit "/proc/gsfileprotection/ctrl", .write⟩]

/-- It is received, and no write arrives at either file any more. -/
theorem lockBoth_locks :
    ∃ s, channelRun (Kernel.quiet procPaths) procFiles (SizedBytes.zeros _) () [lockBoth] = .ok s ∧
      (Kernel.quiet procPaths).fget 4 s.outside = some ⟨4, procFiles.protect⟩ ∧
      (Kernel.quiet procPaths).fget 5 s.outside = some ⟨5, procFiles.ctrl⟩ ∧
      ∀ call : WriteCall, call.fd = 4 ∨ call.fd = 5 →
        ¬ Arrives (Kernel.quiet procPaths) s call := by
  have asks : ruleLines (textLines (cstr lockBoth.buffer)) = lockLines := by decide
  have parses : Parses procPaths (textLines (cstr lockBoth.buffer)) := by decide
  have isFor : handlerOf (Kernel.quiet procPaths) procFiles fresh lockBoth =
      some (.protect lockBoth.buffer 63) := rfl
  have arrives : Arrives (Kernel.quiet procPaths) fresh lockBoth :=
    @fresh_arrives procPaths lockBoth ⟨4, 4⟩ rfl
  have delivered : written lockBoth.buffer 63 = some (cstr lockBoth.buffer) := rfl
  obtain ⟨s, ran, inForce, enabled⟩ := arrives.installs (Kernel.quiet_pathView procPaths) isFor
    delivered (by decide) (by decide) (by decide) parses
  have whole : channelRun (Kernel.quiet procPaths) procFiles (SizedBytes.zeros _) () [lockBoth] =
      .ok s :=
    execute_cons.mpr ⟨s, ran, rfl⟩
  refine ⟨s, whole, rfl, rfl, fun call fd arrived => ?_⟩
  rw [parseLines, asks] at inForce
  rcases fd with fd | fd
  · have found : (Kernel.quiet procPaths).fget call.fd.toUInt32 s.outside = some ⟨4, 4⟩ := by
      rw [fd]
      rfl
    refine (arrives_iff found).mp arrived ⟨enabled, ?_⟩
    rw [inForce]
    exact ⟨.make _ 4 .write, List.mem_cons_self, rfl, rfl⟩
  · have found : (Kernel.quiet procPaths).fget call.fd.toUInt32 s.outside = some ⟨5, 5⟩ := by
      rw [fd]
      rfl
    refine (arrives_iff found).mp arrived ⟨enabled, ?_⟩
    rw [inForce]
    exact ⟨.make _ 5 .write, List.mem_cons_of_mem _ List.mem_cons_self, rfl, rfl⟩

end Examples

end FsProtection
