import FsProtection.Configuration
import FsProtection.Communicate.Hazards
import FsProtection.Hooks.Notices

/-!
# The module as a reference monitor

Writes to the proc files, hooked calls of any processes and the rest of the kernel follow
each other in any order. What the module decides by is the policy of the writes so far: the
rules of the last text, for the files its paths opened then, and the last switch. Calls leave
no trace in it.
-/

namespace FsProtection

open Base

section Latest

variable {Event Setting : Type}

/-- The last setting some events made. -/
def latest (sets : Event → Option Setting) (default : Setting) (past : List Event) : Setting :=
  (past.filterMap sets).getLast?.getD default

theorem latest_snoc (sets : Event → Option Setting) (default : Setting) (past : List Event)
    (event : Event) :
    latest sets default (past ++ [event]) = (sets event).getD (latest sets default past) := by
  cases isSet : sets event <;> simp [latest, List.filterMap_append, isSet]

end Latest

/-- What a monitor decides by. -/
structure Policy where
  rules : List FileNode
  enabled : Bool

/-- The globals a policy is read from. -/
def Policy.globals (policy : Policy) : Globals where
  fileListRoot := policy.rules
  protectEnabeled := policy.enabled
  dataBuf := .zeros _
  rawDataBuff := .zeros _

/-- What a hook looks up: a path by its text, an open file by its inode, a directory record by
its number. -/
inductive Asked where
  | path (text : Bytes)
  | file (inode : InodeAddr)
  | record (ino : UInt32)

/-- A lookup, and the type of rule it is about. -/
structure Question where
  ptype : ProtectType
  object : Asked

/-- What the hook of a call asks before the original is called. The rules and the switch have
no part in it: a path is as the hook assembled it, over what its buffers held. `rmdir`, `open`
and `renameat` ask nothing, nor does a descriptor that is not open. -/
def Kernel.question {σ : Type} (k : Kernel σ) (m : Machine σ) : Syscall → Option Question
  | .mkdir path _ => ((m.buffers k).lookedUp (k.dPath m.outside) (cstr path)).map fun text =>
      ⟨.mkdir, .path (parentDir text)⟩
  | .chdir path =>
      if (k.kmalloc m.outside m.kmallocs pathMax).isSome then some ⟨.hide, .path (cstr path)⟩
      else none
  | .read fd _ => (k.fget fd m.outside).map fun file => ⟨.read, .file file.inode⟩
  | .write fd _ => (k.fget fd.toUInt32 m.outside).map fun file => ⟨.write, .file file.inode⟩
  | .unlinkat _ pathname _ =>
      ((m.buffers k).lookedUp (k.dPath m.outside) (cstr pathname)).map fun text =>
        ⟨.del, .path text⟩
  | .unlink pathname => ((m.buffers k).lookedUp (k.dPath m.outside) (cstr pathname)).map
      fun text => ⟨.del, .path text⟩
  | .rename old _ => ((m.buffers k).lookedUp (k.dPath m.outside) (cstr old)).map fun text =>
      ⟨.rename, .path text⟩
  | _ => none

/-- A policy denies what a rule of the type asked for names. The switch counts for open files
only, and a record is named by the number the inode of the rule has by then. -/
def Policy.Denies {σ : Type} (policy : Policy) (k : Kernel σ) (outside : σ)
    (question : Question) : Prop :=
  match question.object with
  | .path text => ∃ rule ∈ policy.rules, text = k.pathOf rule ∧ rule.type = question.ptype
  | .file inode => policy.enabled = true ∧
      ∃ rule ∈ policy.rules, rule.inode = inode ∧ rule.type = question.ptype
  | .record ino => ∃ rule ∈ policy.rules, k.iIno rule.inode outside = ino ∧
      rule.type = question.ptype

/-- The policy denies what the call asks. -/
def Policy.Refuses {σ : Type} (policy : Policy) (k : Kernel σ) (m : Machine σ) (call : Syscall) :
    Prop :=
  ∃ question ∈ k.question m call, policy.Denies k m.outside question

/-- What happens to the module: an event of its proc files, or in the kernel elsewhere, with
the kernel it happens in, or a hooked call. -/
inductive Occurrence (σ : Type) where
  | handled (outside : σ) (event : ProcEvent σ)
  | call (step : HookedCall σ)

section Policies

variable {σ : Type} (opens : σ → Bytes → Option InodeAddr)

/-- The rules an occurrence sets: those of a text that arrives, none for an empty write, for
`clear` and for `refresh`. -/
def Occurrence.setsRules : Occurrence σ → Option (List FileNode)
  | .handled outside (.protect buffer count) =>
      if count = 0 then some []
      else (written buffer count).map fun text => parseLines (opens outside) (textLines text)
  | .handled _ (.ctrl buffer count) =>
      match ProcEvent.command buffer count with
      | some .clear => some []
      | some .refresh => some []
      | _ => none
  | _ => none

def Occurrence.setsEnabled : Occurrence σ → Option Bool
  | .handled _ event => event.setsEnabled
  | .call _ => none

/-- The policy of some occurrences. -/
def policyOf (past : List (Occurrence σ)) : Policy where
  rules := latest (Occurrence.setsRules opens) [] past
  enabled := latest Occurrence.setsEnabled true past

end Policies

/-- Occurrences one after the other, each one that returns in the state the ones before it
left. -/
inductive History {σ : Type} (k : Kernel σ) :
    ProcState σ → List (Occurrence σ) → ProcState σ → Prop where
  | refl {s} : History k s [] s
  | handled {start past s event after} (prior : History k start past s)
      (stepped : procStep k s event = .ok after) :
      History k start (past ++ [.handled s.outside event]) after
  | call {start past s step} (prior : History k start past s)
      (here : step.before.outside = s.outside)
      (ran : Returns (modified k s.globals step.call) step.before step.ret step.after) :
      History k start (past ++ [.call step]) { s with outside := step.after.outside }

section InPlace

variable {σ : Type} {k : Kernel σ} {opens : σ → Bytes → Option InodeAddr}
  {start s after : ProcState σ} {past : List (Occurrence σ)}

/-- The globals hold a policy. -/
structure Policy.InPlace (policy : Policy) (s : ProcState σ) : Prop where
  cleared : s.globals.dataBuf = SizedBytes.zeros bufferSize
  rules : s.globals.fileListRoot = policy.rules
  enabled : s.globals.protectEnabeled = policy.enabled

theorem policyOf_snoc (opens : σ → Bytes → Option InodeAddr) (past : List (Occurrence σ))
    (occurrence : Occurrence σ) :
    policyOf opens (past ++ [occurrence]) =
      ⟨(occurrence.setsRules opens).getD (policyOf opens past).rules,
        occurrence.setsEnabled.getD (policyOf opens past).enabled⟩ := by
  simp [policyOf, latest_snoc]

/-- A command that is obeyed sets what it says. -/
theorem Policy.InPlace.obey {policy : Policy} (inPlace : policy.InPlace s)
    (raw : SizedBytes bufferSize) {buffer : Bytes} {count : Nat} {command : Option Command}
    (isCommand : ProcEvent.command buffer count = command) :
    Policy.InPlace
      ⟨((Occurrence.handled s.outside (.ctrl buffer count)).setsRules opens).getD policy.rules,
        (Occurrence.handled s.outside (.ctrl buffer count)).setsEnabled.getD policy.enabled⟩
      ((s.withRaw raw).obey command) := by
  obtain ⟨cleared, rules, enabled⟩ := inPlace
  simp only [Occurrence.setsRules, Occurrence.setsEnabled, ProcEvent.setsEnabled, isCommand]
  cases command with
  | none => exact ⟨cleared, rules, enabled⟩
  | some command =>
      cases command with
      | refresh => exact ⟨cleared, rfl, enabled⟩
      | clear => exact ⟨cleared, rfl, enabled⟩
      | disable => exact ⟨cleared, rules, rfl⟩
      | enable => exact ⟨cleared, rules, rfl⟩

/-- An event that is handled sets what the policy says it does. -/
theorem Policy.InPlace.handled (view : PathView k opens) {policy : Policy}
    (inPlace : policy.InPlace s) {event : ProcEvent σ} (stepped : procStep k s event = .ok after) :
    Policy.InPlace ⟨((Occurrence.handled s.outside event).setsRules opens).getD policy.rules,
      (Occurrence.handled s.outside event).setsEnabled.getD policy.enabled⟩ after := by
  obtain ⟨ret, ran⟩ := procStep_eq_ok.mp stepped
  cases event with
  | protect buffer count =>
      rcases procProtectWrite_cases view ran with
        ⟨empty, _, rfl⟩ | ⟨nonempty, missed, _, raw, rfl⟩ |
        ⟨nonempty, text, raw, outside, delivered, _, _, rfl⟩
      · exact ⟨inPlace.cleared, by simp [Occurrence.setsRules, empty, ProcState.withRules],
          inPlace.enabled⟩
      · refine ⟨inPlace.cleared, ?_, inPlace.enabled⟩
        simpa [Occurrence.setsRules, nonempty, missed, ProcState.withRaw] using inPlace.rules
      · refine ⟨inPlace.cleared, ?_, inPlace.enabled⟩
        simp [Occurrence.setsRules, nonempty, delivered, ProcState.withRules]
  | ctrl buffer count =>
      rcases procCtrlWrite_cases inPlace.cleared ran with
        ⟨rfl, _, same⟩ | ⟨_, missed, _, raw, rfl⟩ | ⟨_, text, raw, delivered, _, rfl⟩
      · rw [same]
        exact inPlace.obey s.globals.rawDataBuff rfl
      · have isCommand : ProcEvent.command buffer count = none := by
          simp [ProcEvent.command, missed]
        exact inPlace.obey raw isCommand
      · have isCommand : ProcEvent.command buffer count = commandOf text := by
          simp [ProcEvent.command, delivered]
        exact inPlace.obey raw isCommand
  | elsewhere next =>
      obtain ⟨same, _⟩ : after = { s with outside := next } ∧ ret = 0 := by
        simpa [ProcEvent.handle] using ran
      rw [same]
      exact ⟨inPlace.cleared, inPlace.rules, inPlace.enabled⟩

/-- The policy of what happened is the one in place. -/
theorem History.inPlace (view : PathView k opens) {raw : SizedBytes bufferSize} {outside : σ}
    (history : History k ⟨Globals.initial raw, outside⟩ past s) :
    (policyOf opens past).InPlace s := by
  generalize isStart : (⟨Globals.initial raw, outside⟩ : ProcState σ) = start at history
  induction history with
  | refl =>
      subst isStart
      exact ⟨rfl, rfl, rfl⟩
  | handled prior stepped ih =>
      rw [policyOf_snoc]
      exact ih.handled view stepped
  | call prior here ran ih =>
      rw [policyOf_snoc]
      exact ⟨ih.cleared, ih.rules, ih.enabled⟩

/-- A test that only members of a sublist pass. -/
theorem find?_eq_of_filter {Item : Type} {passes member : Item → Bool} {items others : List Item}
    (only : ∀ item, passes item = true → member item = true)
    (same : items.filter member = others.filter member) :
    items.find? passes = others.find? passes := by
  have each : ∀ list : List Item, (list.filter member).find? passes = list.find? passes := by
    intro list
    have both : (fun item => decide (member item = true ∧ passes item = true)) = passes := by
      funext item
      cases passed : passes item with
      | true => simp [only item passed]
      | false => simp
    rw [List.find?_filter, both]
  rw [← each items, same, each]

theorem any_eq_of_find? {Item : Type} {passes : Item → Bool} {items others : List Item}
    (same : items.find? passes = others.find? passes) : items.any passes = others.any passes := by
  rw [← List.isSome_find?, ← List.isSome_find?, same]

/-- A lookup by number is asked of the rules of its type. -/
theorem isInoProtected_congr {globals other : Globals} {ptype : ProtectType}
    (same : globals.fileListRoot.filter (·.type = ptype) =
      other.fileListRoot.filter (·.type = ptype)) (ino : UInt32) :
    isInoProtected k globals ino ptype = isInoProtected k other ino ptype := by
  funext m
  have found : globals.fileListRoot.find? (k.inoMatches m.outside ino ptype) =
      other.fileListRoot.find? (k.inoMatches m.outside ino ptype) := by
    refine find?_eq_of_filter (fun rule passes => ?_) same
    exact decide_eq_true (of_decide_eq_true passes).2
  have first : Returns (isInoProtected k globals ino ptype) m _ _ := returns_isInoProtected ino
  have second : Returns (isInoProtected k other ino ptype) m _ _ := returns_isInoProtected ino
  rw [any_eq_of_find? found, Kernel.firstNotice, found] at first
  exact first.trans second.symm

/-- So are the walks over a directory. -/
theorem modifiedGetdents64_congr {globals other : Globals}
    (same : globals.fileListRoot.filter (·.type = .hide) =
      other.fileListRoot.filter (·.type = .hide)) (fd count : UInt32) :
    modifiedGetdents64 k globals fd count = modifiedGetdents64 k other fd count := by
  have walks : ∀ bufLength dirp3 scan,
      scanLoop k globals bufLength dirp3 scan = scanLoop k other bufLength dirp3 scan := by
    intro bufLength dirp3 scan
    induction left : bufLength - dirp3 using Nat.strong_induction_on generalizing dirp3 scan with
    | _ left ih =>
        rw [scanLoop, scanLoop]
        split
        · refine bind_congr fun recordLength => ?_
          split
          · refine bind_congr fun ino => ?_
            rw [isInoProtected_congr same]
            have next : ∀ scan, scanLoop k globals bufLength (dirp3 + recordLength) scan =
                scanLoop k other bufLength (dirp3 + recordLength) scan :=
              fun scan => ih _ (by omega) (dirp3 + recordLength) scan rfl
            simp only [next]
          · rfl
        · rfl
  simp only [modifiedGetdents64, copyDirents, filterDirents, walks]

/-- The hooks read the rules and the switch. -/
theorem modified_congr {globals other : Globals}
    (rules : globals.fileListRoot = other.fileListRoot)
    (enabled : globals.protectEnabeled = other.protectEnabeled) (call : Syscall) :
    modified k globals call = modified k other call := by
  cases call with
  | getdents64 fd count => exact modifiedGetdents64_congr (by rw [rules]) fd count
  | _ =>
      obtain ⟨root, switch, _, _⟩ := globals
      obtain ⟨_, _, _, _⟩ := other
      cases rules
      cases enabled
      rfl

theorem Policy.InPlace.modified_eq {policy : Policy} (inPlace : policy.InPlace s) (call : Syscall) :
    modified k s.globals call = modified k policy.globals call :=
  modified_congr inPlace.rules inPlace.enabled call

/-- The lookup of a hook hits when the policy denies what the call asks. -/
theorem Policy.hits_iff (policy : Policy) {m : Machine σ} {call : Syscall}
    (decided : call.Decided) : Hits k policy.globals m call ↔ policy.Refuses k m call := by
  have named : ∀ path ptype, HasPathRule k policy.globals path ptype ↔
      policy.Denies k m.outside ⟨ptype, .path path⟩ := by
    intro path ptype
    simp [HasPathRule, Kernel.pathMatches, Policy.globals, Policy.Denies]
  have opened : ∀ (fd : UInt32) ptype,
      (policy.globals.protectEnabeled = true ∧ HasFdRule k policy.globals m fd ptype) ↔
        ∃ file ∈ k.fget fd m.outside, policy.Denies k m.outside ⟨ptype, .file file.inode⟩ := by
    intro fd ptype
    simp only [HasFdRule, inodeMatches, Policy.globals, Policy.Denies, List.any_eq_true,
      decide_eq_true_eq]
    constructor
    · rintro ⟨enabled, file, found, matched⟩
      exact ⟨file, found, enabled, matched⟩
    · rintro ⟨file, found, enabled, matched⟩
      exact ⟨enabled, file, found, matched⟩
  cases call with
  | getdents64 fd count => exact absurd rfl (decided fd count)
  | chdir path =>
      cases granted : (k.kmalloc m.outside m.kmallocs pathMax).isSome <;>
        simp [Hits, Policy.Refuses, Kernel.question, granted, named]
  | read fd size => simp [Hits, Policy.Refuses, Kernel.question, opened]
  | write fd count => simp [Hits, Policy.Refuses, Kernel.question, opened]
  | _ => simp [Hits, Policy.Refuses, Kernel.question, named]

/-- A record is hidden when the policy denies to show its number. -/
theorem Policy.hides_iff (policy : Policy) (outside : σ) (d : Dirent) :
    k.hides policy.globals outside d = true ↔
      policy.Denies k outside ⟨.hide, .record d.ino.toUInt32⟩ := by
  simp [Kernel.hides, Kernel.inoMatches, Policy.globals, Policy.Denies]

/-- What a decided call does under a policy. -/
theorem Policy.decides (policy : Policy) {step : HookedCall σ} (decided : step.call.Decided)
    (ran : Returns (modified k policy.globals step.call) step.before step.ret step.after) :
    (policy.Refuses k step.before step.call → Refused step.before step.ret step.after) ∧
      (¬ policy.Refuses k step.before step.call →
        Transparent k step.call step.before step.ret step.after) := by
  obtain ⟨_, declined, passed⟩ := (modified_guards policy.globals step.before decided).returned ran
  rw [← policy.hits_iff decided]
  exact ⟨fun hits => (declined hits).toRefused, passed⟩

/-- What `getdents64` does under a policy: it leaves out the records whose numbers the policy
denies to show, or passes the call on where the records cannot be copied. -/
theorem Policy.lists (policy : Policy) {step : HookedCall σ} {fd count : UInt32}
    (listing : step.call = .getdents64 fd count)
    (ran : Returns (modified k policy.globals step.call) step.before step.ret step.after) :
    (∀ records rest, k.Delivers step.before fd count records rest →
      k.Copies (step.before.answered k step.call) (totalSize records) →
      Filtered k policy.globals records (step.before.answered k step.call) step.ret step.after) ∧
    (k.DeliversRecords → (∀ records rest, k.Delivers step.before fd count records rest →
      ¬ k.Copies (step.before.answered k step.call) (totalSize records)) →
      Transparent k step.call step.before step.ret step.after) := by
  rw [listing] at ran ⊢
  constructor
  · intro records rest delivered copies
    obtain ⟨ret, after, expected, filtered⟩ :=
      modifiedGetdents64_filters policy.globals delivered copies
    obtain ⟨rfl, rfl⟩ := expected.unique ran
    exact filtered
  · intro delivers nothing
    obtain ⟨ret, after, expected, passed⟩ :=
      modifiedGetdents64_passes policy.globals delivers nothing
    obtain ⟨rfl, rfl⟩ := expected.unique ran
    exact passed

end InPlace

/-- A write of a rule against deleting a file. -/
def keepWrite : ProcEvent Unit := .protect (lit "/home/f@d\n") 10

theorem keepWrite_admitted :
    Admitted (Kernel.quiet homeFile) (fun _ => homeFile) homeFile keepWrite := by
  refine ⟨by decide, fun text arrived => ?_⟩
  have delivered : written (lit "/home/f@d\n") 10 = some (lit "/home/f@d\n") := by decide
  rw [delivered] at arrived
  cases arrived
  decide

theorem keepWrite_rules :
    (policyOf (fun _ => homeFile) [.handled () keepWrite]).rules = [keepFile] := rfl

theorem keepWrite_history : ∃ s, History (Kernel.quiet homeFile) ⟨Globals.initial (.zeros _), ()⟩
    [.handled () keepWrite] s := by
  have view := Kernel.quiet_pathView homeFile
  have begun : InForce (fun _ => homeFile) homeFile (configurationOf ([] : List (ProcEvent Unit)))
      ⟨Globals.initial (.zeros _), ()⟩ := ⟨rfl, rfl, rfl, rfl⟩
  obtain ⟨s, stepped, _⟩ := procStep_inForce view begun keepWrite_admitted
  exact ⟨s, (History.handled .refl stepped :
    History (Kernel.quiet homeFile) _ ([] ++ [.handled () keepWrite]) s)⟩

end FsProtection
