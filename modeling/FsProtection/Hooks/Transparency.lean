import FsProtection.Configuration
import FsProtection.Hooks.Table

/-!
# When a hooked call behaves as the original

`Sound` says of each call when nothing on the way of its hook faults, and `Hits` when
the rules change what the hook does. A hook passes a call on exactly when the call
is sound and does not hit; the two theorems about protection disabled and about rules
that do not match follow from that.
-/

namespace FsProtection

open Base

section Conditions

variable {σ : Type} (k : Kernel σ) (globals : Globals) (m : Machine σ)

/-- The answers to the allocations of the first assembly of a call. -/
def Machine.buffers : PathBuffers := k.pathBuffers m.outside m.kmallocs

/-- The pathname is assembled without a fault, and the string looked up unless the pointer
is NULL and there are rules to compare it with. -/
def PathSafe (pathname : Bytes) : Prop :=
  (m.buffers k).Fits (k.dPath m.outside) (cstr pathname) ∧
    ((m.buffers k).fullpath = none → globals.fileListRoot = [])

/-- Nothing on the way of a hook faults. -/
def Sound : Syscall → Prop
  | .mkdir path _ =>
      (m.buffers k).Fits (k.dPath m.outside) (cstr path) ∧ (m.buffers k).Ended ∧
        ∃ spelled ∈ (m.buffers k).lookedUp (k.dPath m.outside) (cstr path), spelled ≠ []
  | .chdir path =>
      ((k.kmalloc m.outside m.kmallocs pathMax).isSome → (cstr path).length < pathMax) ∧
        (k.kmalloc m.outside m.kmallocs pathMax = none → globals.fileListRoot = [])
  | .rmdir path =>
      (k.kmalloc (m.answered k (.rmdir path)).outside m.kmallocs pathMax).isSome →
        (cstr path).length < pathMax
  | .read fd _ => globals.protectEnabeled = true → (k.fget fd m.outside).isSome
  | .write fd _ => globals.protectEnabeled = true → (k.fget fd.toUInt32 m.outside).isSome
  | .unlinkat _ pathname _ => PathSafe k globals m pathname
  | .unlink pathname => PathSafe k globals m pathname
  | .rename old new =>
      ((m.buffers k).Fits (k.dPath m.outside) (cstr old) ∧
        (k.laterBuffers m).Fits (k.dPath m.outside) (cstr new) ∧
        (m.buffers k).Ended ∧ (k.laterBuffers m).Ended) ∧
      ((m.buffers k).fullpath = none → globals.fileListRoot = [])
  | _ => True

/-- A rule of a type has the inode of an open descriptor. -/
def HasFdRule (fd : UInt32) (ptype : ProtectType) : Prop :=
  ∃ file, k.fget fd m.outside = some file ∧
    globals.fileListRoot.any (inodeMatches file.inode ptype) = true

/-- A rule of a type has the path. -/
def HasPathRule (path : Bytes) (ptype : ProtectType) : Prop :=
  globals.fileListRoot.any (k.pathMatches path ptype) = true

/-- A hidden record is delivered and can be copied. -/
def Filters (fd count : UInt32) : Prop :=
  ∃ records rest, k.Delivers m fd count records rest ∧
    k.Copies (m.answered k (.getdents64 fd count)) (totalSize records) ∧
    ∃ d ∈ records, k.hides globals (m.answered k (.getdents64 fd count)).outside d = true

/-- The rules change what a hook does. -/
def Hits : Syscall → Prop
  | .mkdir path _ => ∃ text ∈ (m.buffers k).lookedUp (k.dPath m.outside) (cstr path),
      HasPathRule k globals (parentDir text) .mkdir
  | .chdir path => (k.kmalloc m.outside m.kmallocs pathMax).isSome ∧
      HasPathRule k globals (cstr path) .hide
  | .getdents64 fd count => Filters k globals m fd count
  | .read fd _ => globals.protectEnabeled = true ∧ HasFdRule k globals m fd .read
  | .write fd _ => globals.protectEnabeled = true ∧ HasFdRule k globals m fd.toUInt32 .write
  | .unlinkat _ pathname _ => ∃ text ∈ (m.buffers k).lookedUp (k.dPath m.outside) (cstr pathname),
      HasPathRule k globals text .del
  | .unlink pathname => ∃ text ∈ (m.buffers k).lookedUp (k.dPath m.outside) (cstr pathname),
      HasPathRule k globals text .del
  | .rename old _ => ∃ text ∈ (m.buffers k).lookedUp (k.dPath m.outside) (cstr old),
      HasPathRule k globals text .rename
  | _ => False

/-- The test the lookup of a hook puts the rules to; none where a hook has no lookup, or
nothing to look up. -/
def Kernel.lookedFor : Syscall → Option (FileNode → Bool)
  | .mkdir path _ => ((m.buffers k).lookedUp (k.dPath m.outside) (cstr path)).map fun text =>
      k.pathMatches (parentDir text) .mkdir
  | .chdir path => some (k.pathMatches (cstr path) .hide)
  | .read fd _ => (k.fget fd m.outside).map fun file => inodeMatches file.inode .read
  | .write fd _ => (k.fget fd.toUInt32 m.outside).map fun file => inodeMatches file.inode .write
  | .unlinkat _ pathname _ => ((m.buffers k).lookedUp (k.dPath m.outside) (cstr pathname)).map
      fun text => k.pathMatches text .del
  | .unlink pathname => ((m.buffers k).lookedUp (k.dPath m.outside) (cstr pathname)).map
      fun text => k.pathMatches text .del
  | .rename old _ => ((m.buffers k).lookedUp (k.dPath m.outside) (cstr old)).map fun text =>
      k.pathMatches text .rename
  | _ => none

/-- The hook of a call gets to its lookup. -/
def Asks : Syscall → Prop
  | .chdir _ => (k.kmalloc m.outside m.kmallocs pathMax).isSome
  | .read _ _ => globals.protectEnabeled = true
  | .write _ _ => globals.protectEnabeled = true
  | _ => True

/-- The messages the lookup of a hook sends when it hits. -/
def Kernel.lookupNotices (call : Syscall) : List Bytes :=
  (k.lookedFor m call).toList.flatMap fun test => k.firstNotice test globals.fileListRoot

end Conditions

/-- The calls whose hooks decide before the original is called: all but `getdents64`. -/
@[simp] def Syscall.Decided (call : Syscall) : Prop := ∀ fd count, call ≠ .getdents64 fd count

section Passing

variable {σ : Type} {k : Kernel σ} (globals : Globals) (m : Machine σ) {fd count : UInt32}

/-- `getdents64` is passed on exactly when no hidden record is filtered out. -/
theorem modifiedGetdents64_passesOn_iff (delivers : k.DeliversRecords) (fd count : UInt32) :
    PassesOn k (modifiedGetdents64 k globals fd count) m (.getdents64 fd count) ↔
      ¬ Filters k globals m fd count := by
  constructor
  · rintro ⟨ret, after, ran, passed⟩ ⟨records, rest, delivered, copies, d, member, hidden⟩
    obtain ⟨other, final, filtering, filtered⟩ := copyDirents_filtered globals
      delivered.buffer (toNat_toUInt32_of_toInt delivered.size) copies
    obtain ⟨rfl, rfl⟩ := (returns_modifiedGetdents64_iff.mp ran).unique filtering
    have silent := filtered.messages
    rw [passed.messages] at silent
    have nothing : k.hideNotices globals _ records = [] := List.self_eq_append_right.mp silent
    refine firstNotice_ne_nil (fun p matched => ?_) hidden
      (List.flatMap_eq_nil_iff.mp nothing d member)
    have hides : p.type = .hide := by simp [Kernel.inoMatches] at matched; exact matched.2
    simp [hides, ProtectType.verb]
  · intro unfiltered
    by_cases copies : k.Copies (m.answered k (.getdents64 fd count))
        (k.origin (.getdents64 fd count) m.outside m.userBuf).1.toUInt32.toNat
    · have large : ¬ (k.origin (.getdents64 fd count) m.outside m.userBuf).1 < 0 :=
        fun negative => not_copies_of_neg negative copies
      obtain ⟨records, rest, delivered⟩ := (delivers m fd count).resolve_left large
      have size := toNat_toUInt32_of_toInt delivered.size
      rw [size] at copies
      have shown : ∀ d ∈ records,
          k.hides globals (m.answered k (.getdents64 fd count)).outside d = false := by
        intro d member
        by_contra hidden
        exact unfiltered ⟨records, rest, delivered, copies, d, member, by simpa using hidden⟩
      obtain ⟨ret, after, filtering, filtered⟩ := copyDirents_filtered globals
        delivered.buffer size copies
      have answer : ret = (k.origin (.getdents64 fd count) m.outside m.userBuf).1 := by
        have length := filtered.size
        rw [filteredBytes_of_all_shown shown, direntBytes_length, ← size] at length
        have same := UInt32.toNat_inj.mp length
        rw [← ret.toInt32_toUInt32, same, Int32.toInt32_toUInt32]
      subst answer
      exact ⟨_, after, returns_modifiedGetdents64_iff.mpr filtering,
        (filtered.unseen delivered.buffer shown).transparent⟩
    · obtain ⟨after, left, unseen⟩ := copyDirents_unfiltered globals copies
      exact ⟨_, after, returns_modifiedGetdents64_iff.mpr left,
        unseen.transparent⟩

/-- A decided call hits when its hook gets to its lookup, and some rule passes the test. -/
theorem hits_iff {call : Syscall} (decided : call.Decided) :
    Hits k globals m call ↔
      Asks k globals m call ∧
        ∃ test ∈ k.lookedFor m call, globals.fileListRoot.any test = true := by
  cases call with
  | getdents64 fd count => exact absurd rfl (decided fd count)
  | _ => simp [Hits, Asks, Kernel.lookedFor, HasPathRule, HasFdRule]

/-- Every hook but that of `getdents64` guards its call. -/
theorem modified_guards {call : Syscall} (decided : call.Decided) :
    Guards k (modified k globals call) m call (Sound k globals m call) (Hits k globals m call)
      (k.lookupNotices globals m call) := by
  cases call with
  | mkdir path mode =>
      refine (modifiedMkdir_guards k globals m path mode).congr Iff.rfl (fun _ => ?_) fun _ _ => ?_
      · simp [Hits, HasPathRule, Machine.buffers]
      · simp [Kernel.lookupNotices, Kernel.lookedFor, Kernel.pathNotices, Machine.buffers,
          Option.toList_map, List.flatMap_map]
  | chdir path =>
      exact (modifiedChdir_guards k globals m path).congr Iff.rfl (fun _ => Iff.rfl)
        fun _ _ => by simp [Kernel.lookupNotices, Kernel.lookedFor, Kernel.pathNotices]
  | rmdir path => exact modifiedRmdir_guards k m path
  | getdents64 fd count => exact absurd rfl (decided fd count)
  | read fd size =>
      exact (guardFd_guards globals fd .read (.read fd size)).congr Iff.rfl (fun _ => Iff.rfl)
        fun _ _ => by simp [Kernel.lookupNotices, Kernel.lookedFor, Option.toList_map,
          List.flatMap_map]
  | write fd count =>
      exact (guardFd_guards globals _ .write (.write fd count)).congr Iff.rfl (fun _ => Iff.rfl)
        fun _ _ => by simp [Kernel.lookupNotices, Kernel.lookedFor, Option.toList_map,
          List.flatMap_map]
  | open_ pathname flags mode => exact callOrigin_guards m _
  | unlinkat dirfd pathname flags =>
      exact (guardUnlink_guards k globals m pathname (.unlinkat dirfd pathname flags)).congr Iff.rfl
        (fun _ => Iff.rfl) fun _ _ => by simp [Kernel.lookupNotices, Kernel.lookedFor,
          Kernel.pathNotices, Machine.buffers, Option.toList_map, List.flatMap_map]
  | unlink pathname =>
      exact (guardUnlink_guards k globals m pathname (.unlink pathname)).congr Iff.rfl
        (fun _ => Iff.rfl) fun _ _ => by simp [Kernel.lookupNotices, Kernel.lookedFor,
          Kernel.pathNotices, Machine.buffers, Option.toList_map, List.flatMap_map]
  | rename old new =>
      exact (modifiedRename_guards k globals m old new).congr Iff.rfl (fun _ => Iff.rfl)
        fun _ _ => by simp [Kernel.lookupNotices, Kernel.lookedFor, Kernel.pathNotices,
          Machine.buffers, Option.toList_map, List.flatMap_map]
  | renameat olddirfd oldpath newdirfd newpath => exact callOrigin_guards m _

/-- A hook passes a call on exactly when nothing on its way faults and the rules do not
change it. -/
theorem modified_passesOn_iff (delivers : k.DeliversRecords) (call : Syscall) :
    PassesOn k (modified k globals call) m call ↔
      Sound k globals m call ∧ ¬ Hits k globals m call := by
  cases call with
  | getdents64 fd count =>
      exact (modifiedGetdents64_passesOn_iff globals m delivers fd count).trans
        (by simp [Sound, Hits])
  | _ => exact (modified_guards globals m (by simp [Syscall.Decided])).decides.passesOn_iff

/-- What a call needs to be passed on while protection is disabled: the hooks on
descriptors need nothing, the others are as blind to the switch as `Sound` and `Hits`. -/
def Unobstructed (k : Kernel σ) (globals : Globals) (m : Machine σ) : Syscall → Prop
  | .read _ _ => True
  | .write _ _ => True
  | call => Sound k globals m call ∧ ¬ Hits k globals m call

/-- With protection disabled a hooked call behaves as the original exactly when its hook
asks the switch, or nothing on its way faults and no rule changes it. -/
theorem disabled_passesOn_iff (delivers : k.DeliversRecords)
    (disabled : globals.protectEnabeled = false) (call : Syscall) :
    PassesOn k (modified k globals call) m call ↔ Unobstructed k globals m call := by
  rw [modified_passesOn_iff globals m delivers call]
  cases call <;> simp [Unobstructed, Sound, Hits, disabled]

end Passing

theorem Kernel.quiet_deliversRecords (opens : Bytes → Option InodeAddr) :
    (Kernel.quiet opens).DeliversRecords :=
  fun m _ _ => .inr ⟨[], m.userBuf, rfl, rfl⟩

/-- Rules for the file that the descriptors are open on, against being written, and for
another file, against being read. -/
def otherRules : Globals :=
  { Globals.initial (SizedBytes.zeros _) with
    fileListRoot := [.make (lit "/f") 7 .write, .make (lit "/g") 9 .read] }

/-- With protection disabled a write is passed on that a rule forbids. -/
theorem disabled_passesOn_write :
    HasFdRule (Kernel.quiet oneFile) otherRules (Machine.start () []) 7 .write ∧
      PassesOn (Kernel.quiet oneFile)
        (modified (Kernel.quiet oneFile) { otherRules with protectEnabeled := false }
          (.write 7 1))
        (Machine.start () []) (.write 7 1) :=
  ⟨⟨_, rfl, by decide⟩,
    (disabled_passesOn_iff _ _ (Kernel.quiet_deliversRecords _) rfl _).mpr trivial⟩

/-- A rule that protects a file against deletion, and the switch off. -/
def disabledSession : List (ProcEvent Unit) :=
  [.protect (lit "/home/f@d\n") 10, .ctrl (lit "disable") 7]

theorem disabledSession_rules :
    (configurationOf disabledSession).lines.filterMap (RuleLine.install homeFile) =
      [.make (lit "/home/f") 7 .del] := by
  have lines : (configurationOf disabledSession).lines = [⟨lit "/home/f", .del⟩] := by decide
  rw [lines]
  rfl

theorem disabledSession_admitted : ∀ event ∈ disabledSession,
    Admitted (Kernel.quiet homeFile) (fun _ => homeFile) homeFile event := by
  have delivered : written (lit "/home/f@d\n") 10 = some (lit "/home/f@d\n") := by decide
  intro event member
  simp only [disabledSession, List.mem_cons, List.not_mem_nil, or_false] at member
  rcases member with rfl | rfl
  · refine ⟨by decide, fun text written => ?_⟩
    rw [delivered] at written
    cases written
    decide
  · exact ⟨by decide, by decide⟩

/-- After the session an unlink of the file is still refused. -/
theorem disabled_refuses_unlink :
    ∃ final, procRun (Kernel.quiet homeFile) (SizedBytes.zeros _) () disabledSession = .ok final ∧
      final.globals.protectEnabeled = false ∧
      ¬ PassesOn (Kernel.quiet homeFile)
        (modified (Kernel.quiet homeFile) final.globals (.unlink (lit "f")))
        (Machine.start () []) (.unlink (lit "f")) := by
  obtain ⟨final, ran, inForce⟩ := procRun_inForce (Kernel.quiet_pathView homeFile)
    (SizedBytes.zeros _) (rfl : (fun _ => homeFile) () = homeFile) disabledSession_admitted
  refine ⟨final, ran, inForce.enabled, fun passed => ?_⟩
  obtain ⟨_, missed⟩ := (modified_passesOn_iff final.globals (Machine.start () [])
    (Kernel.quiet_deliversRecords homeFile) (.unlink (lit "f"))).mp passed
  refine missed ⟨lit "/home/f", Kernel.quiet_lookedUp homeFile 0 (lit "/home") (lit "f"), ?_⟩
  have path : (Kernel.quiet homeFile).pathOf (.make (lit "/home/f") 7 .del) = lit "/home/f" :=
    pathOf_make (by decide) (by decide) 7 .del
  rw [HasPathRule, inForce.rules, disabledSession_rules, List.any_cons, Kernel.pathMatches, path]
  rfl

section Unmatched

variable {σ : Type} {k : Kernel σ} (globals : Globals) (m : Machine σ)

/-- The string a path hook assembles in a block that starts empty. -/
def Kernel.fullPath (k : Kernel σ) (m : Machine σ) (pathname : Bytes) : Bytes :=
  k.dPath m.outside ++ slash :: cstr pathname

/-- No rule matches what the hook of a call is about, as the lookups compare: the inode
of the descriptor, the numbers of the delivered records, the assembled path, for `mkdir`
its directory, and for `chdir` the argument. -/
def Unmatched (k : Kernel σ) (globals : Globals) (m : Machine σ) : Syscall → Prop
  | .mkdir path _ => ¬ HasPathRule k globals (parentDir (k.fullPath m path)) .mkdir
  | .chdir path => ¬ HasPathRule k globals (cstr path) .hide
  | .getdents64 fd count => ∀ records rest, k.Delivers m fd count records rest → ∀ d ∈ records,
      k.hides globals (m.answered k (.getdents64 fd count)).outside d = false
  | .read fd _ => ¬ HasFdRule k globals m fd .read
  | .write fd _ => ¬ HasFdRule k globals m fd.toUInt32 .write
  | .unlinkat _ pathname _ => ¬ HasPathRule k globals (k.fullPath m pathname) .del
  | .unlink pathname => ¬ HasPathRule k globals (k.fullPath m pathname) .del
  | .rename old _ => ¬ HasPathRule k globals (k.fullPath m old) .rename
  | _ => True

/-- What the full-path block held before the call makes no path of a rule of the string
looked up. -/
def LeftoverMisses (k : Kernel σ) (globals : Globals) (m : Machine σ) : Syscall → Prop
  | .mkdir path _ => ∀ text ∈ (m.buffers k).lookedUp (k.dPath m.outside) (cstr path),
      text ≠ k.fullPath m path → ¬ HasPathRule k globals (parentDir text) .mkdir
  | .unlinkat _ pathname _ => ∀ text ∈ (m.buffers k).lookedUp (k.dPath m.outside) (cstr pathname),
      text ≠ k.fullPath m pathname → ¬ HasPathRule k globals text .del
  | .unlink pathname => ∀ text ∈ (m.buffers k).lookedUp (k.dPath m.outside) (cstr pathname),
      text ≠ k.fullPath m pathname → ¬ HasPathRule k globals text .del
  | .rename old _ => ∀ text ∈ (m.buffers k).lookedUp (k.dPath m.outside) (cstr old),
      text ≠ k.fullPath m old → ¬ HasPathRule k globals text .rename
  | _ => True

/-- A lookup that misses the assembled path misses when it misses all other strings. -/
theorem misses_iff {looked : Option Bytes} {full : Bytes} (Hit : Bytes → Prop)
    (missed : ¬ Hit full) :
    (¬ ∃ text ∈ looked, Hit text) ↔ ∀ text ∈ looked, text ≠ full → ¬ Hit text := by
  constructor
  · exact fun none text member _ hit => none ⟨text, member, hit⟩
  · rintro others ⟨text, member, hit⟩
    exact others text member (fun same => missed (same ▸ hit)) hit

/-- When no rule matches what a hooked call is about, it behaves as the original exactly
when nothing on its way faults and its buffers hold nothing that makes a rule's path. -/
theorem unmatched_passesOn_iff (delivers : k.DeliversRecords) (call : Syscall)
    (unmatched : Unmatched k globals m call) :
    PassesOn k (modified k globals call) m call ↔
      Sound k globals m call ∧ LeftoverMisses k globals m call := by
  rw [modified_passesOn_iff globals m delivers call]
  refine and_congr_right fun _ => ?_
  cases call with
  | mkdir path mode =>
      exact misses_iff (fun text => HasPathRule k globals (parentDir text) .mkdir) unmatched
  | chdir path => exact iff_of_true (fun hit => unmatched hit.2) trivial
  | getdents64 fd count =>
      refine iff_of_true ?_ trivial
      rintro ⟨records, rest, delivered, _, d, member, hidden⟩
      rw [unmatched records rest delivered d member] at hidden
      exact Bool.false_ne_true hidden
  | read fd size => exact iff_of_true (fun hit => unmatched hit.2) trivial
  | write fd count => exact iff_of_true (fun hit => unmatched hit.2) trivial
  | unlinkat dirfd pathname flags => exact misses_iff _ unmatched
  | unlink pathname => exact misses_iff _ unmatched
  | rename old new => exact misses_iff _ unmatched
  | rmdir path => exact iff_of_true not_false trivial
  | open_ pathname flags mode => exact iff_of_true not_false trivial
  | renameat olddirfd oldpath newdirfd newpath => exact iff_of_true not_false trivial

end Unmatched

/-- A read that only rules for another file and another type come close to is passed on. -/
theorem unmatched_passesOn_read :
    PassesOn (Kernel.quiet oneFile) (modified (Kernel.quiet oneFile) otherRules (.read 7 1))
      (Machine.start () []) (.read 7 1) :=
  (unmatched_passesOn_iff _ _ (Kernel.quiet_deliversRecords _) _ (by
    rintro ⟨file, isOpen, hit⟩
    cases isOpen
    exact absurd hit (by decide))).mpr ⟨fun _ => rfl, trivial⟩

/-- On a closed descriptor it faults in the hook. -/
theorem unmatched_faults_read :
    otherRules.protectEnabeled = true ∧
      Unmatched (Kernel.quiet oneFile) otherRules (Machine.start () []) (.read 0 1) ∧
      ¬ PassesOn (Kernel.quiet oneFile) (modified (Kernel.quiet oneFile) otherRules (.read 0 1))
        (Machine.start () []) (.read 0 1) := by
  refine ⟨rfl, ?_, fun passed => ?_⟩
  · rintro ⟨file, isOpen, _⟩
    cases isOpen
  · obtain ⟨isOpen, _⟩ := (modified_passesOn_iff _ _ (Kernel.quiet_deliversRecords _) _).mp passed
    exact Bool.false_ne_true (isOpen rfl)

end FsProtection
