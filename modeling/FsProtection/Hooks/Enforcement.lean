import FsProtection.Hooks.Listing
import FsProtection.Hooks.Naming

/-!
# Which rules are enforced

A rule is about one operation on one object. The hook of that operation refuses it,
whatever else is in the list, with one exception: no hook looks up the rules against
opening. A rule against showing a file drops its records from directories.
-/

namespace FsProtection

open Base

section Conditions

variable {σ : Type} (k : Kernel σ) (globals : Globals) (m : Machine σ)

/-- The hook of a call returns, and refuses it. -/
def Refuses (call : Syscall) : Prop :=
  ∃ ret after, Returns (modified k globals call) m ret after ∧ Refused m ret after

/-- The call is the operation a rule is about, on an object under the key that lookups
compare the rule with: an open descriptor of its inode, or a path that is assembled to
its path. -/
def Concerns (rule : FileNode) : Syscall → Prop
  | .read fd _ =>
      rule.type = .read ∧ ∃ file, k.fget fd m.outside = some file ∧ rule.inode = file.inode
  | .write fd _ =>
      rule.type = .write ∧
        ∃ file, k.fget fd.toUInt32 m.outside = some file ∧ rule.inode = file.inode
  | .open_ pathname _ _ => rule.type = .open_ ∧ k.fullPath m pathname = k.pathOf rule
  | .unlinkat _ pathname _ =>
      rule.type = .del ∧
        k.pathOf rule ∈ (m.buffers k).lookedUp (k.dPath m.outside) (cstr pathname)
  | .unlink pathname =>
      rule.type = .del ∧
        k.pathOf rule ∈ (m.buffers k).lookedUp (k.dPath m.outside) (cstr pathname)
  | .rename old _ =>
      rule.type = .rename ∧
        k.pathOf rule ∈ (m.buffers k).lookedUp (k.dPath m.outside) (cstr old)
  | .mkdir path _ =>
      rule.type = .mkdir ∧ ∃ text ∈ (m.buffers k).lookedUp (k.dPath m.outside) (cstr path),
        parentDir text = k.pathOf rule
  | .chdir path => rule.type = .hide ∧ cstr path = k.pathOf rule
  | _ => False

/-- `getdents64` leaves the caller the records delivered without the hidden ones. -/
def Drops (fd count : UInt32) (records : List Dirent) : Prop :=
  ∃ ret after, Returns (modified k globals (.getdents64 fd count)) m ret after ∧
    after.userBuf.take ret.toUInt32.toNat =
      filteredBytes (k.hides globals (m.answered k (.getdents64 fd count)).outside) records

/-- What cannot be written of the records to show is in the caller's buffer already. -/
def Kernel.WritesBack (shown : Bytes) : Prop :=
  (m.userBuf.drop (k.copiedBack m shown)).take (shown.length - k.copiedBack m shown) =
    shown.drop (k.copiedBack m shown)

end Conditions

section Deciding

variable {σ : Type} {k : Kernel σ} {globals : Globals} {m : Machine σ}

/-- A hook that guards its call refuses it exactly when nothing faults and it hits. -/
theorem modified_refuses_iff {call : Syscall} (decided : call.Decided) :
    Refuses k globals m call ↔ Sound k globals m call ∧ Hits k globals m call := by
  have guards := modified_guards (k := k) globals m decided
  constructor
  · rintro ⟨ret, after, ran, refused⟩
    obtain ⟨sound, _, passed⟩ := guards.returned ran
    exact ⟨sound, by_contra fun missed => (passed missed).not_refused refused⟩
  · rintro ⟨sound, hit⟩
    obtain ⟨ret, after, ran, declined, _⟩ := guards.outcome sound
    exact ⟨ret, after, ran, (declined hit).toRefused⟩

/-- One rule of a list on its own. -/
def Globals.only (globals : Globals) (rule : FileNode) : Globals :=
  { globals with fileListRoot := [rule] }

/-- A call is as sound under one rule of a list as under the list. -/
theorem sound_only {rule : FileNode} (member : rule ∈ globals.fileListRoot) (call : Syscall) :
    Sound k (globals.only rule) m call ↔ Sound k globals m call := by
  have nonempty := List.ne_nil_of_mem member
  cases call <;> simp [Sound, PathSafe, Globals.only, nonempty]

theorem asks_only {rule : FileNode} {call : Syscall} :
    Asks k (globals.only rule) m call ↔ Asks k globals m call := by
  cases call <;> rfl

/-- A call is refused by a list exactly when some rule of it, on its own, refuses it. -/
theorem refuses_iff_exists {call : Syscall} (decided : call.Decided) :
    Refuses k globals m call ↔
      ∃ rule ∈ globals.fileListRoot, Refuses k (globals.only rule) m call := by
  simp only [modified_refuses_iff decided, hits_iff _ _ decided, asks_only]
  constructor
  · rintro ⟨sound, asks, test, looked, matched⟩
    obtain ⟨rule, member, passes⟩ := List.any_eq_true.mp matched
    exact ⟨rule, member, (sound_only member call).mpr sound, asks, test, looked,
      by simpa [Globals.only] using passes⟩
  · rintro ⟨rule, member, sound, asks, test, looked, matched⟩
    exact ⟨(sound_only member call).mp sound, asks, test, looked,
      List.any_eq_true.mpr ⟨rule, member, by simpa [Globals.only] using matched⟩⟩

theorem hasPathRule_of_mem {rule : FileNode} (member : rule ∈ globals.fileListRoot)
    {ptype : ProtectType} (typed : rule.type = ptype) :
    HasPathRule k globals (k.pathOf rule) ptype :=
  List.any_eq_true.mpr ⟨rule, member, by simp [Kernel.pathMatches, typed]⟩

theorem hasFdRule_of_mem {rule : FileNode} (member : rule ∈ globals.fileListRoot)
    {ptype : ProtectType} (typed : rule.type = ptype) {fd : UInt32} {file : File}
    (found : k.fget fd m.outside = some file) (same : rule.inode = file.inode) :
    HasFdRule k globals m fd ptype :=
  ⟨file, found, List.any_eq_true.mpr ⟨rule, member, by simp [inodeMatches, typed, same]⟩⟩

theorem Concerns.decided {rule : FileNode} {call : Syscall} (concerns : Concerns k m rule call) :
    call.Decided := by
  rintro fd count rfl
  exact concerns

/-- A sound call a rule is about hits, unless it opens the file. -/
theorem Concerns.hits (enabled : globals.protectEnabeled = true) {rule : FileNode}
    (member : rule ∈ globals.fileListRoot) {call : Syscall} (concerns : Concerns k m rule call)
    (closed : rule.type ≠ .open_) (sound : Sound k globals m call) : Hits k globals m call := by
  cases call with
  | read fd size =>
      obtain ⟨typed, file, found, same⟩ := concerns
      exact ⟨enabled, hasFdRule_of_mem member typed found same⟩
  | write fd count =>
      obtain ⟨typed, file, found, same⟩ := concerns
      exact ⟨enabled, hasFdRule_of_mem member typed found same⟩
  | open_ pathname flags mode => exact absurd concerns.1 closed
  | unlinkat dirfd pathname flags => exact ⟨_, concerns.2, hasPathRule_of_mem member concerns.1⟩
  | unlink pathname => exact ⟨_, concerns.2, hasPathRule_of_mem member concerns.1⟩
  | rename old new => exact ⟨_, concerns.2, hasPathRule_of_mem member concerns.1⟩
  | mkdir path mode =>
      obtain ⟨typed, text, looked, same⟩ := concerns
      exact ⟨text, looked, same ▸ hasPathRule_of_mem member typed⟩
  | chdir path =>
      obtain ⟨typed, same⟩ := concerns
      refine ⟨?_, same ▸ hasPathRule_of_mem member typed⟩
      -- a NULL path is sound only in a list without rules
      by_contra null
      rw [sound.2 (Option.not_isSome_iff_eq_none.mp null)] at member
      exact List.not_mem_nil member
  | _ => exact concerns.elim

/-- A call a rule is about is refused exactly when it does not open a file and nothing on
the way of its hook faults. -/
theorem Concerns.refuses_iff (enabled : globals.protectEnabeled = true) {rule : FileNode}
    (member : rule ∈ globals.fileListRoot) {call : Syscall}
    (concerns : Concerns k m rule call) :
    Refuses k globals m call ↔ rule.type ≠ .open_ ∧ Sound k globals m call := by
  rw [modified_refuses_iff concerns.decided]
  constructor
  · rintro ⟨sound, hit⟩
    refine ⟨fun opening => ?_, sound⟩
    cases call with
    | open_ pathname flags mode => exact hit
    | _ => simp_all [Concerns]
  · rintro ⟨closed, sound⟩
    exact ⟨sound, concerns.hits enabled member closed sound⟩

/-- The number of a record of a hidden file makes it hidden. -/
theorem hides_of_mem {rule : FileNode} (member : rule ∈ globals.fileListRoot)
    (typed : rule.type = .hide) {outside : σ} {d : Dirent}
    (numbered : k.iIno rule.inode outside = d.ino.toUInt32) :
    k.hides globals outside d = true :=
  List.any_eq_true.mpr ⟨rule, member, by simp [Kernel.inoMatches, typed, numbered]⟩

/-- Records with a hidden one among them are dropped exactly when they can be copied, and
what is left of them is copied back where that matters. -/
theorem drops_iff {fd count : UInt32} {records : List Dirent} {rest : Bytes}
    (delivered : k.Delivers m fd count records rest)
    (hidden : ∃ d ∈ records,
      k.hides globals (m.answered k (.getdents64 fd count)).outside d = true) :
    Drops k globals m fd count records ↔
      k.Copies (m.answered k (.getdents64 fd count)) (totalSize records) ∧
        k.WritesBack (m.answered k (.getdents64 fd count))
          (filteredBytes (k.hides globals (m.answered k (.getdents64 fd count)).outside)
            records) := by
  have size := toNat_toUInt32_of_toInt delivered.size
  by_cases copies : k.Copies (m.answered k (.getdents64 fd count)) (totalSize records)
  · obtain ⟨ret, after, filtering, filtered⟩ :=
      copyDirents_filtered globals delivered.buffer size copies
    have ran := returns_modifiedGetdents64_iff.mpr filtering
    have within := k.copiedBack_le (m.answered k (.getdents64 fd count))
      (filteredBytes (k.hides globals (m.answered k (.getdents64 fd count)).outside) records)
    have answered : after.userBuf.take ret.toUInt32.toNat =
        filteredBytes (k.hides globals (m.answered k (.getdents64 fd count)).outside) records ↔
          k.WritesBack (m.answered k (.getdents64 fd count)) (filteredBytes
            (k.hides globals (m.answered k (.getdents64 fd count)).outside) records) := by
      rw [filtered.userBuf, filtered.size]
      exact take_overwritten_iff within
    constructor
    · rintro ⟨other, final, again, dropped⟩
      obtain ⟨rfl, rfl⟩ := ran.unique again
      exact ⟨copies, answered.mp dropped⟩
    · rintro ⟨_, written⟩
      exact ⟨ret, after, ran, answered.mpr written⟩
  · refine iff_of_false ?_ fun both => copies both.1
    rintro ⟨ret, after, ran, dropped⟩
    rw [← size] at copies
    obtain ⟨final, left, unseen⟩ := copyDirents_unfiltered globals copies
    obtain ⟨rfl, rfl⟩ := (returns_modifiedGetdents64_iff.mp ran).unique left
    rw [unseen.userBuf, delivered.buffer, UInt32.toUInt32_toInt32, size,
      List.take_left' (direntBytes_length records)] at dropped
    exact filteredBytes_ne hidden dropped.symm

end Deciding

/-- Every rule is enforced, whatever else is in the list, against the calls it is about:
exactly when it is no rule against opening and nothing on the way of the hook faults. A
record of a hidden file is dropped, for a reader that follows the lengths of the
records, exactly when the records can be copied and written back. -/
theorem rule_enforced_iff {σ : Type} {k : Kernel σ} {globals : Globals}
    (enabled : globals.protectEnabeled = true) {rule : FileNode}
    (member : rule ∈ globals.fileListRoot) :
    (∀ m call, Concerns k m rule call →
      (Refuses k globals m call ↔ rule.type ≠ .open_ ∧ Sound k globals m call)) ∧
    (rule.type = .hide → ∀ m fd count records rest, k.Delivers m fd count records rest →
      ∀ d ∈ records,
        k.iIno rule.inode (m.answered k (.getdents64 fd count)).outside = d.ino.toUInt32 →
      (Drops k globals m fd count records ↔
        k.Copies (m.answered k (.getdents64 fd count)) (totalSize records) ∧
          k.WritesBack (m.answered k (.getdents64 fd count))
            (filteredBytes (k.hides globals (m.answered k (.getdents64 fd count)).outside)
              records)) ∧
      ((∀ d ∈ records, Terminated d.name) → totalSize records < 65536 →
        readDirents (filteredBytes
            (k.hides globals (m.answered k (.getdents64 fd count)).outside) records) =
          some (visible (k.hides globals (m.answered k (.getdents64 fd count)).outside)
            records)) ∧
      k.hides globals (m.answered k (.getdents64 fd count)).outside d = true) := by
  refine ⟨fun m call concerns => concerns.refuses_iff enabled member, ?_⟩
  intro hides m fd count records rest delivered d inRecords numbered
  have hidden := hides_of_mem member hides numbered
  exact ⟨drops_iff delivered ⟨d, inRecords, hidden⟩,
    fun _ small => readDirents_filteredBytes small, hidden⟩

theorem quiet_pathSafe (globals : Globals) {opens : Bytes → Option InodeAddr}
    {userBuf pathname : Bytes} (fits : 6 + (cstr pathname).length < pathMax) :
    PathSafe (Kernel.quiet opens) globals (Machine.start () userBuf) pathname := by
  have cleared := Kernel.quiet_cleared opens userBuf
  have assembled : 5 + 1 + (cstr pathname).length < pathMax := fits
  exact ⟨(cleared.fits_iff 0 (lit "/home") (cstr pathname)).mpr assembled,
    fun null => absurd null (cleared.fullpath 0)⟩

/-- The rule against deleting the file is enforced. -/
theorem keepFile_enforced :
    Refuses (Kernel.quiet homeFile) (onlyRule keepFile) (Machine.start () [])
      (.unlink (lit "f")) := by
  have looked : (Kernel.quiet homeFile).pathOf keepFile ∈
      ((Machine.start () []).buffers (Kernel.quiet homeFile)).lookedUp (lit "/home")
        (cstr (lit "f")) := by
    rw [keepFile_path]
    exact Kernel.quiet_lookedUp homeFile 0 (lit "/home") (cstr (lit "f"))
  have concerns : Concerns (Kernel.quiet homeFile) (Machine.start () []) keepFile
      (.unlink (lit "f")) := ⟨rfl, looked⟩
  have member : keepFile ∈ (onlyRule keepFile).fileListRoot := List.mem_singleton_self keepFile
  refine ((rule_enforced_iff rfl member).1 _ _ concerns).mpr ⟨by decide, ?_⟩
  exact quiet_pathSafe _ (by decide)

/-- The rule of the line `/home/f@o`. -/
def closedFile : FileNode := .make (lit "/home/f") 7 .open_

/-- The parser accepts a rule against opening the file, and opening it is passed on. -/
theorem closedFile_opens :
    (RuleLine.ofLine (lit "/home/f@o")).install homeFile = some closedFile ∧
      closedFile.type ≠ .none ∧
      Concerns (Kernel.quiet homeFile) (Machine.start () []) closedFile
        (.open_ (lit "f") 0 0) ∧
      PassesOn (Kernel.quiet homeFile)
        (modified (Kernel.quiet homeFile) (onlyRule closedFile) (.open_ (lit "f") 0 0))
        (Machine.start () []) (.open_ (lit "f") 0 0) := by
  have path : (Kernel.quiet homeFile).pathOf closedFile = lit "/home/f" :=
    pathOf_make (by decide) (by decide) 7 .open_
  refine ⟨by rfl, by decide, ⟨rfl, ?_⟩, ?_⟩
  · rw [path]
    decide
  · exact (callOrigin_guards _ _).decides.passesOn_iff.mpr ⟨trivial, not_false⟩

end FsProtection
