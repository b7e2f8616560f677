import FsProtection.Hooks.Decision
import FsProtection.Kernel.Quiet
import FsProtection.Utilities.Path

/-!
# Hooks decided by a path

`modified_unlink`, `modified_unlinkat`, `modified_rename`, `modified_mkdir` and
`modified_chdir` look a string up that they assemble in `kmalloc` blocks;
`modified_rmdir` copies its argument and looks nothing up. `PathBuffers` collects what
the allocations answer, and from it each hook's decision is stated as one theorem.
-/

namespace FsProtection

open Base

section Model

variable {σ : Type} (k : Kernel σ) (globals : Globals)

/-- `copyStringFromUser` and `getNewFullPath`, the pointers they fill in. -/
def assemblePath (pathname : Bytes) : HookM σ (Option Block × Option Block) := do
  let kernelpath ← copyStringFromUser k pathname
  let fullpath ← getNewFullPath k kernelpath.2
  return (kernelpath.2, fullpath.2)

/-- Refuse the call when the string is the path of a rule. -/
def guardPath (path : Option Block) (ptype : ProtectType) (call : Syscall) : HookM σ Int32 := do
  if ← isPathProtected k globals path ptype then
    return -eacces
  else
    callOrigin k call

/-- The `kfree` calls at the end of a hook. -/
def releasePaths (paths : Option Block × Option Block) : HookM σ Unit := do
  kfree paths.1
  kfree paths.2

/-- The paths of `modified_mkdir`: the full path is cut down to the directory. -/
def assembleParent (path : Bytes) : HookM σ (Option Block × Option Block) := do
  let paths ← assemblePath k path
  let fullpath ← getParentDirFromFullPath paths.2
  return (paths.1, fullpath)

def modifiedMkdir (path : Bytes) (mode : UInt32) : HookM σ Int32 := do
  let paths ← assembleParent k path
  let result ← guardPath k globals paths.2 .mkdir (.mkdir path mode)
  releasePaths paths
  return result

def modifiedChdir (path : Bytes) : HookM σ Int32 := do
  let fullpath ← copyStringFromUser k path
  let result ← guardPath k globals fullpath.2 .hide (.chdir path)
  kfree fullpath.2
  return result

def modifiedRmdir (path : Bytes) : HookM σ Int32 := do
  let result ← callOrigin k (.rmdir path)
  let fullpath ← copyStringFromUser k path
  kfree fullpath.2
  return result

/-- What `modified_unlink` and `modified_unlinkat` do alike. -/
def guardUnlink (pathname : Bytes) (call : Syscall) : HookM σ Int32 := do
  let paths ← assemblePath k pathname
  let result ← guardPath k globals paths.2 .del call
  releasePaths paths
  return result

/-- `dirfd` only reaches the original. -/
def modifiedUnlinkat (dirfd : Int32) (pathname : Bytes) (flags : Int32) : HookM σ Int32 :=
  guardUnlink k globals pathname (.unlinkat dirfd pathname flags)

def modifiedUnlink (pathname : Bytes) : HookM σ Int32 :=
  guardUnlink k globals pathname (.unlink pathname)

/-- A `%s` of `printk`, which prints NULL as a word of its own. -/
def printkString : Option Block → HookM σ Unit
  | none => pure ()
  | some block => discard (readString (some block))

/-- The paths of `modified_rename`, the old ones and the new ones, which it prints. -/
def assembleRename (old new : Bytes) :
    HookM σ ((Option Block × Option Block) × (Option Block × Option Block)) := do
  let oldpaths ← assemblePath k old
  let newpaths ← assemblePath k new
  printkString oldpaths.2
  printkString newpaths.2
  return (oldpaths, newpaths)

def releaseRename (paths : (Option Block × Option Block) × (Option Block × Option Block)) :
    HookM σ Unit := do
  kfree paths.1.2
  kfree paths.1.1
  kfree paths.2.2
  kfree paths.2.1

def modifiedRename (old new : Bytes) : HookM σ Int32 := do
  let paths ← assembleRename k old new
  let result ← guardPath k globals paths.1.2 .rename (.rename old new)
  releaseRename paths
  return result

end Model

/-- What `kmalloc` answers for the copy of the pathname, for the full path and, where
there is one, for the scratch buffer of `d_path`. -/
structure PathBuffers where
  kernelpath : Option Bytes
  fullpath : Option Bytes
  path : Option Bytes

namespace PathBuffers

/-- The assembly faults nowhere: the pathname fits its block, and what is appended to
the string already in the full-path block fits that one. -/
def Fits (buffers : PathBuffers) (cwd pathname : Bytes) : Prop :=
  (buffers.kernelpath.isSome → pathname.length < pathMax) ∧
  ∀ old, buffers.fullpath = some old → buffers.path.isSome →
    buffers.kernelpath.isSome ∧ Terminated old ∧
      (cstr old).length + cwd.length + 1 + pathname.length < pathMax

/-- The string at the full-path pointer afterwards; none for NULL. Without a scratch
buffer it is what the block held before. -/
def lookedUp (buffers : PathBuffers) (cwd pathname : Bytes) : Option Bytes :=
  buffers.fullpath.map fun old =>
    if buffers.path.isSome then cstr old ++ cwd ++ slash :: pathname else cstr old

/-- What is at the full-path pointer ends inside its block. -/
def Ended (buffers : PathBuffers) : Prop :=
  ∀ old, buffers.fullpath = some old → buffers.path.isSome ∨ Terminated old

end PathBuffers

/-- The answers to the allocations of an assembly, from the n-th allocation on. -/
def Kernel.pathBuffers {σ : Type} (k : Kernel σ) (outside : σ) (kmallocs : Nat) : PathBuffers where
  kernelpath := k.kmalloc outside kmallocs pathMax
  fullpath := k.kmalloc outside (kmallocs + 1) pathMax
  path := k.kmalloc outside (kmallocs + 2) pathMax

/-- The messages the lookup of a string sends. -/
def Kernel.pathNotices {σ : Type} (k : Kernel σ) (globals : Globals) (text : Option Bytes)
    (ptype : ProtectType) : List Bytes :=
  text.toList.flatMap fun key => k.firstNotice (k.pathMatches key ptype) globals.fileListRoot

/-- A pointer to a `PATH_MAX` block that holds a string, or NULL for none. -/
def Carries (path : Option Block) (text : Option Bytes) : Prop :=
  path.map (fun block => cstr block.bytes) = text ∧
    ∀ block ∈ path, block.bytes.length = pathMax

section Spec

variable {σ : Type} {k : Kernel σ} {globals : Globals} {m : Machine σ}

theorem kfree_unseen (path : Option Block) (m : Machine σ) :
    ∃ after, Returns (kfree path) m () after ∧ Unseen m after := by
  cases path with
  | none => exact ⟨m, returns_kfree_none_iff.mpr rfl, .rfl⟩
  | some block => exact ⟨_, returns_kfree_some_iff.mpr rfl, rfl, rfl, rfl, rfl⟩

theorem releasePaths_unseen (paths : Option Block × Option Block) (m : Machine σ) :
    ∃ after, Returns (releasePaths paths) m () after ∧ Unseen m after := by
  obtain ⟨middle, first, unseenFirst⟩ := kfree_unseen paths.1 m
  obtain ⟨after, second, unseenSecond⟩ := kfree_unseen paths.2 middle
  exact ⟨after, first.bind second, unseenFirst.trans unseenSecond⟩

theorem releaseRename_unseen
    (paths : (Option Block × Option Block) × (Option Block × Option Block)) (m : Machine σ) :
    ∃ after, Returns (releaseRename paths) m () after ∧ Unseen m after := by
  obtain ⟨first, freedFirst, unseenFirst⟩ := kfree_unseen paths.1.2 m
  obtain ⟨second, freedSecond, unseenSecond⟩ := kfree_unseen paths.1.1 first
  obtain ⟨after, freedRest, unseenRest⟩ := releasePaths_unseen (paths.2.2, paths.2.1) second
  exact ⟨after, freedFirst.bind (freedSecond.bind freedRest),
    unseenFirst.trans (unseenSecond.trans unseenRest)⟩

/-- A string at a pointer is refused when it is the path of a rule of the type; a NULL
pointer is harmless only while there are no rules. -/
theorem guardPath_guards {path : Option Block} {text : Option Bytes} (carries : Carries path text)
    (ptype : ProtectType) (call : Syscall) :
    Guards k (guardPath k globals path ptype call) m call
      (text = none → globals.fileListRoot = [])
      (∃ key ∈ text, globals.fileListRoot.any (k.pathMatches key ptype) = true)
      (k.pathNotices globals text ptype) := by
  obtain ⟨rfl, sized⟩ := carries
  cases path with
  | none =>
      by_cases empty : globals.fileListRoot = []
      · have looked : Returns (isPathProtected k globals none ptype) m false
            { m with messages := m.messages ++ [] } :=
          returns_isPathProtected_null.mpr ⟨empty, rfl, by simp⟩
        exact (lookup_guards looked fun _ => rfl).congr (by simp [empty]) (by simp) (by simp)
      · refine Settles.of_faults (fun ret after ran => ?_) (by simp [empty])
        obtain ⟨hit, middle, looked, _⟩ := returns_bind_iff.mp ran
        exact empty (returns_isPathProtected_null.mp looked).1
  | some block =>
      have longer : filepathSize + 9 < block.bytes.length := by
        rw [sized block rfl]
        decide
      have looked : Returns (isPathProtected k globals (some block) ptype) m _ _ :=
        returns_isPathProtected (.inr longer)
      exact (lookup_guards looked firstNotice_eq_nil).congr (by simp) (by simp)
        (by simp [Kernel.pathNotices])

/-- Copying a pathname, whatever the allocation answers. -/
theorem copyStringFromUser_settles (userstring : Bytes) :
    Settles (copyStringFromUser k userstring) m
      ((k.kmalloc m.outside m.kmallocs pathMax).isSome → (cstr userstring).length < pathMax)
      fun answer after => Unseen m after ∧ after.kmallocs = m.kmallocs + 1 ∧
        Carries answer.2 ((k.kmalloc m.outside m.kmallocs pathMax).map fun _ => cstr userstring) ∧
        ∀ block ∈ answer.2, Terminated block.bytes := by
  cases allocated : k.kmalloc m.outside m.kmallocs pathMax with
  | none =>
      refine Settles.of_returns (returns_copyStringFromUser_null allocated) (by simp) ?_
      exact ⟨⟨rfl, rfl, rfl, rfl⟩, rfl, ⟨rfl, by simp⟩, by simp⟩
  | some old =>
      have size := k.kmallocLength allocated
      refine ⟨fun ran => ?_, fun fits => ?_⟩
      · obtain ⟨fits, rfl, rfl⟩ := (returns_copyStringFromUser_iff allocated).mp ran
        refine ⟨fun _ => fits, ⟨rfl, rfl, rfl, rfl⟩, rfl, ⟨?_, ?_⟩, ?_⟩
        · simp [cstr_append_zero zero_notMem_cstr]
        · simp [size]
          omega
        · simp [Terminated]
      · exact ⟨_, _, (returns_copyStringFromUser_iff allocated).mpr ⟨fits rfl, rfl, rfl⟩⟩

section Building

variable {pathname : Option Block} {copy : Option Bytes} {text : Bytes}
  (carries : Carries pathname (copy.map fun _ => text))
  (named : ∀ block ∈ pathname, Terminated block.bytes)

include carries named

/-- Appending a path to the string in a block, from a pathname that is there or from
NULL. -/
theorem getfullPath_settles {fullpath : Block} (size : fullpath.bytes.length = pathMax) :
    Settles (getfullPath k pathname fullpath) m
      ((k.kmalloc m.outside m.kmallocs pathMax).isSome →
        copy.isSome ∧ k.PathRoom m.outside text fullpath.bytes)
      fun answer after => Unseen m after ∧ after.kmallocs = m.kmallocs + 1 ∧
        answer.2.bytes.length = pathMax ∧
        cstr answer.2.bytes =
          (if (k.kmalloc m.outside m.kmallocs pathMax).isSome then
            cstr fullpath.bytes ++ k.dPath m.outside ++ slash :: text
          else cstr fullpath.bytes) ∧
        (((k.kmalloc m.outside m.kmallocs pathMax).isSome ∨ Terminated fullpath.bytes) ↔
          Terminated answer.2.bytes) := by
  cases allocated : k.kmalloc m.outside m.kmallocs pathMax with
  | none =>
      refine Settles.of_returns (returns_getfullPath_null allocated) (by simp) ?_
      exact ⟨⟨rfl, rfl, rfl, rfl⟩, rfl, size, by simp, by simp⟩
  | some scratch =>
      refine ⟨fun ran => ?_, fun safe => ?_⟩
      · obtain ⟨block, rfl, terminated, room⟩ := getfullPath_returned allocated size ran
        obtain ⟨bytes, expected, bytesSize, bytesTerminated, content⟩ :=
          getfullPath_returns allocated size terminated room
        obtain ⟨rfl, rfl⟩ := ran.unique expected
        obtain ⟨_, isCopy, rfl⟩ := Option.map_eq_some_iff.mp carries.1.symm
        refine ⟨fun _ => ⟨by simp [isCopy], room⟩, ⟨rfl, rfl, rfl, rfl⟩, rfl, bytesSize, ?_, ?_⟩
        · simpa using content
        · simpa using bytesTerminated
      · obtain ⟨isCopy, room⟩ := safe rfl
        obtain ⟨bytes, rfl⟩ := Option.isSome_iff_exists.mp isCopy
        obtain ⟨block, rfl, rfl⟩ := Option.map_eq_some_iff.mp carries.1
        obtain ⟨_, joined, _⟩ := getfullPath_returns allocated size (named block rfl) room
        exact ⟨_, _, joined⟩

/-- Building a full path in a block of its own. -/
theorem getNewFullPath_settles :
    Settles (getNewFullPath k pathname) m
      (∀ old, k.kmalloc m.outside m.kmallocs pathMax = some old →
        (k.kmalloc m.outside (m.kmallocs + 1) pathMax).isSome →
          copy.isSome ∧ k.PathRoom m.outside text old)
      fun answer after => Unseen m after ∧
        after.kmallocs = m.kmallocs + 1 +
          (if (k.kmalloc m.outside m.kmallocs pathMax).isSome then 1 else 0) ∧
        Carries answer.2 ((k.kmalloc m.outside m.kmallocs pathMax).map fun old =>
          if (k.kmalloc m.outside (m.kmallocs + 1) pathMax).isSome then
            cstr old ++ k.dPath m.outside ++ slash :: text
          else cstr old) ∧
        ((∀ old, k.kmalloc m.outside m.kmallocs pathMax = some old →
            (k.kmalloc m.outside (m.kmallocs + 1) pathMax).isSome ∨ Terminated old) ↔
          ∀ block ∈ answer.2, Terminated block.bytes) := by
  unfold getNewFullPath
  cases allocated : k.kmalloc m.outside m.kmallocs pathMax with
  | none =>
      refine Settles.of_returns ((returns_kmalloc_none allocated).bind
        (returns_pure_iff.mpr ⟨rfl, rfl⟩)) (by simp) ?_
      exact ⟨⟨rfl, rfl, rfl, rfl⟩, rfl, ⟨rfl, by simp⟩, by simp⟩
  | some old =>
      have size : (⟨m.kmallocs, old⟩ : Block).bytes.length = pathMax := k.kmallocLength allocated
      let start : Machine σ :=
        { m with kmallocs := m.kmallocs + 1, held := .block m.kmallocs :: m.held }
      have appended := getfullPath_settles (k := k) (m := start) carries named size
      refine (Settles.after (returns_kmalloc_some allocated)
        (appended.andThen fun _ temp after outcome => ?_)).imp (by simp [start])
          fun _ _ _ done => done
      obtain ⟨unseen, count, sameSize, content, ended⟩ := outcome
      refine Settles.of_returns (returns_pure_iff.mpr ⟨rfl, rfl⟩) trivial ?_
      have began : Unseen m start := ⟨rfl, rfl, rfl, rfl⟩
      refine ⟨began.trans unseen, count, ⟨?_, ?_⟩, ?_⟩
      · simpa using content
      · simpa using sameSize
      · simpa using ended

end Building

/-- Assembling a full path, whatever the allocations answer. -/
theorem assemblePath_settles (pathname : Bytes) :
    Settles (assemblePath k pathname) m
      ((k.pathBuffers m.outside m.kmallocs).Fits (k.dPath m.outside) (cstr pathname))
      fun paths after => Unseen m after ∧
        after.kmallocs =
          m.kmallocs + 2 + (if (k.pathBuffers m.outside m.kmallocs).fullpath.isSome then 1 else 0) ∧
        Carries paths.2 ((k.pathBuffers m.outside m.kmallocs).lookedUp (k.dPath m.outside)
          (cstr pathname)) ∧
        ((k.pathBuffers m.outside m.kmallocs).Ended ↔
          ∀ block ∈ paths.2, Terminated block.bytes) := by
  refine (copyStringFromUser_settles pathname).bind fun _ kernelpath middle outcome => ?_
  obtain ⟨unseen, count, carries, ended⟩ := outcome
  have built := getNewFullPath_settles (k := k) (m := middle) carries ended
  rw [unseen.outside, count] at built
  refine built.andThen fun _ fullpath after outcome => ?_
  obtain ⟨unseenAfter, countAfter, carriesAfter, endedAfter⟩ := outcome
  exact Settles.of_returns (returns_pure_iff.mpr ⟨rfl, rfl⟩) trivial
    ⟨unseen.trans unseenAfter, countAfter, carriesAfter, endedAfter⟩

/-- Cutting the full path down to its directory needs a non-empty string that ends in
its block. -/
theorem getParentDirFromFullPath_settles {path : Option Block} {text : Option Bytes}
    (carries : Carries path text) :
    Settles (getParentDirFromFullPath path) m
      ((∀ block ∈ path, Terminated block.bytes) ∧ ∃ spelled ∈ text, spelled ≠ [])
      fun fullpath after => after = m ∧ Carries fullpath (text.map parentDir) := by
  obtain ⟨rfl, sized⟩ := carries
  cases path with
  | none => exact Settles.of_faults (by simp [getParentDirFromFullPath, returns_bind_iff]) (by simp)
  | some block =>
      by_cases terminated : Terminated block.bytes
      · by_cases empty : cstr block.bytes = []
        · have read : Returns (readString (some block)) m (cstr block.bytes) m :=
            returns_readString_some_iff.mpr ⟨terminated, rfl, rfl⟩
          refine Settles.of_faults ?_ (by simp [empty])
          simp [getParentDirFromFullPath, returns_bind_of_returns read, empty]
        · obtain ⟨bytes, cut, size, content⟩ :=
            getParentDirFromFullPath_returns (m := m) terminated empty
          refine Settles.of_returns cut (by simp [terminated, empty]) ⟨rfl, ?_, ?_⟩
          · simp [content]
          · simpa [size] using sized block rfl
      · refine Settles.of_faults (fun value after ran => ?_) (by simp [terminated])
        obtain ⟨_, _, read, _⟩ := returns_bind_iff.mp ran
        exact terminated (returns_readString_some_iff.mp read).1

theorem printkString_settles {path : Option Block} :
    Settles (printkString path) m (∀ block ∈ path, Terminated block.bytes)
      fun _ after => after = m := by
  cases path with
  | none => exact Settles.of_returns (returns_pure_iff.mpr ⟨rfl, rfl⟩) (by simp) rfl
  | some block =>
      refine ⟨fun ran => ?_, fun ended => ?_⟩
      · obtain ⟨_, read, _⟩ := returns_map_iff.mp ran
        obtain ⟨terminated, _, same⟩ := returns_readString_some_iff.mp read
        exact ⟨by simpa using terminated, same⟩
      · exact ⟨_, _, returns_map_iff.mpr
          ⟨_, returns_readString_some_iff.mpr ⟨ended block rfl, rfl, rfl⟩, rfl⟩⟩

variable (k globals m)

/-- `modified_unlink` and `modified_unlinkat` look the assembled path up. -/
theorem guardUnlink_guards (pathname : Bytes) (call : Syscall) :
    Guards k (guardUnlink k globals pathname call) m call
      ((k.pathBuffers m.outside m.kmallocs).Fits (k.dPath m.outside) (cstr pathname) ∧
        ((k.pathBuffers m.outside m.kmallocs).fullpath = none → globals.fileListRoot = []))
      (∃ key ∈ (k.pathBuffers m.outside m.kmallocs).lookedUp (k.dPath m.outside) (cstr pathname),
        globals.fileListRoot.any (k.pathMatches key .del) = true)
      (k.pathNotices globals
        ((k.pathBuffers m.outside m.kmallocs).lookedUp (k.dPath m.outside) (cstr pathname))
        .del) :=
  (Guards.prepared (assemblePath_settles pathname) (fun _ _ outcome => outcome.1)
    (fun _ _ _ outcome => guardPath_guards outcome.2.2.1 .del call)
    releasePaths_unseen).congr (by simp [PathBuffers.lookedUp]) (fun _ => Iff.rfl)
      fun _ _ => rfl

theorem assembleParent_settles (path : Bytes) :
    Settles (assembleParent k path) m
      ((k.pathBuffers m.outside m.kmallocs).Fits (k.dPath m.outside) (cstr path) ∧
        (k.pathBuffers m.outside m.kmallocs).Ended ∧
        ∃ spelled ∈ (k.pathBuffers m.outside m.kmallocs).lookedUp (k.dPath m.outside) (cstr path),
          spelled ≠ [])
      fun paths after => Unseen m after ∧
        Carries paths.2 (((k.pathBuffers m.outside m.kmallocs).lookedUp (k.dPath m.outside)
          (cstr path)).map parentDir) := by
  refine (assemblePath_settles path).bind fun _ paths middle outcome => ?_
  obtain ⟨unseen, _, carries, ended⟩ := outcome
  rw [ended]
  refine (getParentDirFromFullPath_settles carries).andThen fun _ fullpath after outcome => ?_
  obtain ⟨rfl, carriesParent⟩ := outcome
  exact Settles.of_returns (returns_pure_iff.mpr ⟨rfl, rfl⟩) trivial ⟨unseen, carriesParent⟩

/-- `modified_mkdir` looks up what is left of the assembled path. -/
theorem modifiedMkdir_guards (path : Bytes) (mode : UInt32) :
    Guards k (modifiedMkdir k globals path mode) m (.mkdir path mode)
      ((k.pathBuffers m.outside m.kmallocs).Fits (k.dPath m.outside) (cstr path) ∧
        (k.pathBuffers m.outside m.kmallocs).Ended ∧
        ∃ spelled ∈ (k.pathBuffers m.outside m.kmallocs).lookedUp (k.dPath m.outside) (cstr path),
          spelled ≠ [])
      (∃ key ∈ ((k.pathBuffers m.outside m.kmallocs).lookedUp (k.dPath m.outside)
          (cstr path)).map parentDir,
        globals.fileListRoot.any (k.pathMatches key .mkdir) = true)
      (k.pathNotices globals (((k.pathBuffers m.outside m.kmallocs).lookedUp (k.dPath m.outside)
        (cstr path)).map parentDir) .mkdir) := by
  refine (Guards.prepared (assembleParent_settles k m path) (fun _ _ outcome => outcome.1)
    (fun _ _ _ outcome => guardPath_guards outcome.2 .mkdir (.mkdir path mode))
    releasePaths_unseen).congr ?_ (fun _ => Iff.rfl) fun _ _ => rfl
  refine and_iff_left_of_imp ?_
  rintro ⟨_, _, spelled, isSpelled, _⟩
  simp [Option.mem_def.mp isSpelled]

/-- `modified_chdir` looks its argument up as it stands. -/
theorem modifiedChdir_guards (path : Bytes) :
    Guards k (modifiedChdir k globals path) m (.chdir path)
      (((k.kmalloc m.outside m.kmallocs pathMax).isSome → (cstr path).length < pathMax) ∧
        (k.kmalloc m.outside m.kmallocs pathMax = none → globals.fileListRoot = []))
      ((k.kmalloc m.outside m.kmallocs pathMax).isSome ∧
        globals.fileListRoot.any (k.pathMatches (cstr path) .hide) = true)
      (k.pathNotices globals (some (cstr path)) .hide) := by
  refine (Guards.prepared (copyStringFromUser_settles path) (fun _ _ outcome => outcome.1)
    (fun _ _ _ outcome => guardPath_guards outcome.2.2.1 .hide (.chdir path))
    fun path => kfree_unseen path.2).congr (by simp) (fun _ => ?_) fun _ hit => ?_
  · cases k.kmalloc m.outside m.kmallocs pathMax <;> simp
  · obtain ⟨key, member, _⟩ := hit
    obtain ⟨old, allocated, _⟩ := Option.map_eq_some_iff.mp (Option.mem_def.mp member)
    rw [allocated, Option.map_some]

/-- `modified_rmdir` copies its argument after the original returned, and decides
nothing. -/
theorem modifiedRmdir_guards (path : Bytes) :
    Guards k (modifiedRmdir k path) m (.rmdir path)
      ((k.kmalloc (k.origin (.rmdir path) m.outside m.userBuf).2.1 m.kmallocs pathMax).isSome →
        (cstr path).length < pathMax) False [] := by
  obtain ⟨ret, middle, ran, _, passed⟩ :=
    (callOrigin_guards (k := k) m (.rmdir path)).outcome trivial
  have transparent := passed not_false
  obtain ⟨rfl, rfl⟩ := returns_callOrigin_iff.mp ran
  refine Settles.after ran ?_
  refine (copyStringFromUser_settles path).andThen fun _ fullpath second outcome => ?_
  obtain ⟨final, freed, unseen⟩ := kfree_unseen fullpath.2 second
  refine Settles.of_returns (freed.bind (returns_pure_iff.mpr ⟨rfl, rfl⟩)) trivial ?_
  exact ⟨False.elim, fun _ => transparent.seen .rfl (outcome.1.trans unseen)⟩

/-- What `kmalloc` answers for the second assembly of `modified_rename`. -/
def Kernel.laterBuffers (k : Kernel σ) (m : Machine σ) : PathBuffers :=
  k.pathBuffers m.outside
    (m.kmallocs + 2 + (if (k.pathBuffers m.outside m.kmallocs).fullpath.isSome then 1 else 0))

theorem assembleRename_settles (old new : Bytes) :
    Settles (assembleRename k old new) m
      ((k.pathBuffers m.outside m.kmallocs).Fits (k.dPath m.outside) (cstr old) ∧
        (k.laterBuffers m).Fits (k.dPath m.outside) (cstr new) ∧
        (k.pathBuffers m.outside m.kmallocs).Ended ∧ (k.laterBuffers m).Ended)
      fun paths after => Unseen m after ∧
        Carries paths.1.2 ((k.pathBuffers m.outside m.kmallocs).lookedUp (k.dPath m.outside)
          (cstr old)) := by
  refine (assemblePath_settles old).bind fun _ oldpaths first outcome => ?_
  obtain ⟨unseen, count, carries, ended⟩ := outcome
  have buffers : k.pathBuffers first.outside first.kmallocs = k.laterBuffers m := by
    rw [unseen.outside, count, Kernel.laterBuffers]
  have assembled := assemblePath_settles (k := k) (m := first) new
  rw [buffers, unseen.outside] at assembled
  refine assembled.bind fun _ newpaths second outcome => ?_
  obtain ⟨unseenNew, _, _, endedNew⟩ := outcome
  rw [ended, endedNew]
  refine printkString_settles.bind fun _ _ third same => ?_
  subst same
  refine printkString_settles.andThen fun _ _ fourth same => ?_
  subst same
  exact Settles.of_returns (returns_pure_iff.mpr ⟨rfl, rfl⟩) trivial
    ⟨unseen.trans unseenNew, carries⟩

/-- `modified_rename` looks the old path up; the new one only has to be printed. -/
theorem modifiedRename_guards (old new : Bytes) :
    Guards k (modifiedRename k globals old new) m (.rename old new)
      (((k.pathBuffers m.outside m.kmallocs).Fits (k.dPath m.outside) (cstr old) ∧
        (k.laterBuffers m).Fits (k.dPath m.outside) (cstr new) ∧
        (k.pathBuffers m.outside m.kmallocs).Ended ∧ (k.laterBuffers m).Ended) ∧
        ((k.pathBuffers m.outside m.kmallocs).fullpath = none → globals.fileListRoot = []))
      (∃ key ∈ (k.pathBuffers m.outside m.kmallocs).lookedUp (k.dPath m.outside) (cstr old),
        globals.fileListRoot.any (k.pathMatches key .rename) = true)
      (k.pathNotices globals
        ((k.pathBuffers m.outside m.kmallocs).lookedUp (k.dPath m.outside) (cstr old))
        .rename) := by
  refine (Guards.prepared (assembleRename_settles k m old new) (fun _ _ outcome => outcome.1)
    (fun _ _ _ outcome => guardPath_guards outcome.2 .rename (.rename old new))
    releaseRename_unseen).congr (by simp [PathBuffers.lookedUp]) (fun _ => Iff.rfl) fun _ _ => rfl

end Spec

section Quiet

variable (opens : Bytes → Option InodeAddr) (kmallocs : Nat)

theorem Kernel.quiet_pathBuffers : (Kernel.quiet opens).pathBuffers () kmallocs =
    ⟨some (List.replicate pathMax 0), some (List.replicate pathMax 0),
      some (List.replicate pathMax 0)⟩ := rfl

theorem Kernel.quiet_lookedUp (cwd pathname : Bytes) :
    ((Kernel.quiet opens).pathBuffers () kmallocs).lookedUp cwd pathname =
      some (cwd ++ slash :: pathname) := by
  simp [Kernel.quiet_pathBuffers, PathBuffers.lookedUp, cstr_replicate_zero]

end Quiet

end FsProtection
