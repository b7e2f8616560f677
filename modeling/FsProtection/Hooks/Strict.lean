import FsProtection.Base.Checked
import FsProtection.Hooks.Resources

/-!
# The path hooks with their missing checks

The path hooks run on whatever the allocations of their helpers answer, and drop the
helpers' return codes. `Strict.modified` is each of them with the checks that are missing:
it stops where a string function is handed NULL or a block nothing was written to, and
where a path is looked up that was not assembled. Without its checks it is the hook.
-/

namespace FsProtection

open Base

/-- The calls whose hooks copy a pathname. -/
inductive PathHook where
  | mkdir (path : Bytes) (mode : UInt32)
  | chdir (path : Bytes)
  | rmdir (pathname : Bytes)
  | unlinkat (dirfd : Int32) (pathname : Bytes) (flags : Int32)
  | unlink (pathname : Bytes)
  | rename (old new : Bytes)
deriving DecidableEq

/-- The call a hook stands for. -/
def PathHook.syscall : PathHook → Syscall
  | .mkdir path mode => .mkdir path mode
  | .chdir path => .chdir path
  | .rmdir pathname => .rmdir pathname
  | .unlinkat dirfd pathname flags => .unlinkat dirfd pathname flags
  | .unlink pathname => .unlink pathname
  | .rename old new => .rename old new

/-- A block, and whether a string has been stored in it. -/
structure PathBuffer where
  block : Block
  written : Bool
deriving DecidableEq

/-- What stops a hook that is watched. -/
inductive Misuse where
  | fault (fault : Fault)
  | nullString
  | unwrittenString
  | partialLookup
deriving DecidableEq

/-- A hook that also stops at a misuse. -/
abbrev StrictM (σ : Type) := Program (Machine σ) Misuse

/-- The pointer behind a buffer. -/
def pointer (path : Option PathBuffer) : Option Block := path.map PathBuffer.block

/-- A pair of paths as the hooks keep them, and whether the helpers reported no failure. -/
structure Paths where
  name : Option PathBuffer
  full : Option PathBuffer
  assembled : Bool

/-- What the unchecked hook has of them. -/
def Paths.pointers (paths : Paths) : Option Block × Option Block :=
  (pointer paths.name, pointer paths.full)

section Model

variable {σ Value : Type} (k : Kernel σ) (globals : Globals)

/-- A part of the hook that is run as it is. -/
def strictly (program : HookM σ Value) : StrictM σ Value := widen Misuse.fault program

/-- `strcat`, `strlen` or `strcmp` is handed a string. -/
def stringArgument : Option PathBuffer → StrictM σ Unit
  | none => throw .nullString
  | some buffer => if buffer.written then pure () else throw .unwrittenString

/-- `strcat` is handed a destination; `counts` is whether one that nothing was written to
counts. -/
def destination (counts : Bool) (buffer : PathBuffer) : StrictM σ Unit :=
  if counts then stringArgument (some buffer) else pure ()

/-- A lookup is handed a path. -/
def lookupArgument (assembled : Bool) : StrictM σ Unit :=
  if assembled then pure () else throw .partialLookup

namespace Strict

/-- `copyStringFromUser`, which writes what it allocates. -/
def copyStringFromUser (userstring : Bytes) : StrictM σ (Int × Option PathBuffer) := do
  let answer ← strictly (FsProtection.copyStringFromUser k userstring)
  return (answer.1, answer.2.map fun block => ⟨block, true⟩)

/-- `getfullPath` joins what it got onto a buffer: `strcat` reads both. -/
def getfullPath (counts : Bool) (pathname : Option PathBuffer) (fullpath : PathBuffer) :
    StrictM σ (Bool × PathBuffer) := do
  match ← strictly (kmalloc k pathMax) with
  | none => return (false, fullpath)
  | some path =>
      strictly pathGet
      let start ← strictly (dPath k)
      destination counts fullpath
      let bytes ← strictly (strcatRegion fullpath.block.bytes start)
      let bytes ← strictly (strcatRegion bytes [slash])
      stringArgument pathname
      let text ← strictly (readString (pointer pathname))
      let bytes ← strictly (strcatRegion bytes text)
      strictly (kfree (some path))
      return (true, ⟨{ fullpath.block with bytes := bytes }, true⟩)

/-- `getNewFullPath`, whose buffer nothing was written to when it is joined onto. -/
def getNewFullPath (counts : Bool) (pathname : Option PathBuffer) :
    StrictM σ (Int × Option PathBuffer) := do
  match ← strictly (kmalloc k pathMax) with
  | none => return (-1, none)
  | some fullpath =>
      let temp ← getfullPath k counts pathname ⟨fullpath, false⟩
      return (if temp.1 then 0 else -1, some temp.2)

def assemblePath (counts : Bool) (pathname : Bytes) : StrictM σ Paths := do
  let kernelpath ← copyStringFromUser k pathname
  let fullpath ← getNewFullPath k counts kernelpath.2
  return ⟨kernelpath.2, fullpath.2, kernelpath.1 = 0 ∧ fullpath.1 = 0⟩

/-- The lookup of an assembled path, and then the original call. -/
def guardPath (assembled : Bool) (path : Option Block) (ptype : ProtectType) (call : Syscall) :
    StrictM σ Int32 := do
  lookupArgument assembled
  strictly (FsProtection.guardPath k globals path ptype call)

/-- What `unlink` and `unlinkat` share. -/
def guardUnlink (counts : Bool) (pathname : Bytes) (call : Syscall) :
    StrictM σ (Int32 × Bool) := do
  let paths ← assemblePath k counts pathname
  let result ← guardPath k globals paths.assembled (pointer paths.full) .del call
  strictly (releasePaths paths.pointers)
  return (result, paths.assembled)

/-- The parent is cut off behind the `strlen` of the path, which reads it. -/
def modifiedMkdir (counts : Bool) (path : Bytes) (mode : UInt32) : StrictM σ (Int32 × Bool) := do
  let paths ← assemblePath k counts path
  stringArgument paths.full
  let fullpath ← strictly (getParentDirFromFullPath (pointer paths.full))
  let result ← guardPath k globals paths.assembled fullpath .mkdir (.mkdir path mode)
  strictly (releasePaths (pointer paths.name, fullpath))
  return (result, paths.assembled)

/-- `chdir` looks its argument up as it was copied. -/
def modifiedChdir (path : Bytes) : StrictM σ (Int32 × Bool) := do
  let fullpath ← copyStringFromUser k path
  let result ← guardPath k globals (fullpath.1 = 0) (pointer fullpath.2) .hide (.chdir path)
  strictly (kfree (pointer fullpath.2))
  return (result, fullpath.1 = 0)

/-- `rmdir` copies its argument and looks nothing up. -/
def modifiedRmdir (path : Bytes) : StrictM σ (Int32 × Bool) := do
  let result ← strictly (callOrigin k (.rmdir path))
  let fullpath ← copyStringFromUser k path
  strictly (kfree (pointer fullpath.2))
  return (result, fullpath.1 = 0)

/-- Both paths are assembled before the old one is looked up. -/
def modifiedRename (counts : Bool) (old new : Bytes) : StrictM σ (Int32 × Bool) := do
  let oldpaths ← assemblePath k counts old
  let newpaths ← assemblePath k counts new
  strictly (printkString (pointer oldpaths.full))
  strictly (printkString (pointer newpaths.full))
  let result ← guardPath k globals oldpaths.assembled (pointer oldpaths.full) .rename
    (.rename old new)
  strictly (releaseRename (oldpaths.pointers, newpaths.pointers))
  return (result, oldpaths.assembled && newpaths.assembled)

/-- The path hooks with the checks. -/
def modified (counts : Bool) : PathHook → StrictM σ (Int32 × Bool)
  | .mkdir path mode => modifiedMkdir k globals counts path mode
  | .chdir path => modifiedChdir k globals path
  | .rmdir pathname => modifiedRmdir k pathname
  | .unlinkat dirfd pathname flags =>
      guardUnlink k globals counts pathname (.unlinkat dirfd pathname flags)
  | .unlink pathname => guardUnlink k globals counts pathname (.unlink pathname)
  | .rename old new => modifiedRename k globals counts old new

end Strict

end Model

section Erasure

variable {σ Value : Type} {k : Kernel σ} {globals : Globals} {counts : Bool}

theorem fault_injective : Function.Injective Misuse.fault := fun _ _ => Misuse.fault.inj

/-- What has no check to make is what it was, -/
theorem strictly_erases (program : HookM σ Value) :
    Erases Misuse.fault id (strictly program) program :=
  .of_widen fault_injective program

/-- and a check that passes changes nothing: that of a string, -/
theorem stringArgument_isCheck (string : Option PathBuffer) :
    IsCheck Misuse.fault (stringArgument string : StrictM σ Unit) := by
  cases string with
  | none => exact .of_stop fun _ => Misuse.noConfusion
  | some buffer =>
      unfold stringArgument
      dsimp only
      cases buffer.written with
      | true => exact .of_pass
      | false => exact .of_stop fun _ => Misuse.noConfusion

/-- of what `strcat` appends to, -/
theorem destination_isCheck (buffer : PathBuffer) :
    IsCheck Misuse.fault (destination counts buffer : StrictM σ Unit) := by
  cases counts with
  | true => exact stringArgument_isCheck (some buffer)
  | false => exact .of_pass

/-- and of a path to look up. -/
theorem lookupArgument_isCheck (assembled : Bool) :
    IsCheck Misuse.fault (lookupArgument assembled : StrictM σ Unit) := by
  cases assembled with
  | true => exact .of_pass
  | false => exact .of_stop fun _ => Misuse.noConfusion

namespace Strict

/-- Helper by helper, without its checks the strict one is that of the source. -/
theorem copyStringFromUser_erases (userstring : Bytes) :
    Erases Misuse.fault (fun answer => (answer.1, pointer answer.2))
      (copyStringFromUser k userstring) (FsProtection.copyStringFromUser k userstring) := by
  refine (strictly_erases _).mapped fun answer => ?_
  have same : pointer (answer.2.map fun block => ⟨block, true⟩) = answer.2 := by
    cases answer.2 <;> rfl
  rw [same]
  rfl

theorem getfullPath_erases (pathname : Option PathBuffer) (fullpath : PathBuffer) :
    Erases Misuse.fault (fun answer => (answer.1, answer.2.block))
      (getfullPath k counts pathname fullpath)
      (FsProtection.getfullPath k (pointer pathname) fullpath.block) := by
  refine (strictly_erases _).bind fun path => ?_
  cases path with
  | none => exact .of_pure rfl
  | some path =>
      refine (strictly_erases _).bind fun _ => (strictly_erases _).bind fun start => ?_
      refine .check (destination_isCheck _) ?_
      refine (strictly_erases _).bind fun _ => (strictly_erases _).bind fun _ => ?_
      refine .check (stringArgument_isCheck _) ?_
      refine (strictly_erases _).bind fun _ => (strictly_erases _).bind fun _ => ?_
      exact (strictly_erases _).bind fun _ => .of_pure rfl

theorem getNewFullPath_erases (pathname : Option PathBuffer) :
    Erases Misuse.fault (fun answer => (answer.1, pointer answer.2))
      (getNewFullPath k counts pathname)
      (FsProtection.getNewFullPath k (pointer pathname)) := by
  refine (strictly_erases _).bind fun fullpath => ?_
  cases fullpath with
  | none => exact .of_pure rfl
  | some fullpath => exact (getfullPath_erases _ _).bind fun temp => .of_pure rfl

/-- An assembly is the copy and the join. -/
theorem assemblePath_erases (pathname : Bytes) :
    Erases Misuse.fault Paths.pointers (assemblePath k counts pathname)
      (FsProtection.assemblePath k pathname) :=
  (copyStringFromUser_erases pathname).bind fun kernelpath =>
    (getNewFullPath_erases kernelpath.2).bind fun _ => .of_pure rfl

theorem guardPath_erases (assembled : Bool) (path : Option Block) (ptype : ProtectType)
    (call : Syscall) :
    Erases Misuse.fault id (guardPath k globals assembled path ptype call)
      (FsProtection.guardPath k globals path ptype call) :=
  .check (lookupArgument_isCheck assembled) (strictly_erases _)

/-- Without the checks `unlink` is itself. -/
theorem guardUnlink_erases (pathname : Bytes) (call : Syscall) :
    Erases Misuse.fault Prod.fst (guardUnlink k globals counts pathname call)
      (FsProtection.guardUnlink k globals pathname call) :=
  (assemblePath_erases pathname).bind fun _ => (guardPath_erases _ _ _ _).bind fun _ =>
    (strictly_erases _).bind fun _ => .of_pure rfl

/-- A strict hook does what the hook does, or is stopped by a check. -/
theorem modified_erases (call : PathHook) :
    Erases Misuse.fault Prod.fst (modified k globals counts call)
      (FsProtection.modified k globals call.syscall) := by
  cases call with
  | mkdir path mode =>
      have whole : FsProtection.modified k globals (.mkdir path mode) = (do
          let paths ← FsProtection.assemblePath k path
          let fullpath ← getParentDirFromFullPath paths.2
          let result ← FsProtection.guardPath k globals fullpath .mkdir (.mkdir path mode)
          releasePaths (paths.1, fullpath)
          return result) := by
        simp [FsProtection.modified, FsProtection.modifiedMkdir, assembleParent]
      rw [PathHook.syscall, whole]
      refine (assemblePath_erases path).bind fun paths => .check (stringArgument_isCheck _) ?_
      refine (strictly_erases _).bind fun fullpath => (guardPath_erases _ _ _ _).bind fun _ => ?_
      exact (strictly_erases _).bind fun _ => .of_pure rfl
  | chdir path =>
      exact (copyStringFromUser_erases path).bind fun _ => (guardPath_erases _ _ _ _).bind fun _ =>
        (strictly_erases _).bind fun _ => .of_pure rfl
  | rmdir pathname =>
      exact (strictly_erases _).bind fun _ => (copyStringFromUser_erases pathname).bind fun _ =>
        (strictly_erases _).bind fun _ => .of_pure rfl
  | unlinkat dirfd pathname flags => exact guardUnlink_erases pathname _
  | unlink pathname => exact guardUnlink_erases pathname _
  | rename old new =>
      have whole : FsProtection.modified k globals (.rename old new) = (do
          let oldpaths ← FsProtection.assemblePath k old
          let newpaths ← FsProtection.assemblePath k new
          printkString oldpaths.2
          printkString newpaths.2
          let result ← FsProtection.guardPath k globals oldpaths.2 .rename (.rename old new)
          releaseRename (oldpaths, newpaths)
          return result) := by
        simp [FsProtection.modified, FsProtection.modifiedRename, assembleRename]
      rw [PathHook.syscall, whole]
      refine (assemblePath_erases old).bind fun oldpaths => ?_
      refine (assemblePath_erases new).bind fun newpaths => ?_
      refine (strictly_erases _).bind fun _ => (strictly_erases _).bind fun _ => ?_
      refine (guardPath_erases _ _ _ _).bind fun _ => ?_
      exact (strictly_erases _).bind fun _ => .of_pure rfl

end Strict

end Erasure

end FsProtection
