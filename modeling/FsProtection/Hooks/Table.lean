import FsProtection.Hooks.Descriptor
import FsProtection.Hooks.Getdents
import FsProtection.Hooks.Path

/-!
# The table of hooks

`modified` is what the system call table holds once the module is loaded. To the rest of
the machine a hook does what its original does, or nothing.
-/

namespace FsProtection

open Base

variable {σ : Type}

/-- The hook installed for a call. -/
def modified (k : Kernel σ) (globals : Globals) : Syscall → HookM σ Int32
  | .mkdir path mode => modifiedMkdir k globals path mode
  | .chdir path => modifiedChdir k globals path
  | .rmdir pathname => modifiedRmdir k pathname
  | .getdents64 fd count => modifiedGetdents64 k globals fd count
  | .read fd size => modifiedRead k globals fd size
  | .write fd count => modifiedWrite k globals fd count
  | .open_ pathname flags mode => modifiedOpen k pathname flags mode
  | .unlinkat dirfd pathname flags => modifiedUnlinkat k globals dirfd pathname flags
  | .unlink pathname => modifiedUnlink k globals pathname
  | .rename old new => modifiedRename k globals old new
  | .renameat olddirfd oldpath newdirfd newpath =>
      modifiedRenameat k olddirfd oldpath newdirfd newpath

variable {k : Kernel σ} {globals : Globals} {m after : Machine σ} {ret : Int32}

/-- The rest of the machine is as before the call or as its original left it. -/
def Follows (k : Kernel σ) (m : Machine σ) (call : Syscall) (after : Machine σ) : Prop :=
  after.outside = m.outside ∨ after.outside = (m.answered k call).outside

theorem Decides.follows {hook : HookM σ Int32} {call : Syscall} {safe hit : Prop}
    (decides : Decides k hook m call safe hit) (ran : Returns hook m ret after) :
    Follows k m call after := by
  obtain ⟨_, refused, passed⟩ := decides.returned ran
  by_cases isHit : hit
  · exact .inl (refused isHit).outside
  · exact .inr (passed isHit).outside

/-- A hook follows its original, or leaves the rest of the machine alone. -/
theorem modified_follows (call : Syscall) (ran : Returns (modified k globals call) m ret after) :
    Follows k m call after := by
  cases call with
  | mkdir path mode => exact (modifiedMkdir_guards k globals m path mode).decides.follows ran
  | chdir path => exact (modifiedChdir_guards k globals m path).decides.follows ran
  | rmdir path => exact (modifiedRmdir_guards k m path).decides.follows ran
  | getdents64 fd count =>
      exact .inr (copyDirents_preserves _ _ _ _ (returns_modifiedGetdents64_iff.mp ran))
  | read fd size => exact (guardFd_guards globals fd .read (.read fd size)).decides.follows ran
  | write fd count => exact (guardFd_guards globals _ .write (.write fd count)).decides.follows ran
  | open_ pathname flags mode => exact (callOrigin_guards m _).decides.follows ran
  | unlinkat dirfd pathname flags =>
      exact (guardUnlink_guards k globals m pathname
        (.unlinkat dirfd pathname flags)).decides.follows ran
  | unlink pathname =>
      exact (guardUnlink_guards k globals m pathname (.unlink pathname)).decides.follows ran
  | rename old new => exact (modifiedRename_guards k globals m old new).decides.follows ran
  | renameat olddirfd oldpath newdirfd newpath => exact (callOrigin_guards m _).decides.follows ran

end FsProtection
