import FsProtection.Hooks.Decision

/-!
# Hooks decided by a file descriptor, and hooks that decide nothing

`modified_read` and `modified_write` ask `is_fd_protected`; `modified_open` and
`modified_renameat` pass every call on.
-/

namespace FsProtection

open Base

variable {σ : Type} (k : Kernel σ) (globals : Globals)

/-- The decision `modified_read` and `modified_write` share. -/
def guardFd (fd : UInt32) (ptype : ProtectType) (call : Syscall) : HookM σ Int32 := do
  if ← isFdProtected k globals fd ptype then
    return -eacces
  else
    callOrigin k call

def modifiedRead (fd size : UInt32) : HookM σ Int32 :=
  guardFd k globals fd .read (.read fd size)

/-- `fd` is an `int` here and an `unsigned int` in `is_fd_protected`. -/
def modifiedWrite (fd : Int32) (count : UInt32) : HookM σ Int32 :=
  guardFd k globals fd.toUInt32 .write (.write fd count)

def modifiedOpen (pathname : Bytes) (flags : Int32) (mode : UInt32) : HookM σ Int32 :=
  callOrigin k (.open_ pathname flags mode)

def modifiedRenameat (olddirfd : Int32) (oldpath : Bytes) (newdirfd : Int32) (newpath : Bytes) :
    HookM σ Int32 :=
  callOrigin k (.renameat olddirfd oldpath newdirfd newpath)

section Spec

variable {k globals} {m : Machine σ}

/-- With protection enabled the hook needs an open descriptor, and refuses the calls on
an inode that has a rule of the type. -/
theorem guardFd_guards (globals : Globals) (fd : UInt32) (ptype : ProtectType) (call : Syscall) :
    Guards k (guardFd k globals fd ptype call) m call
      (globals.protectEnabeled = true → (k.fget fd m.outside).isSome)
      (globals.protectEnabeled = true ∧ ∃ file, k.fget fd m.outside = some file ∧
        globals.fileListRoot.any (inodeMatches file.inode ptype) = true)
      ((k.fget fd m.outside).toList.flatMap fun file =>
        k.firstNotice (inodeMatches file.inode ptype) globals.fileListRoot) := by
  cases enabled : globals.protectEnabeled with
  | false =>
      have looked : Returns (isFdProtected k globals fd ptype) m false
          { m with messages := m.messages ++ [] } := by
        rw [List.append_nil]
        exact returns_isFdProtected_disabled enabled fd
      exact (lookup_guards looked fun _ => rfl).congr (by simp) (by simp) (by simp)
  | true =>
      cases found : k.fget fd m.outside with
      | none =>
          refine Settles.of_faults (fun ret after ran => ?_) (by simp)
          obtain ⟨hit, middle, looked, _⟩ := returns_bind_iff.mp ran
          exact isFdProtected_closed enabled found looked
      | some file =>
          have looked : Returns (isFdProtected k globals fd ptype) m _ _ :=
            returns_isFdProtected_open enabled found
          exact (lookup_guards looked firstNotice_eq_nil).congr (by simp) (by simp) (by simp)

end Spec

end FsProtection
