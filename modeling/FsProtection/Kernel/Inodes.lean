import FsProtection.Base.Counted
import FsProtection.Kernel.Quiet

/-!
# Inodes in memory

The kernel's side of what a rule refers to: paths name files, and the inode of a file is
a counted object in memory. `filp_open` takes a reference to it and `filp_close` gives it
back; an inode without references may be evicted, and its address used for another file.
-/

namespace FsProtection

open Base

/-- Files are numbered as they are created; `created` is the number of the next one. -/
structure Inodes where
  names : Bytes → Option Nat
  created : Nat
  cache : Cache InodeAddr Nat

namespace Inodes

/-- Which inode is at an address. -/
def serialAt (inodes : Inodes) (address : InodeAddr) : Option Nat :=
  inodes.cache.serialAt address

def filpOpen (path : Bytes) (inodes : Inodes) : Option File × Inodes :=
  match inodes.names path with
  | none => (none, inodes)
  | some number =>
      ((inodes.cache.acquire number).1.map fun address => ⟨address, address⟩,
        { inodes with cache := (inodes.cache.acquire number).2 })

def filpClose (file : File) (inodes : Inodes) : Inodes :=
  { inodes with cache := inodes.cache.release file.inode }

/-- Create a file under a path, unless one is there. -/
def create (path : Bytes) (inodes : Inodes) : Inodes :=
  match inodes.names path with
  | some _ => inodes
  | none =>
      { inodes with
        names := fun other => if other = path then some inodes.created else inodes.names other
        created := inodes.created + 1 }

/-- Delete the name of a file. Its inode stays until it is evicted. -/
def delete (path : Bytes) (inodes : Inodes) : Inodes :=
  { inodes with names := fun other => if other = path then none else inodes.names other }

def move (old new : Bytes) (inodes : Inodes) : Inodes :=
  { inodes with names := fun other =>
      if other = new then inodes.names old
      else if other = old then none
      else inodes.names other }

def evict (address : InodeAddr) (inodes : Inodes) : Inodes :=
  { inodes with cache := inodes.cache.evict address }

/-- `O_CREAT`. -/
def oCreat : Int32 := 64

/-- What an original system call does to the inodes. -/
def after : Syscall → Inodes → Inodes
  | .mkdir path _, inodes => inodes.create path
  | .rmdir path, inodes => inodes.delete path
  | .unlink path, inodes => inodes.delete path
  | .unlinkat _ path _, inodes => inodes.delete path
  | .rename old new, inodes => inodes.move old new
  | .renameat _ old _ new, inodes => inodes.move old new
  | .open_ path flags _, inodes =>
      if flags &&& oCreat = 0 then (inodes.filpOpen path).2
      else ((inodes.create path).filpOpen path).2
  | _, inodes => inodes

end Inodes

/-- A kernel over these inodes. -/
structure InodeKernel (k : Kernel Inodes) : Prop where
  opens : k.filpOpen = Inodes.filpOpen
  closes : k.filpClose = Inodes.filpClose
  origins : ∀ call inodes userBuf, (k.origin call inodes userBuf).2.1 = inodes.after call

/-- Every inode in memory before is there afterwards. -/
def Inodes.KeptBy (inodes next : Inodes) : Prop :=
  ∀ address serial, inodes.serialAt address = some serial → next.serialAt address = some serial

section Kept

variable {inodes : Inodes}

theorem Inodes.KeptBy.trans {middle next : Inodes} (first : inodes.KeptBy middle)
    (second : middle.KeptBy next) : inodes.KeptBy next :=
  fun address serial live => second address serial (first address serial live)

theorem kept_filpOpen (path : Bytes) : inodes.KeptBy (inodes.filpOpen path).2 := by
  intro address serial live
  unfold Inodes.filpOpen
  cases inodes.names path with
  | none => exact live
  | some number => exact Cache.serialAt_acquire number live

theorem kept_filpClose (file : File) : inodes.KeptBy (inodes.filpClose file) := by
  intro address serial live
  exact Cache.serialAt_release.trans live

theorem kept_create (path : Bytes) : inodes.KeptBy (inodes.create path) := by
  intro address serial live
  unfold Inodes.create
  cases inodes.names path <;> exact live

/-- No system call evicts an inode. -/
theorem kept_after (call : Syscall) : inodes.KeptBy (inodes.after call) := by
  intro address serial live
  cases call with
  | mkdir path mode => exact kept_create path address serial live
  | open_ path flags mode =>
      by_cases creates : flags &&& Inodes.oCreat = 0
      · rw [Inodes.after, if_pos creates]
        exact kept_filpOpen path address serial live
      · rw [Inodes.after, if_neg creates]
        exact kept_filpOpen path address serial (kept_create path address serial live)
  | _ => exact live

/-- The inode of an opened file is in memory. -/
theorem filpOpen_live {path : Bytes} {file : File} (opened : (inodes.filpOpen path).1 = some file) :
    ∃ serial, (inodes.filpOpen path).2.serialAt file.inode = some serial := by
  unfold Inodes.filpOpen at opened ⊢
  cases named : inodes.names path with
  | none => simp [named] at opened
  | some number =>
      simp only [named] at opened ⊢
      obtain ⟨address, taken, rfl⟩ := Option.map_eq_some_iff.mp opened
      exact Cache.acquire_live taken

end Kept

/-- A resting kernel over inodes. -/
def Kernel.storing : Kernel Inodes :=
  { Kernel.resting Inodes oneFile with
    filpOpen := Inodes.filpOpen
    filpClose := Inodes.filpClose
    origin := fun call inodes userBuf => (0, inodes.after call, userBuf) }

theorem Kernel.storing_inodes : InodeKernel Kernel.storing := ⟨rfl, rfl, fun _ _ _ => rfl⟩

end FsProtection
