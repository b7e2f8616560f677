import FsProtection.Communicate.Parser

/-!
# A kernel at rest

The kernel on which concrete inputs are tried: nothing outside the module changes,
allocations succeed with cleared blocks and every original call answers zero. Which
paths open is a parameter; file descriptor `n` from 3 on is open on inode `n`.
`Kernel.resting` leaves the state of the rest of the machine open, for kernels that
serve something from it.
-/

namespace FsProtection

open Base

def Kernel.resting (σ : Type) (opens : Bytes → Option InodeAddr) : Kernel σ where
  origin _ state userBuf := (0, state, userBuf)
  filpOpen path state := ((opens path).map fun inode => ⟨inode, inode⟩, state)
  filpClose _ state := state
  fget fd _ := if fd < 3 then none else some ⟨fd.toNat, fd.toNat⟩
  iIno inode _ := inode.toUInt32
  dPath _ := lit "/home"
  kmalloc _ _ size := if kmallocMaxSize < size then none else some (List.replicate size 0)
  readable _ := bufferSize
  writable _ := bufferSize
  vmallocRoom size := (size + (pageSize - 1)) / pageSize * pageSize
  spill _ := []
  dPathClean _ := by decide
  kmallocLength := by
    intro state index size bytes allocated
    split at allocated
    · simp at allocated
    · cases allocated
      simp
  kmallocLimit := by
    intro state index size large
    rw [if_pos large]
  vmallocCovers size := by
    simp only [pageSize]
    omega
  vmallocPages size positive := by
    simp only [pageSize]
    omega
  spillClean _ := by simp
  spillShort _ := by simp

def Kernel.quiet (opens : Bytes → Option InodeAddr) : Kernel Unit := Kernel.resting Unit opens

theorem Kernel.quiet_pathView (opens : Bytes → Option InodeAddr) :
    PathView (Kernel.quiet opens) fun _ => opens where
  opened path _ := by simp [Kernel.quiet, Kernel.resting, Function.comp_def]
  openKeeps _ _ := rfl
  closeKeeps _ _ := rfl

/-- The kernel at rest where some calls of `kmalloc` answer NULL. -/
def Kernel.refusing (refused : Nat → Bool) (opens : Bytes → Option InodeAddr) : Kernel Unit :=
  { Kernel.quiet opens with
    kmalloc := fun state index size =>
      if refused index then none else (Kernel.quiet opens).kmalloc state index size
    kmallocLength := by
      intro state index size bytes allocated
      split at allocated
      · simp at allocated
      · exact (Kernel.quiet opens).kmallocLength allocated
    kmallocLimit := by
      intro state index size large
      rw [(Kernel.quiet opens).kmallocLimit large, ite_self] }

/-- One file that opens, on inode 7. -/
def oneFile (path : Bytes) : Option InodeAddr :=
  if path = lit "/f" then some 7 else none

/-- One file in the working directory that opens. -/
def homeFile (path : Bytes) : Option InodeAddr :=
  if path = lit "/home/f" then some 7 else none

end FsProtection
