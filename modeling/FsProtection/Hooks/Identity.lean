import FsProtection.Hooks.Filter

/-!
# Hiding by number and protecting by object

`is_fd_protected` compares inode objects, one object for one inode. `is_ino_protected`
compares `i_ino`, as wide as an `unsigned long`, with `d_ino` cut to that width: all
inodes whose numbers agree in those bits, on whatever filesystems, are one to it.
-/

namespace FsProtection

open Base

/-- An inode: a filesystem, and a number that is unique in it. -/
structure Inode (Φ : Type) where
  filesystem : Φ
  number : UInt64
deriving DecidableEq

/-- The inodes the objects in memory stand for. -/
structure Identities {σ : Type} (k : Kernel σ) (outside : σ) (Φ : Type) where
  inode : InodeAddr → Inode Φ
  injective : Function.Injective inode
  /-- `i_ino` keeps what an `unsigned long` holds of the number. -/
  numbered : ∀ addr, k.iIno addr outside = (inode addr).number.toUInt32

namespace Identities

section Lookups

variable {σ : Type} {k : Kernel σ} {outside : σ} {Φ : Type} (objects : Identities k outside Φ)
  (globals : Globals)

/-- A hide rule is for the inode that a record of a filesystem names. -/
def Hidden (filesystem : Φ) (d : Dirent) : Prop :=
  ∃ rule ∈ globals.fileListRoot,
    rule.type = .hide ∧ objects.inode rule.inode = ⟨filesystem, d.ino⟩

/-- The number of the inode of a hide rule agrees with that of a record in the bits an
`unsigned long` holds. -/
def Agrees (d : Dirent) : Prop :=
  ∃ rule ∈ globals.fileListRoot, rule.type = .hide ∧
    (objects.inode rule.inode).number.toUInt32 = d.ino.toUInt32

variable {objects globals}

theorem Hidden.agrees {filesystem : Φ} {d : Dirent} (hidden : objects.Hidden globals filesystem d) :
    objects.Agrees globals d := by
  obtain ⟨rule, member, hide, same⟩ := hidden
  exact ⟨rule, member, hide, by rw [same]⟩

/-- The lookup by number finds the rules that agree with a record. -/
theorem hides_iff {d : Dirent} :
    k.hides globals outside d = true ↔ objects.Agrees globals d := by
  simp only [Kernel.hides, List.any_eq_true, Kernel.inoMatches, decide_eq_true_eq, Agrees,
    objects.numbered]
  exact exists_congr fun rule => and_congr_right fun _ => and_comm

/-- The lookup by object finds, for a descriptor open on the inode a record names, the
rules for that inode. -/
theorem isFdProtected_iff {m : Machine σ} (enabled : globals.protectEnabeled = true) {fd : UInt32}
    {file : File} (found : k.fget fd m.outside = some file) {filesystem : Φ} {d : Dirent}
    (names : objects.inode file.inode = ⟨filesystem, d.ino⟩) :
    ∃ hit after, Returns (isFdProtected k globals fd .hide) m hit after ∧
      (hit = true ↔ objects.Hidden globals filesystem d) := by
  refine ⟨_, _, returns_isFdProtected_open enabled found, ?_⟩
  simp only [List.any_eq_true, inodeMatches, decide_eq_true_eq, Hidden, ← names,
    objects.injective.eq_iff]
  exact exists_congr fun rule => and_congr_right fun _ => and_comm

end Lookups

section Directories

variable {σ : Type} {k : Kernel σ} (globals : Globals) {m : Machine σ} {fd count : UInt32}
  {records : List Dirent} {rest : Bytes} {Φ : Type}

/-- The hook takes out a record exactly when a hide rule is for the inode it names, if and
only if there is such a rule and the buffer can be copied, or there is none and no hide
rule agrees with the number either, unless nothing can be copied. -/
theorem hides_named_inode_iff (delivered : k.Delivers m fd count records rest)
    (writable : totalSize records ≤ k.writable (m.answered k (.getdents64 fd count)).outside)
    (objects : Identities k (m.answered k (.getdents64 fd count)).outside Φ) (filesystem : Φ) :
    ∃ ret after, Returns (modifiedGetdents64 k globals fd count) m ret after ∧
      after.userBuf.take ret.toUInt32.toNat = filteredBytes
        (k.drops globals (m.answered k (.getdents64 fd count)) (totalSize records)) records ∧
      ∀ d ∈ records,
        ((k.drops globals (m.answered k (.getdents64 fd count)) (totalSize records) d = true ↔
          objects.Hidden globals filesystem d) ↔
        (k.Copies (m.answered k (.getdents64 fd count)) (totalSize records) ∧
            objects.Hidden globals filesystem d ∨
          ¬ objects.Hidden globals filesystem d ∧
            (k.Copies (m.answered k (.getdents64 fd count)) (totalSize records) →
              ¬ objects.Agrees globals d))) := by
  obtain ⟨ret, after, ran, left⟩ := delivered.dropped globals writable
  refine ⟨ret, after, ran, left, fun d _ => ?_⟩
  have drops : k.drops globals (m.answered k (.getdents64 fd count)) (totalSize records) d = true ↔
      k.Copies (m.answered k (.getdents64 fd count)) (totalSize records) ∧
        objects.Agrees globals d := by
    rw [Kernel.drops, decide_eq_true_eq, hides_iff]
  have agrees : objects.Hidden globals filesystem d → objects.Agrees globals d := Hidden.agrees
  rw [drops]
  by_cases hidden : objects.Hidden globals filesystem d
  · simp [hidden, agrees hidden]
  · simp [hidden]

end Directories

section Examples

/-- On the shelf an address is the number of an inode, and above 64 bits its filesystem. -/
def shelf (directory : List (List Dirent)) : Identities Kernel.shelf directory Nat where
  inode addr := ⟨addr / 2 ^ 64, .ofNat addr⟩
  injective := by
    intro first second same
    obtain ⟨filesystem, number⟩ := Inode.mk.inj same
    have low := congrArg UInt64.toNat number
    rw [UInt64.toNat_ofNat', UInt64.toNat_ofNat'] at low
    rw [← Nat.div_add_mod first (2 ^ 64), filesystem, low, Nat.div_add_mod]
  numbered addr := (UInt64.toUInt32_ofNat' addr).symm

/-- The rule for inode 7 takes out the record that names it. -/
theorem hides_named_inode_beside :
    ∃ ret after, Returns (modifiedGetdents64 Kernel.shelf hideRule 3 64)
        (Machine.start [[letterDirent 7 102, letterDirent 8 103]] (List.replicate 64 0)) ret after ∧
      ∀ d ∈ [letterDirent 7 102, letterDirent 8 103],
        (Kernel.shelf.drops hideRule ((Machine.start [[letterDirent 7 102, letterDirent 8 103]]
          (List.replicate 64 0)).answered Kernel.shelf (.getdents64 3 64)) 42 d = true ↔
          (shelf []).Hidden hideRule 0 d) := by
  obtain ⟨ret, after, ran, _, right⟩ := hides_named_inode_iff hideRule
    (@Kernel.shelf_delivers [letterDirent 7 102, letterDirent 8 103] (List.replicate 64 0) 3 64
      (by decide)) (by decide) (shelf []) 0
  refine ⟨ret, after, ran, List.forall_mem_cons.mpr ⟨?_, List.forall_mem_cons.mpr ⟨?_, by simp⟩⟩⟩
  · exact (right _ (by simp)).mpr (.inl ⟨Kernel.shelf_copies 3 64 (by decide), by
      simp [Hidden, hideRule, shelf, letterDirent, FileNode.make]⟩)
  · exact (right _ (by simp)).mpr (.inr ⟨by
      simp [Hidden, hideRule, shelf, letterDirent, FileNode.make], fun _ => by
      simp [Agrees, hideRule, shelf, letterDirent, FileNode.make]⟩)

/-- With a rule for inode 7 of one filesystem the hook takes out inode 7 of another, and
a record of the first whose number has a high bit more. -/
theorem collisions_dropped :
    ∃ ret after, Returns (modifiedGetdents64 Kernel.shelf hideRule 3 64)
        (Machine.start [[letterDirent 7 102, letterDirent 4294967303 104, letterDirent 8 103]]
          (List.replicate 64 0)) ret after ∧
      readDirents (after.userBuf.take ret.toUInt32.toNat) = some [(letterDirent 8 103).view] ∧
      ¬ (shelf []).Hidden hideRule 1 (letterDirent 7 102) ∧
      ¬ (shelf []).Hidden hideRule 0 (letterDirent 4294967303 104) := by
  obtain ⟨ret, after, ran, _, left, _⟩ := (@Kernel.shelf_delivers
    [letterDirent 7 102, letterDirent 4294967303 104, letterDirent 8 103] (List.replicate 64 0) 3 64
    (by decide)).filtered hideRule (Kernel.shelf_copies 3 64 (by decide)) (by decide)
  refine ⟨ret, after, ran, ?_, ?_, ?_⟩
  · rw [left, readDirents_filteredBytes (by decide)]
    decide
  · simp [Hidden, hideRule, shelf, letterDirent, FileNode.make]
  · simp [Hidden, hideRule, shelf, letterDirent, FileNode.make]

end Examples

end Identities

end FsProtection
