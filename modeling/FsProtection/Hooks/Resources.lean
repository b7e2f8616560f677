import FsProtection.Hooks.Listing
import FsProtection.Hooks.Notices

/-!
# What a hook takes and gives back

`Machine.held` lists the blocks, open files and references to the working directory taken
and not given back. `Kernel.leaked` is what a call adds to it: a reference for each path
`getfullPath` assembles, and the copy of a directory buffer that fell short.
-/

namespace FsProtection

open Base

/-- The entry of a block in the ledger; none for NULL. -/
def heldBlock (path : Option Block) : List Resource :=
  path.toList.map fun block => .block block.id

/-- The full path and the scratch buffer are there, so that `getfullPath` gets as far as
the working directory. -/
def PathBuffers.Joins (buffers : PathBuffers) : Prop :=
  buffers.fullpath.isSome ∧ buffers.path.isSome

instance (buffers : PathBuffers) : Decidable buffers.Joins :=
  inferInstanceAs (Decidable (_ ∧ _))

/-- The reference `getfullPath` takes there. -/
def PathBuffers.reference (buffers : PathBuffers) : List Resource :=
  if buffers.Joins then [.pwd] else []

section Model

variable {σ : Type} (k : Kernel σ) (m : Machine σ)

/-- The caller's buffer, when `modified_getdents64` copies it, is copied whole. -/
def Kernel.CopiesWhole (bufLength : UInt32) : Prop :=
  0 < bufLength → (k.kmalloc m.outside m.kmallocs bufLength.toNat).isSome →
    bufLength.toNat ≤ min (k.readable m.outside) m.userBuf.length

instance (bufLength : UInt32) : Decidable (k.CopiesWhole m bufLength) :=
  inferInstanceAs (Decidable (_ → _ → _))

/-- The block `modified_getdents64` does not free. -/
def Kernel.leakedCopy (bufLength : UInt32) : List Resource :=
  if k.CopiesWhole m bufLength then [] else [.block m.kmallocs]

/-- What a call takes and does not give back. -/
def Kernel.leaked : Syscall → List Resource
  | .mkdir _ _ => (k.pathBuffers m.outside m.kmallocs).reference
  | .getdents64 fd count =>
      k.leakedCopy (m.answered k (.getdents64 fd count))
        (k.origin (.getdents64 fd count) m.outside m.userBuf).1.toUInt32
  | .unlinkat _ _ _ => (k.pathBuffers m.outside m.kmallocs).reference
  | .unlink _ => (k.pathBuffers m.outside m.kmallocs).reference
  | .rename _ _ =>
      (k.laterBuffers m).reference ++ (k.pathBuffers m.outside m.kmallocs).reference
  | _ => []

/-- A call that takes nothing it does not give back: no path is joined to the working
directory, and a directory buffer that is copied is copied whole. -/
def Kernel.GivesBack : Syscall → Prop
  | .mkdir _ _ => ¬ (k.pathBuffers m.outside m.kmallocs).Joins
  | .getdents64 fd count =>
      k.CopiesWhole (m.answered k (.getdents64 fd count))
        (k.origin (.getdents64 fd count) m.outside m.userBuf).1.toUInt32
  | .unlinkat _ _ _ => ¬ (k.pathBuffers m.outside m.kmallocs).Joins
  | .unlink _ => ¬ (k.pathBuffers m.outside m.kmallocs).Joins
  | .rename _ _ =>
      ¬ (k.pathBuffers m.outside m.kmallocs).Joins ∧ ¬ (k.laterBuffers m).Joins
  | _ => True

end Model

section Helpers

variable {σ : Type} {k : Kernel σ} {globals : Globals} {m after : Machine σ}

/-- Freeing a block takes its entry out of the ledger. -/
theorem kfree_held {path : Option Block} {front rest : List Resource}
    (holds : m.held = front ++ (heldBlock path ++ rest))
    (apart : ∀ block ∈ path, .block block.id ∉ front) {value : Unit}
    (ran : Returns (kfree path) m value after) : after.held = front ++ rest := by
  cases path with
  | none =>
      rw [returns_kfree_none_iff.mp ran]
      exact holds
  | some block =>
      rw [returns_kfree_some_iff.mp ran, holds, List.erase_append_right _ (apart block rfl)]
      simp [heldBlock]

/-- A copy of a pathname is one block more, made by the next call of `kmalloc`. -/
theorem copyStringFromUser_held {userstring : Bytes} {answer : Int × Option Block}
    (ran : Returns (copyStringFromUser k userstring) m answer after) :
    after.held = heldBlock answer.2 ++ m.held ∧ after.kmallocs = m.kmallocs + 1 ∧
      after.outside = m.outside ∧ ∀ block ∈ answer.2, block.id = m.kmallocs := by
  cases allocated : k.kmalloc m.outside m.kmallocs pathMax with
  | none =>
      obtain ⟨rfl, rfl⟩ := ran.unique (returns_copyStringFromUser_null allocated)
      exact ⟨rfl, rfl, rfl, by simp⟩
  | some old =>
      obtain ⟨_, rfl, rfl⟩ := (returns_copyStringFromUser_iff allocated).mp ran
      exact ⟨rfl, rfl, rfl, by simp⟩

/-- A join that has its buffer takes a reference on the working directory, and nothing gives it
back. -/
theorem getfullPath_held {pathname : Option Block} {fullpath : Block} {answer : Bool × Block}
    (size : fullpath.bytes.length = pathMax)
    (ran : Returns (getfullPath k pathname fullpath) m answer after) :
    after.held =
        (if (k.kmalloc m.outside m.kmallocs pathMax).isSome then [.pwd] else []) ++ m.held ∧
      after.kmallocs = m.kmallocs + 1 ∧ after.outside = m.outside ∧
      answer.2.id = fullpath.id := by
  cases allocated : k.kmalloc m.outside m.kmallocs pathMax with
  | none =>
      obtain ⟨rfl, rfl⟩ := ran.unique (returns_getfullPath_null allocated)
      exact ⟨rfl, rfl, rfl, rfl⟩
  | some scratch =>
      obtain ⟨name, rfl, named, room⟩ := getfullPath_returned allocated size ran
      obtain ⟨bytes, expected, _⟩ := getfullPath_returns allocated size named room
      obtain ⟨rfl, rfl⟩ := ran.unique expected
      exact ⟨rfl, rfl, rfl, rfl⟩

/-- What an assembly adds to the ledger in front of what was there. -/
structure Assembled (k : Kernel σ) (m : Machine σ) (paths : Option Block × Option Block)
    (after : Machine σ) : Prop where
  held : after.held = (k.pathBuffers m.outside m.kmallocs).reference ++
    (heldBlock paths.2 ++ (heldBlock paths.1 ++ m.held))
  first : ∀ block ∈ paths.1, block.id = m.kmallocs
  second : ∀ block ∈ paths.2, block.id = m.kmallocs + 1
  outside : after.outside = m.outside
  kmallocs : after.kmallocs =
    m.kmallocs + 2 + (if (k.pathBuffers m.outside m.kmallocs).fullpath.isSome then 1 else 0)

/-- An assembly holds its blocks, and the reference when it joined. -/
theorem assemblePath_assembled {pathname : Bytes} {paths : Option Block × Option Block}
    (ran : Returns (assemblePath k pathname) m paths after) : Assembled k m paths after := by
  obtain ⟨kernelpath, middle, copied, ran⟩ := returns_bind_iff.mp ran
  obtain ⟨fullpath, last, built, ran⟩ := returns_bind_iff.mp ran
  obtain ⟨rfl, rfl⟩ := returns_pure_iff.mp ran
  obtain ⟨heldCopy, count, outside, idCopy⟩ := copyStringFromUser_held copied
  unfold getNewFullPath at built
  cases allocated : k.kmalloc middle.outside middle.kmallocs pathMax with
  | none =>
      have there : (k.pathBuffers m.outside m.kmallocs).fullpath = none := by
        rw [Kernel.pathBuffers, ← outside, ← count, allocated]
      rw [returns_bind_of_returns (returns_kmalloc_none allocated)] at built
      obtain ⟨rfl, rfl⟩ := returns_pure_iff.mp built
      refine ⟨?_, idCopy, by simp, outside, ?_⟩
      · rw [PathBuffers.reference, if_neg (by simp [PathBuffers.Joins, there])]
        exact heldCopy
      · rw [there, count]
        rfl
  | some old =>
      have there : (k.pathBuffers m.outside m.kmallocs).fullpath = some old := by
        rw [Kernel.pathBuffers, ← outside, ← count, allocated]
      rw [returns_bind_of_returns (returns_kmalloc_some allocated)] at built
      obtain ⟨temp, ended, joined, built⟩ := returns_bind_iff.mp built
      obtain ⟨rfl, rfl⟩ := returns_pure_iff.mp built
      obtain ⟨heldPath, countPath, outsidePath, idPath⟩ :=
        getfullPath_held (k.kmallocLength allocated) joined
      refine ⟨?_, idCopy, ?_, outsidePath.trans outside, ?_⟩
      · have joins : (k.pathBuffers m.outside m.kmallocs).Joins ↔
            (k.pathBuffers m.outside m.kmallocs).path.isSome :=
          and_iff_right (by rw [there]; rfl)
        have scratch : (k.pathBuffers m.outside m.kmallocs).path =
            k.kmalloc m.outside (m.kmallocs + 1 + 1) pathMax := rfl
        simp only [PathBuffers.reference, joins, scratch]
        simp [heldPath, heldCopy, heldBlock, idPath, outside, count]
      · intro block isBlock
        cases isBlock
        exact idPath.trans count
      · rw [countPath, there, count]
        rfl

/-- Blocks with different numbers are held apart. -/
theorem notMem_heldBlock {path : Option Block} {id : Nat}
    (apart : ∀ block ∈ path, block.id ≠ id) : .block id ∉ heldBlock path := by
  intro member
  obtain ⟨block, isBlock, same⟩ := List.mem_map.mp member
  exact apart block (Option.mem_toList.mp isBlock) (Resource.block.inj same)

theorem notMem_reference (buffers : PathBuffers) (id : Nat) : .block id ∉ buffers.reference := by
  unfold PathBuffers.reference
  split <;> simp

/-- The original call takes nothing for the hook, -/
theorem callOrigin_held (call : Syscall) :
    Preserves Machine.held (callOrigin k call) := by
  intro before ret after ran
  rw [(returns_callOrigin_iff.mp ran).2]

/-- nor does the lookup of a path. -/
theorem guardPath_held (path : Option Block) (ptype : ProtectType) (call : Syscall) :
    Preserves Machine.held (guardPath k globals path ptype call) := by
  refine (isPathProtected_preserves (fun _ _ => rfl) path).bind fun hit => ?_
  cases hit with
  | true => exact preserves_pure _
  | false => exact callOrigin_held call

/-- The file that `fget` answers is given back by `fput`, -/
theorem isFdProtected_held (fd : UInt32) (ptype : ProtectType) :
    Preserves Machine.held (isFdProtected k globals fd ptype) := by
  intro before hit after ran
  cases enabled : globals.protectEnabeled with
  | false =>
      obtain ⟨_, rfl⟩ := ran.unique (returns_isFdProtected_disabled enabled fd)
      rfl
  | true =>
      cases found : k.fget fd before.outside with
      | none => exact absurd ran (isFdProtected_closed enabled found)
      | some file =>
          obtain ⟨_, rfl⟩ := ran.unique (returns_isFdProtected_open enabled found)
          rfl

/-- so a guarded descriptor leaves nothing behind. -/
theorem guardFd_held (fd : UInt32) (ptype : ProtectType) (call : Syscall) :
    Preserves Machine.held (guardFd k globals fd ptype call) := by
  refine (isFdProtected_held fd ptype).bind fun hit => ?_
  cases hit with
  | true => exact preserves_pure _
  | false => exact callOrigin_held call

/-- Cutting a path down changes what its block holds, and nothing else. -/
theorem getParentDirFromFullPath_returned {path fullpath : Option Block}
    (ran : Returns (getParentDirFromFullPath path) m fullpath after) :
    after = m ∧ fullpath.map Block.id = path.map Block.id := by
  obtain ⟨text, middle, read, cut⟩ := returns_bind_iff.mp ran
  cases path with
  | none => exact (returns_readString_none_iff.mp read).elim
  | some block =>
      obtain ⟨_, rfl, rfl⟩ := returns_readString_some_iff.mp read
      split at cut
      · exact (returns_throw_iff.mp cut).elim
      · obtain ⟨rfl, rfl⟩ := returns_pure_iff.mp cut
        exact ⟨rfl, rfl⟩

/-- Both blocks of an assembly are freed, and the references in front of them are not. -/
theorem releasePaths_held {paths : Option Block × Option Block} {references rest : List Resource}
    (holds : m.held = references ++ (heldBlock paths.2 ++ (heldBlock paths.1 ++ rest)))
    (kept : ∀ id, .block id ∉ references)
    (apart : ∀ first ∈ paths.1, ∀ second ∈ paths.2, second.id ≠ first.id)
    (ran : Returns (releasePaths paths) m () after) : after.held = references ++ rest := by
  obtain ⟨_, middle, freedFirst, freedSecond⟩ := returns_bind_iff.mp ran
  have between : middle.held = (references ++ heldBlock paths.2) ++ rest := by
    refine kfree_held (by rw [holds, List.append_assoc]) (fun block isBlock => ?_) freedFirst
    exact List.not_mem_append (kept _) (notMem_heldBlock (apart block isBlock))
  rw [List.append_assoc] at between
  exact kfree_held between (fun _ _ => kept _) freedSecond

/-- The two paths are different blocks. -/
theorem Assembled.apart {paths : Option Block × Option Block}
    (assembled : Assembled k m paths after) :
    ∀ first ∈ paths.1, ∀ second ∈ paths.2, second.id ≠ first.id := by
  intro first isFirst second isSecond
  rw [assembled.first first isFirst, assembled.second second isSecond]
  exact Nat.succ_ne_self _

/-- What an assembly took was not there before it. -/
theorem Assembled.notMem_taken {paths : Option Block × Option Block} {id : Nat}
    (assembled : Assembled k m paths after) (early : id < m.kmallocs) :
    .block id ∉ (k.pathBuffers m.outside m.kmallocs).reference ++
      (heldBlock paths.2 ++ heldBlock paths.1) := by
  refine List.not_mem_append (notMem_reference _ _) (List.not_mem_append ?_ ?_)
  · refine notMem_heldBlock fun block isBlock => ?_
    have made := assembled.second block isBlock
    omega
  · refine notMem_heldBlock fun block isBlock => ?_
    have made := assembled.first block isBlock
    omega

/-- The ledger knows a block by the call that made it. -/
theorem Assembled.renewed {paths : Option Block × Option Block} {fullpath : Option Block}
    (assembled : Assembled k m paths after)
    (same : fullpath.map Block.id = paths.2.map Block.id) :
    Assembled k m (paths.1, fullpath) after := by
  have entry : heldBlock fullpath = heldBlock paths.2 := by
    cases fullpath <;> cases there : paths.2 <;> simp_all [heldBlock]
  refine ⟨?_, assembled.first, ?_, assembled.outside, assembled.kmallocs⟩
  · rw [entry]
    exact assembled.held
  · intro block (isBlock : fullpath = some block)
    rw [isBlock, Option.map_some] at same
    obtain ⟨other, isOther, sameId⟩ := Option.map_eq_some_iff.mp same.symm
    exact sameId ▸ assembled.second other isOther

theorem printkString_returned {path : Option Block} {value : Unit}
    (ran : Returns (printkString path) m value after) : after = m :=
  (printkString_settles.returned ran).2

end Helpers

section Hooks

variable {σ : Type} {k : Kernel σ} {globals : Globals} {m after : Machine σ} {ret : Int32}

/-- `unlink` frees both paths and keeps the reference, -/
theorem guardUnlink_held {pathname : Bytes} {call : Syscall}
    (ran : Returns (guardUnlink k globals pathname call) m ret after) :
    after.held = (k.pathBuffers m.outside m.kmallocs).reference ++ m.held := by
  obtain ⟨paths, first, assembled, ran⟩ := returns_bind_iff.mp ran
  obtain ⟨result, second, guarded, ran⟩ := returns_bind_iff.mp ran
  obtain ⟨_, third, freed, ran⟩ := returns_bind_iff.mp ran
  obtain ⟨rfl, rfl⟩ := returns_pure_iff.mp ran
  have ledger := assemblePath_assembled assembled
  exact releasePaths_held ((guardPath_held _ _ _ _ _ _ guarded).trans ledger.held)
    (notMem_reference _) ledger.apart freed

/-- and so does `mkdir`. -/
theorem modifiedMkdir_held {path : Bytes} {mode : UInt32}
    (ran : Returns (modifiedMkdir k globals path mode) m ret after) :
    after.held = (k.pathBuffers m.outside m.kmallocs).reference ++ m.held := by
  obtain ⟨cut, first, prepared, ran⟩ := returns_bind_iff.mp ran
  obtain ⟨paths, whole, assembled, prepared⟩ := returns_bind_iff.mp prepared
  obtain ⟨fullpath, same, parent, prepared⟩ := returns_bind_iff.mp prepared
  obtain ⟨rfl, rfl⟩ := returns_pure_iff.mp prepared
  obtain ⟨rfl, sameBlock⟩ := getParentDirFromFullPath_returned parent
  obtain ⟨result, second, guarded, ran⟩ := returns_bind_iff.mp ran
  obtain ⟨_, third, freed, ran⟩ := returns_bind_iff.mp ran
  obtain ⟨rfl, rfl⟩ := returns_pure_iff.mp ran
  have ledger := (assemblePath_assembled assembled).renewed sameBlock
  exact releasePaths_held ((guardPath_held _ _ _ _ _ _ guarded).trans ledger.held)
    (notMem_reference _) ledger.apart freed

/-- `chdir` joins nothing, and holds nothing at its end, -/
theorem modifiedChdir_held {path : Bytes}
    (ran : Returns (modifiedChdir k globals path) m ret after) : after.held = m.held := by
  obtain ⟨fullpath, first, copied, ran⟩ := returns_bind_iff.mp ran
  obtain ⟨result, second, guarded, ran⟩ := returns_bind_iff.mp ran
  obtain ⟨_, third, freed, ran⟩ := returns_bind_iff.mp ran
  obtain ⟨rfl, rfl⟩ := returns_pure_iff.mp ran
  have taken : second.held = [] ++ (heldBlock fullpath.2 ++ m.held) := by
    rw [guardPath_held _ _ _ _ _ _ guarded, (copyStringFromUser_held copied).1, List.nil_append]
  exact kfree_held taken (fun _ _ => List.not_mem_nil) freed

/-- nor does `rmdir`. -/
theorem modifiedRmdir_held {path : Bytes}
    (ran : Returns (modifiedRmdir k path) m ret after) : after.held = m.held := by
  obtain ⟨result, first, answered, ran⟩ := returns_bind_iff.mp ran
  obtain ⟨fullpath, second, copied, ran⟩ := returns_bind_iff.mp ran
  obtain ⟨_, third, freed, ran⟩ := returns_bind_iff.mp ran
  obtain ⟨rfl, rfl⟩ := returns_pure_iff.mp ran
  have taken : second.held = [] ++ (heldBlock fullpath.2 ++ m.held) := by
    rw [(copyStringFromUser_held copied).1, callOrigin_held _ _ _ _ answered, List.nil_append]
  exact kfree_held taken (fun _ _ => List.not_mem_nil) freed

/-- Both references of a rename stay. -/
theorem modifiedRename_held {old new : Bytes}
    (ran : Returns (modifiedRename k globals old new) m ret after) :
    after.held = (k.laterBuffers m).reference ++
      ((k.pathBuffers m.outside m.kmallocs).reference ++ m.held) := by
  obtain ⟨paths, second, prepared, ran⟩ := returns_bind_iff.mp ran
  obtain ⟨oldpaths, first, assembledOld, prepared⟩ := returns_bind_iff.mp prepared
  obtain ⟨newpaths, last, assembledNew, prepared⟩ := returns_bind_iff.mp prepared
  obtain ⟨_, third, printedOld, prepared⟩ := returns_bind_iff.mp prepared
  obtain ⟨_, fourth, printedNew, done⟩ := returns_bind_iff.mp prepared
  obtain ⟨rfl, rfl⟩ := returns_pure_iff.mp done
  obtain rfl : second = last :=
    (printkString_returned printedNew).trans (printkString_returned printedOld)
  obtain ⟨result, decided, guarded, ran⟩ := returns_bind_iff.mp ran
  obtain ⟨_, released, freed, done⟩ := returns_bind_iff.mp ran
  obtain ⟨rfl, rfl⟩ := returns_pure_iff.mp done
  obtain ⟨_, afterFull, freedFull, freed⟩ := returns_bind_iff.mp freed
  obtain ⟨_, afterOld, freedOld, freedNew⟩ := returns_bind_iff.mp freed
  have ledgerOld := assemblePath_assembled assembledOld
  have ledgerNew := assemblePath_assembled assembledNew
  have later : k.pathBuffers first.outside first.kmallocs = k.laterBuffers m := by
    rw [ledgerOld.outside, ledgerOld.kmallocs, Kernel.laterBuffers]
  have taken := (guardPath_held _ _ _ _ _ _ guarded).trans ledgerNew.held
  rw [ledgerOld.held, later] at taken
  obtain ⟨newer, isNewer⟩ : ∃ newer, newer = ((k.laterBuffers m).reference ++
    (heldBlock newpaths.2 ++ heldBlock newpaths.1)) ++
      (k.pathBuffers m.outside m.kmallocs).reference := ⟨_, rfl⟩
  have older : ∀ block : Block, block.id < m.kmallocs + 2 → .block block.id ∉ newer := by
    intro block early
    have count := ledgerOld.kmallocs
    rw [isNewer, ← later]
    exact List.not_mem_append (ledgerNew.notMem_taken (by omega)) (notMem_reference _ _)
  have both : decided.held =
      newer ++ (heldBlock oldpaths.2 ++ (heldBlock oldpaths.1 ++ m.held)) := by
    rw [taken, isNewer]
    simp only [List.append_assoc]
  have full := kfree_held both
    (fun block isBlock => older block (by rw [ledgerOld.second block isBlock]; omega)) freedFull
  have copy := kfree_held full
    (fun block isBlock => older block (by rw [ledgerOld.first block isBlock]; omega)) freedOld
  rw [isNewer] at copy
  simp only [List.append_assoc] at copy
  obtain ⟨_, afterNew, freedNewFull, freedNewCopy⟩ := returns_bind_iff.mp freedNew
  have fullNew := kfree_held copy (fun _ _ => notMem_reference _ _) freedNewFull
  exact kfree_held fullNew (fun _ _ => notMem_reference _ _) freedNewCopy

theorem copyToUser_held (bytes : Bytes) : Preserves Machine.held (copyToUser k bytes) := by
  intro before left after ran
  simp only [copyToUser, returns_bind_iff, returns_get_iff, returns_set_iff,
    returns_pure_iff] at ran
  obtain ⟨_, _, ⟨rfl, rfl⟩, _, _, rfl, _, rfl⟩ := ran
  rfl

/-- A copy comes short exactly when the buffer or what is readable of it is. -/
theorem copyFromUser_returned {count : Nat} {copy : Bytes × Nat}
    (ran : Returns (copyFromUser k count) m copy after) :
    after = m ∧ (copy.2 ≠ 0 ↔ min (k.readable m.outside) m.userBuf.length < count) := by
  simp only [copyFromUser, returns_bind_iff, returns_get_iff, returns_pure_iff] at ran
  obtain ⟨_, _, ⟨rfl, rfl⟩, rfl, rfl⟩ := ran
  refine ⟨rfl, ?_⟩
  simp only [ne_eq]
  omega

/-- The copy is freed unless the caller's buffer could not be read whole. -/
theorem filterDirents_held {bufLength : UInt32} {dirp2 : Block} {rest : List Resource}
    (holds : m.held = .block dirp2.id :: rest)
    (ran : Returns (filterDirents k globals bufLength dirp2) m ret after) :
    after.held = (if bufLength.toNat ≤ min (k.readable m.outside) m.userBuf.length then []
      else [.block dirp2.id]) ++ rest := by
  by_cases short : min (k.readable m.outside) m.userBuf.length < bufLength.toNat
  · rw [if_neg (Nat.not_le.mpr short)]
    obtain ⟨_, rfl⟩ := ran.unique (filterDirents_short short)
    exact holds
  · rw [if_pos (Nat.not_lt.mp short)]
    obtain ⟨copy, middle, copied, filtered⟩ := returns_bind_iff.mp ran
    obtain ⟨rfl, falls⟩ := copyFromUser_returned copied
    rw [if_neg (mt falls.mp short)] at filtered
    obtain ⟨scan, scanned, walked, shows⟩ := returns_bind_iff.mp filtered
    cases loaded : load scan.dirp2 scan.head scan.modifiedBufLength.toNat with
    | none =>
        rw [loaded] at shows
        exact (returns_throw_iff.mp shows).elim
    | some shown =>
        rw [loaded] at shows
        obtain ⟨_, written, back, frees⟩ := returns_bind_iff.mp shows
        obtain ⟨_, final, freed, done⟩ := returns_bind_iff.mp frees
        obtain ⟨rfl, rfl⟩ := returns_pure_iff.mp done
        have same : scanned.held = middle.held :=
          scanLoop_preserves (fun _ _ => rfl) _ _ _ _ _ _ walked
        have kept : written.held = [] ++ (heldBlock (some dirp2) ++ rest) := by
          rw [copyToUser_held _ _ _ _ back, same, holds]
          rfl
        exact kfree_held kept (fun _ _ => List.not_mem_nil) freed

/-- A copy that comes short is not freed. -/
theorem copyDirents_held {bufLength : UInt32}
    (ran : Returns (copyDirents k globals bufLength) m ret after) :
    after.held = k.leakedCopy m bufLength ++ m.held := by
  unfold copyDirents at ran
  unfold Kernel.leakedCopy
  by_cases positive : 0 < bufLength
  · rw [if_neg (UInt32.not_le.mpr positive)] at ran
    cases allocated : k.kmalloc m.outside m.kmallocs bufLength.toNat with
    | none =>
        rw [returns_bind_of_returns (returns_kmalloc_none allocated)] at ran
        rw [(returns_pure_iff.mp ran).2, if_pos (by simp [Kernel.CopiesWhole, allocated])]
        rfl
    | some old =>
        rw [returns_bind_of_returns (returns_kmalloc_some allocated)] at ran
        have held := filterDirents_held rfl ran
        simpa [Kernel.CopiesWhole, allocated, positive] using held
  · rw [if_pos (UInt32.not_lt.mp positive)] at ran
    have whole : k.CopiesWhole m bufLength := fun isPositive => absurd isPositive positive
    rw [(returns_pure_iff.mp ran).2, if_pos whole, List.nil_append]

/-- After a call that returns the ledger holds what it held, and what the call leaked. -/
theorem modified_held {call : Syscall} (ran : Returns (modified k globals call) m ret after) :
    after.held = k.leaked m call ++ m.held := by
  cases call with
  | mkdir path mode => exact modifiedMkdir_held ran
  | chdir path => exact modifiedChdir_held ran
  | rmdir pathname => exact modifiedRmdir_held ran
  | getdents64 fd count =>
      obtain ⟨answer, middle, answered, ran⟩ := returns_bind_iff.mp ran
      obtain ⟨rfl, rfl⟩ := returns_callOrigin_iff.mp answered
      exact copyDirents_held ran
  | read fd size => exact guardFd_held _ _ _ _ _ _ ran
  | write fd count => exact guardFd_held _ _ _ _ _ _ ran
  | open_ pathname flags mode => exact callOrigin_held _ _ _ _ ran
  | unlinkat dirfd pathname flags => exact guardUnlink_held ran
  | unlink pathname => exact guardUnlink_held ran
  | rename old new => exact (modifiedRename_held ran).trans (List.append_assoc _ _ _).symm
  | renameat olddirfd oldpath newdirfd newpath => exact callOrigin_held _ _ _ _ ran

end Hooks

section Balance

variable {σ : Type} {k : Kernel σ} {globals : Globals} {m after : Machine σ} {ret : Int32}

/-- No reference is kept exactly when nothing was joined. -/
theorem reference_eq_nil_iff {buffers : PathBuffers} :
    buffers.reference = [] ↔ ¬ buffers.Joins := by
  unfold PathBuffers.reference
  split <;> simp_all

/-- A call leaves nothing held exactly when it gives back what it took. -/
theorem leaked_eq_nil_iff (call : Syscall) : k.leaked m call = [] ↔ k.GivesBack m call := by
  cases call with
  | mkdir path mode => exact reference_eq_nil_iff
  | unlinkat dirfd pathname flags => exact reference_eq_nil_iff
  | unlink pathname => exact reference_eq_nil_iff
  | rename old new =>
      unfold Kernel.leaked Kernel.GivesBack
      rw [List.append_eq_nil_iff, reference_eq_nil_iff, reference_eq_nil_iff, and_comm]
  | getdents64 fd count =>
      unfold Kernel.leaked Kernel.GivesBack Kernel.leakedCopy
      simp
  | _ => exact iff_of_true rfl trivial

/-- The ledger is the same after a call that returns exactly when it gives back what it
takes. -/
theorem held_given_back_iff {call : Syscall}
    (ran : Returns (modified k globals call) m ret after) :
    after.held.Perm m.held ↔ k.GivesBack m call := by
  rw [← leaked_eq_nil_iff, modified_held ran]
  constructor
  · intro same
    simpa using same.length_eq
  · intro none
    rw [none]
    exact .refl _

/-- Over a run the references and blocks leaked add up. -/
theorem run_held {waits : Machine σ → Machine σ → Prop} {steps : List (HookedCall σ)}
    {start final : Machine σ} (run : Run k globals waits start steps final)
    (kept : ∀ earlier later, waits earlier later → later.held = earlier.held) :
    final.held.Perm
      (steps.flatMap (fun step => k.leaked step.before step.call) ++ start.held) := by
  induction run with
  | refl => exact .refl _
  | @step steps last next prior waited ran ih =>
      rw [List.flatMap_append, List.flatMap_singleton, modified_held ran, kept _ _ waited]
      have back := List.Perm.append_left (k.leaked next.before next.call) ih
      refine back.trans ?_
      rw [← List.append_assoc]
      exact List.Perm.append_right _ List.perm_append_comm

end Balance

/-- A directory buffer is copied whole and its copy freed; a path whose scratch block is
refused has its two other blocks freed. -/
theorem copies_given_back :
    (∃ ret after, Returns (modified Kernel.shelf hideRule (.getdents64 3 64))
      (Machine.start [[letterDirent 7 102, letterDirent 8 103]] (List.replicate 64 0)) ret after ∧
      after.held.Perm []) ∧
    ∃ ret after, Returns (modified (Kernel.refusing (· = 2) oneFile)
      (Globals.initial (SizedBytes.zeros _)) (.unlink (lit "f"))) (Machine.start () []) ret after ∧
      after.held.Perm [] := by
  constructor
  · have serves : Kernel.shelf.Serves hideRule 3 64
        [[letterDirent 7 102, letterDirent 8 103]] [[letterDirent 7 102, letterDirent 8 103]] :=
      Kernel.shelf_serves hideRule 3 (by decide) (by decide)
    obtain ⟨ret, after, ran, _⟩ := serves.step
      (m := Machine.start [[letterDirent 7 102, letterDirent 8 103]] (List.replicate 64 0))
      (by decide)
    have called : Returns (modified Kernel.shelf hideRule (.getdents64 3 64)) _ ret after := ran
    have whole : Kernel.shelf.GivesBack
        (Machine.start [[letterDirent 7 102, letterDirent 8 103]] (List.replicate 64 0))
        (.getdents64 3 64) := by
      unfold Kernel.GivesBack
      decide
    exact ⟨ret, after, called, (held_given_back_iff called).mpr whole⟩
  · have guards := guardUnlink_guards (Kernel.refusing (· = 2) oneFile)
      (Globals.initial (SizedBytes.zeros _)) (Machine.start () []) (lit "f") (.unlink (lit "f"))
    obtain ⟨ret, after, ran, _⟩ := guards.outcome
      ⟨⟨fun _ => by decide, fun _ _ scratch => nomatch scratch⟩, fun _ => rfl⟩
    have called : Returns (modified (Kernel.refusing (· = 2) oneFile)
      (Globals.initial (SizedBytes.zeros _)) (.unlink (lit "f"))) (Machine.start () []) ret
      after := ran
    have apart : (Kernel.refusing (· = 2) oneFile).GivesBack (Machine.start () [])
        (.unlink (lit "f")) := by
      unfold Kernel.GivesBack
      decide
    exact ⟨ret, after, called, (held_given_back_iff called).mpr apart⟩

/-- A path that is joined leaves its reference to the working directory behind. -/
theorem unlink_keeps_reference : ∃ ret after,
    Returns (modified (Kernel.quiet oneFile) (Globals.initial (SizedBytes.zeros _))
      (.unlink (lit "f"))) (Machine.start () []) ret after ∧
      ¬ after.held.Perm (Machine.start () []).held := by
  have guards := guardUnlink_guards (Kernel.quiet oneFile) (Globals.initial (SizedBytes.zeros _))
    (Machine.start () []) (lit "f") (.unlink (lit "f"))
  have fits := ((Kernel.quiet_cleared oneFile []).fits_iff 0 (lit "/home") (cstr (lit "f"))).mpr
    (by decide)
  obtain ⟨ret, after, ran, _⟩ := guards.outcome ⟨fits, fun _ => rfl⟩
  refine ⟨ret, after, ran, fun same => ?_⟩
  have ledger : after.held = .pwd :: [] := guardUnlink_held ran
  rw [ledger] at same
  exact absurd same.length_eq (by decide)

end FsProtection
