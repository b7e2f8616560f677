import FsProtection.Hooks.Naming

/-!
# The directory `modified_mkdir` looks up

`getParentDirFromFullPath` passes over one slash at the end of a path. Behind an entry with
two or more it cuts one of them off and leaves the entry, and on what a failed assembly
leaves it has no string to cut.
-/

namespace FsProtection

open Base

/-- The path of an entry of a directory, with slashes behind it. -/
def entryPath (directory name : Bytes) (slashes : Nat) : Bytes :=
  directory ++ slash :: name ++ List.replicate slashes slash

/-- Two slashes at the end are one the function passes over and one it cuts at. -/
theorem parentDir_slashes {text : Bytes} (clean : (0 : Byte) ∉ text) (slashes : Nat) :
    parentDir (text ++ List.replicate (slashes + 2) slash) =
      text ++ List.replicate slashes slash := by
  have emptyEnd : slash ∉ ([] : Bytes) := List.not_mem_nil
  have split : text ++ List.replicate (slashes + 2) slash =
      (text ++ List.replicate slashes slash) ++ [slash] ++ [slash] := by
    simp [List.replicate_succ']
  have front : (0 : Byte) ∉ text ++ List.replicate slashes slash := by
    refine List.not_mem_append clean fun member => ?_
    exact absurd (List.eq_of_mem_replicate member) (by decide)
  rw [split, parentDir, initialSlashCount_eq, if_pos List.getLast?_concat,
    parentLoop_two emptyEnd, parentLoop_one emptyEnd, List.append_assoc, List.cons_append,
    cstr_append_zero front]

/-- The directory is left behind an entry with at most one slash, and only there. -/
theorem parentDir_entryPath_iff {directory name : Bytes}
    (clean : (0 : Byte) ∉ directory ++ slash :: name) (nonempty : name ≠ [])
    (noSlash : slash ∉ name) (slashes : Nat) :
    parentDir (entryPath directory name slashes) = directory ↔ slashes ≤ 1 := by
  have cleanDirectory : (0 : Byte) ∉ directory :=
    fun member => clean (List.mem_append_left _ member)
  unfold entryPath
  match slashes with
  | 0 =>
      rw [List.replicate_zero, List.append_nil]
      exact iff_of_true (parentDir_entry cleanDirectory noSlash nonempty) (Nat.zero_le 1)
  | 1 => exact iff_of_true (parentDir_entry_slash cleanDirectory noSlash) (Nat.le_refl 1)
  | slashes + 2 =>
      rw [parentDir_slashes clean]
      refine iff_of_false (fun same => ?_) (by omega)
      have lengths := congrArg List.length same
      simp only [List.length_append, List.length_cons] at lengths
      omega

/-- There is a string to cut down: a full path, or a string left in a block to which
nothing was appended. -/
def PathBuffers.HoldsPath (buffers : PathBuffers) : Prop :=
  ∃ old, buffers.fullpath = some old ∧
    (buffers.path.isSome ∨ (Terminated old ∧ cstr old ≠ []))

theorem PathBuffers.holdsPath_iff (buffers : PathBuffers) (cwd pathname : Bytes) :
    (buffers.Ended ∧ ∃ spelled ∈ buffers.lookedUp cwd pathname, spelled ≠ []) ↔
      buffers.HoldsPath := by
  unfold PathBuffers.Ended PathBuffers.lookedUp PathBuffers.HoldsPath
  cases buffers.fullpath with
  | none => simp
  | some old => cases buffers.path <;> simp

section Spec

variable {σ : Type} {k : Kernel σ} {m : Machine σ}

/-- On a path in a block the function leaves what `parentDir` says. -/
theorem getParentDirFromFullPath_leaves_iff {block : Block} {directory : Bytes}
    (terminated : Terminated block.bytes) (nonempty : cstr block.bytes ≠ []) :
    (∃ cut, Returns (getParentDirFromFullPath (some block)) m (some cut) m ∧
        cstr cut.bytes = directory) ↔
      parentDir (cstr block.bytes) = directory := by
  obtain ⟨bytes, ran, _, content⟩ :=
    getParentDirFromFullPath_returns (m := m) terminated nonempty
  constructor
  · rintro ⟨cut, again, rfl⟩
    obtain ⟨same, _⟩ := ran.unique again
    rw [← Option.some.inj same, content]
  · rintro rfl
    exact ⟨_, ran, content⟩

/-- In front of an empty string there is no byte to read. -/
theorem getParentDirFromFullPath_overruns {block : Block} (terminated : Terminated block.bytes)
    (empty : cstr block.bytes = []) :
    Faults (getParentDirFromFullPath (some block)) m .overrun := by
  have read : Returns (readString (some block)) m [] m :=
    returns_readString_some_iff.mpr ⟨terminated, empty.symm, rfl⟩
  rw [getParentDirFromFullPath, faults_bind_of_returns read, if_pos rfl]
  exact faults_throw_iff.mpr rfl

/-- The call in `modified_mkdir` stays inside a string when the assembly left one. -/
theorem assembled_parent_returns_iff {path : Bytes} {paths : Option Block × Option Block}
    {middle : Machine σ} (assembled : Returns (assemblePath k path) m paths middle) :
    (∃ fullpath after, Returns (getParentDirFromFullPath paths.2) middle fullpath after) ↔
      (k.pathBuffers m.outside m.kmallocs).HoldsPath := by
  obtain ⟨fits, _, _, carries, ended⟩ := (assemblePath_settles path).returned assembled
  have settles := getParentDirFromFullPath_settles (m := middle) carries
  rw [← ended] at settles
  rw [← PathBuffers.holdsPath_iff _ (k.dPath m.outside) (cstr path)]
  exact ⟨fun ⟨_, _, ran⟩ => (settles.returned ran).1, settles.returns⟩

/-- The parent `modified_mkdir` looks up is the directory of the entry exactly when at most
one slash follows the entry, and is cut out of a string exactly when there is one. -/
theorem mkdir_parent_iff :
    (∀ (directory name : Bytes) (slashes : Nat) (block : Block),
      name ≠ [] → slash ∉ name → Terminated block.bytes →
      cstr block.bytes = entryPath directory name slashes →
      ((∃ cut, Returns (getParentDirFromFullPath (some block)) m (some cut) m ∧
          cstr cut.bytes = directory) ↔ slashes ≤ 1)) ∧
    ∀ (path : Bytes) (paths : Option Block × Option Block) (middle : Machine σ),
      Returns (assemblePath k path) m paths middle →
      ((∃ fullpath after, Returns (getParentDirFromFullPath paths.2) middle fullpath after) ↔
        (k.pathBuffers m.outside m.kmallocs).HoldsPath) := by
  refine ⟨?_, fun path paths middle => assembled_parent_returns_iff⟩
  intro directory name slashes block nonempty noSlash terminated content
  have clean : (0 : Byte) ∉ cstr block.bytes := zero_notMem_cstr
  rw [content, entryPath, List.mem_append, not_or] at clean
  have spelled : cstr block.bytes ≠ [] := by simp [content, entryPath]
  rw [getParentDirFromFullPath_leaves_iff terminated spelled, content]
  exact parentDir_entryPath_iff clean.1 nonempty noSlash slashes

end Spec

/-- A block that holds a path and nothing behind its NUL. -/
def pathBlock (path : Bytes) : Block := ⟨0, path ++ [0]⟩

/-- `/home/f/` is cut down to its directory, and `mkdir f` comes that far. -/
theorem home_parent :
    (∃ cut, Returns (getParentDirFromFullPath (some (pathBlock (lit "/home/f/"))))
        (Machine.start () []) (some cut) (Machine.start () []) ∧
      cstr cut.bytes = lit "/home") ∧
    ∃ paths middle, Returns (assemblePath (Kernel.quiet oneFile) (lit "f"))
        (Machine.start () []) paths middle ∧
      ∃ fullpath after, Returns (getParentDirFromFullPath paths.2) middle fullpath after := by
  have exact := mkdir_parent_iff (k := Kernel.quiet oneFile) (m := Machine.start () [])
  refine ⟨(exact.1 (lit "/home") (lit "f") 1 _ (by decide) (by decide) (by decide)
    (by decide)).mpr (Nat.le_refl 1), ?_⟩
  have fits := ((Kernel.quiet_cleared oneFile []).fits_iff 0 (lit "/home") (cstr (lit "f"))).mpr
    (by decide)
  obtain ⟨paths, middle, assembled, _⟩ := (assemblePath_settles (lit "f")).outcome fits
  exact ⟨paths, middle, assembled, (exact.2 _ _ _ assembled).mpr ⟨_, rfl, .inl rfl⟩⟩

/-- Behind two slashes the entry itself is left, and where the scratch buffer is refused the
byte in front of an empty string is read. -/
theorem mkdir_parent_wrong :
    (∃ cut, Returns (getParentDirFromFullPath (some (pathBlock (lit "/home/f//"))))
        (Machine.start () []) (some cut) (Machine.start () []) ∧
      cstr cut.bytes = lit "/home/f") ∧
    Faults (modified (Kernel.refusing (· = 2) oneFile) (Globals.initial (SizedBytes.zeros _))
      (.mkdir (lit "f") 0)) (Machine.start () []) .overrun := by
  refine ⟨(getParentDirFromFullPath_leaves_iff (by decide) (by decide)).mpr (by decide), ?_⟩
  have assembles := assemblePath_settles (k := Kernel.refusing (· = 2) oneFile)
    (m := Machine.start () []) (lit "f")
  obtain ⟨paths, middle, assembled, _, _, carries, ended⟩ :=
    assembles.outcome ⟨fun _ => by decide, fun _ _ scratch => nomatch scratch⟩
  have left : paths.2.map (fun block => cstr block.bytes) = some [] :=
    carries.1.trans (congrArg some (cstr_replicate_zero pathMax))
  obtain ⟨block, isBlock, empty⟩ := Option.map_eq_some_iff.mp left
  have zeros : Terminated (List.replicate pathMax 0) :=
    (zeros_spell (by decide) : Spells _ pathMax []).terminated
  have terminated := ended.mp (fun old there => by cases there; exact .inr zeros) block isBlock
  have cut : Faults (assembleParent (Kernel.refusing (· = 2) oneFile) (lit "f"))
      (Machine.start () []) .overrun := by
    rw [assembleParent, faults_bind_of_returns assembled, isBlock]
    exact faults_bind_iff.mpr (.inl (getParentDirFromFullPath_overruns terminated empty))
  exact faults_bind_iff.mpr (.inl cut)

end FsProtection
