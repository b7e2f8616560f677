import FsProtection.Hooks.StrictAssembly

/-!
# Allocations that fail in a path hook

A hook meets its failures cleanly when the strict one returns, with an error if it has no
path. Hook by hook that is a question about which of its blocks are there.
-/

namespace FsProtection

open Base

section Hooks

variable {σ : Type} {k : Kernel σ} {counts : Bool} {m after : Machine σ}

/-- The hook returns, watched for misused strings and partial lookups, and with an error if
it has no path. -/
def FailsCleanly (hook : StrictM σ (Int32 × Bool)) (m : Machine σ) : Prop :=
  ∃ ret assembled after, Returns hook m (ret, assembled) after ∧ (assembled = false → ret < 0)

/-- A hook that settles meets its failures cleanly when it is safe, and, where it may be
without its path, then answers an error. -/
theorem failsCleanly_iff_of_settles {hook : StrictM σ (Int32 × Bool)} {safe clean : Prop}
    {post : Int32 × Bool → Machine σ → Prop} (settles : Settles hook m safe post)
    (answers : safe → ∀ ret assembled after, post (ret, assembled) after →
      ((assembled = false → ret < 0) ↔ clean)) :
    FailsCleanly hook m ↔ safe ∧ clean := by
  constructor
  · rintro ⟨ret, assembled, after, ran, negative⟩
    obtain ⟨isSafe, holds⟩ := settles.returned ran
    exact ⟨isSafe, (answers isSafe ret assembled after holds).mp negative⟩
  · rintro ⟨isSafe, isClean⟩
    obtain ⟨⟨ret, assembled⟩, after, ran, holds⟩ := settles.outcome isSafe
    exact ⟨ret, assembled, after, ran, (answers isSafe ret assembled after holds).mpr isClean⟩

/-- What is asked of an assembly that has to be whole. -/
theorem uncounted_iff {buffers : PathBuffers} {fits : Prop} :
    (fits ∧ (buffers.Joins → counts = false)) ∧ buffers.Complete ↔
      counts = false ∧ buffers.Complete ∧ fits := by
  constructor
  · rintro ⟨⟨isFit, excused⟩, isComplete⟩
    exact ⟨excused isComplete.2, isComplete, isFit⟩
  · rintro ⟨uncounted, isComplete, isFit⟩
    exact ⟨⟨isFit, fun _ => uncounted⟩, isComplete⟩

theorem guardUnlink_failsCleanly_iff {globals : Globals} (pathname : Bytes) (call : Syscall) :
    FailsCleanly (Strict.guardUnlink k globals counts pathname call) m ↔
      counts = false ∧ (k.pathBuffers m.outside m.kmallocs).Complete ∧
        (k.pathBuffers m.outside m.kmallocs).Fits (k.dPath m.outside) (cstr pathname) := by
  have settles : Settles (Strict.guardUnlink k globals counts pathname call) m
      (((k.pathBuffers m.outside m.kmallocs).Fits (k.dPath m.outside) (cstr pathname) ∧
        ((k.pathBuffers m.outside m.kmallocs).Joins → counts = false)) ∧
          (k.pathBuffers m.outside m.kmallocs).Complete)
      fun answer _ => answer.2 = true := by
    refine (Strict.assemblePath_settles pathname).bind fun _ paths first said => ?_
    obtain ⟨⟨_, _, carries, _⟩, complete, _⟩ := said
    have guards := Strict.guardAssembled_settles (k := k) (m := first) globals carries complete
      (fun isComplete => isComplete.lookedUp_ne_none _ _) .del call
    refine guards.andThen fun isComplete result second _ => ?_
    obtain ⟨third, released, _⟩ := releasePaths_unseen paths.pointers second
    exact Strict.finish_settles ⟨third, released⟩ (complete.mpr isComplete)
  rw [failsCleanly_iff_of_settles settles fun _ _ _ _ holds =>
    iff_of_true (fun missing => absurd missing (ne_false_of_eq_true holds)) trivial, and_true]
  exact uncounted_iff

theorem modifiedMkdir_failsCleanly_iff {globals : Globals} (path : Bytes) (mode : UInt32) :
    FailsCleanly (Strict.modifiedMkdir k globals counts path mode) m ↔
      counts = false ∧ (k.pathBuffers m.outside m.kmallocs).Complete ∧
        (k.pathBuffers m.outside m.kmallocs).Fits (k.dPath m.outside) (cstr path) := by
  have settles : Settles (Strict.modifiedMkdir k globals counts path mode) m
      (((k.pathBuffers m.outside m.kmallocs).Fits (k.dPath m.outside) (cstr path) ∧
        ((k.pathBuffers m.outside m.kmallocs).Joins → counts = false)) ∧
          (k.pathBuffers m.outside m.kmallocs).Complete)
      fun answer _ => answer.2 = true := by
    refine (Strict.assemblePath_settles path).bind fun _ paths first said => ?_
    obtain ⟨⟨_, _, carries, ended⟩, complete, written⟩ := said
    have handed : (k.pathBuffers m.outside m.kmallocs).Complete →
        ∃ full, paths.full = some full ∧ full.written = true := by
      intro isComplete
      obtain ⟨text, isText, _⟩ := isComplete.lookedUp (k.dPath m.outside) (cstr path)
      rw [Option.mem_def, ← carries.1] at isText
      obtain ⟨block, isBlock, _⟩ := Option.map_eq_some_iff.mp isText
      obtain ⟨full, isFull, _⟩ := Option.map_eq_some_iff.mp isBlock
      exact ⟨full, isFull, (written full isFull).trans isComplete.2.2⟩
    refine Strict.stringArgument_settles.bindNeeded handed fun _ _ second same => ?_
    subst same
    refine (getParentDirFromFullPath_settles carries).widen.bindNeeded
      (fun isComplete => ⟨ended.mp isComplete.ended, isComplete.lookedUp _ _⟩)
      fun _ fullpath third cut => ?_
    obtain ⟨rfl, carriesParent⟩ := cut
    have guards := Strict.guardAssembled_settles (k := k) (m := third) globals carriesParent
      complete (fun isComplete null => isComplete.lookedUp_ne_none _ _
        (Option.map_eq_none_iff.mp null)) .mkdir (.mkdir path mode)
    refine guards.andThen fun isComplete result fourth _ => ?_
    obtain ⟨fifth, released, _⟩ := releasePaths_unseen (pointer paths.name, fullpath) fourth
    exact Strict.finish_settles ⟨fifth, released⟩ (complete.mpr isComplete)
  rw [failsCleanly_iff_of_settles settles fun _ _ _ _ holds =>
    iff_of_true (fun missing => absurd missing (ne_false_of_eq_true holds)) trivial, and_true]
  exact uncounted_iff

theorem modifiedChdir_failsCleanly_iff {globals : Globals} (path : Bytes) :
    FailsCleanly (Strict.modifiedChdir k globals path) m ↔
      (k.kmalloc m.outside m.kmallocs pathMax).isSome ∧ (cstr path).length < pathMax := by
  have settles : Settles (Strict.modifiedChdir k globals path) m
      (((k.kmalloc m.outside m.kmallocs pathMax).isSome → (cstr path).length < pathMax) ∧
        (k.kmalloc m.outside m.kmallocs pathMax).isSome)
      fun answer _ => answer.2 = true := by
    refine (Strict.copyStringFromUser_settles path).bind fun _ fullpath first said => ?_
    obtain ⟨carries, code⟩ := said
    have allocated : decide (fullpath.1 = 0) = true ↔
        (k.kmalloc m.outside m.kmallocs pathMax).isSome := decide_eq_true_iff.trans code
    have guards := Strict.guardAssembled_settles (k := k) (m := first) globals carries allocated
      (fun given null => by simp [Option.map_eq_none_iff.mp null] at given) .hide (.chdir path)
    refine guards.andThen fun given result second _ => ?_
    obtain ⟨third, freed, _⟩ := kfree_unseen (pointer fullpath.2) second
    exact Strict.finish_settles ⟨third, freed⟩ (allocated.mpr given)
  rw [failsCleanly_iff_of_settles settles fun _ _ _ _ holds =>
    iff_of_true (fun missing => absurd missing (ne_false_of_eq_true holds)) trivial, and_true,
    and_comm]
  exact and_congr_right fun given => forall_prop_of_true given

/-- `modified_rmdir` has called the original before it copies, and answers what that
answered. -/
theorem modifiedRmdir_failsCleanly_iff (path : Bytes) :
    FailsCleanly (Strict.modifiedRmdir k path) m ↔
      if (k.kmalloc (m.answered k (.rmdir path)).outside m.kmallocs pathMax).isSome then
        (cstr path).length < pathMax
      else (k.origin (.rmdir path) m.outside m.userBuf).1 < 0 := by
  have called : Returns (callOrigin k (.rmdir path)) m
      (k.origin (.rmdir path) m.outside m.userBuf).1 (m.answered k (.rmdir path)) :=
    returns_callOrigin_iff.mpr ⟨rfl, rfl⟩
  have count : (m.answered k (.rmdir path)).kmallocs = m.kmallocs := rfl
  have settles : Settles (Strict.modifiedRmdir k path) m
      ((k.kmalloc (m.answered k (.rmdir path)).outside m.kmallocs pathMax).isSome →
        (cstr path).length < pathMax)
      fun answer _ => answer.1 = (k.origin (.rmdir path) m.outside m.userBuf).1 ∧
        (answer.2 = true ↔
          (k.kmalloc (m.answered k (.rmdir path)).outside m.kmallocs pathMax).isSome) := by
    refine .after (returns_strictly_iff.mpr called) ?_
    refine (Strict.copyStringFromUser_settles path).andThen fun _ fullpath first said => ?_
    obtain ⟨second, freed, _⟩ := kfree_unseen (pointer fullpath.2) first
    exact Strict.finish_settles ⟨second, freed⟩ ⟨rfl, decide_eq_true_iff.trans said.2⟩
  have answers : ∀ ret assembled,
      ret = (k.origin (.rmdir path) m.outside m.userBuf).1 ∧ (assembled = true ↔
        (k.kmalloc (m.answered k (.rmdir path)).outside m.kmallocs pathMax).isSome) →
      ((assembled = false → ret < 0) ↔
        (¬ (k.kmalloc (m.answered k (.rmdir path)).outside m.kmallocs pathMax).isSome →
          (k.origin (.rmdir path) m.outside m.userBuf).1 < 0)) := by
    rintro ret assembled ⟨rfl, code⟩
    rw [← code, Bool.not_eq_true]
  rw [failsCleanly_iff_of_settles settles fun _ ret assembled _ => answers ret assembled]
  split
  · next allocated => simp [allocated]
  · next refused => simp [refused]

/-- What remains for a rename that could not assemble its new path: it must be refused, or
the original must answer an error. -/
def Kernel.RenameFails (k : Kernel σ) (globals : Globals) (m : Machine σ) (old new : Bytes) :
    Prop :=
  (∃ key ∈ (k.pathBuffers m.outside m.kmallocs).lookedUp (k.dPath m.outside) (cstr old),
    globals.fileListRoot.any (k.pathMatches key .rename) = true) ∨
  (k.origin (.rename old new) m.outside m.userBuf).1 < 0

/-- The second assembly of a rename finds the blocks that the first one has left. -/
theorem Strict.assembleLater_settles {first : Machine σ} (new : Bytes) (unseen : Unseen m first)
    (count : first.kmallocs = m.kmallocs + 2 +
      (if (k.pathBuffers m.outside m.kmallocs).fullpath.isSome then 1 else 0)) :
    Settles (Strict.assemblePath k counts new) first
      ((k.laterBuffers m).Fits (k.dPath m.outside) (cstr new) ∧
        ((k.laterBuffers m).Joins → counts = false))
      fun paths after => Unseen m after ∧
        ((k.laterBuffers m).Ended ↔ ∀ block ∈ pointer paths.full, Terminated block.bytes) ∧
        (paths.assembled = true ↔ (k.laterBuffers m).Complete) := by
  have settles := @Strict.assemblePath_settles _ k counts first new
  rw [unseen.outside, count] at settles
  exact settles.imp Iff.rfl fun _ _ _ outcome =>
    ⟨unseen.trans outcome.1.1, outcome.1.2.2.2, outcome.2.1⟩

/-- A strict rename needs both assemblies and the first path whole; the second path may be
missing. -/
theorem Strict.modifiedRename_settles {globals : Globals} (old new : Bytes) :
    Settles (Strict.modifiedRename k globals counts old new) m
      (((k.pathBuffers m.outside m.kmallocs).Fits (k.dPath m.outside) (cstr old) ∧
          ((k.pathBuffers m.outside m.kmallocs).Joins → counts = false)) ∧
        ((k.laterBuffers m).Fits (k.dPath m.outside) (cstr new) ∧
          ((k.laterBuffers m).Joins → counts = false)) ∧
        (k.laterBuffers m).Ended ∧ (k.pathBuffers m.outside m.kmallocs).Complete)
      fun answer _ => (answer.2 = true ↔ (k.laterBuffers m).Complete) ∧
        (answer.1 < 0 ↔ k.RenameFails globals m old new) := by
  have prints : ∀ {path : Option Block} {first : Machine σ},
      Settles (strictly (printkString path)) first (∀ block ∈ path, Terminated block.bytes)
        fun _ after => after = first := printkString_settles.widen
  refine (Strict.assemblePath_settles old).bind fun _ oldpaths first said => ?_
  obtain ⟨⟨unseen, count, carries, ended⟩, complete, _⟩ := said
  refine (Strict.assembleLater_settles new unseen count).bind fun _ newpaths second later => ?_
  obtain ⟨unseenNew, endedNew, completeNew⟩ := later
  refine prints.bindNeeded (fun isSafe => ended.mp isSafe.2.ended) fun _ _ third same => ?_
  subst same
  refine (prints.imp endedNew.symm fun _ _ _ same => same).bind fun _ _ fourth same => ?_
  subst same
  have guards := Strict.guardAssembled_settles (k := k) (m := fourth) globals carries complete
    (fun isComplete => isComplete.lookedUp_ne_none _ _) .rename (.rename old new)
  refine guards.andThen fun isComplete result fifth answer => ?_
  rw [unseenNew.outside, unseenNew.userBuf] at answer
  obtain ⟨sixth, released, _⟩ :=
    releaseRename_unseen (oldpaths.pointers, newpaths.pointers) fifth
  refine Strict.finish_settles ⟨sixth, released⟩ ⟨?_, answer⟩
  rw [complete.mpr isComplete, Bool.true_and]
  exact completeNew

theorem modifiedRename_failsCleanly_iff {globals : Globals} (old new : Bytes) :
    FailsCleanly (Strict.modifiedRename k globals counts old new) m ↔
      counts = false ∧ (k.pathBuffers m.outside m.kmallocs).Complete ∧
        (k.pathBuffers m.outside m.kmallocs).Fits (k.dPath m.outside) (cstr old) ∧
        (k.laterBuffers m).Fits (k.dPath m.outside) (cstr new) ∧ (k.laterBuffers m).Ended ∧
        ((k.laterBuffers m).Complete ∨ k.RenameFails globals m old new) := by
  have answers : ∀ (ret : Int32) (assembled : Bool),
      (assembled = true ↔ (k.laterBuffers m).Complete) ∧
        (ret < 0 ↔ k.RenameFails globals m old new) →
      ((assembled = false → ret < 0) ↔
        ((k.laterBuffers m).Complete ∨ k.RenameFails globals m old new)) := by
    rintro ret assembled ⟨whole, fails⟩
    rw [← whole, ← fails, ← Bool.not_eq_true, or_iff_not_imp_left]
  rw [failsCleanly_iff_of_settles (Strict.modifiedRename_settles old new)
    fun _ ret assembled _ => answers ret assembled]
  constructor
  · rintro ⟨⟨⟨fits, excused⟩, ⟨fitsNew, _⟩, endedNew, isComplete⟩, clean⟩
    exact ⟨excused isComplete.2, isComplete, fits, fitsNew, endedNew, clean⟩
  · rintro ⟨uncounted, isComplete, fits, fitsNew, endedNew, clean⟩
    exact ⟨⟨⟨fits, fun _ => uncounted⟩, ⟨fitsNew, fun _ => uncounted⟩, endedNew, isComplete⟩,
      clean⟩

end Hooks

/-- When a hook meets its failures cleanly, `counts` being whether appending to a block
that nothing was written to counts. -/
def Kernel.FailsSafe {σ : Type} (k : Kernel σ) (globals : Globals) (counts : Bool)
    (m : Machine σ) : PathHook → Prop
  | .mkdir path _ =>
      counts = false ∧ (k.pathBuffers m.outside m.kmallocs).Complete ∧
        (k.pathBuffers m.outside m.kmallocs).Fits (k.dPath m.outside) (cstr path)
  | .chdir path =>
      (k.kmalloc m.outside m.kmallocs pathMax).isSome ∧ (cstr path).length < pathMax
  | .rmdir pathname =>
      if (k.kmalloc (m.answered k (.rmdir pathname)).outside m.kmallocs pathMax).isSome then
        (cstr pathname).length < pathMax
      else (k.origin (.rmdir pathname) m.outside m.userBuf).1 < 0
  | .unlinkat _ pathname _ =>
      counts = false ∧ (k.pathBuffers m.outside m.kmallocs).Complete ∧
        (k.pathBuffers m.outside m.kmallocs).Fits (k.dPath m.outside) (cstr pathname)
  | .unlink pathname =>
      counts = false ∧ (k.pathBuffers m.outside m.kmallocs).Complete ∧
        (k.pathBuffers m.outside m.kmallocs).Fits (k.dPath m.outside) (cstr pathname)
  | .rename old new =>
      counts = false ∧ (k.pathBuffers m.outside m.kmallocs).Complete ∧
        (k.pathBuffers m.outside m.kmallocs).Fits (k.dPath m.outside) (cstr old) ∧
        (k.laterBuffers m).Fits (k.dPath m.outside) (cstr new) ∧ (k.laterBuffers m).Ended ∧
        ((k.laterBuffers m).Complete ∨ k.RenameFails globals m old new)

section Refusals

variable {σ : Type} {k : Kernel σ} {globals : Globals} {m : Machine σ}

/-- A hook returns without a misused string or a partial lookup, and with an error where it
has no path, exactly under these conditions on the answers to its allocations. -/
theorem failsCleanly_iff (counts : Bool) (call : PathHook) :
    FailsCleanly (Strict.modified k globals counts call) m ↔
      k.FailsSafe globals counts m call := by
  cases call with
  | mkdir path mode => exact modifiedMkdir_failsCleanly_iff path mode
  | chdir path => exact modifiedChdir_failsCleanly_iff path
  | rmdir pathname => exact modifiedRmdir_failsCleanly_iff pathname
  | unlinkat dirfd pathname flags => exact guardUnlink_failsCleanly_iff pathname _
  | unlink pathname => exact guardUnlink_failsCleanly_iff pathname _
  | rename old new => exact modifiedRename_failsCleanly_iff old new

end Refusals

/-- Where the full path is refused `modified_mkdir` hands NULL to `strlen`; where its scratch
buffer is refused `modified_unlink` looks up a block nothing was written to. -/
theorem refused_blocks_misused :
    ¬ FailsCleanly (Strict.modified (Kernel.refusing (· = 1) oneFile)
        (Globals.initial (SizedBytes.zeros _)) false (.mkdir (lit "f") 0))
        (Machine.start () []) ∧
      Faults (modified (Kernel.refusing (· = 1) oneFile) (Globals.initial (SizedBytes.zeros _))
        (.mkdir (lit "f") 0)) (Machine.start () []) .badPointer ∧
      ¬ FailsCleanly (Strict.modified (Kernel.refusing (· = 2) oneFile)
        (Globals.initial (SizedBytes.zeros _)) false (.unlink (lit "f")))
        (Machine.start () []) := by
  refine ⟨fun clean => ?_, ?_, fun clean => ?_⟩
  · obtain ⟨_, complete, _⟩ := (modifiedMkdir_failsCleanly_iff (lit "f") 0).mp clean
    exact Bool.false_ne_true complete.2.1
  · have assembles := assemblePath_settles (k := Kernel.refusing (· = 1) oneFile)
      (m := Machine.start () []) (lit "f")
    obtain ⟨paths, middle, assembled, _, _, carries, _⟩ :=
      assembles.outcome ⟨fun _ => by decide, fun _ there _ => by cases there⟩
    have refused : paths.2 = none := Option.map_eq_none_iff.mp carries.1
    have cut : Faults (assembleParent (Kernel.refusing (· = 1) oneFile) (lit "f"))
        (Machine.start () []) .badPointer := by
      rw [assembleParent, faults_bind_of_returns assembled, refused]
      exact faults_bind_iff.mpr (.inl (faults_bind_iff.mpr
        (.inl (faults_readString_none_iff.mpr rfl))))
    exact faults_bind_iff.mpr (.inl cut)
  · obtain ⟨_, complete, _⟩ := (guardUnlink_failsCleanly_iff (lit "f") _).mp clean
    exact Bool.false_ne_true complete.2.2

end FsProtection
