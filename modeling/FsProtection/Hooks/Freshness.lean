import FsProtection.Hooks.Naming

/-!
# What a block held before

`getNewFullPath` appends to the block `kmalloc` hands it, and does not clear it: the path
it leaves begins with the string the block held before. `Kernel.recalling` varies the old
contents of the blocks of a kernel and nothing else.
-/

namespace FsProtection

open Base

/-- The old contents of the blocks `kmalloc` hands out, by allocation and size. -/
abbrev OldContents (σ : Type) := σ → Nat → (size : Nat) → SizedBytes size

section Model

variable {σ : Type} (k : Kernel σ)

/-- The kernel whose allocations succeed where those of another do, with other old
contents in the blocks. -/
def Kernel.recalling (old : OldContents σ) : Kernel σ :=
  { k with
    kmalloc := fun state index size =>
      (k.kmalloc state index size).map fun _ => (old state index size).1
    kmallocLength := by
      intro state index size bytes allocated
      obtain ⟨_, _, rfl⟩ := Option.map_eq_some_iff.mp allocated
      exact (old state index size).2
    kmallocLimit := by
      intro state index size large
      rw [k.kmallocLimit large, Option.map_none] }

/-- Where the assemblies of a call begin among the allocations, and their pathnames. -/
def PathCall.assemblies (m : Machine σ) : PathCall → List (Nat × Bytes)
  | .unlink pathname => [(m.kmallocs, cstr pathname)]
  | .unlinkat _ pathname _ => [(m.kmallocs, cstr pathname)]
  | .rename old new =>
      [(m.kmallocs, cstr old),
        (m.kmallocs + 2 + (if (k.pathBuffers m.outside m.kmallocs).fullpath.isSome then 1 else 0),
          cstr new)]
  | .mkdir path _ => [(m.kmallocs, cstr path)]
  | .chdir _ => []

/-- `getNewFullPath`, handed a block, leaves in it the working directory, a slash and the
pathname. -/
def LeavesExactly (m : Machine σ) (pathname : Bytes) : Prop :=
  (k.kmalloc m.outside m.kmallocs pathMax).isSome →
    ∀ name : Block, name.bytes.length = pathMax → Terminated name.bytes →
      cstr name.bytes = pathname →
      ∃ answer after, Returns (getNewFullPath k (some name)) m answer after ∧
        answer.2.map (fun block => cstr block.bytes) =
          some (k.dPath m.outside ++ slash :: pathname)

/-- Every assembly of a call leaves exactly its path. -/
def PathCall.AssemblesExactly (m : Machine σ) (call : PathCall) : Prop :=
  ∀ assembly ∈ call.assemblies k m,
    LeavesExactly k { m with kmallocs := assembly.1 + 1 } assembly.2

/-- The full-path block begins with a NUL. Without a scratch buffer nothing is appended,
and it would have to hold the path already. -/
def PathBuffers.Fresh (buffers : PathBuffers) (cwd pathname : Bytes) : Prop :=
  ∀ old, buffers.fullpath = some old →
    cstr old = if buffers.path.isSome then [] else cwd ++ slash :: pathname

def PathCall.StartsFresh (m : Machine σ) (call : PathCall) : Prop :=
  ∀ assembly ∈ call.assemblies k m,
    (k.pathBuffers m.outside assembly.1).Fresh (k.dPath m.outside) assembly.2

/-- Two hooks refuse a call in the same cases, and pass it on in the same cases. -/
structure SameDecision (other : Kernel σ) (m : Machine σ) (call : Syscall)
    (first second : HookM σ Int32) : Prop where
  refused : (∃ ret after, Returns first m ret after ∧ Refused m ret after) ↔
    ∃ ret after, Returns second m ret after ∧ Refused m ret after
  passed : PassesOn k first m call ↔ PassesOn other second m call

end Model

section Assembly

variable {σ : Type} {k : Kernel σ} {m : Machine σ}

/-- What `getNewFullPath` leaves behind a pathname that was copied. -/
theorem getNewFullPath_named {name : Block} (size : name.bytes.length = pathMax)
    (terminated : Terminated name.bytes) :
    Settles (getNewFullPath k (some name)) m
      (∀ old, k.kmalloc m.outside m.kmallocs pathMax = some old →
        (k.kmalloc m.outside (m.kmallocs + 1) pathMax).isSome →
          k.PathRoom m.outside (cstr name.bytes) old)
      fun answer _ => answer.2.map (fun block => cstr block.bytes) =
        (k.kmalloc m.outside m.kmallocs pathMax).map fun old =>
          if (k.kmalloc m.outside (m.kmallocs + 1) pathMax).isSome then
            cstr old ++ k.dPath m.outside ++ slash :: cstr name.bytes
          else cstr old := by
  have carries : Carries (some name) ((some []).map fun _ : Bytes => cstr name.bytes) :=
    ⟨rfl, by simpa using size⟩
  refine (getNewFullPath_settles carries (by simpa using terminated)).imp (by simp) ?_
  exact fun _ _ _ outcome => outcome.2.2.1.1

/-- How the full-path block begins when it is left with exactly the path. -/
theorem LeavesExactly.begins {pathname : Bytes} (exact : LeavesExactly k m pathname)
    (clean : (0 : Byte) ∉ pathname) (short : pathname.length < pathMax) {old : Bytes}
    (allocated : k.kmalloc m.outside m.kmallocs pathMax = some old) :
    cstr old = if (k.kmalloc m.outside (m.kmallocs + 1) pathMax).isSome then []
      else k.dPath m.outside ++ slash :: pathname := by
  have padded : (pathname ++ List.replicate (pathMax - pathname.length) 0).length = pathMax := by
    rw [List.length_append, List.length_replicate]
    omega
  have ended : Terminated (pathname ++ List.replicate (pathMax - pathname.length) 0) :=
    List.mem_append_right _ (List.mem_replicate.mpr ⟨by omega, rfl⟩)
  have spelled : cstr (pathname ++ List.replicate (pathMax - pathname.length) 0) = pathname := by
    rw [cstr_append_zeros, cstr_of_clean clean]
  obtain ⟨answer, after, ran, left⟩ := exact (Option.isSome_iff_exists.mpr ⟨old, allocated⟩)
    ⟨0, pathname ++ List.replicate (pathMax - pathname.length) 0⟩ padded ended spelled
  have outcome := ((getNewFullPath_named padded ended).returned ran).2
  rw [left, allocated, Option.map_some, Option.some.injEq, spelled] at outcome
  by_cases scratch : (k.kmalloc m.outside (m.kmallocs + 1) pathMax).isSome
  · rw [if_pos scratch] at outcome ⊢
    rw [List.append_assoc, eq_comm] at outcome
    exact List.append_left_eq_self.mp outcome
  · rw [if_neg scratch] at outcome ⊢
    exact outcome.symm

/-- A block is left with exactly the path when it starts fresh, and only then. -/
theorem leavesExactly_iff {pathname : Bytes} (clean : (0 : Byte) ∉ pathname)
    (fits : (k.dPath m.outside).length + 1 + pathname.length < pathMax) :
    LeavesExactly k m pathname ↔
      ∀ old, k.kmalloc m.outside m.kmallocs pathMax = some old →
        cstr old = if (k.kmalloc m.outside (m.kmallocs + 1) pathMax).isSome then []
          else k.dPath m.outside ++ slash :: pathname := by
  refine ⟨fun exact old => exact.begins clean (by omega), ?_⟩
  intro fresh allocates name size terminated spelled
  obtain ⟨old, allocated⟩ := Option.isSome_iff_exists.mp allocates
  have begins := fresh old allocated
  obtain ⟨answer, after, ran, left⟩ := (getNewFullPath_named size terminated).outcome (by
    intro other again scratch
    obtain rfl : old = other := Option.some.inj (allocated.symm.trans again)
    rw [if_pos scratch] at begins
    refine ⟨?_, by rw [begins, spelled]; simpa using fits⟩
    by_contra unterminated
    rw [cstr_eq_self_of_not_terminated unterminated] at begins
    have length := k.kmallocLength allocated
    rw [begins] at length
    exact absurd length (by decide))
  refine ⟨answer, after, ran, ?_⟩
  rw [left, allocated, Option.map_some, begins, spelled]
  by_cases scratch : (k.kmalloc m.outside (m.kmallocs + 1) pathMax).isSome
  · simp [scratch]
  · simp [scratch]

/-- What a call assembles fits when the call does. -/
theorem PathCall.Fits.assembly {call : PathCall} {cwd : Bytes} (fits : call.Fits cwd)
    {assembly : Nat × Bytes} (member : assembly ∈ call.assemblies k m) :
    (0 : Byte) ∉ assembly.2 ∧ cwd.length + 1 + assembly.2.length < pathMax := by
  cases call with
  | unlink pathname =>
      obtain rfl := List.mem_singleton.mp member
      exact ⟨zero_notMem_cstr, fits⟩
  | unlinkat dirfd pathname flags =>
      obtain rfl := List.mem_singleton.mp member
      exact ⟨zero_notMem_cstr, fits⟩
  | rename old new =>
      rcases List.mem_pair.mp member with rfl | rfl
      · exact ⟨zero_notMem_cstr, fits.1⟩
      · exact ⟨zero_notMem_cstr, fits.2⟩
  | mkdir path mode =>
      obtain rfl := List.mem_singleton.mp member
      exact ⟨zero_notMem_cstr, fits⟩
  | chdir path => exact absurd member List.not_mem_nil

theorem assemblesExactly_iff {call : PathCall} (fits : call.Fits (k.dPath m.outside)) :
    call.AssemblesExactly k m ↔ call.StartsFresh k m := by
  refine forall₂_congr fun assembly member => ?_
  obtain ⟨clean, within⟩ := fits.assembly member
  exact leavesExactly_iff clean within

end Assembly

section Fresh

variable {cwd pathname : Bytes} {buffers : PathBuffers} (fresh : buffers.Fresh cwd pathname)
  (sized : ∀ old, buffers.fullpath = some old → old.length = pathMax)
  (fits : cwd.length + 1 + pathname.length < pathMax)

include fresh

theorem PathBuffers.Fresh.lookedUp :
    buffers.lookedUp cwd pathname = buffers.fullpath.map fun _ => cwd ++ slash :: pathname := by
  refine Option.map_congr fun old there => ?_
  rw [fresh old there]
  by_cases scratch : buffers.path.isSome
  · simp [scratch]
  · simp [scratch]

include sized fits

theorem PathBuffers.Fresh.terminated {old : Bytes} (there : buffers.fullpath = some old) :
    Terminated old := by
  by_contra unterminated
  have begins := fresh old there
  have length := sized old there
  rw [cstr_eq_self_of_not_terminated unterminated] at begins
  rw [begins] at length
  split at length
  · exact absurd length (by decide)
  · rw [List.length_append, List.length_cons] at length
    omega

theorem PathBuffers.Fresh.ended : buffers.Ended :=
  fun _ there => .inr (fresh.terminated sized fits there)

/-- Whether an assembly in a fresh block faults depends on the allocations only. -/
theorem PathBuffers.Fresh.fits_iff :
    buffers.Fits cwd pathname ↔
      (buffers.fullpath.isSome → buffers.path.isSome → buffers.kernelpath.isSome) := by
  constructor
  · intro safe there scratch
    obtain ⟨old, isOld⟩ := Option.isSome_iff_exists.mp there
    exact (safe.2 old isOld scratch).1
  · intro safe
    refine ⟨fun _ => by omega, fun old there scratch => ⟨safe (by rw [there]; rfl) scratch,
      fresh.terminated sized fits there, ?_⟩⟩
    have begins := fresh old there
    rw [if_pos scratch] at begins
    rw [begins, List.length_nil]
    omega

end Fresh

section Recalling

variable {σ : Type} {k : Kernel σ} (old : OldContents σ)

@[simp] theorem recalling_dPath : (k.recalling old).dPath = k.dPath := rfl

@[simp] theorem recalling_pathMatches : (k.recalling old).pathMatches = k.pathMatches := rfl

@[simp] theorem recalling_isSome (state : σ) (index size : Nat) :
    ((k.recalling old).kmalloc state index size).isSome =
      (k.kmalloc state index size).isSome := by
  simp [Kernel.recalling]

@[simp] theorem recalling_eq_none_iff {state : σ} {index size : Nat} :
    (k.recalling old).kmalloc state index size = none ↔ k.kmalloc state index size = none := by
  simp [Kernel.recalling]

variable {old} {other : OldContents σ} {m : Machine σ}

/-- The buffers of one assembly decide as those of another. -/
structure PathBuffers.Alike (first second : PathBuffers) (cwd pathname : Bytes) : Prop where
  fits : first.Fits cwd pathname ↔ second.Fits cwd pathname
  lookedUp : first.lookedUp cwd pathname = second.lookedUp cwd pathname
  missing : first.fullpath = none ↔ second.fullpath = none
  ended : first.Ended
  endedAgain : second.Ended

/-- Two assemblies that start fresh and differ in the old contents of their blocks. -/
theorem assembly_alike {kmallocs : Nat} {pathname : Bytes}
    (fits : (k.dPath m.outside).length + 1 + pathname.length < pathMax)
    (fresh : ((k.recalling old).pathBuffers m.outside kmallocs).Fresh (k.dPath m.outside) pathname)
    (again : ((k.recalling other).pathBuffers m.outside kmallocs).Fresh (k.dPath m.outside)
      pathname) :
    ((k.recalling old).pathBuffers m.outside kmallocs).Alike
      ((k.recalling other).pathBuffers m.outside kmallocs) (k.dPath m.outside) pathname := by
  have sized := fun contents => fun bytes =>
    @Kernel.kmallocLength σ (k.recalling contents) m.outside (kmallocs + 1) pathMax bytes
  refine ⟨?_, ?_, ?_, fresh.ended (sized old) fits, again.ended (sized other) fits⟩
  · rw [fresh.fits_iff (sized old) fits, again.fits_iff (sized other) fits]
    simp [Kernel.pathBuffers]
  · rw [fresh.lookedUp, again.lookedUp]
    cases there : k.kmalloc m.outside (kmallocs + 1) pathMax with
    | none => simp [Kernel.pathBuffers, Kernel.recalling, there]
    | some _ => simp [Kernel.pathBuffers, Kernel.recalling, there]
  · simp [Kernel.pathBuffers]

/-- Hooks that are safe and hit in the same cases decide alike. -/
theorem Decides.sameDecision {second : Kernel σ} {hook again : HookM σ Int32} {call : Syscall}
    {safe safe' hit hit' : Prop} (decides : Decides k hook m call safe hit)
    (decidesAgain : Decides second again m call safe' hit') (sameSafe : safe ↔ safe')
    (sameHit : hit ↔ hit') : SameDecision k second m call hook again where
  refused := by rw [decides.refuses_iff, decidesAgain.refuses_iff, sameSafe, sameHit]
  passed := by rw [decides.passesOn_iff, decidesAgain.passesOn_iff, sameSafe, sameHit]

theorem guardUnlink_sameDecision (globals : Globals) {pathname : Bytes} (call : Syscall)
    (alike : ((k.recalling old).pathBuffers m.outside m.kmallocs).Alike
      ((k.recalling other).pathBuffers m.outside m.kmallocs) (k.dPath m.outside) (cstr pathname)) :
    SameDecision (k.recalling old) (k.recalling other) m call
      (guardUnlink (k.recalling old) globals pathname call)
      (guardUnlink (k.recalling other) globals pathname call) := by
  refine (guardUnlink_guards (k.recalling old) globals m pathname call).decides.sameDecision
    (guardUnlink_guards (k.recalling other) globals m pathname call).decides ?_ ?_
  · rw [recalling_dPath, recalling_dPath, alike.fits, alike.missing]
  · rw [recalling_dPath, recalling_dPath, alike.lookedUp, recalling_pathMatches,
      recalling_pathMatches]

/-- The second assembly of a rename begins behind the same allocations. -/
theorem recalling_laterBuffers (old : OldContents σ) (m : Machine σ) :
    (k.recalling old).laterBuffers m = (k.recalling old).pathBuffers m.outside
      (m.kmallocs + 2 + if (k.pathBuffers m.outside m.kmallocs).fullpath.isSome then 1 else 0) := by
  have same : ((k.recalling old).pathBuffers m.outside m.kmallocs).fullpath.isSome =
      (k.pathBuffers m.outside m.kmallocs).fullpath.isSome := recalling_isSome old _ _ _
  unfold Kernel.laterBuffers
  rw [same]

theorem modifiedRename_sameDecision (globals : Globals) {first second : Bytes}
    (alike : ((k.recalling old).pathBuffers m.outside m.kmallocs).Alike
      ((k.recalling other).pathBuffers m.outside m.kmallocs) (k.dPath m.outside) (cstr first))
    (later : ((k.recalling old).laterBuffers m).Alike ((k.recalling other).laterBuffers m)
      (k.dPath m.outside) (cstr second)) :
    SameDecision (k.recalling old) (k.recalling other) m (.rename first second)
      (modifiedRename (k.recalling old) globals first second)
      (modifiedRename (k.recalling other) globals first second) := by
  refine (modifiedRename_guards (k.recalling old) globals m first second).decides.sameDecision
    (modifiedRename_guards (k.recalling other) globals m first second).decides ?_ ?_
  · rw [recalling_dPath, recalling_dPath, alike.fits, alike.missing, later.fits,
      iff_true_intro alike.ended, iff_true_intro alike.endedAgain, iff_true_intro later.ended,
      iff_true_intro later.endedAgain]
  · rw [recalling_dPath, recalling_dPath, alike.lookedUp, recalling_pathMatches,
      recalling_pathMatches]

theorem modifiedMkdir_sameDecision (globals : Globals) {path : Bytes} {mode : UInt32}
    (alike : ((k.recalling old).pathBuffers m.outside m.kmallocs).Alike
      ((k.recalling other).pathBuffers m.outside m.kmallocs) (k.dPath m.outside) (cstr path)) :
    SameDecision (k.recalling old) (k.recalling other) m (.mkdir path mode)
      (modifiedMkdir (k.recalling old) globals path mode)
      (modifiedMkdir (k.recalling other) globals path mode) := by
  refine (modifiedMkdir_guards (k.recalling old) globals m path mode).decides.sameDecision
    (modifiedMkdir_guards (k.recalling other) globals m path mode).decides ?_ ?_
  · rw [recalling_dPath, recalling_dPath, alike.fits, alike.lookedUp,
      iff_true_intro alike.ended, iff_true_intro alike.endedAgain]
  · rw [recalling_dPath, recalling_dPath, alike.lookedUp, recalling_pathMatches,
      recalling_pathMatches]

/-- From blocks that start fresh a hook decides alike, whatever else they held. -/
theorem PathCall.StartsFresh.sameDecision (globals : Globals) {call : PathCall}
    (fits : call.Fits (k.dPath m.outside)) (fresh : call.StartsFresh (k.recalling old) m)
    (again : call.StartsFresh (k.recalling other) m) :
    SameDecision (k.recalling old) (k.recalling other) m call.syscall
      (modified (k.recalling old) globals call.syscall)
      (modified (k.recalling other) globals call.syscall) := by
  cases call with
  | unlink pathname =>
      exact guardUnlink_sameDecision globals _ (assembly_alike fits
        (fresh (m.kmallocs, cstr pathname) List.mem_cons_self)
        (again (m.kmallocs, cstr pathname) List.mem_cons_self))
  | unlinkat dirfd pathname flags =>
      exact guardUnlink_sameDecision globals _ (assembly_alike fits
        (fresh (m.kmallocs, cstr pathname) List.mem_cons_self)
        (again (m.kmallocs, cstr pathname) List.mem_cons_self))
  | rename first second =>
      have alike := assembly_alike fits.1 (fresh (m.kmallocs, cstr first) List.mem_cons_self)
        (again (m.kmallocs, cstr first) List.mem_cons_self)
      have freshLater := fresh _ (List.mem_cons_of_mem _ List.mem_cons_self)
      have againLater := again _ (List.mem_cons_of_mem _ List.mem_cons_self)
      simp only [Kernel.pathBuffers, recalling_isSome] at freshLater againLater
      have later : ((k.recalling old).laterBuffers m).Alike ((k.recalling other).laterBuffers m)
          (k.dPath m.outside) (cstr second) := by
        rw [recalling_laterBuffers, recalling_laterBuffers]
        exact assembly_alike fits.2 freshLater againLater
      exact modifiedRename_sameDecision globals alike later
  | mkdir path mode =>
      exact modifiedMkdir_sameDecision globals (assembly_alike fits
        (fresh (m.kmallocs, cstr path) List.mem_cons_self)
        (again (m.kmallocs, cstr path) List.mem_cons_self))
  | chdir path =>
      refine (modifiedChdir_guards (k.recalling old) globals m path).decides.sameDecision
        (modifiedChdir_guards (k.recalling other) globals m path).decides ?_ ?_
      · simp
      · simp

/-- Both of two runs that differ in the old contents of blocks assemble exactly their
paths, and decide alike, exactly when the blocks for the paths start fresh in both. -/
theorem assembled_exactly_iff (globals : Globals) (call : PathCall)
    (fits : call.Fits (k.dPath m.outside)) (old other : OldContents σ) :
    (call.AssemblesExactly (k.recalling old) m ∧ call.AssemblesExactly (k.recalling other) m ∧
        SameDecision (k.recalling old) (k.recalling other) m call.syscall
          (modified (k.recalling old) globals call.syscall)
          (modified (k.recalling other) globals call.syscall)) ↔
      call.StartsFresh (k.recalling old) m ∧ call.StartsFresh (k.recalling other) m := by
  have exact_iff := fun contents => assemblesExactly_iff (k := k.recalling contents) (m := m) fits
  rw [exact_iff, exact_iff, ← and_assoc]
  exact and_iff_left_of_imp fun fresh => fresh.1.sameDecision globals fits fresh.2

end Recalling

section Examples

/-- Blocks of zeros, blocks of letters that begin with a NUL, and blocks that hold a string
of one letter. -/
def zeroed : OldContents Unit := fun _ _ size => SizedBytes.zeros size

def letters : OldContents Unit := fun _ _ size => ⟨(List.replicate size 120).set 0 0, by simp⟩

def stale : OldContents Unit := fun _ _ size => ⟨(List.replicate size 0).set 0 120, by simp⟩

theorem quiet_startsFresh {old : OldContents Unit} (empty : cstr (old () 1 pathMax).1 = []) :
    (PathCall.unlink (lit "f")).StartsFresh ((Kernel.quiet homeFile).recalling old)
      (Machine.start () []) := by
  intro assembly member
  obtain rfl := List.mem_singleton.mp member
  intro bytes there
  obtain rfl := Option.some.inj there
  exact empty

/-- From zeroed blocks and from others that begin with a NUL the unlink of a file is
decided alike. -/
theorem letters_decide_alike :
    SameDecision ((Kernel.quiet homeFile).recalling zeroed)
      ((Kernel.quiet homeFile).recalling letters) (Machine.start () []) (.unlink (lit "f"))
      (modified ((Kernel.quiet homeFile).recalling zeroed) (onlyRule keepFile) (.unlink (lit "f")))
      (modified ((Kernel.quiet homeFile).recalling letters) (onlyRule keepFile)
        (.unlink (lit "f"))) :=
  ((@assembled_exactly_iff Unit (Kernel.quiet homeFile) (Machine.start () []) (onlyRule keepFile)
    (.unlink (lit "f")) (by decide : (lit "/home").length + 1 + (cstr (lit "f")).length < pathMax)
    zeroed letters).mpr ⟨quiet_startsFresh (cstr_replicate_zero _), quiet_startsFresh rfl⟩).2.2

/-- From stale blocks the string looked up begins with their letter. -/
theorem stale_lookedUp (kmallocs : Nat) (cwd pathname : Bytes) :
    (((Kernel.quiet homeFile).recalling stale).pathBuffers () kmallocs).lookedUp cwd pathname =
      some (120 :: (cwd ++ slash :: pathname)) := rfl

theorem stale_fits (kmallocs : Nat) {cwd pathname : Bytes}
    (fits : 1 + cwd.length + 1 + pathname.length < pathMax) :
    (((Kernel.quiet homeFile).recalling stale).pathBuffers () kmallocs).Fits cwd pathname := by
  refine ⟨fun _ => by omega, fun old there _ => ?_⟩
  obtain rfl := Option.some.inj there
  exact ⟨rfl, List.mem_of_getElem? (rfl : (stale () 1 pathMax).1[1]? = some 0), fits⟩

/-- A letter left in the block makes the hook miss the rule. -/
theorem stale_block_passes :
    (∃ ret after, Returns (modified ((Kernel.quiet homeFile).recalling zeroed) (onlyRule keepFile)
        (.unlink (lit "f"))) (Machine.start () []) ret after ∧
      Refused (Machine.start () []) ret after) ∧
    PassesOn ((Kernel.quiet homeFile).recalling stale)
      (modified ((Kernel.quiet homeFile).recalling stale) (onlyRule keepFile) (.unlink (lit "f")))
      (Machine.start () []) (.unlink (lit "f")) := by
  constructor
  · have cleared : Cleared ((Kernel.quiet homeFile).recalling zeroed) (Machine.start () []) :=
      fun _ => ⟨List.replicate pathMax 0, rfl, cstr_replicate_zero _⟩
    exact ((PathCall.unlink (lit "f")).decides cleared).refuses_iff.mpr
      ⟨(by decide : (lit "/home").length + 1 + (cstr (lit "f")).length < pathMax),
        keepFile_hasPathRule⟩
  · refine (guardUnlink_guards _ (onlyRule keepFile) (Machine.start () []) (lit "f")
      (.unlink (lit "f"))).decides.passesOn_iff.mpr
      ⟨⟨stale_fits 0 (by decide : 1 + (lit "/home").length + 1 + (cstr (lit "f")).length < pathMax),
        fun missing => nomatch (missing : some (stale () 1 pathMax).1 = none)⟩, ?_⟩
    rintro ⟨key, isKey, found⟩
    have isLonger : key = 120 :: (lit "/home" ++ slash :: cstr (lit "f")) :=
      Option.some.inj (isKey.symm.trans (stale_lookedUp 0 _ _))
    have same : key = (Kernel.quiet homeFile).pathOf keepFile := (onlyRule_hasPathRule rfl).mp found
    rw [isLonger, keepFile_path] at same
    exact absurd same (by decide)

end Examples

end FsProtection
