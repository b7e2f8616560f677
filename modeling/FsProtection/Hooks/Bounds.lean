import FsProtection.Hooks.Table

/-!
# Which assemblies stay inside their blocks

`getstringfromuser` copies up to the NUL of its source and `getfullPath` appends three
strings, neither with a bound: what a hook assembles stays inside its `PATH_MAX` blocks
exactly when the pathname, and the old string, the working directory and the pathname
together, are short enough.
-/

namespace FsProtection

open Base

section Model

variable {σ : Type} (k : Kernel σ)

/-- What a hook does up to the last path it assembles. -/
def assembles : Syscall → HookM σ Unit
  | .mkdir path _ => discard (assemblePath k path)
  | .chdir path => discard (copyStringFromUser k path)
  | .rmdir pathname => do
      let _ ← callOrigin k (.rmdir pathname)
      discard (copyStringFromUser k pathname)
  | .unlinkat _ pathname _ => discard (assemblePath k pathname)
  | .unlink pathname => discard (assemblePath k pathname)
  | .rename old new => do
      let _ ← assemblePath k old
      discard (assemblePath k new)
  | _ => pure ()

end Model

/-- The pathname as it is appended; without a copy of it the appends come as far as the
slash. -/
def PathBuffers.copied (buffers : PathBuffers) (pathname : Bytes) : Bytes :=
  (buffers.kernelpath.map fun _ => pathname).getD []

/-- Nothing is written behind a block of an assembly. -/
def PathBuffers.Bounded (buffers : PathBuffers) (cwd pathname : Bytes) : Prop :=
  (buffers.kernelpath.isSome → pathname.length < pathMax) ∧
  ∀ old, buffers.fullpath = some old → buffers.path.isSome →
    Terminated old ∧
      (cstr old).length + cwd.length + 1 + (buffers.copied pathname).length < pathMax

/-- The lengths of a call are in bounds, for the answers to its allocations. The second
assembly of a rename is only come to when the first one did not fault. -/
def Kernel.PathsBounded {σ : Type} (k : Kernel σ) (m : Machine σ) : Syscall → Prop
  | .mkdir path _ =>
      (k.pathBuffers m.outside m.kmallocs).Bounded (k.dPath m.outside) (cstr path)
  | .chdir path =>
      (k.kmalloc m.outside m.kmallocs pathMax).isSome → (cstr path).length < pathMax
  | .rmdir pathname =>
      (k.kmalloc (m.answered k (.rmdir pathname)).outside m.kmallocs pathMax).isSome →
        (cstr pathname).length < pathMax
  | .unlinkat _ pathname _ =>
      (k.pathBuffers m.outside m.kmallocs).Bounded (k.dPath m.outside) (cstr pathname)
  | .unlink pathname =>
      (k.pathBuffers m.outside m.kmallocs).Bounded (k.dPath m.outside) (cstr pathname)
  | .rename old new =>
      (k.pathBuffers m.outside m.kmallocs).Bounded (k.dPath m.outside) (cstr old) ∧
      ((k.pathBuffers m.outside m.kmallocs).Fits (k.dPath m.outside) (cstr old) →
        (k.laterBuffers m).Bounded (k.dPath m.outside) (cstr new))
  | _ => True

section Spec

variable {σ : Type} {k : Kernel σ} {m : Machine σ}

/-- A program that appends first overruns exactly when the piece does not fit, or what
follows overruns. -/
theorem append_overruns_iff {Value : Type} {block text piece : Bytes} {size : Nat}
    {rest : Bytes → HookM σ Value} {wrong : Prop} (spells : Spells block size text)
    (clean : (0 : Byte) ∉ piece)
    (continues : ∀ out, Spells out size (text ++ piece) →
      (Faults (rest out) m .overrun ↔ wrong)) :
    Faults (strcatRegion block piece >>= rest) m .overrun ↔
      (text.length + piece.length < size → wrong) := by
  rw [strcatRegion_eq]
  by_cases fits : text.length + piece.length < size
  · obtain ⟨out, appended, spellsOut⟩ := strcatTo_fits spells clean fits
    rw [faults_bind_of_returns (returns_lift_iff.mpr ⟨appended, rfl⟩), continues out spellsOut,
      forall_prop_of_true fits]
  · have overruns : Faults (liftM (strcatTo block piece) : HookM σ Bytes) m .overrun :=
      faults_lift_iff.mpr (strcatTo_overruns spells fits)
    exact iff_of_true (faults_bind_iff.mpr (.inl overruns)) fun within => absurd within fits

/-- The string behind a pathname pointer, empty for NULL. -/
def spelledBy (pathname : Option Block) : Bytes :=
  (pathname.map fun block => cstr block.bytes).getD []

/-- The last append of `getfullPath`: a NULL pathname is a bad pointer, and none of its
writes. -/
theorem readName_overruns_iff {Value : Type} {pathname : Option Block} {block text : Bytes}
    {size : Nat} {rest : Bytes → HookM σ Value}
    (named : ∀ name ∈ pathname, Terminated name.bytes) (spells : Spells block size text)
    (done : ∀ out, ¬ Faults (rest out) m .overrun) :
    Faults (do
        let text ← readString pathname
        let bytes ← strcatRegion block text
        rest bytes) m .overrun ↔
      ¬ text.length + (spelledBy pathname).length < size := by
  cases pathname with
  | none =>
      have within := spells.length_lt
      refine iff_of_false ?_ (by simpa [spelledBy] using within)
      rw [faults_bind_iff]
      simp
  | some name =>
      have read : Returns (readString (some name)) m (cstr name.bytes) m :=
        returns_readString_some_iff.mpr ⟨named name rfl, rfl, rfl⟩
      rw [faults_bind_of_returns read]
      exact append_overruns_iff spells zero_notMem_cstr fun out _ => iff_of_false (done out) id

theorem getfullPath_overruns_iff {pathname : Option Block} {fullpath : Block}
    (short : (k.dPath m.outside).length < pathMax) (size : fullpath.bytes.length = pathMax)
    (named : ∀ block ∈ pathname, Terminated block.bytes) :
    Faults (getfullPath k pathname fullpath) m .overrun ↔
      (k.kmalloc m.outside m.kmallocs pathMax).isSome ∧
      ¬ (Terminated fullpath.bytes ∧
        (cstr fullpath.bytes).length + (k.dPath m.outside).length + 1 +
          (spelledBy pathname).length < pathMax) := by
  cases allocated : k.kmalloc m.outside m.kmallocs pathMax with
  | none => exact iff_of_false (returns_getfullPath_null allocated).not_faults (by simp)
  | some scratch =>
      have spelled : ∀ state : Machine σ, state.outside = m.outside →
          Returns (dPath k) state (k.dPath m.outside) state := by
        intro state here
        simp [dPath, returns_bind_iff, here, short]
      let middle : Machine σ :=
        { m with kmallocs := m.kmallocs + 1, held := .block m.kmallocs :: m.held }
      let taken : Machine σ := { middle with held := .pwd :: middle.held }
      have got : Returns pathGet middle () taken := returns_modify
      rw [getfullPath, faults_bind_of_returns (returns_kmalloc_some allocated)]
      dsimp only
      rw [faults_bind_of_returns got, faults_bind_of_returns (spelled taken rfl)]
      by_cases terminated : Terminated fullpath.bytes
      · have spells : Spells fullpath.bytes pathMax (cstr fullpath.bytes) :=
          ⟨size, terminated, rfl⟩
        rw [append_overruns_iff spells (k.dPathClean m.outside) fun first spellsFirst =>
          append_overruns_iff spellsFirst (by decide) fun second spellsSecond =>
            readName_overruns_iff named spellsSecond fun out => by simp]
        simp only [Option.isSome_some, true_and, terminated]
        simp only [List.length_append, List.length_singleton]
        omega
      · have overruns :
            Faults (strcatRegion fullpath.bytes (k.dPath m.outside)) taken .overrun := by
          rw [strcatRegion_eq, faults_lift_iff, strcatTo, strcat, if_neg terminated]
        exact iff_of_true (faults_bind_iff.mpr (.inl overruns)) (by simp [terminated])

theorem getNewFullPath_overruns_iff {pathname : Option Block}
    (short : (k.dPath m.outside).length < pathMax)
    (named : ∀ block ∈ pathname, Terminated block.bytes) :
    Faults (getNewFullPath k pathname) m .overrun ↔
      ¬ ∀ old, k.kmalloc m.outside m.kmallocs pathMax = some old →
        (k.kmalloc m.outside (m.kmallocs + 1) pathMax).isSome →
          Terminated old ∧ (cstr old).length + (k.dPath m.outside).length + 1 +
            (spelledBy pathname).length < pathMax := by
  unfold getNewFullPath
  cases allocated : k.kmalloc m.outside m.kmallocs pathMax with
  | none =>
      rw [faults_bind_of_returns (returns_kmalloc_none allocated)]
      simp
  | some old =>
      let start : Machine σ :=
        { m with kmallocs := m.kmallocs + 1, held := .block m.kmallocs :: m.held }
      have overruns := @getfullPath_overruns_iff _ k start pathname ⟨m.kmallocs, old⟩ short
        (k.kmallocLength allocated) named
      rw [faults_bind_of_returns (returns_kmalloc_some allocated)]
      dsimp only
      rw [faults_bind_iff, overruns]
      simp [start]

theorem copyStringFromUser_overruns_iff {userstring : Bytes} :
    Faults (copyStringFromUser k userstring) m .overrun ↔
      ¬ ((k.kmalloc m.outside m.kmallocs pathMax).isSome →
        (cstr userstring).length < pathMax) := by
  cases allocated : k.kmalloc m.outside m.kmallocs pathMax with
  | none => exact iff_of_false (returns_copyStringFromUser_null allocated).not_faults (by simp)
  | some old =>
      by_cases fits : (cstr userstring).length < pathMax
      · have ran := (returns_copyStringFromUser_iff allocated).mpr ⟨fits, rfl, rfl⟩
        exact iff_of_false ran.not_faults (by simp [fits])
      · have size := k.kmallocLength allocated
        have overruns : getstringfromuser userstring old = .error .overrun := by
          rw [getstringfromuser_eq, storeAt, store, if_neg]
          rw [List.length_append, size, List.length_singleton]
          omega
        refine iff_of_true ?_ (by simp [fits])
        rw [copyStringFromUser, faults_bind_of_returns (returns_kmalloc_some allocated)]
        exact faults_bind_iff.mpr (.inl (faults_lift_iff.mpr overruns))

theorem assemblePath_overruns_iff (pathname : Bytes)
    (short : (k.dPath m.outside).length < pathMax) :
    Faults (assemblePath k pathname) m .overrun ↔
      ¬ (k.pathBuffers m.outside m.kmallocs).Bounded (k.dPath m.outside) (cstr pathname) := by
  have built : ∀ (answer : Int × Option Block) (middle : Machine σ), Unseen m middle →
      middle.kmallocs = m.kmallocs + 1 →
      Carries answer.2 ((k.kmalloc m.outside m.kmallocs pathMax).map fun _ => cstr pathname) →
      (∀ block ∈ answer.2, Terminated block.bytes) →
      (Faults (do
          let fullpath ← getNewFullPath k answer.2
          return (answer.2, fullpath.2)) middle .overrun ↔
        ¬ ∀ old, (k.pathBuffers m.outside m.kmallocs).fullpath = some old →
          (k.pathBuffers m.outside m.kmallocs).path.isSome →
            Terminated old ∧ (cstr old).length + (k.dPath m.outside).length + 1 +
              ((k.pathBuffers m.outside m.kmallocs).copied (cstr pathname)).length < pathMax) := by
    intro answer middle unseen count carries ended
    have overruns := getNewFullPath_overruns_iff (k := k) (m := middle)
      (by rw [unseen.outside]; exact short) ended
    rw [spelledBy, carries.1, unseen.outside, count] at overruns
    rw [faults_bind_iff, overruns]
    simp [Kernel.pathBuffers, PathBuffers.copied]
  unfold assemblePath
  rw [(copyStringFromUser_settles pathname).faults_bind_iff fun _ answer middle outcome =>
      built answer middle outcome.1 outcome.2.1 outcome.2.2.1 outcome.2.2.2,
    copyStringFromUser_overruns_iff, PathBuffers.Bounded, Kernel.pathBuffers]
  tauto

/-- The two assemblies of a rename: the second one runs when the first one faults nowhere. -/
theorem assembleBoth_overruns_iff (old new : Bytes)
    (short : (k.dPath m.outside).length < pathMax) :
    Faults (assembles k (.rename old new)) m .overrun ↔ ¬ k.PathsBounded m (.rename old new) := by
  have later : ∀ (paths : Option Block × Option Block) (middle : Machine σ), Unseen m middle →
      middle.kmallocs =
        m.kmallocs + 2 + (if (k.pathBuffers m.outside m.kmallocs).fullpath.isSome then 1 else 0) →
      (Faults (discard (assemblePath k new)) middle .overrun ↔
        ¬ (k.laterBuffers m).Bounded (k.dPath m.outside) (cstr new)) := by
    intro _ middle unseen count
    have overruns := assemblePath_overruns_iff (k := k) (m := middle) new
      (by rw [unseen.outside]; exact short)
    rw [unseen.outside, count] at overruns
    exact faults_map_iff.trans overruns
  unfold assembles
  rw [(assemblePath_settles old).faults_bind_iff fun _ paths middle outcome =>
    later paths middle outcome.1 outcome.2.1, assemblePath_overruns_iff old short,
    Kernel.PathsBounded]
  tauto

theorem assembles_overruns_iff (call : Syscall) (short : (k.dPath m.outside).length < pathMax) :
    Faults (assembles k call) m .overrun ↔ ¬ k.PathsBounded m call := by
  cases call with
  | mkdir path mode => exact faults_map_iff.trans (assemblePath_overruns_iff path short)
  | chdir path => exact faults_map_iff.trans copyStringFromUser_overruns_iff
  | rmdir pathname =>
      have ran : Returns (callOrigin k (.rmdir pathname)) m _ _ :=
        returns_callOrigin_iff.mpr ⟨rfl, rfl⟩
      refine (faults_bind_of_returns ran).trans ?_
      exact faults_map_iff.trans copyStringFromUser_overruns_iff
  | unlinkat dirfd pathname flags =>
      exact faults_map_iff.trans (assemblePath_overruns_iff pathname short)
  | unlink pathname => exact faults_map_iff.trans (assemblePath_overruns_iff pathname short)
  | rename old new => exact assembleBoth_overruns_iff old new short
  | _ => exact iff_of_false faults_pure_iff.mp (not_not.mpr trivial)

/-- The blocks of every assembly are written inside their bounds exactly when the lengths
of the call are in bounds. -/
theorem assembly_stays_inside_iff (call : Syscall)
    (short : (k.dPath m.outside).length < pathMax) :
    ¬ Faults (assembles k call) m .overrun ↔ k.PathsBounded m call := by
  rw [assembles_overruns_iff call short, not_not]

end Spec

theorem unlink_stays_inside :
    ((Kernel.quiet oneFile).dPath ()).length < pathMax ∧
      ¬ Faults (assembles (Kernel.quiet oneFile) (.unlink (lit "f")))
        (Machine.start () []) .overrun := by
  refine ⟨by decide, (assembly_stays_inside_iff _ (by decide)).mpr ⟨fun _ => by decide, ?_⟩⟩
  intro old there scratch
  cases there
  have spells : Spells (List.replicate pathMax 0) pathMax [] := zeros_spell (by decide)
  rw [spells.content]
  exact ⟨spells.terminated, by decide⟩

/-- A pathname that leaves room for its NUL only. -/
def longPathname : Bytes := List.replicate (pathMax - 1) 97

theorem cstr_longPathname : cstr longPathname = longPathname :=
  cstr_of_clean fun member => absurd (List.eq_of_mem_replicate member) (by decide)

/-- With the working directory in front it does not fit, and with one more byte it does
not fit alone. -/
theorem long_pathnames_overrun :
    ((Kernel.quiet oneFile).dPath ()).length < pathMax ∧
      Faults (assembles (Kernel.quiet oneFile) (.unlink longPathname))
        (Machine.start () []) .overrun ∧
      Faults (assembles (Kernel.quiet oneFile) (.chdir (97 :: longPathname)))
        (Machine.start () []) .overrun := by
  have length : longPathname.length = pathMax - 1 := List.length_replicate
  refine ⟨by decide, (assembles_overruns_iff _ (by decide)).mpr fun bounded => ?_,
    (assembles_overruns_iff _ (by decide)).mpr fun bounded => ?_⟩
  · obtain ⟨_, fits⟩ := bounded.2 (List.replicate pathMax 0) rfl rfl
    simp only [Machine.start, Kernel.quiet_pathBuffers, PathBuffers.copied, Option.map_some,
      Option.getD_some, cstr_longPathname, length] at fits
    omega
  · have fits := bounded rfl
    rw [cstr_cons (by decide), cstr_longPathname, List.length_cons, length] at fits
    omega

section Hook

variable {σ : Type} {k : Kernel σ} {globals : Globals} {m : Machine σ} {fault : Fault}

/-- A hook that assembles out of bounds faults there. -/
theorem assembles_faults {call : Syscall} (faults : Faults (assembles k call) m fault) :
    Faults (modified k globals call) m fault := by
  cases call with
  | mkdir path mode =>
      exact faults_bind_iff.mpr (.inl (faults_bind_iff.mpr (.inl (faults_map_iff.mp faults))))
  | chdir path => exact faults_bind_iff.mpr (.inl (faults_map_iff.mp faults))
  | rmdir pathname =>
      refine faults_bind_iff.mpr ((faults_bind_iff.mp faults).imp_right ?_)
      rintro ⟨ret, middle, ran, overruns⟩
      exact ⟨ret, middle, ran, faults_bind_iff.mpr (.inl (faults_map_iff.mp overruns))⟩
  | unlinkat dirfd pathname flags => exact faults_bind_iff.mpr (.inl (faults_map_iff.mp faults))
  | unlink pathname => exact faults_bind_iff.mpr (.inl (faults_map_iff.mp faults))
  | rename old new =>
      have assembled : Faults (assembleRename k old new) m fault := by
        refine faults_bind_iff.mpr ((faults_bind_iff.mp faults).imp_right ?_)
        rintro ⟨paths, middle, ran, overruns⟩
        exact ⟨paths, middle, ran, faults_bind_iff.mpr (.inl (faults_map_iff.mp overruns))⟩
      exact faults_bind_iff.mpr (.inl assembled)
  | _ => exact absurd faults faults_pure_iff.mp

end Hook

end FsProtection
