import FsProtection.Hooks.Strict

/-!
# Assembling a path under the checks

An assembly passes every check exactly when its allocations succeed: what a checked helper
returns, the plain one returns too, and where its blocks are there the checks say nothing.
-/

namespace FsProtection

open Base

/-- Every allocation of an assembly succeeds. -/
def PathBuffers.Complete (buffers : PathBuffers) : Prop :=
  buffers.kernelpath.isSome ∧ buffers.fullpath.isSome ∧ buffers.path.isSome

namespace PathBuffers.Complete

variable {buffers : PathBuffers} (complete : buffers.Complete) (cwd pathname : Bytes)

include complete

/-- A complete assembly ends its path, -/
theorem ended : buffers.Ended := fun _ _ => .inl complete.2.2

/-- has one to look up, -/
theorem lookedUp_ne_none : buffers.lookedUp cwd pathname ≠ none := by
  obtain ⟨old, there⟩ := Option.isSome_iff_exists.mp complete.2.1
  rw [PathBuffers.lookedUp, there]
  exact Option.some_ne_none _

/-- which is the directory and the name behind what the buffer held. -/
theorem lookedUp : ∃ spelled ∈ buffers.lookedUp cwd pathname, spelled ≠ [] := by
  obtain ⟨old, there⟩ := Option.isSome_iff_exists.mp complete.2.1
  refine ⟨cstr old ++ cwd ++ slash :: pathname, ?_, by simp⟩
  rw [PathBuffers.lookedUp, there, Option.map_some, if_pos complete.2.2]
  rfl

end PathBuffers.Complete

section Checks

variable {σ : Type} {k : Kernel σ} {counts : Bool} {m after : Machine σ}

@[simp] theorem returns_strictly_iff {Value : Type} {program : HookM σ Value} {value : Value} :
    Returns (strictly program) m value after ↔ Returns program m value after :=
  returns_widen_iff

/-- A string passes when it is there and was written. -/
@[simp] theorem returns_stringArgument_iff {string : Option PathBuffer} {value : Unit} :
    Returns (stringArgument string : StrictM σ Unit) m value after ↔
      (∃ buffer, string = some buffer ∧ buffer.written = true) ∧ after = m := by
  cases string with
  | none => simp [stringArgument]
  | some buffer => cases written : buffer.written <;> simp [stringArgument, written]

/-- A destination passes when it was written, or when that does not count. -/
@[simp] theorem returns_destination_iff {buffer : PathBuffer} {value : Unit} :
    Returns (destination counts buffer : StrictM σ Unit) m value after ↔
      (counts = true → buffer.written = true) ∧ after = m := by
  cases counts <;> simp [destination]

@[simp] theorem returns_lookupArgument_iff {assembled : Bool} {value : Unit} :
    Returns (lookupArgument assembled : StrictM σ Unit) m value after ↔
      assembled = true ∧ after = m := by
  cases assembled <;> simp [lookupArgument]

namespace Strict

/-- What the checks of `getfullPath` ask for, once there is a scratch buffer. -/
def Joinable (counts : Bool) (pathname : Option PathBuffer) (fullpath : PathBuffer) : Prop :=
  (counts = true → fullpath.written = true) ∧ ∃ name, pathname = some name ∧ name.written = true

/-- The strict join is the plain one where its buffers are good, and it says which of them it
wrote. -/
theorem returns_getfullPath_iff {pathname : Option PathBuffer} {fullpath : PathBuffer}
    {answer : Bool × PathBuffer} :
    Returns (getfullPath k counts pathname fullpath) m answer after ↔
      Returns (FsProtection.getfullPath k (pointer pathname) fullpath.block) m
        (answer.1, answer.2.block) after ∧
      ((k.kmalloc m.outside m.kmallocs pathMax).isSome → Joinable counts pathname fullpath) ∧
      answer.1 = (k.kmalloc m.outside m.kmallocs pathMax).isSome ∧
      answer.2.written = (fullpath.written || (k.kmalloc m.outside m.kmallocs pathMax).isSome) := by
  obtain ⟨joined, block, written⟩ := answer
  cases allocated : k.kmalloc m.outside m.kmallocs pathMax with
  | none =>
      have refused : Returns (strictly (kmalloc k pathMax)) m none _ :=
        returns_strictly_iff.mpr (returns_kmalloc_none allocated)
      rw [getfullPath, returns_bind_of_returns refused, FsProtection.getfullPath,
        returns_bind_of_returns (returns_kmalloc_none allocated)]
      obtain ⟨there, touched⟩ := fullpath
      simp only [returns_pure_iff, Prod.mk.injEq, PathBuffer.mk.injEq, Option.isSome_none,
        Bool.or_false]
      constructor
      · rintro ⟨⟨rfl, rfl, rfl⟩, rfl⟩
        exact ⟨⟨⟨rfl, rfl⟩, rfl⟩, nofun, rfl, rfl⟩
      · rintro ⟨⟨⟨rfl, rfl⟩, rfl⟩, _, _, rfl⟩
        exact ⟨⟨rfl, rfl, rfl⟩, rfl⟩
  | some scratch =>
      have given : Returns (strictly (kmalloc k pathMax)) m _ _ :=
        returns_strictly_iff.mpr (returns_kmalloc_some allocated)
      constructor
      · intro ran
        refine ⟨(getfullPath_erases pathname fullpath).returns ran, ?_⟩
        rw [getfullPath, returns_bind_of_returns given] at ran
        simp only [returns_bind_iff, returns_destination_iff, returns_stringArgument_iff,
          returns_pure_iff] at ran
        obtain ⟨_, _, _, _, _, _, _, _, ⟨counted, _⟩, _, _, _, _, _, _, _, _, ⟨named, _⟩, _, _, _,
          _, _, _, _, _, _, done, _⟩ := ran
        cases done
        exact ⟨fun _ => ⟨counted, named⟩, rfl, by simp⟩
      · rintro ⟨ran, joinable, _, marked⟩
        obtain ⟨counted, named⟩ := joinable rfl
        rw [FsProtection.getfullPath,
          returns_bind_of_returns (returns_kmalloc_some allocated)] at ran
        rw [getfullPath, returns_bind_of_returns given]
        simp only [returns_bind_iff, returns_strictly_iff, returns_destination_iff,
          returns_stringArgument_iff, returns_pure_iff] at ran ⊢
        obtain ⟨_, _, got, _, _, spelled, _, _, first, _, _, second, _, _, read, _, _, third, _, _,
          freed, done, rfl⟩ := ran
        refine ⟨_, _, got, _, _, spelled, (), _, ⟨counted, rfl⟩, _, _, first, _, _, second, (), _,
          ⟨named, rfl⟩, _, _, read, _, _, third, _, _, freed, ?_, rfl⟩
        cases done
        simp at marked
        rw [marked]

/-- What `getfullPath` reports, and that it has a pathname when it uses one. -/
theorem getfullPath_outcome {pathname : Option Block} {fullpath : Block} {answer : Bool × Block}
    (size : fullpath.bytes.length = pathMax)
    (ran : Returns (FsProtection.getfullPath k pathname fullpath) m answer after) :
    answer.1 = (k.kmalloc m.outside m.kmallocs pathMax).isSome ∧
      ((k.kmalloc m.outside m.kmallocs pathMax).isSome → pathname.isSome) := by
  cases allocated : k.kmalloc m.outside m.kmallocs pathMax with
  | none =>
      obtain ⟨rfl, _⟩ := ran.unique (returns_getfullPath_null allocated)
      exact ⟨rfl, nofun⟩
  | some scratch =>
      obtain ⟨name, rfl, named, room⟩ := getfullPath_returned allocated size ran
      obtain ⟨bytes, expected, _⟩ := getfullPath_returns allocated size named room
      obtain ⟨rfl, _⟩ := ran.unique expected
      exact ⟨rfl, fun _ => rfl⟩

/-- A `getfullPath` that returns is not stopped by a check, if what it joins was written. -/
theorem getfullPath_strict {pathname : Option PathBuffer} {fullpath : PathBuffer}
    {answer : Bool × Block}
    (size : fullpath.block.bytes.length = pathMax)
    (ran : Returns (FsProtection.getfullPath k (pointer pathname) fullpath.block) m answer after)
    (joinable : (k.kmalloc m.outside m.kmallocs pathMax).isSome →
      Joinable counts pathname fullpath) :
    ∃ strict, Returns (getfullPath k counts pathname fullpath) m strict after ∧
      strict.2.block = answer.2 :=
  ⟨(answer.1, ⟨answer.2, _⟩), returns_getfullPath_iff.mpr
    ⟨ran, joinable, (getfullPath_outcome size ran).1, rfl⟩, rfl⟩

/-- What a strict `getNewFullPath` that returns says about its allocations. -/
theorem getNewFullPath_returned {pathname : Option PathBuffer} {answer : Int × Option PathBuffer}
    (ran : Returns (getNewFullPath k counts pathname) m answer after) :
    ((k.kmalloc m.outside m.kmallocs pathMax).isSome →
        (k.kmalloc m.outside (m.kmallocs + 1) pathMax).isSome → counts = false) ∧
      (answer.1 = 0 ↔ (k.kmalloc m.outside m.kmallocs pathMax).isSome ∧
        (k.kmalloc m.outside (m.kmallocs + 1) pathMax).isSome) ∧
      ∀ full ∈ answer.2, full.written = (k.kmalloc m.outside (m.kmallocs + 1) pathMax).isSome := by
  unfold getNewFullPath at ran
  cases allocated : k.kmalloc m.outside m.kmallocs pathMax with
  | none =>
      have refused := returns_strictly_iff.mpr (returns_kmalloc_none allocated)
      rw [returns_bind_of_returns refused] at ran
      obtain ⟨rfl, _⟩ := returns_pure_iff.mp ran
      simp
  | some old =>
      have given := returns_strictly_iff.mpr (returns_kmalloc_some allocated)
      rw [returns_bind_of_returns given] at ran
      obtain ⟨temp, _, joined, done⟩ := returns_bind_iff.mp ran
      obtain ⟨rfl, _⟩ := returns_pure_iff.mp done
      obtain ⟨_, joinable, code, marked⟩ := returns_getfullPath_iff.mp joined
      refine ⟨fun _ scratch => ?_, ?_, ?_⟩
      · simpa using (joinable scratch).1
      · cases scratch : k.kmalloc m.outside (m.kmallocs + 1) pathMax <;> simp [code, scratch]
      · intro full isFull
        cases isFull
        simpa using marked

/-- A `getNewFullPath` that returns is not stopped by a check, if the pathname was written
and appending to a fresh block does not count. -/
theorem getNewFullPath_strict {pathname : Option PathBuffer} {answer : Int × Option Block}
    (ran : Returns (FsProtection.getNewFullPath k (pointer pathname)) m answer after)
    (written : ∀ name ∈ pathname, name.written = true)
    (excused : (k.kmalloc m.outside m.kmallocs pathMax).isSome →
      (k.kmalloc m.outside (m.kmallocs + 1) pathMax).isSome → counts = false) :
    ∃ strict, Returns (getNewFullPath k counts pathname) m strict after ∧
      pointer strict.2 = answer.2 := by
  unfold FsProtection.getNewFullPath at ran
  unfold getNewFullPath
  cases allocated : k.kmalloc m.outside m.kmallocs pathMax with
  | none =>
      have refused := returns_kmalloc_none allocated
      rw [returns_bind_of_returns refused] at ran
      obtain ⟨rfl, rfl⟩ := returns_pure_iff.mp ran
      exact ⟨_, (returns_strictly_iff.mpr refused).bind (returns_pure_iff.mpr ⟨rfl, rfl⟩), rfl⟩
  | some old =>
      have given := returns_kmalloc_some allocated
      rw [returns_bind_of_returns given] at ran
      obtain ⟨temp, _, joined, done⟩ := returns_bind_iff.mp ran
      obtain ⟨rfl, rfl⟩ := returns_pure_iff.mp done
      have named := (getfullPath_outcome (k.kmallocLength allocated) joined).2
      have size : (⟨⟨m.kmallocs, old⟩, false⟩ : PathBuffer).block.bytes.length = pathMax :=
        k.kmallocLength allocated
      obtain ⟨strict, ranStrict, sameBlock⟩ := getfullPath_strict size joined fun scratch => by
        obtain ⟨name, isName⟩ := Option.isSome_iff_exists.mp (named scratch)
        obtain ⟨buffer, isBuffer, _⟩ := Option.map_eq_some_iff.mp isName
        have uncounted := excused (by rw [allocated]; rfl) scratch
        exact ⟨fun counted => absurd (uncounted.symm.trans counted) nofun, buffer, isBuffer,
          written buffer isBuffer⟩
      refine ⟨_, (returns_strictly_iff.mpr given).bind
        (ranStrict.bind (returns_pure_iff.mpr ⟨rfl, rfl⟩)), ?_⟩
      exact congrArg some sameBlock

/-- A copy is there, written and reported as success, exactly when its block is. -/
theorem copyStringFromUser_returned {userstring : Bytes} {answer : Int × Option PathBuffer}
    (ran : Returns (copyStringFromUser k userstring) m answer after) :
    after.outside = m.outside ∧ after.kmallocs = m.kmallocs + 1 ∧
      (answer.1 = 0 ↔ (k.kmalloc m.outside m.kmallocs pathMax).isSome) ∧
      (answer.2.isSome ↔ (k.kmalloc m.outside m.kmallocs pathMax).isSome) ∧
      ∀ name ∈ answer.2, name.written = true := by
  obtain ⟨plain, _, copied, done⟩ := returns_bind_iff.mp ran
  obtain ⟨rfl, rfl⟩ := returns_pure_iff.mp done
  rw [returns_strictly_iff] at copied
  cases allocated : k.kmalloc m.outside m.kmallocs pathMax with
  | none =>
      obtain ⟨rfl, rfl⟩ := copied.unique (returns_copyStringFromUser_null allocated)
      simp
  | some old =>
      obtain ⟨_, rfl, rfl⟩ := (returns_copyStringFromUser_iff allocated).mp copied
      simp

/-- It needs no check. -/
theorem copyStringFromUser_strict {userstring : Bytes} {answer : Int × Option Block}
    (ran : Returns (FsProtection.copyStringFromUser k userstring) m answer after) :
    ∃ strict, Returns (copyStringFromUser k userstring) m strict after ∧
      pointer strict.2 = answer.2 := by
  refine ⟨_, (returns_strictly_iff.mpr ran).bind (returns_pure_iff.mpr ⟨rfl, rfl⟩), ?_⟩
  cases answer.2 <;> rfl

theorem copyStringFromUser_settles (userstring : Bytes) :
    Settles (copyStringFromUser k userstring) m
      ((k.kmalloc m.outside m.kmallocs pathMax).isSome → (cstr userstring).length < pathMax)
      fun answer _ =>
        Carries (pointer answer.2)
          ((k.kmalloc m.outside m.kmallocs pathMax).map fun _ => cstr userstring) ∧
        (answer.1 = 0 ↔ (k.kmalloc m.outside m.kmallocs pathMax).isSome) where
  returned ran := by
    have plain := (FsProtection.copyStringFromUser_settles userstring).returned
      ((copyStringFromUser_erases userstring).returns ran)
    exact ⟨plain.1, plain.2.2.2.1, (copyStringFromUser_returned ran).2.2.1⟩
  returns fits := by
    obtain ⟨plain, after, ran⟩ := (FsProtection.copyStringFromUser_settles userstring).returns fits
    obtain ⟨answer, strict, _⟩ := copyStringFromUser_strict ran
    exact ⟨answer, after, strict⟩

/-- What a strict assembly that returns says about its allocations. -/
theorem assemblePath_returned {pathname : Bytes} {paths : Paths}
    (ran : Returns (assemblePath k counts pathname) m paths after) :
    ((k.pathBuffers m.outside m.kmallocs).Joins → counts = false) ∧
      (paths.assembled = true ↔ (k.pathBuffers m.outside m.kmallocs).Complete) ∧
      ∀ full ∈ paths.full,
        full.written = (k.pathBuffers m.outside m.kmallocs).path.isSome := by
  obtain ⟨kernelpath, middle, copied, ran⟩ := returns_bind_iff.mp ran
  obtain ⟨fullpath, _, built, done⟩ := returns_bind_iff.mp ran
  obtain ⟨rfl, rfl⟩ := returns_pure_iff.mp done
  obtain ⟨outside, count, code, _, _⟩ := copyStringFromUser_returned copied
  obtain ⟨excused, codeFull, marked⟩ := getNewFullPath_returned built
  rw [outside, count] at excused codeFull marked
  refine ⟨fun joins => excused joins.1 joins.2, ?_, marked⟩
  rw [decide_eq_true_iff, code, codeFull]
  rfl

/-- An assembly that returns is not stopped by a check, if appending to a fresh block does
not count. -/
theorem assemblePath_strict {pathname : Bytes} {plain : Option Block × Option Block}
    (ran : Returns (FsProtection.assemblePath k pathname) m plain after)
    (excused : (k.pathBuffers m.outside m.kmallocs).Joins → counts = false) :
    ∃ paths, Returns (assemblePath k counts pathname) m paths after ∧ paths.pointers = plain := by
  obtain ⟨kernelpath, middle, copied, ran⟩ := returns_bind_iff.mp ran
  obtain ⟨fullpath, _, built, done⟩ := returns_bind_iff.mp ran
  obtain ⟨rfl, rfl⟩ := returns_pure_iff.mp done
  obtain ⟨strictName, copiedStrict, sameName⟩ := copyStringFromUser_strict copied
  obtain ⟨outside, count, _, _, written⟩ := copyStringFromUser_returned copiedStrict
  rw [← sameName] at built
  obtain ⟨strictFull, builtStrict, sameFull⟩ := getNewFullPath_strict built written
    (fun there scratch => excused ⟨by rwa [outside, count] at there, by
      rwa [outside, count] at scratch⟩)
  refine ⟨_, copiedStrict.bind (builtStrict.bind (returns_pure_iff.mpr ⟨rfl, rfl⟩)), ?_⟩
  rw [Paths.pointers, sameName, sameFull]

/-- An assembly that fits its buffers passes the checks unless it joins onto what nothing was
written to, and that counts. -/
theorem assemblePath_settles (pathname : Bytes) :
    Settles (assemblePath k counts pathname) m
      ((k.pathBuffers m.outside m.kmallocs).Fits (k.dPath m.outside) (cstr pathname) ∧
        ((k.pathBuffers m.outside m.kmallocs).Joins → counts = false))
      fun paths after => (Unseen m after ∧
          after.kmallocs = m.kmallocs + 2 +
            (if (k.pathBuffers m.outside m.kmallocs).fullpath.isSome then 1 else 0) ∧
          Carries (pointer paths.full) ((k.pathBuffers m.outside m.kmallocs).lookedUp
            (k.dPath m.outside) (cstr pathname)) ∧
          ((k.pathBuffers m.outside m.kmallocs).Ended ↔
            ∀ block ∈ pointer paths.full, Terminated block.bytes)) ∧
        (paths.assembled = true ↔ (k.pathBuffers m.outside m.kmallocs).Complete) ∧
        ∀ full ∈ paths.full,
          full.written = (k.pathBuffers m.outside m.kmallocs).path.isSome where
  returned ran := by
    have plain := (FsProtection.assemblePath_settles pathname).returned
      ((assemblePath_erases pathname).returns ran)
    obtain ⟨excused, said⟩ := assemblePath_returned ran
    exact ⟨⟨plain.1, excused⟩, plain.2, said⟩
  returns := by
    rintro ⟨fits, excused⟩
    obtain ⟨plain, after, ran⟩ := (FsProtection.assemblePath_settles pathname).returns fits
    obtain ⟨paths, strict, _⟩ := assemblePath_strict ran excused
    exact ⟨paths, after, strict⟩

variable (globals : Globals)

theorem stringArgument_settles {string : Option PathBuffer} :
    Settles (stringArgument string : StrictM σ Unit) m
      (∃ buffer, string = some buffer ∧ buffer.written = true) fun _ after => after = m where
  returned := returns_stringArgument_iff.mp
  returns written := ⟨(), m, returns_stringArgument_iff.mpr ⟨written, rfl⟩⟩

/-- The lookup of a strict hook needs a path that was assembled. -/
theorem guardPath_settles {path : Option Block} {text : Option Bytes}
    (carries : Carries path text) (assembled : Bool) (ptype : ProtectType) (call : Syscall) :
    Settles (guardPath k globals assembled path ptype call) m
      (assembled = true ∧ (text = none → globals.fileListRoot = []))
      fun ret after =>
        ((∃ key ∈ text, globals.fileListRoot.any (k.pathMatches key ptype) = true) →
          Declined m (k.pathNotices globals text ptype) ret after) ∧
        ((¬ ∃ key ∈ text, globals.fileListRoot.any (k.pathMatches key ptype) = true) →
          Transparent k call m ret after) := by
  have checked : Settles (lookupArgument assembled : StrictM σ Unit) m (assembled = true)
      fun _ after => after = m :=
    ⟨returns_lookupArgument_iff.mp, fun passes => ⟨(), m, returns_lookupArgument_iff.mpr
      ⟨passes, rfl⟩⟩⟩
  refine checked.bind fun _ _ after same => ?_
  subst same
  exact (guardPath_guards carries ptype call).widen

/-- A lookup where the path is assembled under some condition returns under it, with an
error when the call is refused or the original answers one. -/
theorem guardAssembled_settles {path : Option Block} {text : Option Bytes} {assembled : Bool}
    {whole : Prop} (carries : Carries path text) (complete : assembled = true ↔ whole)
    (spelled : whole → text ≠ none) (ptype : ProtectType) (call : Syscall) :
    Settles (guardPath k globals assembled path ptype call) m whole fun ret _ =>
      (ret < 0 ↔ (∃ key ∈ text, globals.fileListRoot.any (k.pathMatches key ptype) = true) ∨
        (k.origin call m.outside m.userBuf).1 < 0) := by
  refine (guardPath_settles globals carries assembled ptype call).imp ?_ ?_
  · rw [complete]
    exact and_iff_left_of_imp fun isWhole null => absurd null (spelled isWhole)
  · rintro _ ret after ⟨declined, transparent⟩
    by_cases hit : ∃ key ∈ text, globals.fileListRoot.any (k.pathMatches key ptype) = true
    · rw [(declined hit).answer]
      exact iff_of_true (by decide) (.inl hit)
    · rw [(transparent hit).answer, or_iff_right hit]

/-- A hook gives its blocks back and returns. -/
theorem finish_settles {release : HookM σ Unit} {answer : Int32 × Bool}
    {post : Int32 × Bool → Prop} (released : ∃ after, Returns release m () after)
    (holds : post answer) :
    Settles (do
        strictly release
        return answer) m True fun value _ => post value := by
  obtain ⟨after, ran⟩ := released
  exact .of_returns ((returns_strictly_iff.mpr ran).bind (returns_pure_iff.mpr ⟨rfl, rfl⟩))
    trivial holds

end Strict

end Checks

end FsProtection
