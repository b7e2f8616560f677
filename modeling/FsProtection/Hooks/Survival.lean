import FsProtection.Hooks.Enforcement
import FsProtection.Hooks.Notices

/-!
# What a rule against deletion keeps

A run of calls with canonical full paths, under a list with a rule against deleting `p`.
The entry `p` is unlinked by none of them; it goes by a call whose hook does not look its
path up: `rmdir` of it, and a rename of another file onto it.
-/

namespace FsProtection

open Base

namespace Syscall

def pathnames : Syscall → List Bytes
  | .mkdir path _ => [path]
  | .chdir path => [path]
  | .rmdir pathname => [pathname]
  | .open_ pathname _ _ => [pathname]
  | .unlinkat _ pathname _ => [pathname]
  | .unlink pathname => [pathname]
  | .rename old new => [old, new]
  | .renameat _ oldpath _ newpath => [oldpath, newpath]
  | _ => []

/-- Relative pathnames of the call start in the working directory. -/
def FromCwd : Syscall → Prop
  | .unlinkat dirfd _ _ => dirfd = atFdcwd
  | .renameat olddirfd _ newdirfd _ => olddirfd = atFdcwd ∧ newdirfd = atFdcwd
  | _ => True

end Syscall

section Conditions

variable {σ : Type} (k : Kernel σ) (globals : Globals) (m : Machine σ) (p : Bytes)

/-- The working directory and a pathname put together are a canonical path. -/
def CanonicalPath (pathname : Bytes) : Prop :=
  ∃ cwd full : Directory, k.dPath m.outside = cwd.render ∧ k.fullPath m pathname = full.render

/-- The call is issued from the working directory, with canonical full paths. -/
def Canonical (call : Syscall) : Prop :=
  call.FromCwd ∧ ∀ pathname ∈ call.pathnames, CanonicalPath k m pathname

/-- The kernel resolves a pathname to an object from the working directory. -/
def ResolvesTo (pathname : Bytes) (object : Directory) : Prop :=
  ∃ cwd : Directory, k.dPath m.outside = cwd.render ∧ object ∈ lookup (some cwd) (cstr pathname)

/-- The kernel resolves a pathname to the entry `p`. -/
def Reaches (pathname : Bytes) : Prop :=
  ∃ object : Directory, ResolvesTo k m pathname object ∧ object.render = p

/-- The original call removes the entry `p` or replaces it: it unlinks it, removes it as a
directory, or renames another file onto it. -/
def Removes : Syscall → Prop
  | .rmdir pathname => Reaches k m p pathname
  | .unlinkat _ pathname _ => Reaches k m p pathname
  | .unlink pathname => Reaches k m p pathname
  | .rename old new => Reaches k m p new ∧ ¬ Reaches k m p old
  | .renameat _ oldpath _ newpath => Reaches k m p newpath ∧ ¬ Reaches k m p oldpath
  | _ => False

/-- The original call moves the entry `p` away, or a directory above it. -/
def MovesAway : Syscall → Prop
  | .rename old _ =>
      ∃ object below : Directory, ResolvesTo k m old object ∧ (object ++ below).render = p
  | .renameat _ oldpath _ _ =>
      ∃ object below : Directory, ResolvesTo k m oldpath object ∧ (object ++ below).render = p
  | _ => False

/-- The calls that are carried out on `p` whatever the rules against deletion are: `rmdir`
of it, `renameat` of another file onto it, and `rename` of another file onto it unless
that file has a rule against renaming. -/
def Unguarded : Syscall → Prop
  | .rmdir pathname => k.fullPath m pathname = p
  | .rename old new => k.fullPath m new = p ∧ k.fullPath m old ≠ p ∧
      ¬ HasPathRule k globals (k.fullPath m old) .rename
  | .renameat _ oldpath _ newpath => k.fullPath m newpath = p ∧ k.fullPath m oldpath ≠ p
  | _ => False

/-- A view of the entry `p`. While it is there, the originals change it only by removing
it, replacing it or moving it away. -/
def EntryOf {Entry : Type} (entry : σ → Option Entry) : Prop :=
  ∀ m call, Canonical k m call → ¬ Removes k m p call → ¬ MovesAway k m p call →
    (entry m.outside).isSome → entry (m.answered k call).outside = entry m.outside

end Conditions

namespace HookedCall

variable {σ : Type} (k : Kernel σ) (p : Bytes) (step : HookedCall σ)

def CarriedOut : Prop := Transparent k step.call step.before step.ret step.after

/-- A call that removes or replaces `p` was carried out. -/
def Removed : Prop := step.CarriedOut k ∧ Removes k step.before p step.call

/-- A call that moves `p` away was carried out. -/
def Moved : Prop := step.CarriedOut k ∧ MovesAway k step.before p step.call

end HookedCall

section Survival

variable {σ : Type} {k : Kernel σ} {globals : Globals} {m : Machine σ} {p : Bytes}

theorem render_injective {first second : Directory} (same : first.render = second.render) :
    first = second := by
  simpa only [resolve_render] using congrArg (Directory.resolve []) same

/-- A canonical path is what its pathname is resolved to. -/
theorem reaches_iff {pathname : Bytes} (canonical : CanonicalPath k m pathname) :
    Reaches k m p pathname ↔ k.fullPath m pathname = p := by
  obtain ⟨cwd, full, inCwd, rendered⟩ := canonical
  have assembled : k.fullPath m pathname = cwd.render ++ slash :: cstr pathname := by
    rw [Kernel.fullPath, inCwd]
  rw [assembled] at rendered
  obtain ⟨nonroot, texts⟩ := render_append_eq_render_iff.mp rendered
  have proper : OnlyNames (cstr pathname) := fun component member =>
    proper_of_mem_texts (texts ▸ List.mem_append_right _ member)
  have found : (lookup (some cwd) (cstr pathname)).map Directory.render =
      some (cwd.render ++ slash :: cstr pathname) := lookup_render_iff.mpr ⟨rfl, nonroot, proper⟩
  obtain ⟨object, resolved, isFull⟩ := Option.map_eq_some_iff.mp found
  rw [assembled]
  constructor
  · rintro ⟨other, ⟨otherCwd, inOther, again⟩, rfl⟩
    obtain rfl := render_injective (inCwd.symm.trans inOther)
    obtain rfl := Option.some.inj (resolved.symm.trans again)
    exact isFull.symm
  · rintro rfl
    exact ⟨object, ⟨cwd, inCwd, resolved⟩, isFull⟩

/-- A decided call is carried out exactly when it does not hit. -/
theorem carriedOut_iff {step : HookedCall σ} (decided : step.call.Decided)
    (ran : Returns (modified k globals step.call) step.before step.ret step.after) :
    step.CarriedOut k ↔ ¬ Hits k globals step.before step.call := by
  obtain ⟨_, declined, passed⟩ := (modified_guards globals step.before decided).returned ran
  exact ⟨fun carried hit => carried.not_refused (declined hit).toRefused, passed⟩

/-- With empty buffers a hook looks the full path up. -/
theorem Cleared.lookedUp_fullPath (cleared : Cleared k m) (pathname : Bytes) :
    (m.buffers k).lookedUp (k.dPath m.outside) (cstr pathname) = some (k.fullPath m pathname) :=
  cleared.lookedUp m.kmallocs (k.dPath m.outside) (cstr pathname)

/-- A call removes or replaces an entry with a rule against deletion exactly when it is
one of those that are carried out whatever these rules are. -/
theorem removed_iff {step : HookedCall σ}
    (ran : Returns (modified k globals step.call) step.before step.ret step.after)
    (canonical : Canonical k step.before step.call) (cleared : Cleared k step.before)
    (ruled : HasPathRule k globals p .del) :
    step.Removed k p ↔ Unguarded k globals step.before p step.call := by
  obtain ⟨_, paths⟩ := canonical
  obtain ⟨before, call, ret, after⟩ := step
  simp only at ran paths cleared ⊢
  cases call with
  | rmdir pathname =>
      have carried : HookedCall.CarriedOut k ⟨before, .rmdir pathname, ret, after⟩ :=
        (carriedOut_iff (by simp) ran).mpr id
      rw [HookedCall.Removed, and_iff_right carried]
      exact reaches_iff (paths pathname (by simp [Syscall.pathnames]))
  | unlinkat dirfd pathname flags =>
      refine iff_of_false (fun removed => ?_) id
      have path := (reaches_iff (paths pathname (by simp [Syscall.pathnames]))).mp removed.2
      exact (carriedOut_iff (by simp) ran).mp removed.1
        ⟨_, cleared.lookedUp_fullPath pathname, path ▸ ruled⟩
  | unlink pathname =>
      refine iff_of_false (fun removed => ?_) id
      have path := (reaches_iff (paths pathname (by simp [Syscall.pathnames]))).mp removed.2
      exact (carriedOut_iff (by simp) ran).mp removed.1
        ⟨_, cleared.lookedUp_fullPath pathname, path ▸ ruled⟩
  | rename old new =>
      have hits : Hits k globals before (.rename old new) ↔
          HasPathRule k globals (k.fullPath before old) .rename := by
        simp [Hits, cleared.lookedUp_fullPath]
      rw [HookedCall.Removed, carriedOut_iff (by simp) ran]
      simp only [Removes, Unguarded, hits,
        reaches_iff (paths old (by simp [Syscall.pathnames])),
        reaches_iff (paths new (by simp [Syscall.pathnames]))]
      constructor
      · rintro ⟨missed, onto, other⟩
        exact ⟨onto, other, missed⟩
      · rintro ⟨onto, other, missed⟩
        exact ⟨missed, onto, other⟩
  | renameat olddirfd oldpath newdirfd newpath =>
      rw [HookedCall.Removed, carriedOut_iff (by simp) ran]
      simp only [Removes, Unguarded, Hits, not_false_iff, true_and,
        reaches_iff (paths oldpath (by simp [Syscall.pathnames])),
        reaches_iff (paths newpath (by simp [Syscall.pathnames]))]
  | _ => exact iff_of_false (fun removed => removed.2) id

/-- A call that neither removes nor moves an entry leaves it as it was. -/
theorem entry_kept {Entry : Type} {entry : σ → Option Entry} (view : EntryOf k p entry)
    {step : HookedCall σ}
    (ran : Returns (modified k globals step.call) step.before step.ret step.after)
    (canonical : Canonical k step.before step.call) (unremoved : ¬ step.Removed k p)
    (unmoved : ¬ step.Moved k p) (present : (entry step.before.outside).isSome) :
    entry step.after.outside = entry step.before.outside := by
  by_cases carried : step.CarriedOut k
  · have same : step.after.outside = (step.before.answered k step.call).outside := carried.outside
    rw [same]
    exact view step.before step.call canonical (fun removes => unremoved ⟨carried, removes⟩)
      (fun moves => unmoved ⟨carried, moves⟩) present
  · rcases modified_follows step.call ran with still | followed
    · rw [still]
    · cases isCall : step.call with
      | getdents64 fd count =>
          rw [followed]
          refine view step.before step.call canonical ?_ ?_ present
          · simp [Removes, isCall]
          · simp [MovesAway, isCall]
      | _ =>
          have decided : step.call.Decided := by simp [isCall]
          obtain ⟨_, declined, _⟩ :=
            (modified_guards globals step.before decided).returned ran
          have hit : Hits k globals step.before step.call :=
            by_contra fun missed => carried ((carriedOut_iff decided ran).mpr missed)
          rw [(declined hit).outside]

/-- In every run of canonical calls on empty path buffers, under a list with a rule against
deleting `p`, the calls that remove or replace `p` are those that are carried out whatever
these rules are. Without such calls, and without one that moves `p` away, the entry is at
the end what it was at the start, when nothing else changes it between the calls. -/
theorem protected_entry_survives {waits : Machine σ → Machine σ → Prop} {start final : Machine σ}
    {steps : List (HookedCall σ)} (run : Run k globals waits start steps final)
    (canonical : ∀ step ∈ steps, Canonical k step.before step.call)
    (cleared : ∀ step ∈ steps, Cleared k step.before) (ruled : HasPathRule k globals p .del) :
    ((∀ step ∈ steps, ¬ step.Removed k p) ↔
      ∀ step ∈ steps, ¬ Unguarded k globals step.before p step.call) ∧
    ∀ (Entry : Type) (entry : σ → Option Entry), EntryOf k p entry →
      (∀ earlier later, waits earlier later → entry later.outside = entry earlier.outside) →
      (∀ step ∈ steps, ¬ Unguarded k globals step.before p step.call) →
      (∀ step ∈ steps, ¬ step.Moved k p) → (entry start.outside).isSome →
      entry final.outside = entry start.outside := by
  have removed : ∀ step ∈ steps,
      (step.Removed k p ↔ Unguarded k globals step.before p step.call) := fun step member =>
    removed_iff (run.returned step member) (canonical step member) (cleared step member) ruled
  refine ⟨forall₂_congr fun step member => not_congr (removed step member), ?_⟩
  intro Entry entry view undisturbed guarded unmoved present
  induction run with
  | refl => rfl
  | @step steps last next prior waited ran ih =>
      simp only [List.forall_mem_append, List.forall_mem_singleton]
        at canonical cleared removed guarded unmoved
      have earlier := ih canonical.1 cleared.1 removed.1 guarded.1 unmoved.1
      have before : entry next.before.outside = _ := (undisturbed _ _ waited).trans earlier
      have kept := entry_kept view ran canonical.2 (mt removed.2.mp guarded.2) unmoved.2
        (before ▸ present)
      exact kept.trans before

end Survival

section Examples

/-- The protected entry. -/
def protectedEntry : Directory := homeDirectory ++ [⟨lit "f", by decide⟩]

theorem homeFile_canonical :
    CanonicalPath (Kernel.quiet homeFile) (Machine.start () []) (lit "f") :=
  ⟨homeDirectory, protectedEntry, rfl, by decide⟩

/-- Unlinking the protected file does not remove it. -/
theorem keepFile_survives :
    ∃ step : HookedCall Unit, step.call = .unlink (lit "f") ∧
      ¬ step.Removed (Kernel.quiet homeFile) (lit "/home/f") := by
  obtain ⟨ret, after, ran, _⟩ := keepFile_refuses_unlink
  have run : Run _ _ Between (Machine.start () []) [⟨Machine.start () [], _, ret, after⟩] after :=
    .single ⟨rfl, rfl⟩ ran
  refine ⟨_, rfl, (protected_entry_survives run ?_ ?_ keepFile_hasPathRule).1.mpr ?_ _
    (List.mem_singleton_self _)⟩
  · rintro step member
    rw [List.mem_singleton.mp member]
    refine ⟨trivial, fun pathname isPath => ?_⟩
    rw [List.mem_singleton.mp isPath]
    exact homeFile_canonical
  · rintro step member
    rw [List.mem_singleton.mp member]
    exact Kernel.quiet_cleared homeFile []
  · rintro step member
    rw [List.mem_singleton.mp member]
    exact id

/-- A kernel whose state is the list of the entries in the file system, and whose only
original that does anything is `rmdir`. -/
def shelf : Kernel (List Bytes) :=
  { Kernel.resting (List Bytes) homeFile with
    origin := fun call state userBuf =>
      match call with
      | .rmdir pathname => (0, state.erase (lit "/home" ++ slash :: cstr pathname), userBuf)
      | _ => (0, state, userBuf) }

/-- The start of a process on the shelf with the protected entry. -/
def shelfStart : Machine (List Bytes) := Machine.start [lit "/home/f"] []

/-- `rmdir` of the protected entry removes it. -/
theorem rmdir_removes_protected :
    ∃ step : HookedCall (List Bytes), step.call = .rmdir (lit "f") ∧
      Run shelf (onlyRule keepFile) Between shelfStart [step] step.after ∧
      HasPathRule shelf (onlyRule keepFile) (lit "/home/f") .del ∧
      Canonical shelf step.before step.call ∧ Cleared shelf step.before ∧
      step.Removed shelf (lit "/home/f") ∧
      lit "/home/f" ∈ step.before.outside ∧ lit "/home/f" ∉ step.after.outside := by
  have cleared : Cleared shelf shelfStart :=
    fun _ => ⟨List.replicate pathMax 0, rfl, cstr_replicate_zero _⟩
  have path : shelf.pathOf keepFile = lit "/home/f" := pathOf_make (by decide) (by decide) 7 .del
  have ruled : HasPathRule shelf (onlyRule keepFile) (lit "/home/f") .del :=
    (onlyRule_hasPathRule rfl).mpr path.symm
  obtain ⟨ret, after, ran, passed⟩ : PassesOn shelf
      (modified shelf (onlyRule keepFile) (.rmdir (lit "f"))) shelfStart (.rmdir (lit "f")) :=
    (modifiedRmdir_guards shelf shelfStart (lit "f")).decides.passesOn_iff.mpr
      ⟨fun _ => by decide, not_false⟩
  have canonical : Canonical shelf shelfStart (.rmdir (lit "f")) := by
    refine ⟨trivial, fun pathname isPath => ?_⟩
    rw [List.mem_singleton.mp isPath]
    exact ⟨homeDirectory, protectedEntry, rfl, by decide⟩
  have full : shelf.fullPath shelfStart (lit "f") = lit "/home/f" := by decide
  refine ⟨⟨shelfStart, .rmdir (lit "f"), ret, after⟩, rfl,
    .single ⟨rfl, rfl⟩ ran, ruled, canonical, cleared, ⟨passed, ?_⟩, ?_, ?_⟩
  · exact (reaches_iff (canonical.2 _ (List.mem_singleton_self _))).mpr full
  · exact List.mem_singleton_self _
  · rw [passed.outside]
    decide

end Examples

end FsProtection
