import FsProtection.Hooks.Enforcement
import FsProtection.Hooks.Notices

/-!
# The two forms of a call

`unlink`, `rmdir` and `rename` have forms that take directory descriptors. Whether the
hooks of the two forms agree follows from what each of them guards: `modified_unlink` and
`modified_unlinkat` always do, while `modified_rmdir` and `modified_renameat` decide
nothing.
-/

namespace FsProtection

open Base

/-- `AT_REMOVEDIR`. -/
def atRemovedir : Int32 := 512

variable {σ : Type} {k : Kernel σ}

/-- The originals of the two forms of a call are one. -/
structure Paired (k : Kernel σ) : Prop where
  unlink : ∀ pathname, k.origin (.unlink pathname) = k.origin (.unlinkat atFdcwd pathname 0)
  rmdir : ∀ pathname,
    k.origin (.rmdir pathname) = k.origin (.unlinkat atFdcwd pathname atRemovedir)
  rename : ∀ old new,
    k.origin (.rename old new) = k.origin (.renameat atFdcwd old atFdcwd new)

/-- The same effect for the caller, for other processes and for the listener. -/
structure SameEffect (left right : Machine σ) : Prop where
  outside : right.outside = left.outside
  userBuf : right.userBuf = left.userBuf
  messages : right.messages = left.messages

/-- Each outcome of one hook is one of the other, with the same answer and effect. -/
structure Agree (left right : HookM σ Int32) (m : Machine σ) : Prop where
  forth : ∀ {ret after}, Returns left m ret after →
    ∃ other, Returns right m ret other ∧ SameEffect after other
  back : ∀ {ret other}, Returns right m ret other →
    ∃ after, Returns left m ret after ∧ SameEffect after other

section Agreement

variable {left right : HookM σ Int32} {m : Machine σ} {call other : Syscall}
  {safe hit safe' hit' : Prop} {notices notices' : List Bytes}

theorem Agree.of_returns {ret : Int32} {after final : Machine σ}
    (ran : Returns left m ret after) (ranOther : Returns right m ret final)
    (same : SameEffect after final) : Agree left right m where
  forth again := by
    obtain ⟨rfl, rfl⟩ := ran.unique again
    exact ⟨final, ranOther, same⟩
  back again := by
    obtain ⟨rfl, rfl⟩ := ranOther.unique again
    exact ⟨after, ran, same⟩

theorem Agree.symm (agree : Agree left right m) : Agree right left m where
  forth ran := by
    obtain ⟨after, ranLeft, same⟩ := agree.back ran
    exact ⟨after, ranLeft, same.outside.symm, same.userBuf.symm, same.messages.symm⟩
  back ran := by
    obtain ⟨after, ranRight, same⟩ := agree.forth ran
    exact ⟨after, ranRight, same.outside.symm, same.userBuf.symm, same.messages.symm⟩

theorem Declined.sameEffect {ret ret' : Int32} {after final : Machine σ}
    (declined : Declined m notices ret after) (other : Declined m notices ret' final) :
    SameEffect after final where
  outside := other.outside.trans declined.outside.symm
  userBuf := other.userBuf.trans declined.userBuf.symm
  messages := other.messages.trans declined.messages.symm

theorem Transparent.sameEffect {ret ret' : Int32} {after final : Machine σ}
    (same : k.origin call = k.origin other) (passed : Transparent k call m ret after)
    (otherPassed : Transparent k other m ret' final) : SameEffect after final where
  outside := by rw [passed.outside, otherPassed.outside, same]
  userBuf := by rw [passed.userBuf, otherPassed.userBuf, same]
  messages := otherPassed.messages.trans passed.messages.symm

/-- A hook that declines with a notice does not agree with one that passes the call on. -/
theorem Guards.hit_of_agree (guards : Guards k left m call safe hit notices)
    (others : Guards k right m other safe' hit' notices') (spoken : hit → notices ≠ [])
    (agree : Agree left right m) (isSafe : safe) (isHit : hit) : hit' ∧ notices' = notices := by
  obtain ⟨ret, after, ran, declined, _⟩ := guards.outcome isSafe
  obtain ⟨final, ranOther, same⟩ := agree.forth ran
  obtain ⟨_, declinedOther, passedOther⟩ := others.returned ranOther
  have messages := same.messages.trans (declined isHit).messages
  by_cases otherHit : hit'
  · rw [(declinedOther otherHit).messages] at messages
    exact ⟨otherHit, List.append_cancel_left messages⟩
  · rw [(passedOther otherHit).messages] at messages
    exact absurd (List.self_eq_append_right.mp messages) (spoken isHit)

/-- Two hooks for one original agree exactly when they fault on the same calls and, where
they return, decide alike with the same notices. -/
theorem Guards.agree_iff (guards : Guards k left m call safe hit notices)
    (others : Guards k right m other safe' hit' notices')
    (same : k.origin call = k.origin other) (spoken : hit → notices ≠ [])
    (spokenOther : hit' → notices' ≠ []) :
    Agree left right m ↔
      (safe ↔ safe') ∧ (safe → (hit ↔ hit') ∧ (hit → notices' = notices)) := by
  constructor
  · intro agree
    have alike : safe ↔ safe' := by
      constructor
      · intro isSafe
        obtain ⟨ret, after, ran⟩ := guards.returns isSafe
        obtain ⟨final, ranOther, _⟩ := agree.forth ran
        exact (others.returned ranOther).1
      · intro isSafe
        obtain ⟨ret, after, ran⟩ := others.returns isSafe
        obtain ⟨final, ranOther, _⟩ := agree.back ran
        exact (guards.returned ranOther).1
    have forth := guards.hit_of_agree others spoken agree
    have back := others.hit_of_agree guards spokenOther agree.symm
    refine ⟨alike, fun isSafe => ⟨⟨fun isHit => (forth isSafe isHit).1, fun isHit => ?_⟩,
      fun isHit => (forth isSafe isHit).2⟩⟩
    exact (back (alike.mp isSafe) isHit).1
  · rintro ⟨alike, decide⟩
    by_cases isSafe : safe
    · obtain ⟨sameHit, sameNotices⟩ := decide isSafe
      obtain ⟨ret, after, ran, declined, passed⟩ := guards.outcome isSafe
      obtain ⟨ret', final, ranOther, declinedOther, passedOther⟩ :=
        others.outcome (alike.mp isSafe)
      by_cases isHit : hit
      · have first := declined isHit
        have second := declinedOther (sameHit.mp isHit)
        rw [sameNotices isHit] at second
        obtain rfl : ret' = ret := second.answer.trans first.answer.symm
        exact .of_returns ran ranOther (first.sameEffect second)
      · have first := passed isHit
        have second := passedOther (mt sameHit.mpr isHit)
        obtain rfl : ret' = ret := by rw [first.answer, second.answer, same]
        exact .of_returns ran ranOther (first.sameEffect same second)
    · exact {
        forth := fun ran => absurd (guards.returned ran).1 isSafe
        back := fun ran => absurd (alike.mpr (others.returned ran).1) isSafe }

end Agreement

section Forms

variable (globals : Globals) (m : Machine σ)

/-- A decided call that hits has something to say. -/
theorem lookupNotices_ne_nil {call : Syscall} (decided : call.Decided)
    (hit : Hits k globals m call) : k.lookupNotices globals m call ≠ [] := by
  obtain ⟨_, test, looked, matched⟩ := (hits_iff globals m decided).mp hit
  have spoken : ∀ rule, test rule = true → rule.type.verb ≠ none := fun rule passes =>
    mt verb_eq_none_iff.mp (lookedFor_spoken looked rule passes)
  simpa [Kernel.lookupNotices, Option.mem_def.mp looked] using
    firstNotice_ne_nil (k := k) spoken matched

/-- The hooks of two decided calls with one original. -/
theorem modified_agree_iff {call other : Syscall} (decided : call.Decided)
    (otherDecided : other.Decided) (same : k.origin call = k.origin other) :
    Agree (modified k globals call) (modified k globals other) m ↔
      (Sound k globals m call ↔ Sound k globals m other) ∧
      (Sound k globals m call → (Hits k globals m call ↔ Hits k globals m other) ∧
        (Hits k globals m call →
          k.lookupNotices globals m other = k.lookupNotices globals m call)) :=
  (modified_guards globals m decided).agree_iff (modified_guards globals m otherDecided) same
    (lookupNotices_ne_nil globals m decided) (lookupNotices_ne_nil globals m otherDecided)

/-- The two forms of `unlink` agree. Those of `rmdir` agree exactly when their hooks
fault alike and no rule against deletion has the path `unlinkat` looks up; those of
`rename` exactly when nothing on the way of `rename` faults and no rule against renaming
has the path it looks up. -/
theorem forms_agree_iff (paired : Paired k) :
    (∀ pathname, Agree (modified k globals (.unlink pathname))
      (modified k globals (.unlinkat atFdcwd pathname 0)) m) ∧
    (∀ pathname, Agree (modified k globals (.rmdir pathname))
        (modified k globals (.unlinkat atFdcwd pathname atRemovedir)) m ↔
      (Sound k globals m (.rmdir pathname) ↔
        Sound k globals m (.unlinkat atFdcwd pathname atRemovedir)) ∧
      (Sound k globals m (.rmdir pathname) →
        ¬ Hits k globals m (.unlinkat atFdcwd pathname atRemovedir))) ∧
    ∀ old new, Agree (modified k globals (.rename old new))
        (modified k globals (.renameat atFdcwd old atFdcwd new)) m ↔
      Sound k globals m (.rename old new) ∧ ¬ Hits k globals m (.rename old new) := by
  refine ⟨fun pathname => ?_, fun pathname => ?_, fun old new => ?_⟩
  · rw [modified_agree_iff globals m (by simp) (by simp) (paired.unlink pathname)]
    exact ⟨Iff.rfl, fun _ => ⟨Iff.rfl, fun _ => rfl⟩⟩
  · rw [modified_agree_iff globals m (by simp) (by simp) (paired.rmdir pathname)]
    have never : ¬ Hits k globals m (.rmdir pathname) := id
    simp only [never, false_iff, false_implies, and_true]
  · rw [modified_agree_iff globals m (by simp) (by simp) (paired.rename old new)]
    have always : Sound k globals m (.renameat atFdcwd old atFdcwd new) := trivial
    have never : ¬ Hits k globals m (.renameat atFdcwd old atFdcwd new) := id
    simp only [always, never, iff_true, iff_false]
    constructor
    · rintro ⟨sound, decide⟩
      exact ⟨sound, (decide sound).1⟩
    · rintro ⟨sound, missed⟩
      exact ⟨sound, fun _ => ⟨missed, fun hit => absurd hit missed⟩⟩

end Forms

theorem Kernel.quiet_paired (opens : Bytes → Option InodeAddr) : Paired (Kernel.quiet opens) where
  unlink _ := rfl
  rmdir _ := rfl
  rename _ _ := rfl

/-- The two forms of `unlink` agree on the protected file, those of `rmdir` on another one,
and those of `rename`, as the rule is about deletion only, on both. -/
theorem keepFile_forms_agree :
    Agree (modified (Kernel.quiet homeFile) (onlyRule keepFile) (.unlink (lit "f")))
      (modified (Kernel.quiet homeFile) (onlyRule keepFile) (.unlinkat atFdcwd (lit "f") 0))
      (Machine.start () []) ∧
    Agree (modified (Kernel.quiet homeFile) (onlyRule keepFile) (.rmdir (lit "g")))
      (modified (Kernel.quiet homeFile) (onlyRule keepFile)
        (.unlinkat atFdcwd (lit "g") atRemovedir)) (Machine.start () []) ∧
    Agree (modified (Kernel.quiet homeFile) (onlyRule keepFile) (.rename (lit "f") (lit "g")))
      (modified (Kernel.quiet homeFile) (onlyRule keepFile)
        (.renameat atFdcwd (lit "f") atFdcwd (lit "g"))) (Machine.start () []) := by
  obtain ⟨unlinks, rmdirs, renames⟩ :=
    forms_agree_iff (onlyRule keepFile) (Machine.start () []) (Kernel.quiet_paired homeFile)
  refine ⟨unlinks (lit "f"), (rmdirs (lit "g")).mpr ⟨?_, fun _ => ?_⟩,
    (renames (lit "f") (lit "g")).mpr ⟨?_, ?_⟩⟩
  · have other : Sound (Kernel.quiet homeFile) (onlyRule keepFile) (Machine.start () [])
        (.unlinkat atFdcwd (lit "g") atRemovedir) := quiet_pathSafe _ (by decide)
    exact iff_of_true (fun _ => by decide) other
  · rintro ⟨text, looked, hit⟩
    obtain rfl := Option.some.inj
      ((Kernel.quiet_lookedUp homeFile 0 (lit "/home") (cstr (lit "g"))).symm.trans looked)
    have named := (onlyRule_hasPathRule (rfl : keepFile.type = .del)).mp hit
    rw [keepFile_path] at named
    exact absurd named (by decide)
  · have cleared := Kernel.quiet_cleared homeFile []
    have fits : ∀ kmallocs name, 6 + (cstr name).length < pathMax →
        ((Kernel.quiet homeFile).pathBuffers () kmallocs).Fits (lit "/home") (cstr name) :=
      fun kmallocs name room => (cleared.fits_iff kmallocs (lit "/home") (cstr name)).mpr room
    exact ⟨⟨fits 0 (lit "f") (by decide), fits 3 (lit "g") (by decide), cleared.ended 0,
      cleared.ended 3⟩, fun null => absurd null (cleared.fullpath 0)⟩
  · rintro ⟨text, looked, hit⟩
    simp [HasPathRule, onlyRule, Kernel.pathMatches, keepFile, FileNode.make] at hit

/-- `rmdir` of the protected file is passed on where `unlinkat` is refused. -/
theorem keepFile_forms_disagree :
    Paired (Kernel.quiet homeFile) ∧
      ¬ Agree (modified (Kernel.quiet homeFile) (onlyRule keepFile) (.rmdir (lit "f")))
        (modified (Kernel.quiet homeFile) (onlyRule keepFile)
          (.unlinkat atFdcwd (lit "f") atRemovedir)) (Machine.start () []) := by
  refine ⟨Kernel.quiet_paired homeFile, fun agree => ?_⟩
  rw [modified_agree_iff _ _ (by simp) (by simp) ((Kernel.quiet_paired homeFile).rmdir _)] at agree
  have sound : Sound (Kernel.quiet homeFile) (onlyRule keepFile) (Machine.start () [])
      (.rmdir (lit "f")) := fun _ => by decide
  exact (agree.2 sound).1.mpr ⟨lit "/home/f",
    Kernel.quiet_lookedUp homeFile 0 (lit "/home") (lit "f"), keepFile_hasPathRule⟩

end FsProtection
