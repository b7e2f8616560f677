import FsProtection.Hooks.Pairs
import FsProtection.Monitor

/-!
# Rules of other types

Every hook that looks a rule up asks for one type. What the writes before a call did to the
rules of other types makes no difference to it, except that a call whose path could not be
allocated faults as soon as there is any rule to compare it with.
-/

namespace FsProtection

open Base

/-- The type of rule the hook of a call asks for. -/
def Syscall.asksFor : Syscall → Option ProtectType
  | .mkdir _ _ => some .mkdir
  | .chdir _ => some .hide
  | .getdents64 _ _ => some .hide
  | .read _ _ => some .read
  | .write _ _ => some .write
  | .unlinkat _ _ _ => some .del
  | .unlink _ => some .del
  | .rename _ _ => some .rename
  | _ => none

/-- Two policies with the same switch and, of the type a call is asked about, the same rules
in the same order. -/
structure Policy.SameFor (policy other : Policy) (call : Syscall) : Prop where
  enabled : policy.enabled = other.enabled
  rules : ∀ ptype ∈ call.asksFor,
    policy.rules.filter (·.type = ptype) = other.rules.filter (·.type = ptype)

section Types

variable {σ : Type} {k : Kernel σ} {m : Machine σ} {policy other : Policy} {call : Syscall}

theorem lookedFor_typed {test : FileNode → Bool} (looked : test ∈ k.lookedFor m call)
    (rule : FileNode) (passes : test rule = true) : call.asksFor = some rule.type := by
  cases call with
  | chdir path =>
      cases looked
      exact congrArg some (of_decide_eq_true passes).2.symm
  | read _ _ | write _ _ =>
      obtain ⟨file, _, rfl⟩ := Option.map_eq_some_iff.mp looked
      exact congrArg some (of_decide_eq_true passes).2.symm
  | mkdir _ _ | unlinkat _ _ _ | unlink _ | rename _ _ =>
      obtain ⟨text, _, rfl⟩ := Option.map_eq_some_iff.mp looked
      exact congrArg some (of_decide_eq_true passes).2.symm
  | _ => cases looked

/-- The lookup of a call finds the same rule in both. -/
theorem Policy.SameFor.find?_eq (same : policy.SameFor other call) {test : FileNode → Bool}
    (looked : test ∈ k.lookedFor m call) :
    policy.rules.find? test = other.rules.find? test := by
  cases asked : call.asksFor with
  | none =>
      have never : ∀ rule, test rule ≠ true := fun rule passes => by
        have typed := lookedFor_typed looked rule passes
        rw [asked] at typed
        cases typed
      rw [List.find?_eq_none.mpr fun rule _ => never rule,
        List.find?_eq_none.mpr fun rule _ => never rule]
  | some ptype =>
      refine find?_eq_of_filter (fun rule passes => ?_) (same.rules ptype asked)
      have typed := (lookedFor_typed looked rule passes).symm.trans asked
      exact decide_eq_true (Option.some.inj typed)

theorem Policy.SameFor.hits_iff (same : policy.SameFor other call) (decided : call.Decided) :
    Hits k policy.globals m call ↔ Hits k other.globals m call := by
  have asks : Asks k policy.globals m call ↔ Asks k other.globals m call := by
    cases call <;> simp [Asks, Policy.globals, same.enabled]
  rw [FsProtection.hits_iff _ _ decided, FsProtection.hits_iff _ _ decided, asks]
  refine and_congr_right fun _ => exists_congr fun test => and_congr_right fun looked => ?_
  rw [Policy.globals, Policy.globals, any_eq_of_find? (same.find?_eq looked)]

theorem Policy.SameFor.notices_eq (same : policy.SameFor other call) :
    k.lookupNotices policy.globals m call = k.lookupNotices other.globals m call := by
  cases looked : k.lookedFor m call with
  | none => simp [Kernel.lookupNotices, looked]
  | some test =>
      have found := same.find?_eq (k := k) (m := m) looked
      simp [Kernel.lookupNotices, looked, Kernel.firstNotice, Policy.globals, found]

/-- Under two policies with the same rules of the type a call is asked about, the call does
the same exactly when it faults under both or under none. -/
theorem Policy.SameFor.agree_iff (same : policy.SameFor other call) :
    Agree (modified k policy.globals call) (modified k other.globals call) m ↔
      (Sound k policy.globals m call ↔ Sound k other.globals m call) := by
  by_cases decided : call.Decided
  · have guards := modified_guards (k := k) policy.globals m decided
    rw [guards.agree_iff (modified_guards other.globals m decided) rfl
      (lookupNotices_ne_nil policy.globals m decided)
      (lookupNotices_ne_nil other.globals m decided)]
    exact and_iff_left fun _ => ⟨same.hits_iff decided, fun _ => same.notices_eq.symm⟩
  · obtain ⟨fd, count, rfl⟩ : ∃ fd count, call = .getdents64 fd count := by
      simpa [Syscall.Decided] using decided
    have walks : modified k policy.globals (.getdents64 fd count) =
        modified k other.globals (.getdents64 fd count) :=
      modifiedGetdents64_congr (same.rules .hide rfl) fd count
    have agree : Agree (modified k other.globals (.getdents64 fd count))
        (modified k other.globals (.getdents64 fd count)) m :=
      ⟨fun ran => ⟨_, ran, rfl, rfl, rfl⟩, fun ran => ⟨_, ran, rfl, rfl, rfl⟩⟩
    rw [walks]
    exact iff_of_true agree Iff.rfl

variable {opens : σ → Bytes → Option InodeAddr} {past others : List (Occurrence σ)}
  {s s' : ProcState σ}

/-- Rules of one type do not interfere with calls that ask for another. After any two
histories whose policies have the same switch and the same rules of the type a call is asked
about, the call has the same answer, the same effect and the same messages, unless it faults
after one of them only. -/
theorem types_do_not_interfere (view : PathView k opens) {raw raw' : SizedBytes bufferSize}
    {outside outside' : σ} (history : History k ⟨Globals.initial raw, outside⟩ past s)
    (other : History k ⟨Globals.initial raw', outside'⟩ others s')
    (same : (policyOf opens past).SameFor (policyOf opens others) call) :
    Agree (modified k s.globals call) (modified k s'.globals call) m ↔
      (Sound k (policyOf opens past).globals m call ↔
        Sound k (policyOf opens others).globals m call) := by
  rw [(history.inPlace view).modified_eq, (other.inPlace view).modified_eq]
  exact same.agree_iff

end Types

/-- A rule against deletion leaves a read as it is without it. -/
theorem keepWrite_reads_same : ∃ s, History (Kernel.quiet homeFile)
      ⟨Globals.initial (.zeros _), ()⟩ [.handled () keepWrite] s ∧
    Agree (modified (Kernel.quiet homeFile) s.globals (.read 7 1))
      (modified (Kernel.quiet homeFile) (Globals.initial (.zeros _)) (.read 7 1))
      (Machine.start () []) := by
  obtain ⟨s, history⟩ := keepWrite_history
  refine ⟨s, history, ?_⟩
  have same : (policyOf (fun _ => homeFile) [.handled () keepWrite]).SameFor
      (policyOf (fun _ => homeFile) ([] : List (Occurrence Unit))) (.read 7 1) := by
    refine ⟨rfl, fun ptype isRead => ?_⟩
    cases isRead
    rw [keepWrite_rules]
    rfl
  exact (types_do_not_interfere (Kernel.quiet_pathView homeFile) history
    (.refl : History _ ⟨Globals.initial (.zeros _), ()⟩ [] _) same).mpr Iff.rfl

end FsProtection
