import FsProtection.Communicate.Lookup

/-!
# What a hook decides

A hook either refuses a call or passes it on. `Decides` is the specification all
hooks with a lookup share: the hook returns exactly when nothing on its way faults, and
then refuses exactly the calls its lookup hits. `Guards` says in addition which
notifications a refused call sends; every hook is proved to guard.
-/

namespace FsProtection

open Base

variable {σ : Type} {k : Kernel σ}

/-- The call was refused, and the original not called. -/
structure Refused (before : Machine σ) (ret : Int32) (after : Machine σ) : Prop where
  answer : ret = -eacces
  outside : after.outside = before.outside
  calls : after.calls = before.calls

/-- The call was refused, and nothing but the notices of its lookup was sent. -/
structure Declined (before : Machine σ) (notices : List Bytes) (ret : Int32)
    (after : Machine σ) : Prop extends Refused before ret after where
  userBuf : after.userBuf = before.userBuf
  messages : after.messages = before.messages ++ notices

/-- The call had the effect and the answer of the original, called once, and sent no
notification. -/
structure Transparent (k : Kernel σ) (call : Syscall) (before : Machine σ) (ret : Int32)
    (after : Machine σ) : Prop where
  answer : ret = (k.origin call before.outside before.userBuf).1
  outside : after.outside = (k.origin call before.outside before.userBuf).2.1
  userBuf : after.userBuf = (k.origin call before.outside before.userBuf).2.2
  messages : after.messages = before.messages
  calls : after.calls = before.calls ++ [call]

/-- The state in which the original leaves a call. -/
def Machine.answered (k : Kernel σ) (m : Machine σ) (call : Syscall) : Machine σ :=
  { m with
    outside := (k.origin call m.outside m.userBuf).2.1
    userBuf := (k.origin call m.outside m.userBuf).2.2
    calls := m.calls ++ [call] }

/-- Nothing a caller or another process sees has changed. -/
structure Unseen (before after : Machine σ) : Prop where
  outside : after.outside = before.outside
  userBuf : after.userBuf = before.userBuf
  messages : after.messages = before.messages
  calls : after.calls = before.calls

theorem Unseen.rfl {m : Machine σ} : Unseen m m := ⟨.refl _, .refl _, .refl _, .refl _⟩

theorem Unseen.trans {first second third : Machine σ} (left : Unseen first second)
    (right : Unseen second third) : Unseen first third where
  outside := right.outside.trans left.outside
  userBuf := right.userBuf.trans left.userBuf
  messages := right.messages.trans left.messages
  calls := right.calls.trans left.calls

section Views

variable {call : Syscall} {before start after final : Machine σ} {ret : Int32}

theorem Refused.seen (refused : Refused start ret after) (prepared : Unseen before start)
    (released : Unseen after final) : Refused before ret final where
  answer := refused.answer
  outside := by rw [released.outside, refused.outside, prepared.outside]
  calls := by rw [released.calls, refused.calls, prepared.calls]

theorem Declined.seen {notices : List Bytes} (declined : Declined start notices ret after)
    (prepared : Unseen before start) (released : Unseen after final) :
    Declined before notices ret final where
  toRefused := declined.toRefused.seen prepared released
  userBuf := by rw [released.userBuf, declined.userBuf, prepared.userBuf]
  messages := by rw [released.messages, declined.messages, prepared.messages]

theorem Transparent.seen (passed : Transparent k call start ret after)
    (prepared : Unseen before start) (released : Unseen after final) :
    Transparent k call before ret final where
  answer := by rw [passed.answer, prepared.outside, prepared.userBuf]
  outside := by rw [released.outside, passed.outside, prepared.outside, prepared.userBuf]
  userBuf := by rw [released.userBuf, passed.userBuf, prepared.outside, prepared.userBuf]
  messages := by rw [released.messages, passed.messages, prepared.messages]
  calls := by rw [released.calls, passed.calls, prepared.calls]

/-- What leaves no trace after the answer of the original, and gives it back, is
transparent. -/
theorem Unseen.transparent (unseen : Unseen (before.answered k call) after) :
    Transparent k call before (k.origin call before.outside before.userBuf).1 after :=
  ⟨.refl _, unseen.outside, unseen.userBuf, unseen.messages, unseen.calls⟩

theorem Transparent.not_refused (passed : Transparent k call before ret after) :
    ¬ Refused before ret after := by
  rintro ⟨_, _, same⟩
  rw [passed.calls] at same
  simpa using congrArg List.length same

end Views

/-- The hook, called in a state, returns when it is safe, and refuses the call when it
hits and passes it on when it misses. -/
def Decides (k : Kernel σ) (hook : HookM σ Int32) (m : Machine σ) (call : Syscall)
    (safe hit : Prop) : Prop :=
  Settles hook m safe fun ret after =>
    (hit → Refused m ret after) ∧ (¬ hit → Transparent k call m ret after)

/-- The hook passes the call on. -/
def PassesOn (k : Kernel σ) (hook : HookM σ Int32) (m : Machine σ) (call : Syscall) : Prop :=
  ∃ ret after, Returns hook m ret after ∧ Transparent k call m ret after

namespace Decides

variable {hook : HookM σ Int32} {m : Machine σ} {call : Syscall} {safe hit : Prop}

theorem passesOn_iff (decides : Decides k hook m call safe hit) :
    PassesOn k hook m call ↔ safe ∧ ¬ hit := by
  constructor
  · rintro ⟨ret, after, ran, passed⟩
    obtain ⟨isSafe, refused, _⟩ := decides.returned ran
    exact ⟨isSafe, fun isHit => passed.not_refused (refused isHit)⟩
  · rintro ⟨isSafe, missed⟩
    obtain ⟨ret, after, ran, _, passed⟩ := decides.outcome isSafe
    exact ⟨ret, after, ran, passed missed⟩

/-- A call returns and is refused exactly when it should be, exactly when it is safe and
hits when it should. -/
theorem refused_iff (decides : Decides k hook m call safe hit) {due : Prop} :
    (∃ ret after, Returns hook m ret after ∧ (Refused m ret after ↔ due)) ↔ safe ∧ (hit ↔ due) := by
  have only : ∀ {ret after}, Returns hook m ret after → (Refused m ret after ↔ hit) := by
    intro ret after ran
    obtain ⟨_, refused, passed⟩ := decides.returned ran
    exact ⟨fun isRefused => by_contra fun missed => (passed missed).not_refused isRefused, refused⟩
  constructor
  · rintro ⟨ret, after, ran, right⟩
    exact ⟨(decides.returned ran).1, (only ran).symm.trans right⟩
  · rintro ⟨isSafe, right⟩
    obtain ⟨ret, after, ran, _⟩ := decides.outcome isSafe
    exact ⟨ret, after, ran, (only ran).trans right⟩

theorem refuses_iff (decides : Decides k hook m call safe hit) :
    (∃ ret after, Returns hook m ret after ∧ Refused m ret after) ↔ safe ∧ hit := by
  have due : (∃ ret after, Returns hook m ret after ∧ (Refused m ret after ↔ True)) ↔
      safe ∧ (hit ↔ True) := decides.refused_iff
  simpa only [iff_true] using due

theorem congr (decides : Decides k hook m call safe hit) {safe' hit' : Prop}
    (sameSafe : safe ↔ safe') (sameHit : safe → (hit ↔ hit')) : Decides k hook m call safe' hit' :=
  decides.imp sameSafe fun isSafe ret after outcome => by rwa [← sameHit isSafe]

end Decides

/-- A hook that decides, and sends exactly the notices when it hits. -/
def Guards (k : Kernel σ) (hook : HookM σ Int32) (m : Machine σ) (call : Syscall)
    (safe hit : Prop) (notices : List Bytes) : Prop :=
  Settles hook m safe fun ret after =>
    (hit → Declined m notices ret after) ∧ (¬ hit → Transparent k call m ret after)

namespace Guards

variable {hook : HookM σ Int32} {m : Machine σ} {call : Syscall} {safe hit : Prop}
  {notices : List Bytes}

theorem decides (guards : Guards k hook m call safe hit notices) :
    Decides k hook m call safe hit :=
  guards.imp Iff.rfl fun _ _ _ outcome => ⟨fun isHit => (outcome.1 isHit).toRefused, outcome.2⟩

theorem congr (guards : Guards k hook m call safe hit notices) {safe' hit' : Prop}
    {notices' : List Bytes} (sameSafe : safe ↔ safe') (sameHit : safe → (hit ↔ hit'))
    (sameNotices : safe → hit → notices = notices') :
    Guards k hook m call safe' hit' notices' :=
  guards.imp sameSafe fun isSafe ret after outcome => by
    rw [← sameHit isSafe]
    exact ⟨fun isHit => sameNotices isSafe isHit ▸ outcome.1 isHit, outcome.2⟩

/-- Preparing a decision without a trace, and giving back what it took. -/
theorem prepared {Value : Type} {prepare : HookM σ Value} {ready : Prop}
    {post : Value → Machine σ → Prop} (settles : Settles prepare m ready post)
    {decide : Value → HookM σ Int32} {release : Value → HookM σ Unit}
    (unseen : ∀ value after, post value after → Unseen m after)
    (guards : ready → ∀ value after, post value after →
      Guards k (decide value) after call safe hit notices)
    (released : ∀ value start, ∃ final, Returns (release value) start () final ∧
      Unseen start final) :
    Guards k (do
      let value ← prepare
      let result ← decide value
      release value
      return result) m call (ready ∧ safe) hit notices := by
  refine Settles.bind settles fun isReady value middle holds => ?_
  refine (guards isReady value middle holds).andThen fun isSafe ret after outcome => ?_
  obtain ⟨final, gaveBack, same⟩ := released value after
  refine Settles.of_returns (gaveBack.bind (returns_pure_iff.mpr ⟨rfl, rfl⟩)) trivial ?_
  exact ⟨fun isHit => (outcome.1 isHit).seen (unseen value middle holds) same,
    fun missed => (outcome.2 missed).seen (unseen value middle holds) same⟩

end Guards

/-- The original alone passes every call on. -/
theorem callOrigin_guards (m : Machine σ) (call : Syscall) :
    Guards k (callOrigin k call) m call True False [] := by
  refine Settles.of_returns (returns_callOrigin_iff.mpr ⟨rfl, rfl⟩) trivial ?_
  exact ⟨False.elim, fun _ => ⟨rfl, rfl, rfl, rfl, rfl⟩⟩

/-- Refusing on the answer of a lookup that leaves nothing but its notices, and none of
them when it misses. -/
theorem lookup_guards {lookup : HookM σ Bool} {m : Machine σ} {notices : List Bytes}
    {call : Syscall} {hit : Bool}
    (looked : Returns lookup m hit { m with messages := m.messages ++ notices })
    (silent : hit = false → notices = []) :
    Guards k (do
      if ← lookup then
        return -eacces
      else
        callOrigin k call) m call True (hit = true) notices := by
  cases hit with
  | true =>
      refine Settles.of_returns (looked.bind (returns_pure_iff.mpr ⟨rfl, rfl⟩)) trivial ?_
      exact ⟨fun _ => ⟨⟨rfl, rfl, rfl⟩, rfl, rfl⟩, fun missed => absurd rfl missed⟩
  | false =>
      rw [silent rfl, List.append_nil] at looked
      obtain ⟨ret, final, ran, _, transparent⟩ :=
        (callOrigin_guards (k := k) m call).outcome trivial
      refine Settles.of_returns (looked.bind ran) trivial ?_
      exact ⟨fun isHit => absurd isHit (by simp), fun _ => transparent (by simp)⟩

end FsProtection
