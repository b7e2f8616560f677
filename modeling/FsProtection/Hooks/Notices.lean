import FsProtection.Hooks.Naming

/-!
# The notifications of a run of hooked calls

Hooked calls follow each other, issued by any processes. What a run sends to the
listener is, call by call, one message for a refused call and one for each record
`getdents64` drops, and each names the first rule that matched.
-/

namespace FsProtection

open Base

/-- A hooked call of a run: the state it is issued in, its answer and the state it leaves. -/
structure HookedCall (σ : Type) where
  before : Machine σ
  call : Syscall
  ret : Int32
  after : Machine σ

/-- Between two hooked calls the rest of the machine moves on, and another process may be
the next to call; what the hooks recorded stays. -/
structure Between {σ : Type} (earlier later : Machine σ) : Prop where
  messages : later.messages = earlier.messages
  calls : later.calls = earlier.calls

/-- Hooked calls that return, one after the other, under one rule list; `waits` is what
may happen between them. -/
inductive Run {σ : Type} (k : Kernel σ) (globals : Globals)
    (waits : Machine σ → Machine σ → Prop) :
    Machine σ → List (HookedCall σ) → Machine σ → Prop where
  | refl {m} : Run k globals waits m [] m
  | step {m steps last next} (prior : Run k globals waits m steps last)
      (waited : waits last next.before)
      (ran : Returns (modified k globals next.call) next.before next.ret next.after) :
      Run k globals waits m (steps ++ [next]) next.after

section Runs

variable {σ : Type} {k : Kernel σ} {globals : Globals} {waits : Machine σ → Machine σ → Prop}
  {start final : Machine σ}

/-- One call is a run. -/
theorem Run.single {step : HookedCall σ} (waited : waits start step.before)
    (ran : Returns (modified k globals step.call) step.before step.ret step.after) :
    Run k globals waits start [step] step.after :=
  (Run.step .refl waited ran : Run k globals waits start ([] ++ [step]) step.after)

/-- The calls of a run returned. -/
theorem Run.returned {steps : List (HookedCall σ)}
    (run : Run k globals waits start steps final) :
    ∀ step ∈ steps, Returns (modified k globals step.call) step.before step.ret step.after := by
  induction run with
  | refl => simp
  | step prior waited ran ih =>
      intro step member
      rcases List.mem_append.mp member with earlier | last
      · exact ih step earlier
      · rw [List.mem_singleton.mp last]
        exact ran

end Runs

/-- The word for a type in a notification. -/
def ProtectType.word : ProtectType → Bytes
  | .none => []
  | .read => lit "Read"
  | .write => lit "Write"
  | .hide => lit "Hide"
  | .open_ => lit "Open"
  | .del => lit "Delete"
  | .rename => lit "Rename"
  | .mkdir => lit "Mkdir"

/-- The notification of a rule. -/
def FileNode.notification (node : FileNode) : Bytes :=
  lit "Protected:" ++ cstr node.filePath.1 ++ newline :: node.type.word

namespace HookedCall

variable {σ : Type} (k : Kernel σ) (globals : Globals) (step : HookedCall σ)

/-- The messages of a call. -/
def sent : List Bytes := step.after.messages.drop step.before.messages.length

/-- The rule a notification is about: the first one in list order that passes the test. -/
def Names (test : FileNode → Bool) (message : Bytes) : Prop :=
  ∃ rule, globals.fileListRoot.find? test = some rule ∧ message = rule.notification

/-- A call sends one message when it is refused, one for each record that is dropped from
a directory, in order, and none when it is passed on. -/
structure Told : Prop where
  appended : step.after.messages = step.before.messages ++ step.sent
  decided : step.call.Decided →
    Refused step.before step.ret step.after ∨
      Transparent k step.call step.before step.ret step.after
  refused : Refused step.before step.ret step.after →
    ∃ test ∈ k.lookedFor step.before step.call, ∃ message,
      Names globals test message ∧ step.sent = [message]
  passed : Transparent k step.call step.before step.ret step.after → step.sent = []
  listed : ∀ fd count, step.call = .getdents64 fd count →
    ∀ records rest, k.Delivers step.before fd count records rest →
      k.Copies (step.before.answered k step.call) (totalSize records) →
      Filtered k globals records (step.before.answered k step.call) step.ret step.after ∧
      List.Forall₂ (fun d => Names globals
          (k.inoMatches (step.before.answered k step.call).outside d.ino.toUInt32 .hide))
        (records.filter (k.hides globals (step.before.answered k step.call).outside)) step.sent
  unlisted : ∀ fd count, step.call = .getdents64 fd count →
    (∀ records rest, k.Delivers step.before fd count records rest →
      ¬ k.Copies (step.before.answered k step.call) (totalSize records)) →
    Transparent k step.call step.before step.ret step.after

end HookedCall

section Spec

variable {σ : Type} {k : Kernel σ} {globals : Globals} {m : Machine σ}

theorem notice_eq {node : FileNode} (terminated : Terminated node.filePath.1)
    (spoken : node.type ≠ .none) : k.notice node = [node.notification] := by
  rw [Kernel.notice, pathOf_eq terminated, FileNode.notification]
  cases isType : node.type with
  | none => exact absurd isType spoken
  | _ => rfl

/-- A lookup that hits sends the notification of the first rule it matches. -/
theorem firstNotice_names (terminated : ∀ rule ∈ globals.fileListRoot, Terminated rule.filePath.1)
    {test : FileNode → Bool} (spoken : ∀ rule, test rule = true → rule.type ≠ .none)
    (hit : globals.fileListRoot.any test = true) :
    ∃ message, HookedCall.Names globals test message ∧
      k.firstNotice test globals.fileListRoot = [message] := by
  have present : (globals.fileListRoot.find? test).isSome := by
    rw [List.find?_isSome]
    exact List.any_eq_true.mp hit
  obtain ⟨rule, first⟩ := Option.isSome_iff_exists.mp present
  refine ⟨rule.notification, ⟨rule, first, rfl⟩, ?_⟩
  have sent := notice_eq (k := k) (terminated rule (List.mem_of_find?_eq_some first))
    (spoken rule (List.find?_some first))
  simp [Kernel.firstNotice, first, sent]

theorem pathMatches_spoken {path : Bytes} {ptype : ProtectType} (spoken : ptype ≠ .none)
    (rule : FileNode) (passes : k.pathMatches path ptype rule = true) : rule.type ≠ .none := by
  rwa [(of_decide_eq_true passes).2]

theorem inodeMatches_spoken {inode : InodeAddr} {ptype : ProtectType} (spoken : ptype ≠ .none)
    (rule : FileNode) (passes : inodeMatches inode ptype rule = true) : rule.type ≠ .none := by
  rwa [(of_decide_eq_true passes).2]

theorem inoMatches_spoken {outside : σ} {ino : UInt32} {ptype : ProtectType}
    (spoken : ptype ≠ .none) (rule : FileNode)
    (passes : k.inoMatches outside ino ptype rule = true) : rule.type ≠ .none := by
  rwa [(of_decide_eq_true passes).2]

/-- The hooks look up types that have a word. -/
theorem lookedFor_spoken {call : Syscall} {test : FileNode → Bool}
    (looked : test ∈ k.lookedFor m call) (rule : FileNode) (passes : test rule = true) :
    rule.type ≠ .none := by
  cases call with
  | chdir path =>
      cases looked
      exact pathMatches_spoken (by decide) rule passes
  | read _ _ | write _ _ =>
      obtain ⟨file, _, rfl⟩ := Option.map_eq_some_iff.mp looked
      exact inodeMatches_spoken (by decide) rule passes
  | mkdir _ _ | unlinkat _ _ _ | unlink _ | rename _ _ =>
      obtain ⟨text, _, rfl⟩ := Option.map_eq_some_iff.mp looked
      exact pathMatches_spoken (by decide) rule passes
  | _ => cases looked

/-- The messages appended to the ones before are those of the call. -/
theorem HookedCall.sent_eq {step : HookedCall σ} {notices : List Bytes}
    (appended : step.after.messages = step.before.messages ++ notices) : step.sent = notices := by
  rw [sent, appended, List.drop_left]

variable (terminated : ∀ rule ∈ globals.fileListRoot, Terminated rule.filePath.1)
include terminated

/-- The hooks that decide first. -/
theorem told_of_decided {step : HookedCall σ} (decided : step.call.Decided)
    (ran : Returns (modified k globals step.call) step.before step.ret step.after) :
    step.Told k globals := by
  obtain ⟨_, refused, passed⟩ := (modified_guards globals step.before decided).returned ran
  have listed : ∀ fd count, step.call = .getdents64 fd count → False :=
    fun fd count isListing => decided fd count isListing
  by_cases hit : Hits k globals step.before step.call
  · have declined := refused hit
    obtain ⟨_, test, looked, matched⟩ := (hits_iff globals _ decided).mp hit
    obtain ⟨message, names, sent⟩ :=
      firstNotice_names (k := k) terminated (lookedFor_spoken looked) matched
    have notices : k.lookupNotices globals step.before step.call = [message] := by
      simp [Kernel.lookupNotices, Option.mem_def.mp looked, sent]
    have one : step.sent = [message] := HookedCall.sent_eq (by rw [declined.messages, notices])
    exact {
      appended := by rw [declined.messages, one, notices]
      decided := fun _ => .inl declined.toRefused
      refused := fun _ => ⟨test, looked, message, names, one⟩
      passed := fun isPassed => absurd declined.toRefused isPassed.not_refused
      listed := fun fd count isListing => (listed fd count isListing).elim
      unlisted := fun fd count isListing => (listed fd count isListing).elim }
  · have transparent := passed hit
    have silent : step.sent = [] :=
      HookedCall.sent_eq (by rw [transparent.messages, List.append_nil])
    exact {
      appended := by rw [transparent.messages, silent, List.append_nil]
      decided := fun _ => .inr transparent
      refused := fun isRefused => absurd isRefused transparent.not_refused
      passed := fun _ => silent
      listed := fun fd count isListing => (listed fd count isListing).elim
      unlisted := fun fd count isListing => (listed fd count isListing).elim }

/-- The records of a directory that are dropped, each with the notification of a rule. -/
theorem hideNotices_names (outside : σ) (records : List Dirent) :
    List.Forall₂
      (fun d => HookedCall.Names globals (k.inoMatches outside d.ino.toUInt32 .hide))
      (records.filter (k.hides globals outside)) (k.hideNotices globals outside records) := by
  induction records with
  | nil => exact .nil
  | cons d rest ih =>
      rw [k.hideNotices_cons]
      cases hidden : k.hides globals outside d with
      | true =>
          obtain ⟨message, names, sent⟩ := firstNotice_names (k := k) terminated
            (inoMatches_spoken (by decide)) hidden
          have one : k.hideNotices globals outside [d] = [message] := by
            simpa [Kernel.hideNotices] using sent
          rw [List.filter_cons_of_pos hidden, one, List.singleton_append]
          exact .cons names ih
      | false =>
          have silent : k.hideNotices globals outside [d] = [] := by
            simpa [Kernel.hideNotices] using firstNotice_eq_nil (k := k) hidden
          rw [List.filter_cons_of_neg (by simp [hidden]), silent, List.nil_append]
          exact ih

omit terminated

/-- Records that are delivered and can be copied are filtered. -/
theorem modifiedGetdents64_filters (globals : Globals) {fd count : UInt32}
    {records : List Dirent} {rest : Bytes} (delivered : k.Delivers m fd count records rest)
    (copies : k.Copies (m.answered k (.getdents64 fd count)) (totalSize records)) :
    ∃ ret after, Returns (modifiedGetdents64 k globals fd count) m ret after ∧
      Filtered k globals records (m.answered k (.getdents64 fd count)) ret after := by
  obtain ⟨ret, after, filtering, filtered⟩ := copyDirents_filtered globals
    delivered.buffer (toNat_toUInt32_of_toInt delivered.size) copies
  exact ⟨ret, after, returns_modifiedGetdents64_iff.mpr filtering, filtered⟩

/-- Where there is nothing to copy, or it cannot be copied, the call is passed on. -/
theorem modifiedGetdents64_passes (globals : Globals) (delivers : k.DeliversRecords)
    {fd count : UInt32}
    (nothing : ∀ records rest, k.Delivers m fd count records rest →
      ¬ k.Copies (m.answered k (.getdents64 fd count)) (totalSize records)) :
    ∃ ret after, Returns (modifiedGetdents64 k globals fd count) m ret after ∧
      Transparent k (.getdents64 fd count) m ret after := by
  have uncopied : ¬ k.Copies (m.answered k (.getdents64 fd count))
      (k.origin (.getdents64 fd count) m.outside m.userBuf).1.toUInt32.toNat := by
    intro copies
    obtain ⟨records, rest, delivered⟩ :=
      (delivers m fd count).resolve_left fun negative => not_copies_of_neg negative copies
    rw [toNat_toUInt32_of_toInt delivered.size] at copies
    exact nothing records rest delivered copies
  obtain ⟨after, left, unseen⟩ := copyDirents_unfiltered globals uncopied
  refine ⟨_, after, returns_modifiedGetdents64_iff.mpr left, ?_⟩
  rw [Int32.toInt32_toUInt32]
  exact unseen.transparent

include terminated

/-- The hook of `getdents64`, where it filters. -/
theorem filtered_names {fd count : UInt32} {step : HookedCall σ}
    (listing : step.call = .getdents64 fd count)
    (ran : Returns (modified k globals step.call) step.before step.ret step.after)
    (records : List Dirent) (rest : Bytes)
    (delivered : k.Delivers step.before fd count records rest)
    (copies : k.Copies (step.before.answered k step.call) (totalSize records)) :
    Filtered k globals records (step.before.answered k step.call) step.ret step.after ∧
      List.Forall₂ (fun d => HookedCall.Names globals
          (k.inoMatches (step.before.answered k step.call).outside d.ino.toUInt32 .hide))
        (records.filter (k.hides globals (step.before.answered k step.call).outside))
        step.sent := by
  rw [listing] at ran copies ⊢
  obtain ⟨ret, after, expected, filtered⟩ := modifiedGetdents64_filters globals delivered copies
  obtain ⟨rfl, rfl⟩ := expected.unique ran
  refine ⟨filtered, ?_⟩
  rw [HookedCall.sent_eq filtered.messages]
  exact hideNotices_names terminated _ records

/-- The hook of `getdents64`. -/
theorem told_of_listing (delivers : k.DeliversRecords) {fd count : UInt32} {step : HookedCall σ}
    (listing : step.call = .getdents64 fd count)
    (ran : Returns (modified k globals step.call) step.before step.ret step.after) :
    step.Told k globals := by
  have undecided : ¬ step.call.Decided := fun decided => decided fd count listing
  have listed := filtered_names terminated listing ran
  by_cases filters : ∃ records rest, k.Delivers step.before fd count records rest ∧
      k.Copies (step.before.answered k step.call) (totalSize records)
  · obtain ⟨records, rest, delivered, copies⟩ := filters
    obtain ⟨filtered, _⟩ := listed records rest delivered copies
    have one := HookedCall.sent_eq filtered.messages
    have called : step.after.calls = step.before.calls ++ [step.call] := filtered.calls
    exact {
      appended := by rw [filtered.messages, one]; rfl
      decided := fun decided => absurd decided undecided
      refused := fun isRefused => by
        have still := isRefused.calls
        rw [called] at still
        simpa using congrArg List.length still
      passed := fun transparent => by
        have still := transparent.messages
        rw [filtered.messages, ← one] at still
        exact List.append_right_eq_self.mp still
      listed := fun otherFd otherCount again => by
        obtain ⟨rfl, rfl⟩ := Syscall.getdents64.inj (listing.symm.trans again)
        exact listed
      unlisted := fun otherFd otherCount again nothing => by
        obtain ⟨rfl, rfl⟩ := Syscall.getdents64.inj (listing.symm.trans again)
        exact absurd copies (nothing records rest delivered) }
  · have nothing : ∀ records rest, k.Delivers step.before fd count records rest →
        ¬ k.Copies (step.before.answered k step.call) (totalSize records) :=
      fun records rest delivered copies => filters ⟨records, rest, delivered, copies⟩
    have transparent : Transparent k step.call step.before step.ret step.after := by
      rw [listing] at ran nothing ⊢
      obtain ⟨ret, after, expected, passed⟩ := modifiedGetdents64_passes globals delivers nothing
      obtain ⟨rfl, rfl⟩ := expected.unique ran
      exact passed
    have silent : step.sent = [] :=
      HookedCall.sent_eq (by rw [transparent.messages, List.append_nil])
    exact {
      appended := by rw [transparent.messages, silent, List.append_nil]
      decided := fun decided => absurd decided undecided
      refused := fun isRefused => absurd isRefused transparent.not_refused
      passed := fun _ => silent
      listed := fun otherFd otherCount again => by
        obtain ⟨rfl, rfl⟩ := Syscall.getdents64.inj (listing.symm.trans again)
        exact listed
      unlisted := fun _ _ _ _ => transparent }

/-- A hook that returns sent what its call is to send. -/
theorem told (delivers : k.DeliversRecords) {step : HookedCall σ}
    (ran : Returns (modified k globals step.call) step.before step.ret step.after) :
    step.Told k globals := by
  cases isCall : step.call with
  | getdents64 fd count => exact told_of_listing terminated delivers isCall ran
  | _ =>
      refine told_of_decided terminated ?_ ran
      simp [Syscall.Decided, isCall]

omit terminated

/-- A hook returns on the calls nothing on whose way faults: descriptors that are open,
pathnames that fit their buffers, allocations that succeed. -/
theorem modified_returns (globals : Globals) (delivers : k.DeliversRecords) {call : Syscall}
    (sound : Sound k globals m call) :
    ∃ ret after, Returns (modified k globals call) m ret after := by
  cases call with
  | getdents64 fd count =>
      by_cases filters : ∃ records rest, k.Delivers m fd count records rest ∧
          k.Copies (m.answered k (.getdents64 fd count)) (totalSize records)
      · obtain ⟨records, rest, delivered, copies⟩ := filters
        obtain ⟨ret, after, ran, _⟩ := modifiedGetdents64_filters globals delivered copies
        exact ⟨ret, after, ran⟩
      · obtain ⟨ret, after, ran, _⟩ := modifiedGetdents64_passes globals delivers
          fun records rest delivered copies => filters ⟨records, rest, delivered, copies⟩
        exact ⟨ret, after, ran⟩
  | _ => exact (modified_guards globals m (by simp [Syscall.Decided])).returns sound

include terminated

/-- The messages of a run are those of its calls, call by call. -/
theorem run_notifies (delivers : k.DeliversRecords) {start final : Machine σ}
    {steps : List (HookedCall σ)} (run : Run k globals Between start steps final) :
    final.messages = start.messages ++ steps.flatMap HookedCall.sent ∧
      (∀ step ∈ steps, step.Told k globals) ∧
      ∀ m call, Sound k globals m call →
        ∃ ret after, Returns (modified k globals call) m ret after := by
  have each : ∀ step ∈ steps, step.Told k globals := fun step member =>
    told terminated delivers (run.returned step member)
  refine ⟨?_, each, fun _ _ => modified_returns globals delivers⟩
  clear each
  induction run with
  | refl => simp
  | step prior waited ran ih =>
      have next := told terminated delivers ran
      rw [next.appended, waited.messages, ih]
      simp

end Spec

theorem keepFile_terminated : ∀ rule ∈ (onlyRule keepFile).fileListRoot,
    Terminated rule.filePath.1 := by
  intro rule member
  rw [List.mem_singleton.mp member]
  exact strncpy_terminated (by decide)

theorem keepFile_refuses_unlink :
    ∃ ret after, Returns (modified (Kernel.quiet homeFile) (onlyRule keepFile) (.unlink (lit "f")))
      (Machine.start () []) ret after ∧ Refused (Machine.start () []) ret after := by
  have decides : Decides (Kernel.quiet homeFile) (modified _ (onlyRule keepFile) _) _ _ _ _ :=
    (PathCall.unlink (lit "f")).decides (Kernel.quiet_cleared homeFile [])
  obtain ⟨ret, after, ran, refused, _⟩ :=
    decides.outcome (by decide : 5 + 1 + (cstr (lit "f")).length < pathMax)
  exact ⟨ret, after, ran, refused keepFile_hasPathRule⟩

/-- Unlinking the protected file sends its notification and nothing else. -/
theorem keepFile_notifies :
    ∃ step : HookedCall Unit, step.call = .unlink (lit "f") ∧
      Run (Kernel.quiet homeFile) (onlyRule keepFile) Between (Machine.start () []) [step]
        step.after ∧
      step.after.messages = [lit "Protected:/home/f\nDelete"] := by
  obtain ⟨ret, after, ran, refused⟩ := keepFile_refuses_unlink
  have run : Run _ _ Between (Machine.start () []) [⟨Machine.start () [], _, ret, after⟩] after :=
    .single ⟨rfl, rfl⟩ ran
  obtain ⟨messages, told, _⟩ :=
    run_notifies keepFile_terminated (Kernel.quiet_deliversRecords homeFile) run
  obtain ⟨test, _, message, ⟨rule, first, rfl⟩, sent⟩ :=
    (told _ (List.mem_singleton_self _)).refused refused
  have isRule : rule = keepFile := List.mem_singleton.mp (List.mem_of_find?_eq_some first)
  have text : keepFile.notification = lit "Protected:/home/f\nDelete" := by decide
  refine ⟨_, rfl, run, messages.trans ?_⟩
  rw [List.flatMap_singleton, sent, isRule, text]
  rfl

end FsProtection
