import FsProtection.Monitor

/-!
# What goes wrong in a history

Which writes and which hooked calls fault follows from the policy of the writes so far and
from the state of the kernel, as long as the buffers are there and `vmalloc` grants what is
asked.
-/

namespace FsProtection

open Base

/-- What an event has to be for its handler not to fault: a write that falls short or leaves
room for its NUL and, of rules, whose text fits the scratch copy and comes to no line that
opens without a type. -/
def ProcEvent.Harmless {σ : Type} (k : Kernel σ) (opens : Bytes → Option InodeAddr) :
    ProcEvent σ → Prop
  | .protect buffer count => count = 0 ∨ buffer.length < clampCount count ∨
      count < bufferSize ∧ ∀ text ∈ written buffer count,
        text.length < k.vmallocRoom sizeofPointer ∧ Parses opens (textLines text)
  | .ctrl buffer count => count = 0 ∨ buffer.length < clampCount count ∨ count < bufferSize
  | .elsewhere _ => True

section Faultless

variable {σ : Type} {k : Kernel σ} {opens : σ → Bytes → Option InodeAddr} {s : ProcState σ}
  {past : List (Occurrence σ)}

/-- A handler returns when its write falls short, or the text can be acted on. -/
theorem receive_returns_iff {buffer : Bytes} {count : Nat} {act : ProcM σ Unit} :
    (∃ ret after, Returns (receive buffer (clampCount count) act) s ret after) ↔
      buffer.length < clampCount count ∨ ∃ inside : count < bufferSize,
        count ≤ buffer.length ∧ ∃ after, Returns act
          (s.withRaw (receivedRaw s.globals.rawDataBuff buffer ⟨count, inside⟩)) () after := by
  by_cases below : count < bufferSize
  · simp only [clampCount_of_lt below, returns_receive_iff]
    constructor
    · rintro ⟨ret, after, ⟨short, _⟩ | ⟨full, inside, _, acted⟩⟩
      · exact .inl short
      · exact .inr ⟨inside, full, after, acted⟩
    · rintro (short | ⟨inside, full, after, acted⟩)
      · exact ⟨_, _, .inl ⟨short, rfl, rfl⟩⟩
      · exact ⟨_, after, .inr ⟨full, inside, rfl, acted⟩⟩
  · simp only [clampCount_of_le (Nat.not_lt.mp below), returns_receive_iff]
    constructor
    · rintro ⟨ret, after, ⟨short, _⟩ | ⟨_, inside, _⟩⟩
      · exact .inl short
      · exact absurd inside (Nat.lt_irrefl _)
    · rintro (short | ⟨inside, _⟩)
      · exact ⟨_, _, .inl ⟨short, rfl, rfl⟩⟩
      · exact absurd inside below

/-- The rules are replaced when the text has room and parses. -/
theorem replaceRules_returns_iff (view : PathView k opens) :
    (∃ after, Returns (replaceRules k) s () after) ↔
      (Terminated s.globals.rawDataBuff.1 ∧
        (cstr s.globals.rawDataBuff.1).length < k.vmallocRoom sizeofPointer) ∧
        Parses (opens s.outside) (textLines (cstr s.globals.rawDataBuff.1)) := by
  rw [← (view.lines _ _).1]
  have settles := createList_settles (k := k) [] s.globals.rawDataBuff.1 sizeofPointer s.outside
  simp only [returns_replaceRules_iff]
  constructor
  · rintro ⟨after, cnt, top, outside, ran, _⟩
    exact (settles.returned ran).1
  · intro fine
    obtain ⟨⟨cnt, top⟩, outside, ran⟩ := settles.returns fine
    exact ⟨_, cnt, top, outside, ran, rfl⟩

/-- An event is handled exactly when it is harmless. -/
theorem Policy.InPlace.handles_iff (view : PathView k opens) {policy : Policy}
    (inPlace : policy.InPlace s) (event : ProcEvent σ) :
    (∃ after, procStep k s event = .ok after) ↔ event.Harmless k (opens s.outside) := by
  have returns : (∃ after, procStep k s event = .ok after) ↔
      ∃ ret after, Returns (event.handle k) s ret after := by
    simp only [procStep_eq_ok]
    exact exists_comm
  rw [returns]
  cases event with
  | protect buffer count =>
      by_cases empty : count = 0
      · refine iff_of_true ⟨0, s.withRules [], ?_⟩ (.inl empty)
        simp [ProcEvent.handle, procProtectWrite, empty]
      · simp only [ProcEvent.handle, procProtectWrite, if_false, receive_returns_iff,
          ProcEvent.Harmless, replaceRules_returns_iff view, empty, false_or]
        refine or_congr_right' fun long => ?_
        constructor
        · rintro ⟨inside, full, ⟨_, room⟩, parses⟩
          obtain ⟨_, content⟩ := receivedRaw_text s.globals.rawDataBuff ⟨count, inside⟩ full
          simp only [ProcState.withRaw, content] at room parses
          refine ⟨inside, fun text arrives => ?_⟩
          rw [written, if_pos full] at arrives
          cases arrives
          exact ⟨room, parses⟩
        · rintro ⟨inside, fine⟩
          have full : count ≤ buffer.length := by
            rw [clampCount_of_lt inside] at long
            exact Nat.not_lt.mp long
          obtain ⟨terminated, content⟩ :=
            receivedRaw_text s.globals.rawDataBuff ⟨count, inside⟩ full
          obtain ⟨room, parses⟩ := fine _ (if_pos full)
          refine ⟨inside, full, ?_⟩
          simp only [ProcState.withRaw, content]
          exact ⟨⟨terminated, room⟩, parses⟩
  | ctrl buffer count =>
      by_cases empty : count = 0
      · refine iff_of_true ⟨0, s, ?_⟩ (.inl empty)
        simp [ProcEvent.handle, procCtrlWrite, empty]
      · simp only [ProcEvent.handle, procCtrlWrite, if_false, receive_returns_iff,
          ProcEvent.Harmless, empty, false_or]
        refine or_congr_right' fun long => ?_
        constructor
        · rintro ⟨inside, _⟩
          exact inside
        · intro inside
          have full : count ≤ buffer.length := by
            rw [clampCount_of_lt inside] at long
            exact Nat.not_lt.mp long
          obtain ⟨terminated, _⟩ := receivedRaw_text s.globals.rawDataBuff ⟨count, inside⟩ full
          exact ⟨inside, full, _, returns_ctrlCommand inPlace.cleared terminated⟩
  | elsewhere next =>
      refine iff_of_true ⟨0, { s with outside := next }, ?_⟩ trivial
      simp [ProcEvent.handle]

/-- At the end of any history, as long as the buffers are there and `vmalloc` grants what is
asked, which nothing here looks at, the module goes wrong on these events and calls and on no
others: an event is handled exactly when it is harmless, and a hooked call returns exactly
when nothing on its way faults under the policy in place. -/
theorem history_goes_on_iff (view : PathView k opens) (delivers : k.DeliversRecords)
    {raw : SizedBytes bufferSize} {outside : σ}
    (history : History k ⟨Globals.initial raw, outside⟩ past s) :
    (∀ event, (∃ after, procStep k s event = .ok after) ↔
      event.Harmless k (opens s.outside)) ∧
    ∀ m call, (∃ ret after, Returns (modified k s.globals call) m ret after) ↔
      Sound k (policyOf opens past).globals m call := by
  have inPlace := history.inPlace view
  refine ⟨inPlace.handles_iff view, fun m call => ?_⟩
  rw [inPlace.modified_eq]
  refine ⟨fun ⟨ret, after, ran⟩ => ?_, modified_returns _ delivers⟩
  by_cases decided : call.Decided
  · exact ((modified_guards _ m decided).returned ran).1
  · obtain ⟨fd, count, rfl⟩ : ∃ fd count, call = .getdents64 fd count := by
      simpa [Syscall.Decided] using decided
    trivial

end Faultless

/-- After the rule is written, a write that fills the buffer is not handled. -/
theorem keepWrite_full_faults : ∃ s, History (Kernel.quiet homeFile)
      ⟨Globals.initial (.zeros _), ()⟩ [.handled () keepWrite] s ∧
    ¬ ∃ after, procStep (Kernel.quiet homeFile) s
      (.ctrl (List.replicate bufferSize 97) bufferSize) = .ok after := by
  obtain ⟨s, history⟩ := keepWrite_history
  refine ⟨s, history, fun handled => ?_⟩
  have harmless := ((history_goes_on_iff (Kernel.quiet_pathView homeFile)
    (Kernel.quiet_deliversRecords homeFile) history).1 _).mp handled
  rcases harmless with empty | short | inside
  · exact absurd empty (by decide)
  · rw [List.length_replicate] at short
    exact absurd short (by decide)
  · exact absurd inside (Nat.lt_irrefl _)

end FsProtection
