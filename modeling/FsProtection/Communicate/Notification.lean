import FsProtection.Communicate.Lookup
import FsProtection.Kernel.Quiet

/-!
# The text of a notification

What `sendProtectNotiMsg` appends, against the 260 bytes it asks `vmalloc` for, and the
copy `sendnlmsg` makes of it in the payload of a netlink message. The text may outgrow
the 260 bytes; the payload always has room for it.
-/

namespace FsProtection

open Base

/-- The bytes `sendProtectNotiMsg` allocates. -/
def notiMsgSize : Nat := 260

/-- `MAX_MSGSIZE`. -/
def maxMsgsize : Nat := 1024

/-- The appends of `sendProtectNotiMsg` to the block it cleared: the block afterwards and
`flag`. -/
def Kernel.buildNotiMsg {σ : Type} (k : Kernel σ) (str : Bytes) (thisFile : FileNode) :
    Except Fault (Bytes × Bool) := do
  let str ← strcatTo str (lit "Protected:")
  let str ← strcatTo str (k.pathOf thisFile)
  match thisFile.type.verb with
  | none => return (str, false)
  | some verb =>
      let str ← strcatTo str verb
      return (str, true)

/-- The loop of `stringlength`. -/
def stringlengthLoop (slen : Nat) : Bytes → Except Fault Nat
  | [] => .error .overrun
  | byte :: s => if byte = 0 then .ok slen else stringlengthLoop (slen + 1) s

def stringlength (s : Bytes) : Except Fault Nat := stringlengthLoop 0 s

/-- `memcpy` between two blocks. -/
def memcpy (dst src : Bytes) (count : Nat) : Except Fault Bytes :=
  match load src 0 count with
  | none => .error .overrun
  | some bytes => storeAt dst 0 bytes

/-- `sendnlmsg`: the payload that is broadcast. It gives up without a socket and without
an `sk_buff`, where there is no payload to fill. -/
def sendnlmsg (nlmsgData : Option (SizedBytes maxMsgsize)) (message : Bytes) :
    Except Fault (Option Bytes) :=
  match nlmsgData with
  | none => return none
  | some nlmsgData => do
      let slen ← stringlength message
      let message ← storeAt message slen [0]
      let sent ← memcpy nlmsgData.1 message (slen + 1)
      return some sent

/-- The verb line of a type, empty for the type without one. -/
def ProtectType.verbLine (type : ProtectType) : Bytes := type.verb.getD []

/-- The longest path for which the text of a type fits the allocation. -/
def ProtectType.pathRoom : ProtectType → Nat
  | .none => 249
  | .read => 244
  | .write => 243
  | .hide => 244
  | .rename => 242
  | .open_ => 244
  | .del => 242
  | .mkdir => 243

theorem pathRoom_add_verbLine (type : ProtectType) :
    (lit "Protected:").length + type.pathRoom + type.verbLine.length + 1 = notiMsgSize := by
  cases type <;> rfl

section Building

variable {σ : Type} {k : Kernel σ} {node : FileNode} {block : Bytes} {size : Nat}

/-- The whole text of a notification. -/
def Kernel.notiText (k : Kernel σ) (node : FileNode) : Bytes :=
  lit "Protected:" ++ k.pathOf node ++ node.type.verbLine

/-- What the appends leave is the whole text. -/
theorem buildNotiMsg_spells (cleared : Spells block size []) {built : Bytes × Bool}
    (ran : k.buildNotiMsg block node = .ok built) : Spells built.1 size (k.notiText node) := by
  unfold Kernel.buildNotiMsg at ran
  obtain ⟨head, appendedHead, ran⟩ := bind_eq_ok_iff.mp ran
  obtain ⟨body, appendedBody, ran⟩ := bind_eq_ok_iff.mp ran
  have spellsHead := strcatTo_spells cleared (by decide) appendedHead
  have spellsBody := strcatTo_spells spellsHead (pathOf_clean node) appendedBody
  rw [List.nil_append] at spellsBody
  unfold Kernel.notiText ProtectType.verbLine
  cases verbOf : node.type.verb with
  | none =>
      rw [verbOf] at ran
      cases ran
      simpa using spellsBody
  | some verb =>
      rw [verbOf] at ran
      obtain ⟨whole, appendedWhole, ran⟩ := bind_eq_ok_iff.mp ran
      cases ran
      exact strcatTo_spells spellsBody (verb_length_le verbOf).2 appendedWhole

/-- The appends stay inside a cleared block exactly when the whole text and a NUL fit. -/
theorem buildNotiMsg_ok_iff (cleared : Spells block size []) :
    (∃ built, k.buildNotiMsg block node = .ok built) ↔ (k.notiText node).length < size := by
  constructor
  · rintro ⟨built, ran⟩
    exact (buildNotiMsg_spells cleared ran).length_lt
  · intro fits
    simp only [Kernel.notiText, List.length_append] at fits
    obtain ⟨head, appendedHead, spellsHead⟩ :=
      @strcatTo_fits _ _ (lit "Protected:") _ cleared (by decide) (by
        rw [List.length_nil]
        omega)
    rw [List.nil_append] at spellsHead
    obtain ⟨body, appendedBody, spellsBody⟩ :=
      strcatTo_fits spellsHead (pathOf_clean (k := k) node) (by omega)
    unfold Kernel.buildNotiMsg
    rw [appendedHead]
    cases verbOf : node.type.verb with
    | none => exact ⟨(body, false), by simp [bind, Except.bind, appendedBody, pure, Except.pure]⟩
    | some verb =>
        simp only [ProtectType.verbLine, verbOf, Option.getD_some] at fits
        obtain ⟨whole, appendedWhole, _⟩ :=
          strcatTo_fits spellsBody (verb_length_le verbOf).2 (by
            rw [List.length_append]
            omega)
        exact ⟨(whole, true), by
          simp [bind, Except.bind, appendedBody, appendedWhole, pure, Except.pure]⟩

/-- The text is built as `sendProtectNotiMsg` builds it. -/
theorem sendProtectNotiMsg_eq : sendProtectNotiMsg k node = (do
    let built ← (k.buildNotiMsg (List.replicate (k.vmallocRoom notiMsgSize) 0) node :
      Except Fault (Bytes × Bool))
    if built.2 then messageWithStr (cstr built.1)) := by
  unfold sendProtectNotiMsg Kernel.buildNotiMsg
  simp only [strcatRegion_eq, liftM_bind, bind_assoc]
  refine bind_congr fun head => bind_congr fun body => ?_
  cases node.type.verb with
  | none => simp
  | some verb => simp

end Building

section Copying

variable {message : Bytes}

theorem stringlengthLoop_eq (slen : Nat) (terminated : Terminated message) :
    stringlengthLoop slen message = .ok (slen + (cstr message).length) := by
  induction message generalizing slen with
  | nil => simp [Terminated] at terminated
  | cons byte s ih =>
      rw [stringlengthLoop]
      by_cases last : byte = 0
      · rw [if_pos last, last, cstr_cons_zero, List.length_nil, Nat.add_zero]
      · have behind : Terminated s := by simpa [Terminated, Ne.symm last] using terminated
        rw [if_neg last, ih (slen + 1) behind, cstr_cons last, List.length_cons]
        congr 1
        omega

theorem stringlength_eq (terminated : Terminated message) :
    stringlength message = .ok (cstr message).length := by
  rw [stringlength, stringlengthLoop_eq 0 terminated, Nat.zero_add]

/-- A string that fits the payload with its NUL is what the payload holds afterwards. -/
theorem sendnlmsg_fits (terminated : Terminated message)
    (short : (cstr message).length < maxMsgsize) (nlmsgData : SizedBytes maxMsgsize) :
    ∃ sent, sendnlmsg (some nlmsgData) message = .ok (some sent) ∧
      sent.length = maxMsgsize ∧ Terminated sent ∧ cstr sent = cstr message := by
  obtain ⟨rest, split⟩ := terminated_split terminated
  have counted := stringlength_eq terminated
  have clean : (0 : Byte) ∉ cstr message := zero_notMem_cstr
  generalize cstr message = text at split short counted clean
  subst split
  have renewed : storeAt (text ++ 0 :: rest) text.length [0] = .ok (text ++ 0 :: rest) :=
    storeAt_eq_ok.mpr (@store_append text [0] [0] rest rfl)
  have loaded : load (text ++ 0 :: rest) 0 (text.length + 1) = some (text ++ [0]) := by
    have whole : text.take (text.length + 1) = text := List.take_of_length_le (by omega)
    simp [load, List.take_append, whole]
  have stored : store nlmsgData.1 0 (text ++ [0]) =
      some (text ++ 0 :: nlmsgData.1.drop (text.length + 1)) := by
    have room : text.length + 1 ≤ maxMsgsize := short
    simp [store, room]
  refine ⟨text ++ 0 :: nlmsgData.1.drop (text.length + 1), ?_, ?_, by simp [Terminated],
    cstr_append_zero clean _⟩
  · simp [sendnlmsg, counted, renewed, memcpy, loaded, storeAt_eq_ok.mpr stored, bind, Except.bind,
      pure, Except.pure]
  · simp
    omega

variable {σ : Type} {k : Kernel σ} {node : FileNode}

/-- The longest text, of a path read on behind its field, still fits the payload. -/
theorem notiText_length_lt (node : FileNode) : (k.notiText node).length < maxMsgsize := by
  have pathLength := pathOf_length_le (k := k) node
  have verbLength : node.type.verbLine.length ≤ 7 := by cases node.type <;> decide
  have headLength : (lit "Protected:").length = 10 := rfl
  simp only [Kernel.notiText, List.length_append, maxMsgsize, filepathSize] at *
  omega

/-- Every message a rule sends is delivered whole. -/
theorem notice_delivered {message : Bytes} (sends : message ∈ k.notice node)
    (nlmsgData : SizedBytes maxMsgsize) :
    ∃ sent, sendnlmsg (some nlmsgData) (message ++ [0]) = .ok (some sent) ∧
      cstr sent = message := by
  obtain ⟨verb, verbOf, rfl⟩ : ∃ verb, node.type.verb = some verb ∧
      lit "Protected:" ++ k.pathOf node ++ verb = message := by
    simpa [Kernel.notice] using sends
  have whole : lit "Protected:" ++ k.pathOf node ++ verb = k.notiText node := by
    simp [Kernel.notiText, ProtectType.verbLine, verbOf]
  have clean : (0 : Byte) ∉ k.notiText node := by
    have verbClean := (verb_length_le verbOf).2
    have headClean : (0 : Byte) ∉ lit "Protected:" := by decide
    simp [← whole, headClean, pathOf_clean node, verbClean]
  have content : cstr (k.notiText node ++ [0]) = k.notiText node := cstr_append_zero clean []
  rw [whole]
  have ended : Terminated (k.notiText node ++ [0]) := by simp [Terminated]
  obtain ⟨sent, ran, _, _, delivered⟩ :=
    sendnlmsg_fits ended (by rw [content]; exact notiText_length_lt node) nlmsgData
  exact ⟨sent, ran, by rw [delivered, content]⟩

end Copying

/-- A notification fits: its appends stay inside the bytes allocated, and the copy of what
they built inside the payload. -/
def Kernel.NotificationFits {σ : Type} (k : Kernel σ) (node : FileNode) : Prop :=
  ∃ built, k.buildNotiMsg (List.replicate notiMsgSize 0) node = .ok built ∧
    ∀ nlmsgData, ∃ sent, sendnlmsg nlmsgData built.1 = .ok sent

section Fitting

variable {σ : Type} {k : Kernel σ} {node : FileNode}

/-- The copy always fits, so the text decides. -/
theorem notificationFits_iff :
    k.NotificationFits node ↔ (k.notiText node).length < notiMsgSize := by
  have cleared : Spells (List.replicate notiMsgSize 0) notiMsgSize [] := zeros_spell (by decide)
  rw [← buildNotiMsg_ok_iff cleared]
  refine ⟨fun ⟨built, ran, _⟩ => ⟨built, ran⟩, fun ⟨built, ran⟩ => ⟨built, ran, ?_⟩⟩
  have spells := buildNotiMsg_spells cleared ran
  intro nlmsgData
  cases nlmsgData with
  | none => exact ⟨none, rfl⟩
  | some nlmsgData =>
      obtain ⟨sent, copied, _⟩ := sendnlmsg_fits spells.terminated
        (by rw [spells.content]; exact notiText_length_lt node) nlmsgData
      exact ⟨some sent, copied⟩

/-- A rule whose `filePath` holds a string has a notification that fits exactly when the
path leaves room for the head and the verb line of its type. -/
theorem notification_fits_iff (terminated : Terminated node.filePath.1) :
    k.NotificationFits node ↔ (cstr node.filePath.1).length ≤ node.type.pathRoom := by
  have room := pathRoom_add_verbLine node.type
  rw [notificationFits_iff, Kernel.notiText, pathOf_eq terminated, ← room]
  simp only [List.length_append]
  omega

end Fitting

theorem home_read_rule_fits : (Kernel.quiet homeFile).NotificationFits
    (.make (lit "/home/f") 7 .read) := by
  refine (notification_fits_iff (strncpy_terminated (by decide))).mpr ?_
  have content : cstr (FileNode.make (lit "/home/f") 7 .read).filePath.1 = lit "/home/f" :=
    cstr_strncpy (by decide) (by decide)
  rw [content]
  decide

/-- The longest path a field holds with its NUL. -/
def longestPath : Bytes := List.replicate (filepathSize - 1) 97

theorem longestPath_clean : (0 : Byte) ∉ longestPath := by
  intro member
  exact absurd (List.eq_of_mem_replicate member) (by decide)

theorem longestPath_length : longestPath.length < filepathSize := by
  rw [longestPath, List.length_replicate]
  decide

theorem longest_delete_rule_fits_not :
    Terminated (FileNode.make longestPath 7 .del).filePath.1 ∧
      ¬ (Kernel.quiet oneFile).NotificationFits (.make longestPath 7 .del) := by
  refine ⟨strncpy_terminated longestPath_length, ?_⟩
  rw [notificationFits_iff, Kernel.notiText, pathOf_make longestPath_clean longestPath_length]
  have headLength : (lit "Protected:").length = 10 := rfl
  have verbLength : (FileNode.make longestPath 7 .del).type.verbLine.length = 7 := rfl
  have pathLength : longestPath.length = filepathSize - 1 := List.length_replicate
  rw [List.length_append, List.length_append, headLength, verbLength, pathLength]
  decide

end FsProtection
