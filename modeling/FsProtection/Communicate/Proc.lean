import FsProtection.Communicate.Parser

/-!
# The write handlers of the proc files

`proc_protect_write` and `proc_ctrl_write` over the globals they share, with
`refresh`, `clear`, `disable` and `enable`. A user write is the list of bytes that
can be read from its buffer, and its count.
-/

namespace FsProtection

open Base

/-- The globals of the module and the rest of the kernel. -/
structure ProcState (σ : Type) where
  globals : Globals
  outside : σ
deriving DecidableEq

abbrev ProcM (σ : Type) := Program (ProcState σ) Fault

section Model

variable {σ : Type} (k : Kernel σ)

/-- `destroy_list (&fileList_root)`. -/
def destroyRoot : ProcM σ Unit :=
  modify fun s => { s with
    globals := { s.globals with fileListRoot := destroyList s.globals.fileListRoot } }

/-- `create_list (&fileList_root, rdt, sizeof rdt)` on a pointer `rdt`. -/
def createRoot (rdt : Bytes) : ProcM σ Nat := do
  let s ← get
  let outcome ← ((createList k s.globals.fileListRoot rdt sizeofPointer).run s.outside :
    Except Fault ((Nat × List FileNode) × σ))
  set { s with globals := { s.globals with fileListRoot := outcome.1.2 }, outside := outcome.2 }
  return outcome.1.1

/-- `copy_from_user (raw_data, buffer, cnt)`: how many bytes could not be copied.
Their places are zero-filled. -/
def copyToRaw (buffer : Bytes) (cnt : Nat) : ProcM σ Nat := do
  modify fun s => { s with globals := { s.globals with
    rawDataBuff := s.globals.rawDataBuff.overwrite
      (buffer.take cnt ++ List.replicate (cnt - buffer.length) 0) } }
  return cnt - buffer.length

/-- `raw_data[cnt] = 0`. -/
def terminateRaw (cnt : Nat) : ProcM σ Unit := do
  if inside : cnt < bufferSize then
    modify fun s => { s with globals := { s.globals with
      rawDataBuff := s.globals.rawDataBuff.setByte ⟨cnt, inside⟩ 0 } }
  else
    throw .overrun

/-- `strncmp (raw_data, name, strlen (name)) == 0`. -/
def rawStartsWith (name : String) : ProcM σ Bool := do
  let s ← get
  match strncmp (lit name).length s.globals.rawDataBuff.1 (lit name ++ [0]) with
  | none => throw .overrun
  | some equal => return equal

def refresh : ProcM σ Unit := do
  destroyRoot
  let s ← get
  let _ ← createRoot k s.globals.dataBuf.1

/-- `clear`; its `memset` clears `sizeof data_buf` bytes. -/
def clear : ProcM σ Unit := do
  destroyRoot
  modify fun s => { s with globals := { s.globals with
    dataBuf := s.globals.dataBuf.overwrite (List.replicate sizeofPointer 0) } }
  let s ← get
  let _ ← createRoot k s.globals.dataBuf.1

def disable : ProcM σ Unit :=
  modify fun s => { s with globals := { s.globals with protectEnabeled := false } }

def enable : ProcM σ Unit :=
  modify fun s => { s with globals := { s.globals with protectEnabeled := true } }

/-- `count` as both handlers clamp it. -/
def clampCount (count : Nat) : Nat :=
  if bufferSize < count then bufferSize else count

/-- What both handlers do with a non-empty write: copy it, end it with a NUL and act
on the text. -/
def receive (buffer : Bytes) (cnt : Nat) (act : ProcM σ Unit) : ProcM σ Int := do
  let left ← copyToRaw buffer cnt
  if left ≠ 0 then
    return -efault
  else
    terminateRaw cnt
    act
    return cnt

/-- The command comparisons of `proc_ctrl_write`. -/
def ctrlCommand : ProcM σ Unit := do
  if ← rawStartsWith "refresh" then
    refresh k
  else if ← rawStartsWith "clear" then
    clear k
  else if ← rawStartsWith "disable" then
    disable
  else if ← rawStartsWith "enable" then
    enable

def procCtrlWrite (buffer : Bytes) (count : Nat) : ProcM σ Int := do
  if count = 0 then
    return 0
  else
    receive buffer (clampCount count) (ctrlCommand k)

/-- The replacement of the rule list in `proc_protect_write`. -/
def replaceRules : ProcM σ Unit := do
  destroyRoot
  let s ← get
  let _ ← createRoot k s.globals.rawDataBuff.1

def procProtectWrite (buffer : Bytes) (count : Nat) : ProcM σ Int := do
  if count = 0 then
    destroyRoot
    return 0
  else
    receive buffer (clampCount count) (replaceRules k)

end Model

/-- The text a write delivers: the bytes before its first NUL, when the copy does not
fall short. -/
def written (buffer : Bytes) (count : Nat) : Option Bytes :=
  if count ≤ buffer.length then some (cstr (buffer.take count)) else none

inductive Command where
  | refresh
  | clear
  | disable
  | enable
deriving DecidableEq

/-- The command a text on the ctrl file starts with. -/
def commandOf (text : Bytes) : Option Command :=
  if lit "refresh" <+: text then some .refresh
  else if lit "clear" <+: text then some .clear
  else if lit "disable" <+: text then some .disable
  else if lit "enable" <+: text then some .enable
  else none

section Spec

variable {σ : Type} {k : Kernel σ} {opens : σ → Bytes → Option InodeAddr} {s after : ProcState σ}

def ProcState.withRaw (s : ProcState σ) (raw : SizedBytes bufferSize) : ProcState σ :=
  { s with globals := { s.globals with rawDataBuff := raw } }

def ProcState.withRules (s : ProcState σ) (rules : List FileNode) : ProcState σ :=
  { s with globals := { s.globals with fileListRoot := rules } }

@[simp] theorem withRaw_rawDataBuff (raw : SizedBytes bufferSize) :
    (s.withRaw raw).globals.rawDataBuff = raw := rfl

@[simp] theorem withRules_rawDataBuff (rules : List FileNode) :
    (s.withRules rules).globals.rawDataBuff = s.globals.rawDataBuff := rfl

@[simp] theorem withRules_fileListRoot (rules : List FileNode) :
    (s.withRules rules).globals.fileListRoot = rules := rfl

@[simp] theorem returns_destroyRoot_iff {value : Unit} :
    Returns destroyRoot s value after ↔ after = s.withRules [] := by
  simp [destroyRoot, destroyList, ProcState.withRules]

theorem returns_createRoot_iff {rdt : Bytes} {cnt : Nat} :
    Returns (createRoot k rdt) s cnt after ↔
      ∃ top outside, Returns (createList k s.globals.fileListRoot rdt sizeofPointer) s.outside
        (cnt, top) outside ∧
        after = { s.withRules top with outside := outside } := by
  simp only [createRoot, returns_bind_iff, returns_get_iff, returns_lift_iff, returns_set_iff,
    returns_pure_iff]
  constructor
  · rintro ⟨_, _, ⟨rfl, rfl⟩, ⟨⟨cnt, top⟩, outside⟩, _, ⟨ran, rfl⟩, _, _, rfl, rfl, rfl⟩
    exact ⟨top, outside, ran, rfl⟩
  · rintro ⟨top, outside, ran, rfl⟩
    exact ⟨s, s, ⟨rfl, rfl⟩, ((cnt, top), outside), s, ⟨ran, rfl⟩, (), _, rfl, rfl, rfl⟩

/-- The text buffer after a copy of `cnt` bytes. -/
def copiedRaw (raw : SizedBytes bufferSize) (buffer : Bytes) (cnt : Nat) :
    SizedBytes bufferSize :=
  raw.overwrite (buffer.take cnt ++ List.replicate (cnt - buffer.length) 0)

/-- The text buffer in which a handler acts on the text it received. -/
def receivedRaw (raw : SizedBytes bufferSize) (buffer : Bytes) (cnt : Fin bufferSize) :
    SizedBytes bufferSize :=
  (copiedRaw raw buffer cnt).setByte cnt 0

/-- A complete copy leaves the delivered text in the buffer, ended by a NUL, whatever
an earlier write left there. -/
theorem receivedRaw_text (raw : SizedBytes bufferSize) {buffer : Bytes} (cnt : Fin bufferSize)
    (full : cnt ≤ buffer.length) :
    Terminated (receivedRaw raw buffer cnt).1 ∧
      cstr (receivedRaw raw buffer cnt).1 = cstr (buffer.take cnt) := by
  have taken : (buffer.take cnt).length = cnt := by simp [full]
  have behind : (cnt : Nat) < raw.1.length := by simp
  have bytes : (receivedRaw raw buffer cnt).1 = buffer.take cnt ++ 0 :: raw.1.drop (cnt + 1) := by
    have nothingMissing : (cnt : Nat) - buffer.length = 0 := by omega
    have fits : (buffer.take cnt).take bufferSize = buffer.take cnt :=
      List.take_of_length_le (by omega)
    simp only [receivedRaw, copiedRaw, SizedBytes.setByte, SizedBytes.overwrite, nothingMissing,
      List.replicate_zero, List.append_nil, fits, taken]
    rw [List.set_append_right _ _ (by omega), taken, Nat.sub_self,
      List.drop_eq_getElem_cons behind, List.set_cons_zero]
  rw [bytes]
  exact ⟨by simp [Terminated], cstr_append_nul _ _⟩

/-- A write either falls short and leaves all but the text buffer alone, or is acted
on with its text; a complete write of the whole buffer or more faults. -/
theorem returns_receive_iff {buffer : Bytes} {cnt : Nat} {act : ProcM σ Unit} {ret : Int} :
    Returns (receive buffer cnt act) s ret after ↔
      (buffer.length < cnt ∧ ret = -efault ∧
        after = s.withRaw (copiedRaw s.globals.rawDataBuff buffer cnt)) ∨
      (cnt ≤ buffer.length ∧ ∃ inside : cnt < bufferSize, ret = cnt ∧
        Returns act (s.withRaw (receivedRaw s.globals.rawDataBuff buffer ⟨cnt, inside⟩))
          () after) := by
  have copied : Returns (copyToRaw buffer cnt) s (cnt - buffer.length)
      (s.withRaw (copiedRaw s.globals.rawDataBuff buffer cnt)) := by
    simp [copyToRaw, ProcState.withRaw, copiedRaw]
  rw [receive, returns_bind_of_returns copied]
  by_cases short : buffer.length < cnt
  · have left : cnt - buffer.length ≠ 0 := by omega
    simp [left, short, Nat.not_le.mpr short]
  · have left : cnt - buffer.length = 0 := by omega
    rw [if_neg (by simp [left])]
    by_cases inside : cnt < bufferSize
    · have ended : Returns (terminateRaw cnt)
          (s.withRaw (copiedRaw s.globals.rawDataBuff buffer cnt)) ()
          (s.withRaw (receivedRaw s.globals.rawDataBuff buffer ⟨cnt, inside⟩)) := by
        simp [terminateRaw, inside, receivedRaw, ProcState.withRaw]
      rw [returns_bind_of_returns ended]
      simp only [returns_map_iff, bind_pure_comp, short, false_and, false_or, Nat.not_lt.mp short,
        true_and, inside, exists_true_left]
      constructor
      · rintro ⟨_, acted, same⟩
        exact ⟨same, acted⟩
      · rintro ⟨same, acted⟩
        exact ⟨(), acted, same⟩
    · simp [terminateRaw, inside, short, returns_bind_iff]

/-- What a handler that returns did with a write: refuse it, or act on its text. -/
theorem receive_cases {buffer : Bytes} {count : Nat} {act : ProcM σ Unit} {ret : Int}
    (ran : Returns (receive buffer (clampCount count) act) s ret after) :
    (written buffer count = none ∧ ret = -efault ∧ ∃ raw, after = s.withRaw raw) ∨
    ∃ text raw, written buffer count = some text ∧ ret = count ∧ Terminated raw.1 ∧
      cstr raw.1 = text ∧ Returns act (s.withRaw raw) () after := by
  rcases returns_receive_iff.mp ran with ⟨short, refused, rfl⟩ | ⟨full, inside, returned, acted⟩
  · left
    refine ⟨?_, refused, _, rfl⟩
    unfold clampCount at short
    rw [written, if_neg]
    split at short <;> omega
  · right
    have unclamped : clampCount count = count := by
      unfold clampCount at inside ⊢
      split at inside <;> simp_all
    simp only [unclamped] at full inside returned acted
    obtain ⟨terminated, content⟩ :=
      receivedRaw_text s.globals.rawDataBuff ⟨count, inside⟩ full
    exact ⟨_, _, if_pos full, returned, terminated, content, acted⟩

/-- A handler returns on a write below the buffer size when it can act on its text. -/
theorem receive_total {buffer : Bytes} {count : Nat} {act : ProcM σ Unit}
    (inside : count < bufferSize)
    (acts : ∀ raw text, written buffer count = some text → Terminated raw.1 →
      cstr raw.1 = text → ∃ after, Returns act (s.withRaw raw) () after) :
    ∃ ret after, Returns (receive buffer (clampCount count) act) s ret after := by
  have unclamped : clampCount count = count := by simp [clampCount, Nat.le_of_lt inside]
  simp only [unclamped, returns_receive_iff]
  by_cases short : buffer.length < count
  · exact ⟨_, _, .inl ⟨short, rfl, rfl⟩⟩
  · have full : count ≤ buffer.length := Nat.not_lt.mp short
    obtain ⟨terminated, content⟩ :=
      receivedRaw_text s.globals.rawDataBuff ⟨count, inside⟩ full
    obtain ⟨after, acted⟩ := acts _ _ (if_pos full) terminated content
    exact ⟨_, after, .inr ⟨full, inside, rfl, acted⟩⟩

/-- What a command leaves when `data_buf` is clear: `refresh` and `clear` both parse an
empty text. -/
def ProcState.obey (s : ProcState σ) : Option Command → ProcState σ
  | none => s
  | some .refresh | some .clear => s.withRules []
  | some .disable => { s with globals := { s.globals with protectEnabeled := false } }
  | some .enable => { s with globals := { s.globals with protectEnabeled := true } }

/-- Parsing a clear buffer opens nothing and appends nothing. -/
theorem returns_createRoot_clear :
    Returns (createRoot k (SizedBytes.zeros bufferSize).1) s 0 s := by
  rw [returns_createRoot_iff]
  refine ⟨s.globals.fileListRoot, s.outside, ?_, rfl⟩
  have content : cstr (SizedBytes.zeros bufferSize).1 = [] := cstr_replicate_zero _
  have terminated : Terminated (SizedBytes.zeros bufferSize).1 := zeros_terminated (by decide)
  have room : (0 : Nat) < k.vmallocRoom sizeofPointer :=
    lt_of_lt_of_le (by decide) (k.vmallocCovers sizeofPointer)
  rw [createList, content, if_pos ⟨terminated, room⟩]
  simp [createListLoop, createListLine, strsep]

theorem returns_refresh (cleared : s.globals.dataBuf = SizedBytes.zeros bufferSize) :
    Returns (refresh k) s () (s.withRules []) := by
  have parsed := returns_createRoot_clear (k := k) (s := s.withRules [])
  simp only [refresh, returns_bind_iff, returns_destroyRoot_iff, returns_get_iff]
  refine ⟨(), s.withRules [], rfl, _, _, ⟨rfl, rfl⟩, 0, s.withRules [], ?_, by simp⟩
  simpa [ProcState.withRules, cleared] using parsed

theorem returns_clear (cleared : s.globals.dataBuf = SizedBytes.zeros bufferSize) :
    Returns (clear k) s () (s.withRules []) := by
  have still : (SizedBytes.zeros bufferSize).overwrite (List.replicate sizeofPointer 0) =
      SizedBytes.zeros bufferSize := SizedBytes.overwrite_zeros (by decide)
  have parsed := returns_createRoot_clear (k := k) (s := s.withRules [])
  simp only [clear, returns_bind_iff, returns_destroyRoot_iff, returns_get_iff, returns_modify_iff]
  refine ⟨(), _, rfl, (), _, rfl, _, _, ⟨rfl, rfl⟩, 0, s.withRules [], ?_, by simp⟩
  simp only [ProcState.withRules, cleared, still]
  simpa [ProcState.withRules, cleared] using parsed

theorem returns_rawStartsWith (terminated : Terminated s.globals.rawDataBuff.1) {name : String}
    (clean : (0 : Byte) ∉ lit name) :
    Returns (rawStartsWith name) s (decide (lit name <+: cstr s.globals.rawDataBuff.1)) s := by
  simp [rawStartsWith, returns_bind_iff, strncmp_literal clean terminated]

/-- A ctrl write with a complete text does what the command it starts with says. -/
theorem returns_ctrlCommand (cleared : s.globals.dataBuf = SizedBytes.zeros bufferSize)
    (terminated : Terminated s.globals.rawDataBuff.1) :
    Returns (ctrlCommand k) s () (s.obey (commandOf (cstr s.globals.rawDataBuff.1))) := by
  unfold ctrlCommand commandOf
  rw [returns_bind_of_returns (returns_rawStartsWith terminated (by decide))]
  by_cases isRefresh : lit "refresh" <+: cstr s.globals.rawDataBuff.1
  · simpa [isRefresh, ProcState.obey] using returns_refresh cleared
  rw [if_neg (by simpa using isRefresh), if_neg isRefresh,
    returns_bind_of_returns (returns_rawStartsWith terminated (by decide))]
  by_cases isClear : lit "clear" <+: cstr s.globals.rawDataBuff.1
  · simpa [isClear, ProcState.obey] using returns_clear cleared
  rw [if_neg (by simpa using isClear), if_neg isClear,
    returns_bind_of_returns (returns_rawStartsWith terminated (by decide))]
  by_cases isDisable : lit "disable" <+: cstr s.globals.rawDataBuff.1
  · simp [isDisable, disable, ProcState.obey]
  rw [if_neg (by simpa using isDisable), if_neg isDisable,
    returns_bind_of_returns (returns_rawStartsWith terminated (by decide))]
  by_cases isEnable : lit "enable" <+: cstr s.globals.rawDataBuff.1
  · simp [isEnable, enable, ProcState.obey]
  · simp [isEnable, ProcState.obey]

/-- What a ctrl write that returns did. -/
theorem procCtrlWrite_cases (cleared : s.globals.dataBuf = SizedBytes.zeros bufferSize)
    {buffer : Bytes} {count : Nat} {ret : Int}
    (ran : Returns (procCtrlWrite k buffer count) s ret after) :
    (count = 0 ∧ ret = 0 ∧ after = s) ∨
    (count ≠ 0 ∧ written buffer count = none ∧ ret = -efault ∧ ∃ raw, after = s.withRaw raw) ∨
    (count ≠ 0 ∧ ∃ text raw, written buffer count = some text ∧ ret = count ∧
      after = (s.withRaw raw).obey (commandOf text)) := by
  unfold procCtrlWrite at ran
  by_cases empty : count = 0
  · rw [if_pos empty, returns_pure_iff] at ran
    exact .inl ⟨empty, ran⟩
  rw [if_neg empty] at ran
  rcases receive_cases ran with refused | ⟨text, raw, delivered, returned, terminated, rfl, acted⟩
  · exact .inr (.inl ⟨empty, refused⟩)
  · have obeyed := returns_ctrlCommand (k := k) (s := s.withRaw raw) cleared terminated
    obtain ⟨_, rfl⟩ := acted.unique obeyed
    exact .inr (.inr ⟨empty, _, raw, delivered, returned, rfl⟩)

/-- A ctrl write below the buffer size returns. -/
theorem procCtrlWrite_total (cleared : s.globals.dataBuf = SizedBytes.zeros bufferSize)
    (buffer : Bytes) {count : Nat} (inside : count < bufferSize) :
    ∃ ret after, Returns (procCtrlWrite k buffer count) s ret after := by
  unfold procCtrlWrite
  by_cases empty : count = 0
  · exact ⟨0, s, by simp [empty]⟩
  rw [if_neg empty]
  exact receive_total inside fun raw text _ terminated _ =>
    ⟨_, returns_ctrlCommand cleared terminated⟩

theorem returns_replaceRules_iff :
    Returns (replaceRules k) s () after ↔
      ∃ cnt top outside,
        Returns (createList k [] s.globals.rawDataBuff.1 sizeofPointer) s.outside (cnt, top)
          outside ∧
        after = { s.withRules top with outside := outside } := by
  simp only [replaceRules, returns_bind_iff, returns_destroyRoot_iff, returns_get_iff,
    returns_createRoot_iff, returns_pure_iff]
  constructor
  · rintro ⟨_, _, rfl, _, _, ⟨rfl, rfl⟩, cnt, _, ⟨top, outside, parsed, rfl⟩, _, rfl⟩
    exact ⟨cnt, top, outside, parsed, rfl⟩
  · rintro ⟨cnt, top, outside, parsed, rfl⟩
    exact ⟨(), s.withRules [], rfl, _, _, ⟨rfl, rfl⟩, cnt, _, ⟨top, outside, parsed, rfl⟩,
      trivial, rfl⟩

/-- Replacing the rules installs those of the text in the buffer. -/
theorem replaceRules_returned (view : PathView k opens)
    (ran : Returns (replaceRules k) s () after) :
    ∃ outside, opens outside = opens s.outside ∧
      after = { s.withRules
        (parseLines (opens s.outside) (textLines (cstr s.globals.rawDataBuff.1))) with
          outside := outside } := by
  obtain ⟨cnt, top, outside, parsed, rfl⟩ := returns_replaceRules_iff.mp ran
  obtain ⟨rules, kept⟩ := createList_returned view parsed
  rw [List.nil_append] at rules
  exact ⟨outside, kept, by rw [← rules]⟩

/-- What a protect write that returns did. -/
theorem procProtectWrite_cases (view : PathView k opens) {buffer : Bytes} {count : Nat} {ret : Int}
    (ran : Returns (procProtectWrite k buffer count) s ret after) :
    (count = 0 ∧ ret = 0 ∧ after = s.withRules []) ∨
    (count ≠ 0 ∧ written buffer count = none ∧ ret = -efault ∧ ∃ raw, after = s.withRaw raw) ∨
    (count ≠ 0 ∧ ∃ text raw outside, written buffer count = some text ∧ ret = count ∧
      opens outside = opens s.outside ∧
      after = { (s.withRaw raw).withRules (parseLines (opens s.outside) (textLines text)) with
        outside := outside }) := by
  unfold procProtectWrite at ran
  by_cases empty : count = 0
  · simp only [if_pos empty, returns_bind_iff, returns_destroyRoot_iff, returns_pure_iff] at ran
    obtain ⟨_, _, rfl, rfl, rfl⟩ := ran
    exact .inl ⟨empty, rfl, rfl⟩
  rw [if_neg empty] at ran
  rcases receive_cases ran with refused | ⟨text, raw, delivered, returned, terminated, rfl, acted⟩
  · exact .inr (.inl ⟨empty, refused⟩)
  · obtain ⟨outside, kept, rfl⟩ := replaceRules_returned view acted
    exact .inr (.inr ⟨empty, _, raw, outside, delivered, returned, kept, rfl⟩)

/-- A protect write below the buffer size returns when its text parses and fits the
scratch copy. -/
theorem procProtectWrite_total (view : PathView k opens) {buffer : Bytes} {count : Nat}
    (inside : count < bufferSize)
    (delivered : ∀ text, count ≠ 0 → written buffer count = some text →
      text.length < k.vmallocRoom sizeofPointer ∧ Parses (opens s.outside) (textLines text)) :
    ∃ ret after, Returns (procProtectWrite k buffer count) s ret after := by
  unfold procProtectWrite
  by_cases empty : count = 0
  · exact ⟨0, s.withRules [], by simp [empty]⟩
  rw [if_neg empty]
  refine receive_total inside fun raw text arrived terminated content => ?_
  obtain ⟨room, parses⟩ := delivered text empty arrived
  subst content
  obtain ⟨outside, parsed, _⟩ := createList_returns view [] sizeofPointer terminated room parses
  exact ⟨_, returns_replaceRules_iff.mpr ⟨_, _, outside, parsed, rfl⟩⟩

end Spec

end FsProtection
