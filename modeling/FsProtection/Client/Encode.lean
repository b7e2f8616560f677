import FsProtection.Communicate.Proc
import FsProtection.Kernel.Quiet

/-!
# The client's `refreshFileList`

The encoder of `complexuser.c`, which lays the client's list out as a rule text in a
cleared buffer, and its agreement with the parser behind the protect file.
-/

namespace FsProtection

open Base

/-- A node of the client's `struct fileList`. -/
structure ClientEntry where
  filePath : SizedBytes filepathSize
  type : Byte

/-- What `strlen (next->filePath)` may read: the field, `type` and the padding that
`addFile` cleared. -/
def ClientEntry.region (entry : ClientEntry) : Bytes :=
  entry.filePath.1 ++ [entry.type, 0]

/-- One turn of the loop of `refreshFileList`: the buffer and `p`. -/
def encodeEntry (buffer : Bytes) (p : Nat) (next : ClientEntry) : Except Fault (Bytes × Nat) := do
  match strlen next.region with
  | none => throw .overrun
  | some tmp =>
      let buffer ← storeAt buffer p (strncpy tmp (cstr next.region))
      let p := p + tmp
      let buffer ← storeAt buffer p [atSign]
      let p := p + 1
      let buffer ← storeAt buffer p [next.type]
      let p := p + 1
      let buffer ← storeAt buffer p [newline]
      return (buffer, p + 1)

def encodeLoop : Bytes → Nat → List ClientEntry → Except Fault Bytes
  | buffer, _, [] => return buffer
  | buffer, p, next :: rest => do
      let moved ← encodeEntry buffer p next
      encodeLoop moved.1 moved.2 rest

/-- `refreshFileList`: the buffer and the count it hands to `write`. -/
def refreshFileList (entries : List ClientEntry) : Except Fault (Bytes × Nat) := do
  let buffer ← encodeLoop (List.replicate bufferSize 0) 0 entries
  match strlen buffer with
  | none => throw .overrun
  | some count => return (buffer, count)

namespace ClientEntry

/-- The path of an entry. -/
def path (entry : ClientEntry) : Bytes := cstr entry.filePath.1

/-- The line of an entry, without its newline. -/
def line (entry : ClientEntry) : Bytes := entry.path ++ atSign :: [entry.type]

/-- What the loop writes for an entry. -/
def record (entry : ClientEntry) : Bytes := entry.line ++ [newline]

/-- An entry the wire format carries: a path of 1 to 255 bytes without `@` and newline,
and one of the type letters. -/
structure Encodable (entry : ClientEntry) : Prop where
  terminated : Terminated entry.filePath.1
  nonempty : entry.path ≠ []
  noMark : atSign ∉ entry.path
  oneLine : newline ∉ entry.path
  letter : entry.type ∈ lit "rwhodnm"

end ClientEntry

/-- The text the entries are serialized to. -/
def serialize (entries : List ClientEntry) : Bytes :=
  entries.flatMap ClientEntry.record

section Encoder

variable {entry : ClientEntry}

theorem ClientEntry.region_path (terminated : Terminated entry.filePath.1) :
    cstr entry.region = entry.path :=
  cstr_append_of_terminated terminated _

theorem ClientEntry.Encodable.cleanRecord (encodable : entry.Encodable) :
    (0 : Byte) ∉ entry.record := by
  have letter : (0 : Byte) ≠ entry.type := by
    rintro same
    exact absurd (same ▸ encodable.letter) (by decide)
  have mark : (0 : Byte) ≠ atSign := by decide
  have feed : (0 : Byte) ≠ newline := by decide
  have pathClean : (0 : Byte) ∉ entry.path := zero_notMem_cstr
  simp [record, line, letter, mark, feed, pathClean]

theorem serialize_clean {entries : List ClientEntry}
    (encodable : ∀ entry ∈ entries, entry.Encodable) : (0 : Byte) ∉ serialize entries := by
  intro member
  obtain ⟨entry, inEntries, inLine⟩ := List.mem_flatMap.mp member
  exact (encodable entry inEntries).cleanRecord inLine

/-- Bytes stored behind a text and before enough cleared ones extend the text. -/
theorem storeAt_behind {text bytes : Bytes} {p free : Nat} (behind : p = text.length)
    (fits : bytes.length ≤ free) :
    storeAt (text ++ List.replicate free 0) p bytes =
      .ok ((text ++ bytes) ++ List.replicate (free - bytes.length) 0) := by
  have split : List.replicate free (0 : Byte) =
      List.replicate bytes.length 0 ++ List.replicate (free - bytes.length) 0 := by
    rw [← List.replicate_add]
    congr 1
    omega
  subst behind
  rw [storeAt, split, store_append _ _ (by simp), ← List.append_assoc]

/-- A turn of the loop appends the entry's record and leaves `p` behind it. -/
theorem encodeEntry_behind (ended : Terminated entry.filePath.1) (text : Bytes) {free : Nat}
    (fits : entry.record.length ≤ free) :
    encodeEntry (text ++ List.replicate free 0) text.length entry =
      .ok ((text ++ entry.record) ++ List.replicate (free - entry.record.length) 0,
        (text ++ entry.record).length) := by
  have terminated : Terminated entry.region := by simp [Terminated, ClientEntry.region]
  have copied : strncpy entry.path.length entry.path = entry.path := by simp [strncpy]
  simp only [ClientEntry.record, ClientEntry.line, List.length_append, List.length_cons,
    List.length_nil] at fits
  unfold encodeEntry
  simp only [strlen, if_pos terminated, ClientEntry.region_path ended, copied]
  rw [storeAt_behind rfl (by omega)]
  simp only [bind, Except.bind]
  rw [storeAt_behind (by simp) (by simp; omega)]
  simp only
  rw [storeAt_behind (by simp [Nat.add_assoc]) (by simp; omega)]
  simp only
  rw [storeAt_behind (by simp [Nat.add_assoc]) (by simp; omega)]
  simp [pure, Except.pure, ClientEntry.record, ClientEntry.line, Nat.sub_sub, Nat.add_assoc]

theorem storeAt_within {region bytes out : Bytes} {offset : Nat}
    (stored : storeAt region offset bytes = .ok out) :
    offset + bytes.length ≤ region.length ∧ out.length = region.length :=
  ⟨(store_eq_some (storeAt_eq_ok.mp stored)).1, store_length (storeAt_eq_ok.mp stored)⟩

/-- A turn of the loop that does not fault leaves `p` inside the buffer. -/
theorem encodeEntry_within (ended : Terminated entry.filePath.1) {buffer out : Bytes} {p q : Nat}
    (ran : encodeEntry buffer p entry = .ok (out, q)) :
    out.length = buffer.length ∧ q = p + entry.record.length ∧ q ≤ buffer.length := by
  have terminated : Terminated entry.region := by simp [Terminated, ClientEntry.region]
  unfold encodeEntry at ran
  simp only [strlen, if_pos terminated, ClientEntry.region_path ended] at ran
  obtain ⟨first, wrotePath, ran⟩ := bind_eq_ok_iff.mp ran
  obtain ⟨second, wroteMark, ran⟩ := bind_eq_ok_iff.mp ran
  obtain ⟨third, wroteType, ran⟩ := bind_eq_ok_iff.mp ran
  obtain ⟨last, wroteNewline, ran⟩ := bind_eq_ok_iff.mp ran
  cases ran
  have path := storeAt_within wrotePath
  have mark := storeAt_within wroteMark
  have letter := storeAt_within wroteType
  have feed := storeAt_within wroteNewline
  simp only [strncpy_length, List.length_singleton] at path mark letter feed
  simp only [ClientEntry.record, ClientEntry.line, List.length_append, List.length_cons,
    List.length_nil]
  omega

theorem encodeLoop_within {entries : List ClientEntry}
    (ended : ∀ entry ∈ entries, Terminated entry.filePath.1) {buffer out : Bytes} {p : Nat}
    (inside : p ≤ buffer.length) (ran : encodeLoop buffer p entries = .ok out) :
    p + (serialize entries).length ≤ buffer.length := by
  induction entries generalizing buffer p with
  | nil => simpa [serialize] using inside
  | cons entry rest ih =>
      obtain ⟨⟨moved, q⟩, turned, rests⟩ := bind_eq_ok_iff.mp ran
      obtain ⟨sameLength, rfl, within⟩ :=
        encodeEntry_within (ended entry List.mem_cons_self) turned
      have behind : _ ≤ moved.length :=
        ih (fun other member => ended other (List.mem_cons_of_mem _ member))
          (sameLength ▸ within) rests
      have split : serialize (entry :: rest) = entry.record ++ serialize rest := by
        simp [serialize]
      rw [split, List.length_append]
      omega

theorem encodeLoop_behind {entries : List ClientEntry}
    (ended : ∀ entry ∈ entries, Terminated entry.filePath.1) (text : Bytes) {free : Nat}
    (fits : (serialize entries).length ≤ free) :
    encodeLoop (text ++ List.replicate free 0) text.length entries =
      .ok ((text ++ serialize entries) ++
        List.replicate (free - (serialize entries).length) 0) := by
  induction entries generalizing text free with
  | nil => simp [encodeLoop, serialize, pure, Except.pure]
  | cons entry rest ih =>
      have split : serialize (entry :: rest) = entry.record ++ serialize rest := by
        simp [serialize]
      rw [split, List.length_append] at fits
      have rests := ih (fun other member => ended other (List.mem_cons_of_mem _ member))
        (text ++ entry.record) (Nat.le_sub_of_add_le' fits)
      have joined : text ++ entry.record ++ serialize rest = text ++ serialize (entry :: rest) := by
        rw [split, List.append_assoc]
      rw [Nat.sub_sub, ← List.length_append, ← split, joined] at rests
      rw [encodeLoop, encodeEntry_behind (ended entry List.mem_cons_self) text (by omega)]
      exact rests

/-- The buffer handed to `write` is the text and cleared bytes behind it, the count its
length. -/
theorem refreshFileList_eq {entries : List ClientEntry}
    (ended : ∀ entry ∈ entries, Terminated entry.filePath.1)
    (clean : (0 : Byte) ∉ serialize entries)
    (fits : (serialize entries).length < bufferSize) :
    refreshFileList entries =
      .ok (serialize entries ++ List.replicate (bufferSize - (serialize entries).length) 0,
        (serialize entries).length) := by
  have encoded := encodeLoop_behind ended [] (Nat.le_of_lt fits)
  simp only [List.nil_append, List.length_nil] at encoded
  have free : bufferSize - (serialize entries).length ≠ 0 := by omega
  have terminated : Terminated (serialize entries ++
      List.replicate (bufferSize - (serialize entries).length) 0) := by
    simp [Terminated, free]
  have content : cstr (serialize entries ++
      List.replicate (bufferSize - (serialize entries).length) 0) = serialize entries := by
    rw [cstr_append clean, cstr_replicate_zero, List.append_nil]
  rw [refreshFileList, encoded]
  simp [bind, Except.bind, strlen, terminated, content, pure, Except.pure]

/-- Clean entries are sent exactly when their text and the NUL behind it fit. -/
theorem refreshFileList_isOk_iff {entries : List ClientEntry}
    (ended : ∀ entry ∈ entries, Terminated entry.filePath.1)
    (clean : (0 : Byte) ∉ serialize entries) :
    (∃ sent, refreshFileList entries = .ok sent) ↔ (serialize entries).length < bufferSize := by
  constructor
  · rintro ⟨sent, ran⟩
    obtain ⟨buffer, encoded, counted⟩ := bind_eq_ok_iff.mp ran
    have within := encodeLoop_within ended (Nat.zero_le _) encoded
    rw [Nat.zero_add, List.length_replicate] at within
    refine lt_of_le_of_ne within fun full => ?_
    have filled := encodeLoop_behind ended [] within
    simp only [List.nil_append, List.length_nil, full, Nat.sub_self, List.replicate_zero,
      List.append_nil] at filled
    obtain rfl := Except.ok.inj (filled.symm.trans encoded)
    simp [strlen, Terminated, clean] at counted
  · exact fun fits => ⟨_, refreshFileList_eq ended clean fits⟩

end Encoder

section Agreement

/-- The serialized text has one line for each entry and an empty one behind the last
newline. -/
theorem textLines_serialize {entries : List ClientEntry}
    (encodable : ∀ entry ∈ entries, entry.Encodable) :
    textLines (serialize entries) = entries.map ClientEntry.line ++ [[]] := by
  have lines : serialize entries = (entries.map ClientEntry.line).flatMap (· ++ [newline]) := by
    rw [List.flatMap_map]
    rfl
  rw [lines]
  refine textLines_ended fun line member => ?_
  obtain ⟨entry, inEntries, rfl⟩ := List.mem_map.mp member
  have here := encodable entry inEntries
  have letter : newline ≠ entry.type := by
    rintro same
    exact absurd (same ▸ here.letter) (by decide)
  simp [ClientEntry.line, here.oneLine, letter, show newline ≠ atSign by decide]

/-- The rule an encodable entry asks for, and gets when its path opens. -/
theorem ClientEntry.Encodable.install {entry : ClientEntry} (encodable : entry.Encodable)
    (paths : Bytes → Option InodeAddr) :
    (RuleLine.ofLine entry.line).install paths =
      (paths entry.path).map fun inode =>
        FileNode.make entry.path inode (protectTypeOfString [entry.type]) := by
  rw [ClientEntry.line, ofLine_append encodable.noMark, RuleLine.install, pathOpens,
    if_neg encodable.nonempty]

theorem parseLines_serialize {entries : List ClientEntry}
    (encodable : ∀ entry ∈ entries, entry.Encodable) (paths : Bytes → Option InodeAddr) :
    parseLines paths (entries.map ClientEntry.line ++ [[]]) =
      entries.filterMap fun entry => (paths entry.path).map fun inode =>
        FileNode.make entry.path inode (protectTypeOfString [entry.type]) := by
  induction entries with
  | nil => rfl
  | cons entry rest ih =>
      have here := encodable entry List.mem_cons_self
      have typed : atSign ∈ entry.line := by simp [ClientEntry.line]
      rw [List.map_cons, List.cons_append, parseLines_typed typed, here.install,
        ih fun other member => encodable other (List.mem_cons_of_mem _ member)]
      cases opened : paths entry.path <;> simp [opened]

theorem parses_serialize (entries : List ClientEntry) (paths : Bytes → Option InodeAddr) :
    Parses paths (entries.map ClientEntry.line ++ [[]]) := by
  apply parses_of_typed
  intro line member bare
  simp only [List.mem_append, List.mem_map, List.mem_singleton] at member
  rcases member with ⟨entry, _, rfl⟩ | rfl
  · exact absurd (by simp [ClientEntry.line]) bare
  · rfl

/-- The path a node made for an encodable entry holds is the entry's. -/
theorem ClientEntry.Encodable.path_make {entry : ClientEntry} (encodable : entry.Encodable)
    (inode : InodeAddr) (type : ProtectType) :
    cstr (FileNode.make entry.path inode type).filePath.1 = entry.path := by
  have short : entry.path.length < filepathSize := by
    simpa [path] using cstr_length_lt encodable.terminated
  exact cstr_strncpy zero_notMem_cstr (Nat.le_of_lt short)

theorem written_refreshFileList {entries : List ClientEntry}
    (clean : (0 : Byte) ∉ serialize entries) (rest : Bytes) :
    written (serialize entries ++ rest) (serialize entries).length = some (serialize entries) := by
  rw [written, if_pos (by simp), List.take_left, cstr_of_clean clean]

variable {σ : Type} {k : Kernel σ} {opens : σ → Bytes → Option InodeAddr}

/-- The node an entry asks for, and gets when its path opens. -/
def ClientEntry.node (paths : Bytes → Option InodeAddr) (entry : ClientEntry) : Option FileNode :=
  (paths entry.path).map fun inode =>
    FileNode.make entry.path inode (protectTypeOfString [entry.type])

/-- A protect write of what `refreshFileList` hands out leaves the nodes of the entries
whose path opens, in order. -/
theorem refreshFileList_installed (view : PathView k opens) {entries : List ClientEntry}
    (encodable : ∀ entry ∈ entries, entry.Encodable) {write : Bytes × Nat}
    (sent : refreshFileList entries = .ok write) {s after : ProcState σ} {ret : Int}
    (ran : Returns (procProtectWrite k write.1 write.2) s ret after) :
    after.globals.fileListRoot = entries.filterMap (ClientEntry.node (opens s.outside)) ∧
      opens after.outside = opens s.outside := by
  have ended := fun entry member => (encodable entry member).terminated
  have clean := serialize_clean encodable
  have fits := (refreshFileList_isOk_iff ended clean).mp ⟨write, sent⟩
  rw [refreshFileList_eq ended clean fits, Except.ok.injEq] at sent
  subst sent
  have delivered := written_refreshFileList clean
    (List.replicate (bufferSize - (serialize entries).length) 0)
  rcases procProtectWrite_cases view ran with
    ⟨empty, _, rfl⟩ | ⟨_, missed, _⟩ | ⟨_, text, raw, outside, arrived, _, kept, rfl⟩
  · cases entries with
    | nil => exact ⟨rfl, rfl⟩
    | cons entry rest => simp [serialize, ClientEntry.record] at empty
  · rw [delivered] at missed
    cases missed
  · cases delivered.symm.trans arrived
    refine ⟨?_, kept⟩
    rw [textLines_serialize encodable, parseLines_serialize encodable]
    rfl

/-- A protect write of encodable entries returns when their text fits the buffers. -/
theorem refreshFileList_received (view : PathView k opens) {entries : List ClientEntry}
    (encodable : ∀ entry ∈ entries, entry.Encodable)
    (fits : (serialize entries).length < bufferSize)
    (room : (serialize entries).length < k.vmallocRoom sizeofPointer) (s : ProcState σ) :
    ∃ write ret after, refreshFileList entries = .ok write ∧
      Returns (procProtectWrite k write.1 write.2) s ret after := by
  have clean := serialize_clean encodable
  have delivered := written_refreshFileList clean
    (List.replicate (bufferSize - (serialize entries).length) 0)
  obtain ⟨ret, after, ran⟩ := procProtectWrite_total (s := s) view fits
    fun text _ arrived => by
      cases delivered.symm.trans arrived
      exact ⟨room, textLines_serialize encodable ▸ parses_serialize entries (opens s.outside)⟩
  exact ⟨_, ret, after, refreshFileList_eq
    (fun entry member => (encodable entry member).terminated) clean fits, ran⟩

/-- Client encoder and kernel parser agree: what `refreshFileList` writes leaves in the
rule list the entries whose path opens, in order, whatever was installed before. -/
theorem refreshFileList_installs (view : PathView k opens) {entries : List ClientEntry}
    (encodable : ∀ entry ∈ entries, entry.Encodable)
    (fits : (serialize entries).length < bufferSize)
    (room : (serialize entries).length < k.vmallocRoom sizeofPointer) (s : ProcState σ) :
    ∃ buffer count, refreshFileList entries = .ok (buffer, count) ∧
      ∃ ret after, Returns (procProtectWrite k buffer count) s ret after ∧
        after.globals.fileListRoot.map
            (fun node => (cstr node.filePath.1, node.inode, node.type)) =
          entries.filterMap fun entry => (opens s.outside entry.path).map fun inode =>
            (entry.path, inode, protectTypeOfString [entry.type]) := by
  obtain ⟨write, ret, after, sent, ran⟩ := refreshFileList_received view encodable fits room s
  refine ⟨write.1, write.2, sent, ret, after, ran, ?_⟩
  rw [(refreshFileList_installed view encodable sent ran).1, List.map_filterMap]
  apply List.filterMap_congr
  intro entry member
  rw [ClientEntry.node, Option.map_map]
  congr 1
  funext inode
  exact congrArg (·, inode, protectTypeOfString [entry.type])
    ((encodable entry member).path_make inode _)

end Agreement

/-- A client list of two rules, of which the file of the first one exists. -/
def twoEntries : List ClientEntry :=
  [⟨pathField (lit "/f"), 114⟩, ⟨pathField (lit "/g"), 119⟩]

theorem refreshFileList_installs_twoEntries :
    ∃ buffer count, refreshFileList twoEntries = .ok (buffer, count) ∧
      ∃ ret after, Returns (procProtectWrite (Kernel.quiet oneFile) buffer count)
          ⟨Globals.initial (SizedBytes.zeros _), ()⟩ ret after ∧
        after.globals.fileListRoot.map
            (fun node => (cstr node.filePath.1, node.inode, node.type)) =
          [(lit "/f", 7, .read)] := by
  have encodable : ∀ entry ∈ twoEntries, entry.Encodable := by
    intro entry member
    simp only [twoEntries, List.mem_cons, List.not_mem_nil, or_false] at member
    rcases member with rfl | rfl <;> exact ⟨by decide, by decide, by decide, by decide, by decide⟩
  exact refreshFileList_installs (Kernel.quiet_pathView oneFile) encodable (by decide) (by decide) _

end FsProtection
