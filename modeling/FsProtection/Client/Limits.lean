import FsProtection.Client.Commands

/-!
# The client's buffers

`addFile` copies a line into a field of 256 bytes, and `refreshFileList` lays the whole
list out in a buffer of `BUFFER_SIZE`. Neither compares what it writes with the room there
is; here is exactly when the writes stay inside.
-/

namespace FsProtection

open Base

/-- The node that `addFile` makes of a line holds, as a string inside its field, the line
without a last space and then without a last slash; nothing outside the field was indexed. -/
def Stored (s : ClientList) (line : Option Bytes) (type : Byte) : Prop :=
  ∃ pfile after entry, Returns (ClientList.newFile line type) s pfile after ∧
    after.heap.cell pfile = some ⟨entry, none⟩ ∧ Terminated entry.filePath.1 ∧
    ∃ region ∈ line, entry.path = takenPath (cstr region)

/-- A line that is there, is neither empty nor a single space, and either leaves the last
byte of the field alone or has it taken off again. -/
def Storable (line : Option Bytes) : Prop :=
  ∃ region ∈ line, (cstr region).length ≤ filepathSize ∧ cstr region ∉ [[], [space]] ∧
    ((cstr region).length = filepathSize →
      (cstr region).getLast? = some space ∨ (cstr region).getLast? = some slash)

section Lines

variable {s after : ClientList} {line : Option Bytes} {type : Byte}

theorem storable_some_iff {region : Bytes} :
    Storable (some region) ↔
      InRange (some region) ∧ (takenPath (cstr region)).length < filepathSize := by
  constructor
  · rintro ⟨_, same, fits, named, ended⟩
    obtain rfl := Option.some.inj same
    refine ⟨⟨fits, ?_, ?_⟩, (takenPath_short_iff fits).mpr ended⟩
    · exact fun empty => named (by simp [empty])
    · exact fun isSpace => named (by simp [isSpace])
  · rintro ⟨⟨fits, nonempty, notSpace⟩, short⟩
    exact ⟨region, rfl, fits, by simp [nonempty, notSpace], (takenPath_short_iff fits).mp short⟩

/-- A taken path is a string in the field exactly when it leaves room for the NUL. -/
theorem pathField_terminated_iff {region : Bytes} (fits : (cstr region).length ≤ filepathSize) :
    Terminated (pathField (takenPath (cstr region))).1 ↔
      (takenPath (cstr region)).length < filepathSize := by
  refine ⟨fun terminated => ?_, strncpy_terminated⟩
  have shorter := cstr_length_lt terminated
  rwa [SizedBytes.length, pathField, cstr_strncpy (zero_notMem_takenPath region)
    ((takenPath_length _).trans fits)] at shorter

/-- A node that was filled in holds its path. -/
theorem fillFile_returned {pfile : Nat} {path : Except Fault (SizedBytes filepathSize)}
    (ran : Returns (ClientList.fillFile path type) s pfile after) :
    ∃ filePath, path = .ok filePath ∧
      after.heap.cell pfile = some ⟨⟨filePath, type⟩, none⟩ := by
  obtain ⟨_, _, _, filled⟩ := returns_bind_iff.mp ran
  obtain ⟨filePath, _, taken, _⟩ := returns_bind_iff.mp filled
  obtain ⟨taken, _⟩ := returns_lift_iff.mp taken
  obtain ⟨rfl, rfl⟩ := ran.unique (ClientList.fillFile_returns taken type)
  exact ⟨filePath, taken, Heap.put_cell_self⟩

theorem Stored.storable (stored : Stored s line type) : Storable line := by
  obtain ⟨pfile, after, entry, ran, filled, terminated, region, isLine, _⟩ := stored
  obtain rfl := Option.mem_def.mp isLine
  obtain ⟨filePath, taken, cell⟩ := fillFile_returned ran
  cases filled.symm.trans cell
  rw [inputPath_some] at taken
  split at taken
  · rename_i inRange
    cases taken
    exact storable_some_iff.mpr ⟨inRange, (pathField_terminated_iff inRange.1).mp terminated⟩
  · cases taken

theorem Storable.stored (storable : Storable line) : Stored s line type := by
  obtain ⟨region, isLine, fits, _⟩ := id storable
  obtain rfl := Option.mem_def.mp isLine
  obtain ⟨inRange, short⟩ := storable_some_iff.mp storable
  have taken := (inputPath_some region).trans (if_pos inRange)
  exact ⟨_, _, _, ClientList.fillFile_returns taken type, Heap.put_cell_self,
    (pathField_terminated_iff fits).mpr short, region, rfl, path_pathField fits type⟩

/-- `addFile` stores exactly these lines safely, whatever the list and the type. -/
theorem stored_iff (s : ClientList) (line : Option Bytes) (type : Byte) :
    Stored s line type ↔ Storable line :=
  ⟨Stored.storable, Storable.stored⟩

/-- A line of letters. -/
def letterLine (count : Nat) : Bytes := List.replicate count 97

theorem cstr_letterLine (count : Nat) : cstr (letterLine count) = letterLine count :=
  cstr_of_clean fun member => absurd (List.eq_of_mem_replicate member) (by decide)

theorem letterLine_last {byte : Byte} (other : byte ≠ 97) (count : Nat) :
    (letterLine count).getLast? ≠ some byte :=
  fun last => other (List.eq_of_mem_replicate (List.mem_of_getLast? last))

theorem takenPath_letterLine (count : Nat) : takenPath (letterLine count) = letterLine count := by
  rw [takenPath, withoutLast, withoutLast, if_neg (letterLine_last (by decide) count),
    if_neg (letterLine_last (by decide) count)]

/-- At the end of input `strlen` is handed NULL, for an empty line and a single space the
byte in front of the field is read, and 256 letters leave no NUL in it. -/
theorem odd_lines_not_stored :
    Faults (ClientList.newFile none 114) (ClientList.initial id) .badPointer ∧
      Faults (ClientList.newFile (some []) 114) (ClientList.initial id) .overrun ∧
      Faults (ClientList.newFile (some [space]) 114) (ClientList.initial id) .overrun ∧
      ∀ line ∈ [none, some [], some [space], some (letterLine filepathSize)],
        ¬ Stored (ClientList.initial id) line 114 := by
  refine ⟨rfl, rfl, rfl, fun line odd stored => ?_⟩
  have storable := stored.storable
  rcases List.mem_cons.mp odd with rfl | odd
  · obtain ⟨_, impossible, _⟩ := storable
    cases impossible
  rcases List.mem_cons.mp odd with rfl | odd
  · exact (storable_some_iff.mp storable).1.2.1 rfl
  rcases List.mem_cons.mp odd with rfl | odd
  · exact (storable_some_iff.mp storable).1.2.2 rfl
  · obtain rfl := List.mem_singleton.mp odd
    have short := (storable_some_iff.mp storable).2
    rw [cstr_letterLine, takenPath_letterLine, letterLine, List.length_replicate] at short
    exact absurd short (Nat.lt_irrefl _)

end Lines

/-- What `refreshFileList` writes for the entries stays inside its buffer and leaves the
last byte zero, and its `strlen` finds as many bytes as were encoded. -/
def Laid (entries : List ClientEntry) : Prop :=
  ∃ buffer, refreshFileList entries = .ok (buffer, (serialize entries).length) ∧
    buffer.getLast? = some 0

namespace ListCommand

/-- What is added is a string of at most 255 bytes. -/
def ShortPath : ListCommand → Prop
  | .add line _ =>
      InRange line ∧ ∀ region ∈ line, (takenPath (cstr region)).length < filepathSize
  | .remove _ => True

/-- The type that is added is no NUL, and its record still leaves a byte of the buffer. -/
def HasRoom (entries : List ClientEntry) : ListCommand → Prop
  | .add line type => type ≠ 0 ∧ ∀ region ∈ line,
      (serialize entries).length + (takenPath (cstr region)).length + 3 < bufferSize
  | .remove _ => True

theorem ShortPath.indexes {command : ListCommand} (short : command.ShortPath) :
    command.Indexes := by
  cases command with
  | add line type => exact short.1
  | remove number => trivial

end ListCommand

section Layout

variable {entries : List ClientEntry}

/-- Each entry costs its path and three bytes. -/
theorem serialize_cons_length (entry : ClientEntry) (rest : List ClientEntry) :
    (serialize (entry :: rest)).length = entry.path.length + 3 + (serialize rest).length := by
  rw [serialize, List.flatMap_cons, List.length_append]
  simp [serialize, ClientEntry.record, ClientEntry.line]

theorem serialize_clean_iff :
    (0 : Byte) ∉ serialize entries ↔ ∀ entry ∈ entries, entry.type ≠ 0 := by
  have mark : (0 : Byte) ≠ atSign := by decide
  have feed : (0 : Byte) ≠ newline := by decide
  have pathClean : ∀ entry : ClientEntry, (0 : Byte) ∉ entry.path := fun _ => zero_notMem_cstr
  simp [serialize, ClientEntry.record, ClientEntry.line, mark, feed, pathClean, eq_comm]

theorem refreshFileList_eq_ok_iff {buffer : Bytes} {count : Nat} :
    refreshFileList entries = .ok (buffer, count) ↔
      encodeLoop (List.replicate bufferSize 0) 0 entries = .ok buffer ∧
        strlen buffer = some count := by
  constructor
  · intro ran
    obtain ⟨filled, encoded, counted⟩ := bind_eq_ok_iff.mp ran
    split at counted
    · cases counted
    · rename_i length
      cases counted
      exact ⟨encoded, length⟩
  · rintro ⟨encoded, counted⟩
    refine bind_eq_ok_iff.mpr ⟨buffer, encoded, ?_⟩
    rw [counted]
    rfl

/-- Entries with terminated paths are laid out exactly when they leave a byte of the
buffer and none has NUL for its type. -/
theorem laid_iff (ended : ∀ entry ∈ entries, Terminated entry.filePath.1) :
    Laid entries ↔
      (serialize entries).length < bufferSize ∧ ∀ entry ∈ entries, entry.type ≠ 0 := by
  rw [← serialize_clean_iff]
  constructor
  · rintro ⟨buffer, ran, _⟩
    obtain ⟨encoded, counted⟩ := refreshFileList_eq_ok_iff.mp ran
    have within := encodeLoop_within ended (Nat.zero_le _) encoded
    rw [Nat.zero_add, List.length_replicate] at within
    have filled := encodeLoop_behind ended [] within
    rw [List.nil_append] at filled
    obtain rfl := Except.ok.inj (filled.symm.trans encoded)
    obtain ⟨clean, free⟩ := strlen_padded_iff.mp counted
    exact ⟨Nat.lt_of_sub_pos free, clean⟩
  · rintro ⟨fits, clean⟩
    have free : bufferSize - (serialize entries).length ≠ 0 := (Nat.sub_pos_of_lt fits).ne'
    refine ⟨_, refreshFileList_eq ended clean fits, ?_⟩
    rw [List.getLast?_append, List.getLast?_replicate, if_neg free]
    rfl

theorem serialize_length_le (ended : ∀ entry ∈ entries, Terminated entry.filePath.1) :
    (serialize entries).length ≤ 258 * entries.length := by
  induction entries with
  | nil => exact Nat.le_refl _
  | cons entry rest ih =>
      have others := ih fun other member => ended other (List.mem_cons_of_mem _ member)
      have short := cstr_length_lt (ended entry List.mem_cons_self)
      have bounded : entry.path.length < 256 := short.trans_eq (SizedBytes.length _)
      rw [serialize_cons_length, List.length_cons]
      omega

/-- 254 entries always leave a byte. -/
theorem laid_of_few (ended : ∀ entry ∈ entries, Terminated entry.filePath.1)
    (typed : ∀ entry ∈ entries, entry.type ≠ 0) (few : entries.length ≤ 254) : Laid entries := by
  refine (laid_iff ended).mpr ⟨?_, typed⟩
  calc (serialize entries).length ≤ 258 * entries.length := serialize_length_le ended
    _ ≤ 258 * 254 := Nat.mul_le_mul_left 258 few
    _ < bufferSize := by decide

end Layout

section Runs

variable {place : Nat → Nat} {commands : List ListCommand} {entries : List ClientEntry}

/-- The paths of a list that short paths were added to are strings. -/
theorem commanded_terminated (short : ∀ command ∈ commands, command.ShortPath) :
    ∀ entry ∈ commanded commands, Terminated entry.filePath.1 := by
  induction commands using List.reverseRecOn with
  | nil => exact fun entry member => absurd member List.not_mem_nil
  | append_singleton past command ih =>
      have earlier := ih fun other member => short other (List.mem_append_left _ member)
      have last := short command (List.mem_append_right _ (List.mem_singleton_self _))
      rw [commanded_snoc]
      cases command with
      | remove number =>
          exact fun entry member => earlier entry ((unprinted_sublist number _).subset member)
      | add line type =>
          intro entry member
          rcases List.mem_append.mp member with before | new
          · exact earlier entry before
          · cases line with
            | none => exact absurd new List.not_mem_nil
            | some region =>
                obtain rfl := List.mem_singleton.mp new
                exact (pathField_terminated_iff last.1.1).mpr (last.2 region rfl)

/-- A command keeps a list laid out exactly when it has room. -/
theorem laid_apply_iff {command : ListCommand} (short : command.ShortPath)
    (ended : ∀ entry ∈ entries, Terminated entry.filePath.1)
    (endedAfter : ∀ entry ∈ command.apply entries, Terminated entry.filePath.1)
    (laid : Laid entries) : Laid (command.apply entries) ↔ command.HasRoom entries := by
  obtain ⟨fits, typed⟩ := (laid_iff ended).mp laid
  rw [laid_iff endedAfter]
  cases command with
  | remove number =>
      have left := unprinted_sublist number entries
      exact iff_of_true ⟨(serialize_sublist left).trans_lt fits,
        fun entry member => typed entry (left.subset member)⟩ trivial
  | add line type =>
      cases line with
      | none => exact short.1.elim
      | some region =>
          rw [serialize_add_length short.1.1]
          constructor
          · rintro ⟨room, typedAfter⟩
            have new := typedAfter ⟨pathField (takenPath (cstr region)), type⟩
              (by simp [ListCommand.apply])
            refine ⟨new, fun other same => ?_⟩
            obtain rfl := Option.some.inj same
            exact room
          · rintro ⟨new, room⟩
            refine ⟨room region rfl, fun entry member => ?_⟩
            rcases List.mem_append.mp member with before | last
            · exact typed entry before
            · rwa [List.mem_singleton.mp last]

/-- In a run that adds strings of at most 255 bytes the list can be laid out after every
command exactly when every addition has room, and no NUL for its type. -/
theorem list_laid_iff (place : Nat → Nat) (short : ∀ command ∈ commands, command.ShortPath) :
    (∀ past, past <+: commands →
        ∃ s nodes, execute ClientList.step (ClientList.initial place) past = .ok s ∧
          s.Represents nodes ∧ Laid (nodes.map Prod.snd)) ↔
      ∀ past command, past ++ [command] <+: commands → command.HasRoom (commanded past) := by
  have shortOf : ∀ {past}, past <+: commands → ∀ command ∈ past, command.ShortPath :=
    fun first command member => short command (first.subset member)
  have stepOf : ∀ {past command}, past ++ [command] <+: commands → Laid (commanded past) →
      (Laid (commanded (past ++ [command])) ↔ command.HasRoom (commanded past)) := by
    intro past command first laid
    have shortAll := shortOf first
    have endedAfter := commanded_terminated shortAll
    rw [commanded_snoc] at endedAfter ⊢
    exact laid_apply_iff (shortAll command (by simp))
      (commanded_terminated fun other member => shortAll other (List.mem_append_left _ member))
      endedAfter laid
  constructor
  · intro laid past command first
    have laidOf : ∀ {some}, some <+: commands → Laid (commanded some) := by
      intro some isSome
      obtain ⟨s, nodes, ran, represents, laidNodes⟩ := laid some isSome
      obtain ⟨others, represented, meant⟩ := (ClientList.reached_of_run ran).represented
      obtain rfl := represents.list.chain.unique represented.list.chain
      exact meant ▸ laidNodes
    exact (stepOf first (laidOf ((List.prefix_append _ _).trans first))).mp (laidOf first)
  · intro room past first
    have laid : Laid (commanded past) := by
      induction past using List.reverseRecOn with
      | nil => exact laid_of_few nofun nofun (Nat.zero_le _)
      | append_singleton past command ih =>
          exact (stepOf first (ih ((List.prefix_append _ _).trans first))).mpr
            (room past command first)
    obtain ⟨s, ran, ⟨nodes, represents, meant⟩, _⟩ := ClientList.run_reached place
      fun command member => (shortOf first command member).indexes
    exact ⟨s, nodes, ran, represents, meant ▸ laid⟩

/-- A file that is added, and removed again. -/
theorem home_laid :
    ∃ s nodes, execute ClientList.step (ClientList.initial id)
        [.add (some (lit "/home/f ")) 114, .remove 0] = .ok s ∧
      s.Represents nodes ∧ Laid (nodes.map Prod.snd) := by
  refine (list_laid_iff id ?_).mpr ?_ _ (List.prefix_refl _)
  · intro command member
    rcases List.mem_cons.mp member with rfl | member
    · refine ⟨⟨by decide, by decide, by decide⟩, fun region same => ?_⟩
      obtain rfl := Option.some.inj same
      decide
    · obtain rfl := List.mem_singleton.mp member
      trivial
  · intro past command first
    cases command with
    | remove number => trivial
    | add line type =>
        rcases past with _ | ⟨earlier, past⟩
        · obtain ⟨same, _⟩ := List.cons_prefix_cons.mp first
          cases same
          refine ⟨by decide, fun region same => ?_⟩
          obtain rfl := Option.some.inj same
          decide
        · obtain ⟨_, rests⟩ := List.cons_prefix_cons.mp first
          rcases past with _ | ⟨other, past⟩
          · cases (List.cons_prefix_cons.mp rests).1
          · simp at rests

theorem commanded_replicate (count : Nat) (region : Bytes) (type : Byte) :
    commanded (List.replicate count (.add (some region) type)) =
      List.replicate count ⟨pathField (takenPath (cstr region)), type⟩ := by
  induction count with
  | zero => rfl
  | succ count ih =>
      rw [List.replicate_succ', commanded_snoc, ih, List.replicate_succ']
      rfl

theorem serialize_replicate_length (count : Nat) (entry : ClientEntry) :
    (serialize (List.replicate count entry)).length = count * (entry.path.length + 3) := by
  induction count with
  | zero => simp [serialize]
  | succ count ih =>
      rw [List.replicate_succ, serialize_cons_length, ih, Nat.succ_mul, Nat.add_comm]

/-- After a run that adds short strings what the commands mean decides. -/
theorem run_laid_iff (place : Nat → Nat) (short : ∀ command ∈ commands, command.ShortPath) :
    ∃ s nodes, execute ClientList.step (ClientList.initial place) commands = .ok s ∧
      s.Represents nodes ∧ (Laid (nodes.map Prod.snd) ↔
        (serialize (commanded commands)).length < bufferSize ∧
          ∀ entry ∈ commanded commands, entry.type ≠ 0) := by
  obtain ⟨s, ran, ⟨nodes, represents, meant⟩, _⟩ := ClientList.run_reached place
    fun command member => (short command member).indexes
  refine ⟨s, nodes, ran, represents, ?_⟩
  rw [meant]
  exact laid_iff (commanded_terminated short)

/-- 255 files of the longest path overflow the buffer, and one file of type NUL ends the
text in front of its newline. -/
theorem long_list_not_laid :
    (∃ s nodes, execute ClientList.step (ClientList.initial id)
        (List.replicate 255 (.add (some (letterLine 255)) 114)) = .ok s ∧
      s.Represents nodes ∧ ¬ Laid (nodes.map Prod.snd)) ∧
    ∃ s nodes, execute ClientList.step (ClientList.initial id) [.add (some (lit "/f")) 0] = .ok s ∧
      s.Represents nodes ∧ ¬ Laid (nodes.map Prod.snd) := by
  constructor
  · have long : (letterLine 255).length = 255 := List.length_replicate
    have spelled : (cstr (letterLine 255)).length = 255 := by rw [cstr_letterLine, long]
    have fits : (cstr (letterLine 255)).length ≤ filepathSize := by
      rw [spelled]
      decide
    have short : (ListCommand.add (some (letterLine 255)) 114).ShortPath := by
      refine ⟨⟨fits, fun empty => ?_, fun isSpace => ?_⟩, fun region same => ?_⟩
      · rw [empty] at spelled
        exact absurd spelled (by decide)
      · rw [isSpace] at spelled
        exact absurd spelled (by decide)
      · obtain rfl := Option.some.inj same
        rw [cstr_letterLine, takenPath_letterLine, long]
        decide
    obtain ⟨s, nodes, ran, represents, laid⟩ := run_laid_iff id fun command member =>
      (List.eq_of_mem_replicate member : command = _) ▸ short
    refine ⟨s, nodes, ran, represents, fun isLaid => ?_⟩
    have room := (laid.mp isLaid).1
    rw [commanded_replicate, serialize_replicate_length, path_pathField fits, cstr_letterLine,
      takenPath_letterLine, long] at room
    exact absurd room (by decide)
  · have short : (ListCommand.add (some (lit "/f")) 0).ShortPath := by
      refine ⟨⟨by decide, by decide, by decide⟩, fun region same => ?_⟩
      obtain rfl := Option.some.inj same
      decide
    obtain ⟨s, nodes, ran, represents, laid⟩ := run_laid_iff id fun command member =>
      (List.mem_singleton.mp member : command = _) ▸ short
    have entries : commanded [.add (some (lit "/f")) 0] = [⟨pathField (lit "/f"), 0⟩] := rfl
    rw [entries] at laid
    exact ⟨s, nodes, ran, represents, fun isLaid =>
      (laid.mp isLaid).2 _ (List.mem_singleton_self _) rfl⟩

end Runs

end FsProtection
