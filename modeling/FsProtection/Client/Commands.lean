import FsProtection.Client.FileList

/-!
# The commands of the client

Runs of additions and removals. The list on the heap is the list the commands mean,
whatever they are. That the wire format carries it is up to what is typed in: `addFile`
takes any line and any letter.
-/

namespace FsProtection

open Base

/-- A command of the client's menu that changes the list, with what is typed in for it. -/
inductive ListCommand where
  | add (line : Option Bytes) (type : Byte)
  | remove (number : Int)

namespace ListCommand

/-- The indexing of the command stays in `filePath`. -/
def Indexes : ListCommand → Prop
  | .add line _ => InRange line
  | .remove _ => True

/-- What a command means for the list of entries: an addition appends, and a removal
takes out what is printed with its number. -/
def apply (entries : List ClientEntry) : ListCommand → List ClientEntry
  | .add line type =>
      entries ++ (line.map fun region => ⟨pathField (takenPath (cstr region)), type⟩).toList
  | .remove number =>
      (entries.zipIdx.filter fun printed => (printed.2 : Int) ≠ number).map Prod.fst

/-- A removal from an empty list returns before anything is sent. -/
def sends (entries : List ClientEntry) : ListCommand → Bool
  | .add _ _ => true
  | .remove _ => !entries.isEmpty

end ListCommand

/-- The list the commands so far mean. -/
def commanded (commands : List ListCommand) : List ClientEntry :=
  commands.foldl ListCommand.apply []

theorem commanded_snoc (commands : List ListCommand) (command : ListCommand) :
    commanded (commands ++ [command]) = command.apply (commanded commands) := by
  simp [commanded]

namespace ClientList

def step (s : ClientList) : ListCommand → Except Fault ClientList
  | .add line type => do
      let outcome ← (addFile line type).run s
      return outcome.2
  | .remove number => do
      let outcome ← (removeFile number).run s
      return outcome.2

/-- After the commands the nodes are the list they mean, which was sent unless nothing was. -/
structure Reached (commands : List ListCommand) (s : ClientList) : Prop where
  represented : ∃ nodes, s.Represents nodes ∧ nodes.map Prod.snd = commanded commands
  sent : s.sent.getLast? = some (refreshFileList (commanded commands)) ∨
    s.sent = [] ∧ commanded commands = []

section Runs

variable {place : Nat → Nat} {commands : List ListCommand} {s : ClientList}

theorem Reached.initial (place : Nat → Nat) : (initial place).Reached [] where
  represented := ⟨[], ⟨IsList.empty place, rfl⟩, rfl⟩
  sent := .inr ⟨rfl, rfl⟩

/-- A file that is added is sent with the rest of the list. -/
theorem Reached.added (reached : s.Reached commands) {region : Bytes} {type : Byte}
    (indexes : (ListCommand.add (some region) type).Indexes) :
    ∃ after, s.step (.add (some region) type) = .ok after ∧
      after.Reached (commands ++ [.add (some region) type]) ∧
      after.sent = s.sent ++
        [refreshFileList (commanded (commands ++ [.add (some region) type]))] := by
  obtain ⟨⟨nodes, represents, same⟩, _⟩ := reached
  have taken := (inputPath_some region).trans (if_pos indexes)
  obtain ⟨after, address, ran, represented, refreshed⟩ := addPath_returns represents taken type
  have meant : nodes.map Prod.snd ++ [⟨pathField (takenPath (cstr region)), type⟩] =
      commanded (commands ++ [.add (some region) type]) := by
    rw [commanded_snoc, same]
    rfl
  rw [meant] at refreshed
  refine ⟨after, run_bind_eq_ok.mpr ⟨_, _, ran, rfl⟩, ⟨⟨_, represented, ?_⟩, .inl ?_⟩, refreshed⟩
  · rw [← meant, List.map_append, List.map_singleton]
  · rw [refreshed, List.getLast?_concat]

/-- A removal from a list with files is followed by the list that is left. -/
theorem Reached.removed (reached : s.Reached commands) (number : Int) :
    ∃ after, s.step (.remove number) = .ok after ∧
      after.Reached (commands ++ [.remove number]) ∧
      after.sent = s.sent ++ if (ListCommand.remove number).sends (commanded commands) then
        [refreshFileList (commanded (commands ++ [.remove number]))] else [] := by
  obtain ⟨⟨nodes, represents, same⟩, sent⟩ := reached
  obtain ⟨after, ran, represented, refreshed⟩ := removeFile_returns represents number
  have meant : removeAt number (nodes.map Prod.snd) =
      commanded (commands ++ [.remove number]) := by
    rw [commanded_snoc, ListCommand.apply, unprinted_eq_removeAt, same]
    simp
  rw [map_removeAt, meant] at refreshed
  refine ⟨after, run_bind_eq_ok.mpr ⟨_, _, ran, rfl⟩, ⟨⟨_, represented, ?_⟩, ?_⟩, ?_⟩
  · rw [map_removeAt, meant]
  · by_cases empty : nodes = []
    · have nothing : commanded (commands ++ [.remove number]) = commanded commands := by
        rw [← meant, ← same, empty]
        simp [removeAt]
      rw [refreshed, if_pos empty, List.append_nil, nothing]
      exact sent
    · rw [refreshed, if_neg empty, List.getLast?_concat]
      exact .inl rfl
  · rw [refreshed, ← same]
    cases nodes with
    | nil => rfl
    | cons node rest => rfl

/-- A command whose indexing stays in range returns, does what it means, and sends the list
it leaves. -/
theorem Reached.stepped (reached : s.Reached commands) {command : ListCommand}
    (indexes : command.Indexes) :
    ∃ after, s.step command = .ok after ∧ after.Reached (commands ++ [command]) ∧
      after.sent = s.sent ++ if command.sends (commanded commands) then
        [refreshFileList (commanded (commands ++ [command]))] else [] := by
  cases command with
  | add line type =>
      cases line with
      | none => exact indexes.elim
      | some region => exact reached.added indexes
  | remove number => exact reached.removed number

theorem Reached.step (reached : s.Reached commands) {command : ListCommand}
    (indexes : command.Indexes) :
    ∃ after, s.step command = .ok after ∧ after.Reached (commands ++ [command]) := by
  obtain ⟨after, stepped, next, _⟩ := reached.stepped indexes
  exact ⟨after, stepped, next⟩

theorem run_reached (place : Nat → Nat) (indexes : ∀ command ∈ commands, command.Indexes) :
    ∃ s, execute step (initial place) commands = .ok s ∧ s.Reached commands :=
  execute_total (fun commands (s : ClientList) => s.Reached commands) (.initial place)
    (fun _ _ _ reached indexes => reached.step indexes) indexes

/-- The client's list on the heap is the list its commands mean. After any commands whose
indexing stays in `filePath`, none of which faults, the chain from the root ends at NULL
through distinct nodes, exactly these are live, every other node that was allocated was
freed once, `tail` is the last node, and the entries are those the commands mean, printed
with their places as numbers. -/
theorem client_list_represented (place : Nat → Nat)
    (indexes : ∀ command ∈ commands, command.Indexes) :
    ∃ s nodes, execute step (initial place) commands = .ok s ∧
      IsList s.heap s.root nodes ∧
      s.tail = nodes.getLast?.map Prod.fst ∧ (s.tail = none ↔ s.root = none) ∧
      nodes.map Prod.snd = commanded commands ∧
      Returns printFileList s (commanded commands).zipIdx s := by
  obtain ⟨s, ran, ⟨nodes, ⟨list, tail⟩, meant⟩, _⟩ := run_reached place indexes
  have ended : s.tail = none ↔ s.root = none := by
    rw [tail, list.root_eq]
    cases nodes <;> simp
  exact ⟨s, nodes, ran, list, tail, ended, meant, meant ▸ returns_printFileList list⟩

end Runs

/-- Two additions, removals of the last, of a number that is not printed and of the only
entry, and another addition, all at one address or next to it. -/
def someCommands : List ListCommand :=
  [.add (some (lit "/f/")) 114, .add (some (lit "/g ")) 119, .remove 1, .remove (-1), .remove 0,
    .add (some (lit "/h")) 100]

theorem someCommands_represented :
    ∃ s nodes, execute step (initial fun _ => 7) someCommands = .ok s ∧
      IsList s.heap s.root nodes ∧ s.tail = nodes.getLast?.map Prod.fst ∧
      nodes.map Prod.snd = [⟨pathField (lit "/h"), 100⟩] := by
  have indexes : ∀ command ∈ someCommands, command.Indexes := by
    intro command member
    simp only [someCommands, List.mem_cons, List.not_mem_nil, or_false] at member
    rcases member with rfl | rfl | rfl | rfl | rfl | rfl
    · exact ⟨by decide, by decide, by decide⟩
    · exact ⟨by decide, by decide, by decide⟩
    · trivial
    · trivial
    · trivial
    · exact ⟨by decide, by decide, by decide⟩
  obtain ⟨s, nodes, ran, list, tail, _, meant, _⟩ := client_list_represented (fun _ => 7) indexes
  exact ⟨s, nodes, ran, list, tail, meant⟩

end ClientList

/-- A text of which `addFile` makes a path that the wire format carries. -/
structure Carriable (text : Bytes) : Prop where
  fits : text.length ≤ filepathSize
  ended : text.length = filepathSize → text.getLast? = some space ∨ text.getLast? = some slash
  named : text ∉ [[], [space], [slash], [slash, space]]
  noMark : atSign ∉ text
  oneLine : newline ∉ text

section Paths

variable {text : Bytes}

theorem mem_withoutLast_iff {byte other : Byte} (apart : other ≠ byte) :
    other ∈ withoutLast byte text ↔ other ∈ text := by
  rcases withoutLast_eq_iff.mp (Eq.refl (withoutLast byte text)) with added | ⟨same, _⟩
  · conv_rhs => rw [added]
    simp [apart]
  · rw [← same]

theorem mem_takenPath_iff {byte : Byte} (notSpace : byte ≠ space) (notSlash : byte ≠ slash) :
    byte ∈ takenPath text ↔ byte ∈ text := by
  rw [takenPath, mem_withoutLast_iff notSlash, mem_withoutLast_iff notSpace]

theorem takenPath_eq_nil_iff :
    takenPath text = [] ↔ text ∈ [[], [space], [slash], [slash, space]] := by
  have apart : slash ≠ space := by decide
  rw [takenPath, withoutLast_eq_nil_iff, withoutLast_eq_nil_iff, withoutLast_eq_iff]
  simp [apart]
  tauto

/-- A path that fits the field leaves room for a NUL exactly when it does not fill it or
something is taken off. -/
theorem takenPath_short_iff (fits : text.length ≤ filepathSize) :
    (takenPath text).length < filepathSize ↔ (text.length = filepathSize →
      text.getLast? = some space ∨ text.getLast? = some slash) := by
  have shorter := withoutLast_length slash (withoutLast space text)
  rcases withoutLast_eq_iff.mp (Eq.refl (withoutLast space text)) with spaced | ⟨same, unspaced⟩
  · have ended : text.getLast? = some space := by
      rw [spaced, List.getLast?_concat]
    have one := congrArg List.length spaced
    simp only [List.length_append, List.length_singleton] at one
    refine iff_of_true ?_ fun _ => .inl ended
    rw [takenPath]
    omega
  · rw [← same] at unspaced
    rw [takenPath, ← same]
    rcases withoutLast_eq_iff.mp (Eq.refl (withoutLast slash text)) with
      slashed | ⟨whole, unslashed⟩
    · have ended : text.getLast? = some slash := by
        rw [slashed, List.getLast?_concat]
      have one := congrArg List.length slashed
      simp only [List.length_append, List.length_singleton] at one
      exact iff_of_true (by omega) fun _ => .inr ended
    · rw [← whole] at unslashed
      rw [← whole]
      constructor
      · exact fun short full => absurd full short.ne
      · exact fun allowed => lt_of_le_of_ne fits fun full =>
          (allowed full).elim unspaced unslashed

theorem zero_notMem_takenPath (region : Bytes) : (0 : Byte) ∉ takenPath (cstr region) := by
  rw [mem_takenPath_iff (by decide) (by decide)]
  exact zero_notMem_cstr

theorem takenPath_length (text : Bytes) : (takenPath text).length ≤ text.length :=
  (withoutLast_length _ _).trans (withoutLast_length _ _)

/-- The path of the entry made of a text that fits. -/
theorem path_pathField {region : Bytes} (fits : (cstr region).length ≤ filepathSize) (type : Byte) :
    (ClientEntry.mk (pathField (takenPath (cstr region))) type).path = takenPath (cstr region) :=
  cstr_strncpy (zero_notMem_takenPath region) ((takenPath_length _).trans fits)

/-- What `addFile` makes of a line is carried by the wire format exactly when its text
and its type are right. -/
theorem encodable_iff (region : Bytes) (type : Byte) :
    (InRange (some region) ∧
        (ClientEntry.mk (pathField (takenPath (cstr region))) type).Encodable) ↔
      Carriable (cstr region) ∧ type ∈ lit "rwhodnm" := by
  have path := fun fits : (cstr region).length ≤ filepathSize => path_pathField fits type
  have ended : (cstr region).length ≤ filepathSize →
      (Terminated (pathField (takenPath (cstr region))).1 ↔
        (takenPath (cstr region)).length < filepathSize) := by
    intro fits
    refine ⟨fun terminated => ?_, strncpy_terminated⟩
    have shorter := cstr_length_lt terminated
    rwa [SizedBytes.length, pathField,
      cstr_strncpy (zero_notMem_takenPath region) ((takenPath_length _).trans fits)] at shorter
  constructor
  · rintro ⟨⟨fits, nonempty, notSpace⟩, terminated, named, noMark, oneLine, letter⟩
    rw [path fits] at named noMark oneLine
    refine ⟨⟨fits, (takenPath_short_iff fits).mp ((ended fits).mp terminated),
      mt takenPath_eq_nil_iff.mpr named, ?_, ?_⟩, letter⟩
    · rwa [mem_takenPath_iff (by decide) (by decide)] at noMark
    · rwa [mem_takenPath_iff (by decide) (by decide)] at oneLine
  · rintro ⟨⟨fits, short, named, noMark, oneLine⟩, letter⟩
    have nonempty := mt takenPath_eq_nil_iff.mp named
    refine ⟨⟨fits, fun empty => named (by simp [empty]), fun isSpace => named (by simp [isSpace])⟩,
      (ended fits).mpr ((takenPath_short_iff fits).mpr short), ?_, ?_, ?_, letter⟩
    · rwa [path fits]
    · rwa [path fits, mem_takenPath_iff (by decide) (by decide)]
    · rwa [path fits, mem_takenPath_iff (by decide) (by decide)]

end Paths

/-- The rule an entry stands for. -/
def ClientEntry.rule (entry : ClientEntry) : RuleLine :=
  ⟨entry.path, protectTypeOfString [entry.type]⟩

/-- What was sent arrives as a text that the parser reads as the rules of the entries. -/
def Decodes (entries : List ClientEntry) (outcome : Except Fault (Bytes × Nat)) : Prop :=
  ∃ buffer count text, outcome = .ok (buffer, count) ∧ written buffer count = some text ∧
    ruleLines (textLines text) = entries.map ClientEntry.rule

/-- The wire format carries the list: every entry, and so does the text that was sent last. -/
def ClientList.Carried (s : ClientList) : Prop :=
  ∃ nodes, s.Represents nodes ∧ (∀ node ∈ nodes, node.2.Encodable) ∧
    ∀ outcome ∈ s.sent.getLast?, Decodes (nodes.map Prod.snd) outcome

/-- An added line is right for the wire format, and its text still fits the buffer. -/
def ListCommand.Carries (entries : List ClientEntry) : ListCommand → Prop
  | .add line type => ∃ region ∈ line, Carriable (cstr region) ∧ type ∈ lit "rwhodnm" ∧
      (serialize entries).length + (takenPath (cstr region)).length + 3 < bufferSize
  | .remove _ => True

section Carrying

variable {entries : List ClientEntry}

theorem ruleLines_serialize (encodable : ∀ entry ∈ entries, entry.Encodable) :
    ruleLines (textLines (serialize entries)) = entries.map ClientEntry.rule := by
  have typed : ∀ line ∈ entries.map ClientEntry.line, decide (atSign ∈ line) = true := by
    intro line member
    obtain ⟨entry, _, rfl⟩ := List.mem_map.mp member
    simp [ClientEntry.line]
  rw [textLines_serialize encodable, ruleLines, List.takeWhile_append_of_pos typed,
    List.takeWhile_cons_of_neg (by simp), List.append_nil, List.map_map]
  exact List.map_congr_left fun entry member =>
    ofLine_append (encodable entry member).noMark [entry.type]

/-- Encodable entries are sent as a text that decodes to them exactly when it fits. -/
theorem decodes_refreshFileList_iff (encodable : ∀ entry ∈ entries, entry.Encodable) :
    Decodes entries (refreshFileList entries) ↔ (serialize entries).length < bufferSize := by
  have ended := fun entry member => (encodable entry member).terminated
  have clean := serialize_clean encodable
  constructor
  · rintro ⟨buffer, count, _, sent, _⟩
    exact (refreshFileList_isOk_iff ended clean).mp ⟨_, sent⟩
  · intro fits
    exact ⟨_, _, _, refreshFileList_eq ended clean fits, written_refreshFileList clean _,
      ruleLines_serialize encodable⟩

/-- The entries are encodable, and their text fits the buffer. -/
def Sendable (entries : List ClientEntry) : Prop :=
  (∀ entry ∈ entries, entry.Encodable) ∧ (serialize entries).length < bufferSize

theorem serialize_append (front back : List ClientEntry) :
    serialize (front ++ back) = serialize front ++ serialize back :=
  List.flatMap_append

/-- What is left of a list is not longer than the list when sent. -/
theorem serialize_sublist {front back : List ClientEntry} (left : front.Sublist back) :
    (serialize front).length ≤ (serialize back).length := by
  induction left with
  | slnil => exact Nat.le_refl _
  | cons entry _ ih =>
      rw [serialize, serialize, List.flatMap_cons, List.length_append]
      exact ih.trans (Nat.le_add_left _ _)
  | cons_cons entry _ ih =>
      rw [serialize, serialize, List.flatMap_cons, List.flatMap_cons, List.length_append,
        List.length_append]
      exact Nat.add_le_add_left ih _

theorem unprinted_sublist (number : Int) (entries : List ClientEntry) :
    ((ListCommand.remove number).apply entries).Sublist entries := by
  have printed : (entries.zipIdx.map Prod.fst).Sublist entries := by
    rw [List.zipIdx_map_fst]
  exact ((List.filter_sublist).map Prod.fst).trans printed

/-- A line that fits costs the list its path and three bytes. -/
theorem serialize_add_length {region : Bytes} (fits : (cstr region).length ≤ filepathSize)
    (type : Byte) :
    (serialize ((ListCommand.add (some region) type).apply entries)).length =
      (serialize entries).length + (takenPath (cstr region)).length + 3 := by
  have path := path_pathField fits type
  rw [ListCommand.apply, serialize_append, List.length_append]
  simp [serialize, ClientEntry.record, ClientEntry.line, path, Nat.add_assoc]

/-- A command keeps a list sendable, and stays in range, exactly when it carries. -/
theorem carries_iff (sendable : Sendable entries) (command : ListCommand) :
    command.Indexes ∧ Sendable (command.apply entries) ↔ command.Carries entries := by
  cases command with
  | remove number =>
      refine iff_of_true ⟨trivial, fun entry member => ?_, ?_⟩ trivial
      · exact sendable.1 entry ((unprinted_sublist number entries).subset member)
      · exact (serialize_sublist (unprinted_sublist number entries)).trans_lt sendable.2
  | add line type =>
      cases line with
      | none => simp [ListCommand.Indexes, InRange, ListCommand.Carries]
      | some region =>
          constructor
          · rintro ⟨inRange, encodable, fits⟩
            have made := encodable ⟨pathField (takenPath (cstr region)), type⟩
              (by simp [ListCommand.apply])
            obtain ⟨carriable, letter⟩ := (encodable_iff region type).mp ⟨inRange, made⟩
            exact ⟨region, rfl, carriable, letter, serialize_add_length inRange.1 type ▸ fits⟩
          · rintro ⟨_, same, carriable, letter, fits⟩
            obtain rfl := Option.some.inj same
            obtain ⟨inRange, made⟩ := (encodable_iff _ type).mpr ⟨carriable, letter⟩
            refine ⟨inRange, fun entry member => ?_,
              (serialize_add_length inRange.1 type).symm ▸ fits⟩
            rcases List.mem_append.mp member with earlier | last
            · exact sendable.1 entry earlier
            · rwa [List.mem_singleton.mp last]

end Carrying

namespace ClientList

section Runs

variable {place : Nat → Nat} {commands : List ListCommand} {s after : ClientList}

/-- A command that returns stayed in range. -/
theorem indexes_of_step {command : ListCommand} (stepped : s.step command = .ok after) :
    command.Indexes := by
  cases command with
  | remove number => trivial
  | add line type =>
      obtain ⟨_, _, ran, _⟩ := run_bind_eq_ok.mp stepped
      obtain ⟨_, _, allocated, _⟩ := returns_bind_iff.mp ran
      obtain ⟨_, _, _, filled⟩ := returns_bind_iff.mp allocated
      obtain ⟨filePath, _, taken, _⟩ := returns_bind_iff.mp filled
      obtain ⟨taken, _⟩ := returns_lift_iff.mp taken
      cases line with
      | none => cases taken
      | some region =>
          rw [inputPath_some] at taken
          split at taken
          · assumption
          · cases taken

/-- The wire format carries a list exactly when its entries are sendable. -/
theorem Reached.carried_iff (reached : s.Reached commands) :
    s.Carried ↔ Sendable (commanded commands) := by
  obtain ⟨⟨nodes, represents, meant⟩, sent⟩ := reached
  constructor
  · rintro ⟨others, represented, encodable, decodes⟩
    obtain rfl := represents.list.chain.unique represented.list.chain
    have each : ∀ entry ∈ commanded commands, entry.Encodable := by
      rw [← meant]
      intro entry member
      obtain ⟨node, isNode, rfl⟩ := List.mem_map.mp member
      exact encodable node isNode
    refine ⟨each, ?_⟩
    rcases sent with last | ⟨_, empty⟩
    · rw [meant] at decodes
      exact (decodes_refreshFileList_iff each).mp (decodes _ last)
    · rw [empty]
      decide
  · rintro ⟨encodable, fits⟩
    refine ⟨nodes, represents, fun node member => ?_, ?_⟩
    · exact encodable node.2 (meant ▸ List.mem_map_of_mem member)
    · rcases sent with last | ⟨nothing, _⟩
      · rw [last, meant]
        intro outcome isLast
        obtain rfl := Option.some.inj isLast
        exact (decodes_refreshFileList_iff encodable).mpr fits
      · simp [nothing]

theorem reached_of_run (ran : execute step (initial place) commands = .ok s) :
    s.Reached commands := by
  refine execute_history (fun past (s : ClientList) => s.Reached past) (.initial place) ?_ ran
  intro past s command after reached stepped
  obtain ⟨_, again, reached⟩ := reached.step (indexes_of_step stepped)
  cases again.symm.trans stepped
  exact reached

/-- Commands that all carry return, and leave a list that can be sent. -/
theorem run_sendable
    (carries : ∀ past command, past ++ [command] <+: commands →
      command.Carries (commanded past)) :
    ∃ s, execute step (initial place) commands = .ok s ∧ Sendable (commanded commands) := by
  induction commands using List.reverseRecOn with
  | nil => exact ⟨_, rfl, fun _ member => absurd member List.not_mem_nil, by decide⟩
  | append_singleton past command ih =>
      obtain ⟨s, ran, sendable⟩ := ih fun earlier other first =>
        carries earlier other (first.trans (List.prefix_append past [command]))
      obtain ⟨indexes, next⟩ :=
        (carries_iff sendable command).mpr (carries past command (List.prefix_refl _))
      obtain ⟨after, stepped, _⟩ := (reached_of_run ran).step indexes
      rw [commanded_snoc]
      exact ⟨after, execute_snoc.mpr ⟨s, ran, stepped⟩, next⟩

/-- The client only ever holds what the wire format carries exactly when every line and
letter that was typed in is right, and fits the buffer with the list it is added to. -/
theorem list_carried_iff (place : Nat → Nat) (commands : List ListCommand) :
    (∀ past, past <+: commands →
        ∃ s, execute step (initial place) past = .ok s ∧ s.Carried) ↔
      ∀ past command, past ++ [command] <+: commands → command.Carries (commanded past) := by
  constructor
  · intro carried past command first
    obtain ⟨after, ran, isCarried⟩ := carried _ first
    obtain ⟨s, ranBefore, stepped⟩ := execute_snoc.mp ran
    obtain ⟨_, again, wasCarried⟩ := carried past ((List.prefix_append past [command]).trans first)
    cases again.symm.trans ranBefore
    have sendable := (reached_of_run ranBefore).carried_iff.mp wasCarried
    have next := (reached_of_run ran).carried_iff.mp isCarried
    rw [commanded_snoc] at next
    exact (carries_iff sendable command).mp ⟨indexes_of_step stepped, next⟩
  · intro carries past first
    obtain ⟨s, ran, sendable⟩ := @run_sendable place past fun earlier command before =>
      carries earlier command (before.trans first)
    exact ⟨s, ran, (reached_of_run ran).carried_iff.mpr sendable⟩

/-- A path with a mark in it is taken, and what is sent for it is another rule. -/
theorem marked_path_taken :
    ∃ s, execute step (initial id) [.add (some (lit "/f@w")) 114] = .ok s ∧ ¬ s.Carried ∧
      ∃ buffer count, s.sent.getLast? = some (.ok (buffer, count)) ∧
        (written buffer count).map (fun text => ruleLines (textLines text)) =
          some [⟨lit "/f", .none⟩] := by
  have inRange : InRange (some (lit "/f@w")) := ⟨by decide, by decide, by decide⟩
  obtain ⟨s, stepped, reached⟩ := (Reached.initial id).step
    (show (ListCommand.add (some (lit "/f@w")) 114).Indexes from inRange)
  have entries : commanded [.add (some (lit "/f@w")) 114] = [⟨pathField (lit "/f@w"), 114⟩] := rfl
  have text : serialize [⟨pathField (lit "/f@w"), 114⟩] = lit "/f@w@r\n" := by decide
  have clean : (0 : Byte) ∉ serialize [⟨pathField (lit "/f@w"), 114⟩] := by
    rw [text]
    decide
  have sent : s.sent.getLast? = some (refreshFileList [⟨pathField (lit "/f@w"), 114⟩]) :=
    reached.sent.resolve_right fun nothing => absurd nothing.2 (by simp [entries])
  rw [refreshFileList_eq (by decide) clean (by rw [text]; decide)] at sent
  refine ⟨s, execute_cons.mpr ⟨s, stepped, rfl⟩, fun carried => ?_, _, _, sent, ?_⟩
  · obtain ⟨encodable, _⟩ := reached.carried_iff.mp carried
    exact (encodable _ (List.mem_singleton_self _)).noMark (by decide)
  · rw [written_refreshFileList clean, text]
    decide

end Runs

end ClientList

end FsProtection
