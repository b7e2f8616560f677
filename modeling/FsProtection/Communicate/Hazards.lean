import FsProtection.Communicate.Proc
import FsProtection.Kernel.Quiet

/-!
# What a write to the proc files can break

The write handlers store a text into `raw_data_buff` and hand it to a parser that trusts
it. Each section is about one way to go wrong, and says which writes go that way: a count
of the whole buffer or more, a line without `@` whose path opens, a path that fills the
field it is stored in.
-/

namespace FsProtection

open Base

variable {σ : Type} {k : Kernel σ}

section Buffer

/-- What both handlers do with a write: `empty` at a count of zero, or else `act` on the
text. -/
def writeHandler (empty act : ProcM σ Unit) (buffer : Bytes) (count : Nat) : ProcM σ Int := do
  if count = 0 then
    empty
    return 0
  else
    receive buffer (clampCount count) act

theorem procProtectWrite_eq :
    procProtectWrite k = writeHandler destroyRoot (replaceRules k) := rfl

theorem procCtrlWrite_eq : procCtrlWrite k = writeHandler (pure ()) (ctrlCommand k) := by
  funext buffer count
  rw [procCtrlWrite, writeHandler, pure_bind]

/-- The indexes of `raw_data_buff` that a handler stores to: those `copy_from_user` fills,
and that of the NUL behind a complete copy. -/
def rawIndexes (buffer : Bytes) (count : Nat) : List Nat :=
  if count = 0 then []
  else if buffer.length < clampCount count then List.range (clampCount count)
  else List.range (clampCount count) ++ [clampCount count]

/-- The stores of a handler stay in `raw_data_buff`, and it gets to do what it does with a
text that ends there. -/
structure StaysInside (s : ProcState σ) (buffer : Bytes) (count : Nat) : Prop where
  indexes : ∀ index ∈ rawIndexes buffer count, index < bufferSize
  text : ∀ empty act : ProcM σ Unit, (∀ t, ∃ after, Returns empty t () after) →
    (∀ t : ProcState σ, Terminated t.globals.rawDataBuff.1 → ∃ after, Returns act t () after) →
    ∃ ret after, Returns (writeHandler empty act buffer count) s ret after

variable {s after : ProcState σ} {buffer : Bytes} {count : Nat}

theorem clampCount_le (count : Nat) : clampCount count ≤ bufferSize := by
  unfold clampCount
  split <;> omega

theorem copiedRaw_behind (raw : SizedBytes bufferSize) {cnt index : Nat}
    (within : cnt ≤ bufferSize) (behind : cnt ≤ index) :
    (copiedRaw raw buffer cnt).1[index]? = raw.1[index]? := by
  have filled : (buffer.take cnt ++ List.replicate (cnt - buffer.length) (0 : Byte)).length =
      cnt := by
    simp only [List.length_append, List.length_take, List.length_replicate]
    omega
  have whole : (buffer.take cnt ++ List.replicate (cnt - buffer.length) (0 : Byte)).take
      bufferSize = buffer.take cnt ++ List.replicate (cnt - buffer.length) 0 :=
    List.take_of_length_le (by omega)
  simp only [copiedRaw, SizedBytes.overwrite]
  rw [whole, List.getElem?_append_right (by omega), filled, List.getElem?_drop]
  congr 1
  omega

/-- Before it acts on the text a handler changes `raw_data_buff` at these indexes only. -/
theorem writeHandler_frame {ret : Int}
    (ran : Returns (writeHandler (pure ()) (pure ()) buffer count) s ret after) {index : Nat}
    (outside : index ∉ rawIndexes buffer count) :
    after.globals.rawDataBuff.1[index]? = s.globals.rawDataBuff.1[index]? := by
  unfold writeHandler at ran
  unfold rawIndexes at outside
  by_cases empty : count = 0
  · rw [if_pos empty, pure_bind, returns_pure_iff] at ran
    rw [ran.2]
  rw [if_neg empty] at ran outside
  have within := clampCount_le count
  rcases returns_receive_iff.mp ran with ⟨short, _, rfl⟩ | ⟨full, inside, _, acted⟩
  · rw [if_pos short, List.mem_range, Nat.not_lt] at outside
    exact copiedRaw_behind _ within outside
  · rw [if_neg (Nat.not_lt.mpr full), List.mem_append, List.mem_range, List.mem_singleton,
      not_or, Nat.not_lt] at outside
    obtain ⟨_, rfl⟩ := returns_pure_iff.mp acted
    have apart : clampCount count ≠ index := Ne.symm outside.2
    simp only [withRaw_rawDataBuff, receivedRaw, SizedBytes.setByte]
    rw [List.getElem?_set_ne apart]
    exact copiedRaw_behind _ within outside.1

theorem clampCount_of_lt (inside : count < bufferSize) : clampCount count = count :=
  if_neg (Nat.not_lt.mpr inside.le)

theorem clampCount_of_le (whole : bufferSize ≤ count) : clampCount count = bufferSize := by
  unfold clampCount
  split <;> omega

/-- A complete copy of the whole buffer is ended behind it. -/
theorem bufferSize_mem_rawIndexes (whole : bufferSize ≤ count)
    (complete : clampCount count ≤ buffer.length) : bufferSize ∈ rawIndexes buffer count := by
  have positive : count ≠ 0 := by
    rintro rfl
    exact absurd whole (by decide)
  rw [rawIndexes, if_neg positive, if_neg (Nat.not_lt.mpr complete), clampCount_of_le whole]
  exact List.mem_append_right _ (List.mem_singleton_self _)

theorem rawIndexes_lt (allowed : count < bufferSize ∨ buffer.length < clampCount count)
    {index : Nat} (stored : index ∈ rawIndexes buffer count) : index < bufferSize := by
  unfold rawIndexes at stored
  split at stored
  · exact absurd stored List.not_mem_nil
  split at stored
  · exact (List.mem_range.mp stored).trans_le (clampCount_le count)
  · next complete =>
      have inside := allowed.resolve_right complete
      rw [clampCount_of_lt inside, List.mem_append, List.mem_range, List.mem_singleton] at stored
      omega

/-- A handler that stores no NUL behind its buffer returns when what it does with a text
does. -/
theorem writeHandler_returns (allowed : count < bufferSize ∨ buffer.length < clampCount count)
    {empty act : ProcM σ Unit} (empties : ∀ t, ∃ after, Returns empty t () after)
    (acts : ∀ t : ProcState σ, Terminated t.globals.rawDataBuff.1 →
      ∃ after, Returns act t () after) :
    ∃ ret after, Returns (writeHandler empty act buffer count) s ret after := by
  unfold writeHandler
  by_cases zero : count = 0
  · rw [if_pos zero]
    obtain ⟨after, emptied⟩ := empties s
    exact ⟨0, after, emptied.bind (returns_pure_iff.mpr ⟨rfl, rfl⟩)⟩
  rw [if_neg zero]
  rcases allowed with inside | short
  · exact receive_total inside fun raw _ _ terminated _ => acts _ terminated
  · exact ⟨_, _, returns_receive_iff.mpr (.inl ⟨short, rfl, rfl⟩)⟩

/-- The handlers stay inside their buffer exactly on the writes that do not fill it, and on
those whose bytes cannot all be read: only a complete copy is ended with a NUL. -/
theorem write_stays_inside_iff (s : ProcState σ) (buffer : Bytes) (count : Nat) :
    procProtectWrite k buffer count = writeHandler destroyRoot (replaceRules k) buffer count ∧
      procCtrlWrite k buffer count = writeHandler (pure ()) (ctrlCommand k) buffer count ∧
      (StaysInside s buffer count ↔
        count < bufferSize ∨ buffer.length < clampCount count) := by
  refine ⟨by rw [procProtectWrite_eq], by rw [procCtrlWrite_eq], ?_, ?_⟩
  · intro staysInside
    by_contra neither
    rw [not_or, Nat.not_lt, Nat.not_lt] at neither
    have stored := bufferSize_mem_rawIndexes neither.1 neither.2
    exact absurd (staysInside.indexes _ stored) (Nat.lt_irrefl _)
  · intro allowed
    exact ⟨fun _ stored => rawIndexes_lt allowed stored,
      fun _ _ empties acts => writeHandler_returns allowed empties acts⟩

/-- A write of as many bytes as the buffer has stores its NUL behind the buffer. -/
theorem full_write_leaves_buffer :
    bufferSize ∈ rawIndexes (List.replicate bufferSize 97) bufferSize ∧
      ¬ StaysInside (⟨Globals.initial (SizedBytes.zeros _), ()⟩ : ProcState Unit)
        (List.replicate bufferSize 97) bufferSize := by
  have stored : bufferSize ∈ rawIndexes (List.replicate bufferSize 97) bufferSize :=
    bufferSize_mem_rawIndexes (Nat.le_refl _) (by
      rw [List.length_replicate]
      exact clampCount_le _)
  exact ⟨stored, fun staysInside => Nat.lt_irrefl _ (staysInside.indexes _ stored)⟩

end Buffer

section MissingType

variable {s : ProcState σ} {fault : Fault}

theorem protectTypeFromStr_eq_error {str : Option Bytes} :
    protectTypeFromStr str = .error fault ↔ str = none ∧ fault = .badPointer := by
  cases str <;> simp [protectTypeFromStr, eq_comm]

/-- A turn of the parser faults only where `protectTypeFromStr` is called on NULL. -/
theorem createListLine_faults {line : Bytes} {state : ListState} {before : σ}
    (faults : Faults (createListLine k line state) before fault) : fault = .badPointer := by
  unfold createListLine at faults
  rcases cut : strsep (some line) atSign with ⟨_ | path, pStr1⟩
  · simp [cut] at faults
  simp only [cut] at faults
  by_cases empty : path = []
  · simp [empty] at faults
  rw [if_neg empty] at faults
  rcases faults_bind_iff.mp faults with opening | ⟨fs, middle, _, faulted⟩
  · simp [filpOpen, faults_bind_iff] at opening
  cases fs with
  | none => simp at faulted
  | some file =>
      rcases faults_bind_iff.mp faulted with missing | ⟨type, _, _, closing⟩
      · exact (protectTypeFromStr_eq_error.mp (faults_lift_iff.mp missing)).2
      · simp [filpClose] at closing

theorem createLines_faults {lines : List Bytes} {state : ListState} {before : σ}
    (faults : Faults (createLines k lines state) before fault) : fault = .badPointer := by
  induction lines generalizing state before with
  | nil => simp [createLines] at faults
  | cons line rest ih =>
      rcases faults_bind_iff.mp faults with turned | ⟨⟨next, pStr1⟩, middle, _, rests⟩
      · exact createListLine_faults turned
      · cases pStr1 with
        | none => simp at rests
        | some str => exact ih (by simpa using rests)

/-- The loop reaches a line whose type is missing exactly when its lines do not parse. -/
theorem createListLoop_badPointer_iff {text : Bytes} {state : ListState} {before : σ} :
    Faults (createListLoop k (some text) state) before .badPointer ↔
      ¬ k.ParsesIn (textLines text) before := by
  have settles := createListLoop_settles (k := k) text state before
  constructor
  · intro faults parses
    obtain ⟨_, _, ran⟩ := settles.returns parses
    exact faults.not_returns _ _ ran
  · intro stuck
    obtain ⟨fault, faults⟩ := exists_faults fun _ _ ran => stuck (settles.returned ran).1
    have lines : Faults (createLines k (textLines text) state) before fault := by
      rw [← createListLoop_lines, faults_map_iff]
      exact faults
    exact createLines_faults lines ▸ faults

theorem createList_badPointer_iff {top : List FileNode} {rdt : Bytes} {size : Nat} {before : σ} :
    Faults (createList k top rdt size) before .badPointer ↔
      (Terminated rdt ∧ (cstr rdt).length < k.vmallocRoom size) ∧
        ¬ k.ParsesIn (textLines (cstr rdt)) before := by
  unfold createList
  split
  · next fits => simp [createListLoop_badPointer_iff, fits]
  · next unfit => simp [unfit]

theorem replaceRules_badPointer_iff :
    Faults (replaceRules k) s .badPointer ↔
      Faults (createList k [] s.globals.rawDataBuff.1 sizeofPointer) s.outside .badPointer := by
  have destroyed : Returns destroyRoot s () (s.withRules []) := returns_destroyRoot_iff.mpr rfl
  have got : Returns (get : ProcM σ (ProcState σ)) (s.withRules []) (s.withRules [])
      (s.withRules []) := returns_get_iff.mpr ⟨rfl, rfl⟩
  rw [replaceRules, faults_bind_of_returns destroyed, faults_bind_of_returns got, createRoot,
    bind_assoc, faults_bind_of_returns got]
  simp only [faults_bind_iff, faults_lift_iff, faults_set_iff, faults_pure_iff, and_false,
    exists_false, or_false]
  rfl

/-- What a handler faults on: a NUL behind its buffer, or what it does with the text. -/
theorem faults_receive_iff {buffer : Bytes} {cnt : Nat} {act : ProcM σ Unit} :
    Faults (receive buffer cnt act) s fault ↔
      cnt ≤ buffer.length ∧ (bufferSize ≤ cnt ∧ fault = .overrun ∨ ∃ inside : cnt < bufferSize,
        Faults act (s.withRaw (receivedRaw s.globals.rawDataBuff buffer ⟨cnt, inside⟩)) fault) := by
  have copied : Returns (copyToRaw buffer cnt) s (cnt - buffer.length)
      (s.withRaw (copiedRaw s.globals.rawDataBuff buffer cnt)) := by
    simp [copyToRaw, ProcState.withRaw, copiedRaw]
  rw [receive, faults_bind_of_returns copied]
  by_cases short : buffer.length < cnt
  · simp [Nat.sub_ne_zero_of_lt short, Nat.not_le.mpr short]
  have left : cnt - buffer.length = 0 := by omega
  rw [if_neg (by simp [left])]
  by_cases inside : cnt < bufferSize
  · have ended : Returns (terminateRaw cnt)
        (s.withRaw (copiedRaw s.globals.rawDataBuff buffer cnt)) ()
        (s.withRaw (receivedRaw s.globals.rawDataBuff buffer ⟨cnt, inside⟩)) := by
      simp [terminateRaw, inside, receivedRaw, ProcState.withRaw]
    rw [faults_bind_of_returns ended]
    simp [Nat.not_lt.mp short, inside, Nat.not_le.mpr inside]
  · simp [terminateRaw, inside, Nat.not_lt.mp short, Nat.not_lt.mp inside, faults_bind_iff]

/-- A protect write below the buffer size comes to a line whose type is missing. -/
theorem procProtectWrite_badPointer_iff (s : ProcState σ) (buffer : Bytes) {count : Nat}
    (inside : count < bufferSize) :
    Faults (procProtectWrite k buffer count) s .badPointer ↔
      count ≠ 0 ∧ ∃ text, written buffer count = some text ∧
        text.length < k.vmallocRoom sizeofPointer ∧
        ¬ k.ParsesIn (textLines text) s.outside := by
  have unclamped := clampCount_of_lt inside
  rw [procProtectWrite]
  by_cases empty : count = 0
  · simp [empty, destroyRoot]
  rw [if_neg empty, unclamped, faults_receive_iff]
  by_cases full : count ≤ buffer.length
  · obtain ⟨terminated, content⟩ :=
      receivedRaw_text s.globals.rawDataBuff ⟨count, inside⟩ full
    simp [full, inside, Nat.not_le.mpr inside, replaceRules_badPointer_iff,
      createList_badPointer_iff, terminated, content, written, empty, ProcState.withRaw]
  · simp [full, written]

/-- A protect write below the buffer size calls `protectTypeFromStr` on strings only exactly
when no line the parser looks at opens without a type, if it comes to the parse. -/
theorem protect_write_types_iff (s : ProcState σ) (buffer : Bytes) {count : Nat}
    (inside : count < bufferSize) :
    ¬ Faults (procProtectWrite k buffer count) s .badPointer ↔
      ∀ text, count ≠ 0 → written buffer count = some text →
        text.length < k.vmallocRoom sizeofPointer → k.ParsesIn (textLines text) s.outside := by
  rw [procProtectWrite_badPointer_iff s buffer inside]
  constructor
  · intro never text nonempty delivered room
    by_contra stuck
    exact never ⟨nonempty, text, delivered, room, stuck⟩
  · rintro parses ⟨nonempty, text, delivered, room, stuck⟩
    exact stuck (parses text nonempty delivered room)

/-- One line with a type, and the empty one behind it. -/
theorem protect_write_types_oneFile :
    ¬ Faults (procProtectWrite (Kernel.quiet oneFile) (lit "/f@r\n") 5)
      ⟨Globals.initial (SizedBytes.zeros _), ()⟩ .badPointer := by
  refine (protect_write_types_iff _ _ (by decide)).mpr fun text _ delivered _ => ?_
  have arrives : written (lit "/f@r\n") 5 = some (lit "/f@r\n") := by decide
  have lines : textLines (lit "/f@r\n") = [lit "/f@r", []] := by decide
  cases arrives.symm.trans delivered
  rw [lines, ((Kernel.quiet_pathView oneFile).lines _ _).1]
  decide

/-- The name of a file that exists, on a line of its own, is one write too many. -/
theorem bare_line_faults :
    Faults (procProtectWrite (Kernel.quiet oneFile) (lit "/f\n") 3)
      ⟨Globals.initial (SizedBytes.zeros _), ()⟩ .badPointer := by
  have arrives : written (lit "/f\n") 3 = some (lit "/f\n") := by decide
  have lines : textLines (lit "/f\n") = [lit "/f", []] := by decide
  refine (procProtectWrite_badPointer_iff _ _ (by decide)).mpr
    ⟨by decide, _, arrives, by decide, ?_⟩
  rw [lines, ((Kernel.quiet_pathView oneFile).lines _ _).1]
  decide

end MissingType

/-- The paths of the lines that are looked at and open, in order. -/
def Kernel.openedIn (k : Kernel σ) : List Bytes → σ → List Bytes
  | [], _ => []
  | line :: rest, state =>
      if atSign ∈ line then
        ((pathOpens (k.opensIn state) (RuleLine.ofLine line).path).map fun _ =>
          (RuleLine.ofLine line).path).toList ++ k.openedIn rest (k.afterLine line state)
      else []

/-- The node holds the path as a string that ends in its field, and the lookups and messages
read that string. -/
structure FileNode.Stores (k : Kernel σ) (path : Bytes) (node : FileNode) : Prop where
  ended : Terminated node.filePath.1
  string : cstr node.filePath.1 = path
  read : k.pathOf node = path

/-- A list is another one with a node behind it for each path of some lines that opens, and
each of these nodes holds its path. -/
def StoresOpened (k : Kernel σ) (lines : List Bytes) (before : σ) (top list : List FileNode) :
    Prop :=
  ∃ nodes, list = top ++ nodes ∧ List.Forall₂ (FileNode.Stores k) (k.openedIn lines before) nodes

section Paths

variable {path : Bytes}

/-- `strncpy` leaves a complete string of a path that does not fill the field. -/
theorem stores_make_iff (clean : (0 : Byte) ∉ path) (inode : InodeAddr) (type : ProtectType) :
    (FileNode.make path inode type).Stores k path ↔ path.length < filepathSize := by
  constructor
  · intro stores
    by_contra long
    have filled : strncpy filepathSize path = path.take filepathSize := by
      rw [strncpy, Nat.sub_eq_zero_of_le (Nat.not_lt.mp long), List.replicate_zero,
        List.append_nil]
    have ended : (0 : Byte) ∈ strncpy filepathSize path := stores.ended
    rw [filled] at ended
    exact clean (List.mem_of_mem_take ended)
  · intro short
    exact ⟨strncpy_terminated short, cstr_strncpy clean short.le, pathOf_make clean short _ _⟩

theorem parsedIn_filePath (lines : List Bytes) (before : σ) :
    (k.parsedIn lines before).map FileNode.filePath =
      (k.openedIn lines before).map pathField := by
  induction lines generalizing before with
  | nil => rfl
  | cons line rest ih =>
      by_cases typed : atSign ∈ line
      · rw [Kernel.parsedIn, Kernel.openedIn, if_pos typed, if_pos typed, List.map_append,
          List.map_append, ih, RuleLine.install]
        cases pathOpens (k.opensIn before) (RuleLine.ofLine line).path <;> rfl
      · rw [Kernel.parsedIn, Kernel.openedIn, if_neg typed, if_neg typed]
        rfl

theorem parsedIn_stores_iff {lines : List Bytes} (clean : ∀ line ∈ lines, (0 : Byte) ∉ line)
    (before : σ) :
    List.Forall₂ (FileNode.Stores k) (k.openedIn lines before) (k.parsedIn lines before) ↔
      ∀ path ∈ k.openedIn lines before, path.length < filepathSize := by
  induction lines generalizing before with
  | nil => simp [Kernel.openedIn, Kernel.parsedIn]
  | cons line rest ih =>
      have rests := ih (fun other member => clean other (List.mem_cons_of_mem _ member))
        (k.afterLine line before)
      by_cases typed : atSign ∈ line
      · have pathClean : (0 : Byte) ∉ (RuleLine.ofLine line).path := fun member =>
          clean line List.mem_cons_self ((List.takeWhile_prefix _).subset member)
        rw [Kernel.parsedIn, Kernel.openedIn, if_pos typed, if_pos typed, RuleLine.install]
        cases opened : pathOpens (k.opensIn before) (RuleLine.ofLine line).path with
        | none => simpa using rests
        | some inode =>
            simp only [Option.map_some, Option.toList_some, List.singleton_append,
              List.forall₂_cons, List.forall_mem_cons, rests, stores_make_iff pathClean]
      · rw [Kernel.parsedIn, Kernel.openedIn, if_neg typed, if_neg typed]
        simp

theorem parsesIn_of_typed {lines : List Bytes} (typed : ∀ line ∈ lines, atSign ∈ line)
    (before : σ) : k.ParsesIn lines before := by
  induction lines generalizing before with
  | nil => trivial
  | cons line rest ih =>
      obtain ⟨here, later⟩ := List.forall_mem_cons.mp typed
      rw [Kernel.ParsesIn, if_pos here]
      exact ih later _

theorem mem_textLines_clean {text line : Bytes} (isLine : line ∈ textLines (cstr text)) :
    (0 : Byte) ∉ line := fun inLine =>
  zero_notMem_cstr ((splitOn_piece isLine).1.subset inLine)

theorem storesOpened_iff {lines : List Bytes} (clean : ∀ line ∈ lines, (0 : Byte) ∉ line)
    (top : List FileNode) (before : σ) :
    StoresOpened k lines before top (top ++ k.parsedIn lines before) ↔
      ∀ path ∈ k.openedIn lines before, path.length < filepathSize := by
  rw [← parsedIn_stores_iff clean]
  constructor
  · rintro ⟨nodes, same, stored⟩
    rwa [List.append_cancel_left same]
  · exact fun stored => ⟨_, rfl, stored⟩

/-- At every point of the parse of a text, and at its end if `create_list` returns, the new
nodes are one for each path that opened and hold these paths exactly when none of them fills
the field. -/
theorem stored_paths_whole_iff (top : List FileNode) (rdt : Bytes) (size : Nat) (before : σ) :
    (∀ looked, looked <+: (textLines (cstr rdt)).takeWhile (atSign ∈ ·) →
      ∃ state middle, Returns (createLines k looked ⟨top, 0⟩) before state middle ∧
        (StoresOpened k looked before top state.top ↔
          ∀ path ∈ k.openedIn looked before, path.length < filepathSize)) ∧
    Settles (createList k top rdt size) before
      ((Terminated rdt ∧ (cstr rdt).length < k.vmallocRoom size) ∧
        k.ParsesIn (textLines (cstr rdt)) before)
      fun result _ => result.1 = (k.openedIn (textLines (cstr rdt)) before).length ∧
        (StoresOpened k (textLines (cstr rdt)) before top result.2 ↔
          ∀ path ∈ k.openedIn (textLines (cstr rdt)) before, path.length < filepathSize) := by
  constructor
  · intro looked first
    have typed : ∀ line ∈ looked, atSign ∈ line := fun line member => by
      simpa using List.mem_takeWhile_imp (first.subset member)
    have clean : ∀ line ∈ looked, (0 : Byte) ∉ line := fun line member =>
      mem_textLines_clean ((List.takeWhile_prefix _).subset (first.subset member))
    obtain ⟨state, middle, ran, rfl, _⟩ :=
      (createLines_settles looked ⟨top, 0⟩ before).outcome (parsesIn_of_typed typed before)
    exact ⟨_, middle, ran, storesOpened_iff clean top before⟩
  · refine (createList_settles top rdt size before).imp Iff.rfl ?_
    rintro _ ⟨cnt, list⟩ after ⟨made, _⟩
    obtain ⟨rfl, rfl⟩ := Prod.mk.inj made
    refine ⟨?_, storesOpened_iff (fun _ => mem_textLines_clean) top before⟩
    have lengths := congrArg List.length (parsedIn_filePath (k := k) (textLines (cstr rdt)) before)
    simpa using lengths

/-- A text of one rule whose path opens makes its node. -/
theorem createList_one {opens : Bytes → Option InodeAddr} {type : Bytes} {inode : InodeAddr}
    (named : path ≠ []) (noMark : atSign ∉ path) (clean : (0 : Byte) ∉ path ++ type)
    (oneLine : newline ∉ path ++ type) (opened : opens path = some inode)
    (room : path.length + type.length + 2 < pageSize) :
    ∃ after, Returns (createList (Kernel.quiet opens) []
      ([path ++ atSign :: type].flatMap (· ++ [newline]) ++ [0]) sizeofPointer) ()
      (1, [.make path inode (protectTypeOfString type)]) after := by
  simp only [List.mem_append, not_or] at clean oneLine
  have content : cstr ([path ++ atSign :: type].flatMap (· ++ [newline]) ++ [0]) =
      [path ++ atSign :: type].flatMap (· ++ [newline]) := by
    refine cstr_append_zero ?_ []
    simp [clean, show (0 : Byte) ≠ atSign by decide, show (0 : Byte) ≠ newline by decide]
  have lines : textLines ([path ++ atSign :: type].flatMap (· ++ [newline])) =
      [path ++ atSign :: type, []] :=
    textLines_ended (by simp [oneLine, show newline ≠ atSign by decide])
  have typed : atSign ∈ path ++ atSign :: type := by simp
  have made : parseLines opens [path ++ atSign :: type, []] =
      [.make path inode (protectTypeOfString type)] := by
    rw [parseLines_typed typed, ofLine_append noMark, RuleLine.install, pathOpens,
      if_neg named, opened]
    rfl
  obtain ⟨after, ran, _⟩ := @createList_returns _ _ _ (Kernel.quiet_pathView opens) []
    sizeofPointer ([path ++ atSign :: type].flatMap (· ++ [newline]) ++ [0]) ()
    (by simp [Terminated]) (by
      have pages := (Kernel.quiet opens).vmallocPages sizeofPointer (by decide)
      rw [content]
      simp only [List.flatMap_singleton, List.length_append, List.length_cons, List.length_nil]
      omega) (by
      rw [content, lines, Parses, if_pos typed, Parses, if_neg (by simp)]
      rfl)
  rw [content, lines, made] at ran
  exact ⟨after, ran⟩

/-- A rule for a file that opens is stored whole. -/
theorem stored_paths_whole_oneFile :
    ∃ result after, Returns (createList (Kernel.quiet oneFile) [] (lit "/f@r\n" ++ [0])
        sizeofPointer) () result after ∧
      StoresOpened (Kernel.quiet oneFile) (textLines (cstr (lit "/f@r\n" ++ [0]))) () []
        result.2 := by
  obtain ⟨_, settles⟩ := stored_paths_whole_iff (k := Kernel.quiet oneFile) []
    (lit "/f@r\n" ++ [0]) sizeofPointer ()
  have parses : (Kernel.quiet oneFile).ParsesIn (textLines (cstr (lit "/f@r\n" ++ [0]))) () := by
    rw [((Kernel.quiet_pathView oneFile).lines _ _).1]
    decide
  have opened : (Kernel.quiet oneFile).openedIn (textLines (cstr (lit "/f@r\n" ++ [0]))) () =
      [lit "/f"] := by decide
  obtain ⟨result, after, ran, _, stored⟩ := settles.outcome ⟨⟨by decide, by decide⟩, parses⟩
  refine ⟨result, after, ran, stored.mpr ?_⟩
  rw [opened]
  decide

/-- A name of 255 bytes in the root directory. -/
def longPath : Bytes := 47 :: List.replicate 255 97

theorem mem_longPath {byte : Byte} (member : byte ∈ longPath) : byte = 47 ∨ byte = 97 := by
  rw [longPath, List.mem_cons, List.mem_replicate] at member
  exact member.imp id And.right

theorem longPath_length : longPath.length = filepathSize := by
  rw [longPath, List.length_cons, List.length_replicate]
  rfl

/-- One file that opens, under that name. -/
def longFile (path : Bytes) : Option InodeAddr :=
  if path = longPath then some 7 else none

/-- The path of a rule for it fills the field, and no NUL is left. -/
theorem long_path_unended :
    ∃ after, Returns (createList (Kernel.quiet longFile) []
        ([longPath ++ atSign :: lit "r"].flatMap (· ++ [newline]) ++ [0]) sizeofPointer) ()
        (1, [.make longPath 7 .read]) after ∧
      ¬ Terminated (FileNode.make longPath 7 .read).filePath.1 ∧
      ¬ (FileNode.make longPath 7 .read).Stores (Kernel.quiet longFile) longPath := by
  have clean : (0 : Byte) ∉ longPath := fun member => absurd (mem_longPath member) (by decide)
  have noMark : atSign ∉ longPath := fun member => absurd (mem_longPath member) (by decide)
  have oneLine : newline ∉ longPath := fun member => absurd (mem_longPath member) (by decide)
  have full := longPath_length
  obtain ⟨after, ran⟩ := @createList_one longPath longFile (lit "r") 7 (List.cons_ne_nil _ _)
    noMark (by simp [clean, show (0 : Byte) ∉ lit "r" by decide])
    (by simp [oneLine, show newline ∉ lit "r" by decide]) (if_pos rfl) (by rw [full]; decide)
  have unended : ¬ Terminated (FileNode.make longPath 7 .read).filePath.1 := by
    have filled : strncpy filepathSize longPath = longPath := by
      rw [strncpy, full, Nat.sub_self, List.take_of_length_le full.le, List.replicate_zero,
        List.append_nil]
    rw [FileNode.make, pathField]
    simp only [filled]
    exact clean
  exact ⟨after, ran, unended, fun stores => unended stores.ended⟩

end Paths

end FsProtection
