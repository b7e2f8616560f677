import FsProtection.Base.NodeList
import FsProtection.Base.Pathname
import FsProtection.Client.Encode

/-!
# The client's list

`addFile`, `removeFile` and `printFileList` of `complexuser.c` over the nodes that
`fileList_root` and `tail` lead to. `malloc` gives a free block, at any address.
-/

namespace FsProtection

open Base

/-- The globals of the client, and its nodes. `sent` records what each `refreshFileList`
handed to `write`, or how it faulted: its buffer is no node. -/
structure ClientList where
  heap : Heap ClientEntry
  root : Pointer
  tail : Pointer
  sent : List (Except Fault (Bytes × Nat))

abbrev ClientM := Program ClientList Fault

def space : Byte := 32

/-- `filePath[len - 1]` is cleared and left out when it is the byte. -/
def stripLast (byte : Byte) (filePath : SizedBytes filepathSize) (len : Nat) :
    Except Fault (SizedBytes filepathSize × Nat) :=
  if inside : 0 < len ∧ len - 1 < filepathSize then
    if filePath.1[len - 1]? = some byte then
      .ok (filePath.setByte ⟨len - 1, inside.2⟩ 0, len - 1)
    else .ok (filePath, len)
  else .error .overrun

/-- The `filePath` that `addFile` makes of the line that `readline` returns. -/
def inputPath : Option Bytes → Except Fault (SizedBytes filepathSize)
  | none => .error .badPointer
  | some line =>
      let len := (cstr line).length
      if len ≤ filepathSize then do
        let filePath := (SizedBytes.zeros filepathSize).overwrite (cstr line)
        let stripped ← stripLast space filePath len
        let stripped ← stripLast slash stripped.1 stripped.2
        return stripped.1
      else .error .overrun

/-- A node as `memset` leaves it. -/
def blankEntry : ClientEntry := ⟨SizedBytes.zeros _, 0⟩

/-- A text without its last byte, if that is the given one. -/
def withoutLast (byte : Byte) (text : Bytes) : Bytes :=
  if text.getLast? = some byte then text.dropLast else text

/-- The path `addFile` takes from a text: without a last space, and then without a last
slash. -/
def takenPath (text : Bytes) : Bytes := withoutLast slash (withoutLast space text)

/-- A line on which the indexing of `addFile` stays in `filePath`. -/
def InRange : Option Bytes → Prop
  | none => False
  | some region =>
      (cstr region).length ≤ filepathSize ∧ cstr region ≠ [] ∧ cstr region ≠ [space]

instance : DecidablePred InRange
  | none => .isFalse id
  | some region => inferInstanceAs (Decidable
      ((cstr region).length ≤ filepathSize ∧ cstr region ≠ [] ∧ cstr region ≠ [space]))

section Input

variable {text : Bytes}

theorem zeros_overwrite (text : Bytes) :
    (SizedBytes.zeros filepathSize).overwrite text = pathField text := by
  ext1
  simp [SizedBytes.overwrite, SizedBytes.zeros, pathField, strncpy]

/-- Clearing the last byte of a text that fits shortens it. -/
theorem pathField_clearLast {init : Bytes} {last : Byte} (inside : init.length < filepathSize) :
    (pathField (init ++ [last])).setByte ⟨init.length, inside⟩ 0 = pathField init := by
  ext1
  have fits : (init ++ [last]).take filepathSize = init ++ [last] :=
    List.take_of_length_le (by simpa using Nat.succ_le_of_lt inside)
  have shorter : init.take filepathSize = init := List.take_of_length_le inside.le
  have more : filepathSize - init.length = filepathSize - (init.length + 1) + 1 := by omega
  simp [SizedBytes.setByte, pathField, strncpy, fits, shorter, more, List.replicate_succ]

theorem stripLast_eq (byte : Byte) (fits : text.length ≤ filepathSize) :
    stripLast byte (pathField text) text.length =
      if text = [] then .error .overrun
      else .ok (pathField (withoutLast byte text), (withoutLast byte text).length) := by
  rcases List.eq_nil_or_concat' text with rfl | ⟨init, last, rfl⟩
  · rfl
  · have inside : init.length < filepathSize := by simpa [Nat.succ_le_iff] using fits
    have whole : (init ++ [last]).take filepathSize = init ++ [last] := List.take_of_length_le fits
    have bound : init.length < (pathField (init ++ [last])).1.length := by simpa using inside
    have read : (pathField (init ++ [last])).1[init.length] = last := by
      simp [pathField, strncpy, whole]
    by_cases same : last = byte
    · subst same
      simp [stripLast, withoutLast, inside, read, pathField_clearLast]
    · simp [stripLast, withoutLast, inside, read, same]

theorem withoutLast_length (byte : Byte) (text : Bytes) :
    (withoutLast byte text).length ≤ text.length := by
  unfold withoutLast
  split <;> simp

theorem withoutLast_eq_iff {byte : Byte} {piece : Bytes} :
    withoutLast byte text = piece ↔
      text = piece ++ [byte] ∨ text = piece ∧ piece.getLast? ≠ some byte := by
  rcases List.eq_nil_or_concat' text with rfl | ⟨init, last, rfl⟩
  · rw [withoutLast, if_neg (by simp)]
    constructor
    · rintro rfl
      exact .inr ⟨rfl, by simp⟩
    · rintro (impossible | ⟨rfl, _⟩)
      · simp at impossible
      · rfl
  · by_cases same : last = byte
    · subst same
      rw [withoutLast, if_pos List.getLast?_concat, List.dropLast_concat]
      constructor
      · rintro rfl
        exact .inl rfl
      · rintro (equal | ⟨rfl, apart⟩)
        · exact List.append_cancel_right equal
        · exact absurd List.getLast?_concat apart
    · have apart : (init ++ [last]).getLast? ≠ some byte := by simpa using same
      rw [withoutLast, if_neg apart]
      constructor
      · rintro rfl
        exact .inr ⟨rfl, apart⟩
      · rintro (equal | ⟨equal, _⟩)
        · rw [equal, List.getLast?_concat] at apart
          exact absurd rfl apart
        · exact equal

theorem withoutLast_eq_nil_iff {byte : Byte} :
    withoutLast byte text = [] ↔ text = [] ∨ text = [byte] := by
  rw [withoutLast_eq_iff, or_comm]
  simp

/-- A line in range is taken as its path, and other lines overrun `filePath`. -/
theorem inputPath_some (region : Bytes) :
    inputPath (some region) =
      if InRange (some region) then .ok (pathField (takenPath (cstr region)))
      else .error .overrun := by
  by_cases fits : (cstr region).length ≤ filepathSize
  · simp only [inputPath, if_pos fits, zeros_overwrite, stripLast_eq _ fits]
    by_cases nonempty : cstr region = []
    · rw [if_pos nonempty, if_neg (by simp [InRange, nonempty])]
      rfl
    rw [if_neg nonempty]
    simp only [bind, Except.bind]
    rw [stripLast_eq _ ((withoutLast_length _ _).trans fits)]
    by_cases notSpace : cstr region = [space]
    · rw [if_pos (withoutLast_eq_nil_iff.mpr (.inr notSpace)), if_neg (by simp [InRange, notSpace])]
    · have remains : withoutLast space (cstr region) ≠ [] := by
        rw [Ne, withoutLast_eq_nil_iff]
        exact fun either => either.elim nonempty notSpace
      rw [if_neg remains, if_pos ⟨fits, nonempty, notSpace⟩]
      rfl
  · rw [if_neg fun inside => fits inside.1]
    simp [inputPath, fits]

end Input

namespace ClientList

/-- The client before its first command. -/
def initial (place : Nat → Nat) : ClientList := ⟨Heap.empty place, none, none, []⟩

def onHeap {Value : Type} (program : Program (Heap ClientEntry) Fault Value) : ClientM Value :=
  onPart heap (fun heap s => { s with heap := heap }) program

/-- A turn of the loop of `printFileList`: the lines so far, and `number`. -/
def printEntry (printed : List (ClientEntry × Nat) × Nat) (next : ClientEntry) :
    List (ClientEntry × Nat) × Nat :=
  (printed.1 ++ [(next, printed.2)], printed.2 + 1)

/-- The lines `printFileList` prints: each entry with its number. -/
def printFileList : ClientM (List (ClientEntry × Nat)) := do
  let s ← get
  let printed ← onHeap (Heap.forNodes .badPointer printEntry ([], 0) s.root)
  return printed.1

/-- `refreshFileList` on the entries its loop meets. -/
def refresh : ClientM Unit := do
  let s ← get
  let entries ← onHeap (Heap.forNodes .badPointer (fun entries next => entries ++ [next]) [] s.root)
  modify fun s => { s with sent := s.sent ++ [refreshFileList entries] }

/-- A node that is allocated and filled in, where `path` is what its `filePath` becomes. -/
def fillFile (path : Except Fault (SizedBytes filepathSize)) (type : Byte) : ClientM Nat := do
  let pfile ← onHeap (Heap.malloc ⟨blankEntry, none⟩)
  let filePath ← path
  onHeap (Heap.store .badPointer (some pfile) ⟨⟨filePath, type⟩, none⟩)
  return pfile

/-- The node `addFile` allocates and fills in. -/
def newFile (line : Option Bytes) (type : Byte) : ClientM Nat := fillFile (inputPath line) type

/-- How `addFile` links its node in. -/
def appendFile (pfile : Nat) : ClientM Unit := do
  let s ← get
  match s.tail with
  | none => modify fun s => { s with root := some pfile, tail := some pfile }
  | some _ => do
      let last ← onHeap (Heap.load .badPointer s.tail)
      onHeap (Heap.store .badPointer s.tail { last with next := some pfile })
      let last ← onHeap (Heap.load .badPointer s.tail)
      modify fun s => { s with tail := last.next }

/-- `addFile` once the line and the type are read. -/
def addPath (path : Except Fault (SizedBytes filepathSize)) (type : Byte) : ClientM Unit := do
  let pfile ← fillFile path type
  appendFile pfile
  refresh

/-- `addFile` on a line, stopped where its indexing leaves `filePath`. -/
def addFile (line : Option Bytes) (type : Byte) : ClientM Unit :=
  addPath (inputPath line) type

/-- `tail` when the node it may point to is taken out. -/
def repairTail (pfile : Nat) (previous : Pointer) : ClientM Unit :=
  modify fun s => if some pfile = s.tail then { s with tail := previous } else s

/-- What `removeFile` does with the first node. -/
def removeHead (pfile : Nat) : ClientM Unit := do
  let node ← onHeap (Heap.load .badPointer (some pfile))
  modify fun s => { s with root := node.next }
  repairTail pfile none
  onHeap (Heap.free .badPointer pfile)

/-- What `removeFile` does with a node behind another. -/
def removeBehind (pprevous : Pointer) (pfile : Nat) : ClientM Unit := do
  let node ← onHeap (Heap.load .badPointer (some pfile))
  let previous ← onHeap (Heap.load .badPointer pprevous)
  onHeap (Heap.store .badPointer pprevous { previous with next := node.next })
  repairTail pfile pprevous
  onHeap (Heap.free .badPointer pfile)

/-- The loop of `removeFile`, which faults as `Heap.forEach` does when it would not end. -/
def removeLoop (number : Int) : Nat → Int → Pointer → Pointer → ClientM Unit
  | _, _, _, none => return
  | 0, _, _, some _ => throw .badPointer
  | turns + 1, currentNum, pprevous, some pfile => do
      if currentNum = number then
        removeBehind pprevous pfile
      else
        let node ← onHeap (Heap.load .badPointer (some pfile))
        removeLoop number turns (currentNum + 1) (some pfile) node.next

/-- The removal in `removeFile`, for a list that begins with a node. -/
def removeNumber (number : Int) (turns pfile : Nat) : ClientM Unit :=
  if number = 0 then removeHead pfile
  else if 0 ≤ number then removeLoop number turns 0 none (some pfile)
  else return

/-- `removeFile` when `scanf` leaves a number. -/
def removeFile (number : Int) : ClientM Unit := do
  let s ← get
  match s.root with
  | none => return
  | some pfile => do
      let _ ← printFileList
      removeNumber number s.heap.bound pfile
      refresh

/-- A list without the place a number counts to from zero, if it has that place. -/
def removeAt {Entry : Type} (number : Int) (entries : List Entry) : List Entry :=
  if 0 ≤ number then entries.eraseIdx number.toNat else entries

theorem map_removeAt {Entry Other : Type} (change : Entry → Other) (number : Int)
    (entries : List Entry) :
    (removeAt number entries).map change = removeAt number (entries.map change) := by
  unfold removeAt
  split
  · rw [List.eraseIdx_map]
  · rfl

/-- Taking out the entry printed with a number is taking out the place it counts to. -/
theorem unprinted_eq_removeAt {Entry : Type} (number : Int) (entries : List Entry) (first : Nat) :
    ((entries.zipIdx first).filter fun printed => (printed.2 : Int) ≠ number).map Prod.fst =
      removeAt (number - first) entries := by
  induction entries generalizing first with
  | nil => simp [removeAt]
  | cons entry rest ih =>
      rw [List.zipIdx_cons]
      rcases lt_trichotomy (first : Int) number with before | here | behind
      · have index : (number - first).toNat = (number - (first + 1 : Nat)).toNat + 1 := by omega
        rw [List.filter_cons_of_pos (by simpa using before.ne), List.map_cons, ih, removeAt,
          removeAt, if_pos (by omega), if_pos (by omega), index, List.eraseIdx_cons_succ]
      · rw [List.filter_cons_of_neg (by simpa using here), ih, removeAt, removeAt,
          if_neg (by omega), if_pos (by omega), here]
        simp
      · rw [List.filter_cons_of_pos (by simpa using behind.ne'), List.map_cons, ih, removeAt,
          removeAt, if_neg (by omega), if_neg (by omega)]

/-- The nodes are the client's list, and `tail` is the last of them. -/
structure Represents (s : ClientList) (nodes : List (Nat × ClientEntry)) : Prop where
  list : IsList s.heap s.root nodes
  tail : s.tail = nodes.getLast?.map Prod.fst

section Spec

variable {s : ClientList} {nodes front rest : List (Nat × ClientEntry)}

@[simp] theorem returns_onHeap_iff {Value : Type} {program : Program (Heap ClientEntry) Fault Value}
    {value : Value} {after : ClientList} :
    Returns (onHeap program) s value after ↔
      ∃ heap, Returns program s.heap value heap ∧ after = { s with heap := heap } :=
  returns_onPart_iff

theorem returns_onHeap {Value : Type} {program : Program (Heap ClientEntry) Fault Value}
    {value : Value} {heap : Heap ClientEntry} (ran : Returns program s.heap value heap) :
    Returns (onHeap program) s value { s with heap := heap } :=
  returns_onHeap_iff.mpr ⟨heap, ran, rfl⟩

theorem foldl_printEntry (entries : List ClientEntry) (printed : List (ClientEntry × Nat))
    (number : Nat) :
    (entries.foldl printEntry (printed, number)).1 = printed ++ entries.zipIdx number := by
  induction entries generalizing printed number with
  | nil => simp
  | cons entry rest ih => simp [printEntry, ih, List.zipIdx_cons]

theorem returns_printFileList (list : IsList s.heap s.root nodes) :
    Returns printFileList s (nodes.map Prod.snd).zipIdx s := by
  have looped : Returns (Heap.forNodes Fault.badPointer printEntry ([], 0) s.root) s.heap _ _ :=
    list.returns_forNodes printEntry ([], 0)
  refine (returns_get_iff.mpr ⟨rfl, rfl⟩).bind ((returns_onHeap looped).bind ?_)
  exact returns_pure_iff.mpr ⟨by rw [foldl_printEntry, List.nil_append], rfl⟩

theorem returns_refresh (list : IsList s.heap s.root nodes) :
    Returns refresh s ()
      { s with sent := s.sent ++ [refreshFileList (nodes.map Prod.snd)] } := by
  have looped : Returns (Heap.forNodes Fault.badPointer _ _ s.root) s.heap _ _ :=
    list.returns_forNodes (fun (entries : List ClientEntry) next => entries ++ [next]) []
  have collected : (nodes.map Prod.snd).foldl (fun entries next => entries ++ [next]) [] =
      nodes.map Prod.snd := by
    rw [List.foldl_append_eq_append]
    exact List.flatMap_singleton' _
  rw [collected] at looped
  exact (returns_get_iff.mpr ⟨rfl, rfl⟩).bind ((returns_onHeap looped).bind returns_modify)

/-- The client with a new node that nothing leads to yet. -/
def withNode (s : ClientList) (entry : ClientEntry) : ClientList :=
  { s with heap := (s.heap.grow ⟨blankEntry, none⟩).put s.heap.fresh ⟨entry, none⟩ }

theorem fillFile_returns {path : Except Fault (SizedBytes filepathSize)}
    {filePath : SizedBytes filepathSize} (taken : path = .ok filePath) (type : Byte) :
    Returns (fillFile path type) s s.heap.fresh (s.withNode ⟨filePath, type⟩) := by
  have allocated : Returns (Heap.malloc ⟨blankEntry, none⟩ : Program _ Fault Nat) s.heap
      s.heap.fresh (s.heap.grow ⟨blankEntry, none⟩) := Heap.returns_malloc_iff.mpr ⟨rfl, rfl⟩
  have filled : Returns
      (Heap.store Fault.badPointer (some s.heap.fresh) ⟨⟨filePath, type⟩, none⟩)
      (s.heap.grow ⟨blankEntry, none⟩) () _ := Heap.returns_store (by simp)
  exact (returns_onHeap allocated).bind ((returns_lift_iff.mpr ⟨taken, rfl⟩).bind
    ((returns_onHeap filled).bind (returns_pure_iff.mpr ⟨rfl, rfl⟩)))

theorem appendFile_first (ended : s.tail = none) (pfile : Nat) :
    Returns (appendFile pfile) s () { s with root := some pfile, tail := some pfile } := by
  refine (returns_get_iff.mpr ⟨rfl, rfl⟩).bind ?_
  rw [ended]
  exact returns_modify

theorem appendFile_behind {last : Nat} {node : Node ClientEntry} (ended : s.tail = some last)
    (live : s.heap.cell last = some node) (pfile : Nat) :
    Returns (appendFile pfile) s ()
      { s with heap := s.heap.put last { node with next := some pfile }, tail := some pfile } := by
  have stored : Returns (Heap.store Fault.badPointer (some last) { node with next := some pfile })
      s.heap () _ := Heap.returns_store (by simp [live])
  have linked : Returns (Heap.load Fault.badPointer (some last))
      (s.heap.put last { node with next := some pfile }) _ _ :=
    Heap.returns_load Heap.put_cell_self
  refine (returns_get_iff.mpr ⟨rfl, rfl⟩).bind ?_
  rw [ended]
  exact (returns_onHeap (Heap.returns_load live)).bind ((returns_onHeap stored).bind
    ((returns_onHeap linked).bind returns_modify))

/-- A line whose path can be taken appends its entry. -/
theorem addPath_returns (represents : s.Represents nodes)
    {path : Except Fault (SizedBytes filepathSize)} {filePath : SizedBytes filepathSize}
    (taken : path = .ok filePath) (type : Byte) :
    ∃ after address, Returns (addPath path type) s () after ∧
      after.Represents (nodes ++ [(address, ClientEntry.mk filePath type)]) ∧
      after.sent = s.sent ++
        [refreshFileList (nodes.map Prod.snd ++ [ClientEntry.mk filePath type])] := by
  obtain ⟨list, tail⟩ := represents
  have allocated := fillFile_returns (s := s) taken type
  rcases List.eq_nil_or_concat' nodes with rfl | ⟨front, ⟨last, before⟩, rfl⟩
  · have isFirst := list.append_first ⟨blankEntry, none⟩ (ClientEntry.mk filePath type)
    have linked := appendFile_first (s := s.withNode ⟨filePath, type⟩) tail s.heap.fresh
    have refreshed : Returns (addPath path type) s () _ :=
      allocated.bind (linked.bind (returns_refresh isFirst))
    exact ⟨_, _, refreshed, ⟨isFirst, rfl⟩, rfl⟩
  · have isLast := list.append_last ⟨blankEntry, none⟩ (ClientEntry.mk filePath type)
    have ended : s.tail = some last := by simpa using tail
    have live : (s.withNode ⟨filePath, type⟩).heap.cell last = some ⟨before, none⟩ :=
      list.grown_cell _ _
    have linked := appendFile_behind (s := s.withNode ⟨filePath, type⟩) ended live s.heap.fresh
    have refreshed : Returns (addPath path type) s () _ :=
      allocated.bind (linked.bind (returns_refresh isLast))
    exact ⟨_, _, refreshed, ⟨isLast, by simp⟩, by simp [withNode]⟩

theorem returns_repairTail (pfile : Nat) (previous : Pointer) :
    Returns (repairTail pfile previous) s ()
      { s with tail := if some pfile = s.tail then previous else s.tail } := by
  refine returns_modify_iff.mpr ?_
  split <;> rfl

/-- Taking out the first node. -/
theorem removeHead_returns {pfile : Nat} {entry : ClientEntry}
    (represents : s.Represents ((pfile, entry) :: rest)) :
    ∃ after, Returns (removeHead pfile) s () after ∧ after.Represents rest ∧
      after.sent = s.sent := by
  obtain ⟨list, tail⟩ := represents
  have listed : IsList s.heap s.root ([] ++ (pfile, entry) :: rest) := list
  have live := listed.cell_eq
  have freed : Returns (Heap.free Fault.badPointer pfile) s.heap () _ :=
    Heap.returns_free (Option.isSome_of_eq_some live)
  have removed : Returns (removeHead pfile) s () _ :=
    (returns_onHeap (Heap.returns_load live)).bind (returns_modify.bind
      ((returns_repairTail pfile none).bind (returns_onHeap freed)))
  refine ⟨_, removed, ⟨list.remove_first, ?_⟩, rfl⟩
  have isLast : some pfile = s.tail ↔ rest = [] := by
    rw [tail]
    exact listed.isLast_iff
  rcases List.eq_nil_or_concat' rest with rfl | ⟨init, last, rfl⟩
  · exact if_pos (isLast.mpr rfl)
  · refine (if_neg (mt isLast.mp (by simp))).trans ?_
    rw [tail]
    simp [List.getLast?_cons]

/-- Taking out a node behind another. -/
theorem removeBehind_returns {previous pfile : Nat} {before entry : ClientEntry}
    (represents : s.Represents (front ++ (previous, before) :: (pfile, entry) :: rest)) :
    ∃ after, Returns (removeBehind (some previous) pfile) s () after ∧
      after.Represents (front ++ (previous, before) :: rest) ∧ after.sent = s.sent := by
  obtain ⟨list, tail⟩ := represents
  have whole : front ++ (previous, before) :: (pfile, entry) :: rest =
      (front ++ [(previous, before)]) ++ (pfile, entry) :: rest := by simp
  have atPrevious := list.cell_eq
  have apart := list.apart
  have removed := list.remove_after
  rw [whole] at list tail
  have atPfile := list.cell_eq
  have stored : Returns (Heap.store Fault.badPointer (some previous)
      ⟨before, rest.head?.map Prod.fst⟩) s.heap () _ :=
    Heap.returns_store (Option.isSome_of_eq_some atPrevious)
  have freed : Returns (Heap.free Fault.badPointer pfile)
      (s.heap.put previous ⟨before, rest.head?.map Prod.fst⟩) () _ :=
    Heap.returns_free (by rw [Heap.put_cell_ne apart, atPfile]; rfl)
  have ran : Returns (removeBehind (some previous) pfile) s () _ :=
    (returns_onHeap (Heap.returns_load atPfile)).bind
      ((returns_onHeap (Heap.returns_load atPrevious)).bind ((returns_onHeap stored).bind
        ((returns_repairTail pfile (some previous)).bind (returns_onHeap freed))))
  refine ⟨_, ran, ⟨removed, ?_⟩, rfl⟩
  have isLast : some pfile = s.tail ↔ rest = [] := by
    rw [tail]
    exact list.isLast_iff
  rcases List.eq_nil_or_concat' rest with rfl | ⟨init, last, rfl⟩
  · exact (if_pos (isLast.mpr rfl)).trans (by simp)
  · refine (if_neg (mt isLast.mp (by simp))).trans ?_
    rw [tail]
    simp [List.getLast?_append, List.getLast?_cons]

/-- The loop takes out the node its number counts to, if there is one. -/
theorem removeLoop_returns {number currentNum : Int} {previous : Nat} {before : ClientEntry}
    (represents : s.Represents (front ++ (previous, before) :: rest))
    (ahead : currentNum ≤ number) {turns : Nat} (enough : rest.length ≤ turns) :
    ∃ after, Returns (removeLoop number turns currentNum (some previous) (rest.head?.map Prod.fst))
        s () after ∧
      after.Represents (front ++ (previous, before) ::
        rest.eraseIdx (number - currentNum).toNat) ∧
      after.sent = s.sent := by
  induction rest generalizing front previous before currentNum turns with
  | nil =>
      refine ⟨s, ?_, represents, rfl⟩
      cases turns <;> exact returns_pure_iff.mpr ⟨rfl, rfl⟩
  | cons node rest ih =>
      obtain ⟨pfile, entry⟩ := node
      cases turns with
      | zero => simp at enough
      | succ turns =>
          by_cases here : currentNum = number
          · obtain ⟨after, ran, removed, sent⟩ := removeBehind_returns represents
            refine ⟨after, ?_, by simpa [here] using removed, sent⟩
            simpa [removeLoop, here] using ran
          · have whole : front ++ (previous, before) :: (pfile, entry) :: rest =
                (front ++ [(previous, before)]) ++ (pfile, entry) :: rest := by simp
            rw [whole] at represents
            obtain ⟨after, ran, removed, sent⟩ :=
              ih represents (by omega : currentNum + 1 ≤ number) (by simpa using enough)
            have index : (number - currentNum).toNat = (number - (currentNum + 1)).toNat + 1 := by
              omega
            refine ⟨after, ?_, by simpa [index] using removed, sent⟩
            have live := represents.list.cell_eq
            have stepped : Returns (removeLoop number (turns + 1) currentNum (some previous)
                (some pfile)) s () after := by
              rw [removeLoop, if_neg here]
              exact (returns_onHeap (Heap.returns_load live)).bind ran
            simpa using stepped

theorem removeNumber_returns {pfile : Nat} {entry : ClientEntry}
    (represents : s.Represents ((pfile, entry) :: rest)) (number : Int) {turns : Nat}
    (enough : rest.length < turns) :
    ∃ after, Returns (removeNumber number turns pfile) s () after ∧
      after.Represents (removeAt number ((pfile, entry) :: rest)) ∧ after.sent = s.sent := by
  unfold removeNumber
  by_cases isHead : number = 0
  · simpa [isHead, removeAt] using removeHead_returns represents
  rw [if_neg isHead]
  by_cases positive : 0 ≤ number
  · obtain ⟨turns, rfl⟩ : ∃ others, turns = others + 1 := ⟨turns - 1, by omega⟩
    have apart : ¬ 0 = number := fun same => isHead same.symm
    have represented : s.Represents ([] ++ (pfile, entry) :: rest) := represents
    have live := represented.list.cell_eq
    obtain ⟨after, ran, removed, sent⟩ := removeLoop_returns represented
      (by omega : (0 : Int) + 1 ≤ number) (Nat.lt_succ_iff.mp enough)
    have index : number.toNat = (number - 1).toNat + 1 := by omega
    refine ⟨after, ?_, ?_, sent⟩
    · rw [if_pos positive, removeLoop, if_neg apart]
      exact (returns_onHeap (Heap.returns_load live)).bind ran
    · rw [removeAt, if_pos positive, index]
      simpa using removed
  · exact ⟨s, by simp [positive], by simpa [removeAt, positive] using represents, rfl⟩

/-- Removing a number takes out the entry it counts to, if there is one, and sends the
list unless it was empty. -/
theorem removeFile_returns (represents : s.Represents nodes) (number : Int) :
    ∃ after, Returns (removeFile number) s () after ∧ after.Represents (removeAt number nodes) ∧
      after.sent = s.sent ++
        if nodes = [] then [] else [refreshFileList ((removeAt number nodes).map Prod.snd)] := by
  cases nodes with
  | nil =>
      have ended := represents.list.root_eq
      refine ⟨s, (returns_get_iff.mpr ⟨rfl, rfl⟩).bind ?_, ?_, by simp⟩
      · rw [ended]
        exact returns_pure_iff.mpr ⟨rfl, rfl⟩
      · simpa [removeAt] using represents
  | cons node rest =>
      have started := represents.list.root_eq
      have printed := returns_printFileList represents.list
      obtain ⟨removed, ran, represented, sent⟩ :=
        removeNumber_returns represents number represents.list.length_le
      have refreshed := returns_refresh represented.list
      refine ⟨{ removed with sent := removed.sent ++
          [refreshFileList ((removeAt number (node :: rest)).map Prod.snd)] },
        (returns_get_iff.mpr ⟨rfl, rfl⟩).bind ?_, ⟨represented.list, represented.tail⟩,
        by simp [sent]⟩
      rw [started]
      exact printed.bind (ran.bind refreshed)

end Spec

end ClientList

end FsProtection
