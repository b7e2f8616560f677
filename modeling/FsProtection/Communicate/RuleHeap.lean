import FsProtection.Base.NodeList
import FsProtection.Kernel.Quiet

/-!
# The nodes of `fileList_root`

`create_list` and `destroy_list` on the heap their nodes live in. `vmalloc` gives a free
block, at any address; what it leaves in the block is overwritten before it is read. The
list-level model of the parser is what these compute.
-/

namespace FsProtection

open Base

/-- The fileList nodes, the root, and the rest of the kernel. -/
structure RuleHeap (σ : Type) where
  heap : Heap FileNode
  root : Pointer
  outside : σ

namespace RuleHeap

variable {σ : Type}

abbrev RuleM (σ : Type) := Program (RuleHeap σ) Fault

def initial (place : Nat → Nat) (outside : σ) : RuleHeap σ := ⟨Heap.empty place, none, outside⟩

def onHeap {Value : Type} (program : Program (Heap FileNode) Fault Value) : RuleM σ Value :=
  onPart heap (fun heap s => { s with heap := heap }) program

def onOutside {Value : Type} (program : Program σ Fault Value) : RuleM σ Value :=
  onPart outside (fun outside s => { s with outside := outside }) program

/-- The loop at the start of `create_list`, which looks for the last node. -/
def lastValid : Nat → Pointer → Program (Heap FileNode) Fault Pointer
  | _, none => return none
  | 0, some _ => throw .badPointer
  | turns + 1, some address => do
      let node ← Heap.load .badPointer (some address)
      match node.next with
      | none => return some address
      | some next => lastValid turns (some next)

/-- A block as `vmalloc` gives it. -/
def freshNode : Node FileNode := ⟨.make [] 0 .none, none⟩

/-- How `create_list` links a node in behind the last valid one. -/
def linkNode (pFl : Nat) (lastvalidFl : Pointer) : RuleM σ Unit := do
  match lastvalidFl with
  | none => modify fun s => { s with root := some pFl }
  | some _ => do
      let last ← onHeap (Heap.load .badPointer lastvalidFl)
      let node ← onHeap (Heap.load .badPointer (some pFl))
      onHeap (Heap.store .badPointer (some pFl) { node with next := last.next })
      onHeap (Heap.store .badPointer lastvalidFl { last with next := some pFl })

/-- What the loop of `create_list` keeps between two lines. -/
structure Cursor where
  lastvalidFl : Pointer
  cnt : Nat

/-- The body of the loop of `create_list` on a line: the cursor, and `p_str1` as the
inner `strsep` leaves it. -/
def createLine (k : Kernel σ) (line : Bytes) (cursor : Cursor) :
    RuleM σ (Cursor × Option Bytes) := do
  let (pSubstr1, pStr1) := strsep (some line) atSign
  match pSubstr1 with
  | none => return (cursor, pStr1)
  | some path =>
      let fs ← if path = [] then pure none else onOutside (filpOpen k path)
      match fs with
      | none => return (cursor, pStr1)
      | some file =>
          let pFl ← onHeap (Heap.malloc freshNode)
          let type ← (protectTypeFromStr pStr1 : Except Fault ProtectType)
          onHeap (Heap.store .badPointer (some pFl) ⟨.make path file.inode type, none⟩)
          linkNode pFl cursor.lastvalidFl
          onOutside (filpClose k file)
          return (⟨some pFl, cursor.cnt + 1⟩, pStr1)

/-- The loop of `create_list`. -/
def createLoop (k : Kernel σ) (tmpData : Option Bytes) (cursor : Cursor) :
    RuleM σ (Cursor × Option Bytes) := do
  match tmpData with
  | none => return (cursor, none)
  | some text =>
      let line := text.takeWhile (· != newline)
      let (cursor, pStr1) ← createLine k line cursor
      if pStr1.isSome then
        createLoop k (strsep (some text) newline).2 cursor
      else
        return (cursor, (strsep (some text) newline).2)
termination_by pending tmpData
decreasing_by exact strsep_pending_lt text newline

/-- `create_list` once its text is in the scratch copy. -/
def createNodes (k : Kernel σ) (text : Bytes) : RuleM σ Nat := do
  let s ← get
  let lastvalidFl ← onHeap (lastValid s.heap.bound s.root)
  let (cursor, _tmpData) ← createLoop k (some text) ⟨lastvalidFl, 0⟩
  return cursor.cnt

/-- `create_list (&fileList_root, rdt, size)`. -/
def create (k : Kernel σ) (rdt : Bytes) (size : Nat) : RuleM σ Nat := do
  if Terminated rdt ∧ (cstr rdt).length < k.vmallocRoom size then
    createNodes k (cstr rdt)
  else
    throw .overrun

/-- The loop of `destroy_list`. -/
def destroyLoop : Nat → Pointer → Program (Heap FileNode) Fault Unit
  | _, none => return
  | 0, some _ => throw .badPointer
  | turns + 1, some p1 => do
      let node ← Heap.load .badPointer (some p1)
      Heap.store .badPointer (some p1) { node with value := { node.value with inode := 0 } }
      Heap.free .badPointer p1
      destroyLoop turns node.next

/-- `destroy_list (&fileList_root)`. -/
def destroy : RuleM σ Unit := do
  let s ← get
  onHeap (destroyLoop s.heap.bound s.root)
  modify fun s => { s with root := none }

section Spec

variable {k : Kernel σ} {s : RuleHeap σ} {nodes : List (Nat × FileNode)}

theorem returns_onHeap {Value : Type} {program : Program (Heap FileNode) Fault Value}
    {value : Value} {heap : Heap FileNode} (ran : Returns program s.heap value heap) :
    Returns (onHeap program) s value { s with heap := heap } :=
  returns_onPart_iff.mpr ⟨heap, ran, rfl⟩

theorem returns_onOutside {Value : Type} {program : Program σ Fault Value} {value : Value}
    {outside : σ} (ran : Returns program s.outside value outside) :
    Returns (onOutside program) s value { s with outside := outside } :=
  returns_onPart_iff.mpr ⟨outside, ran, rfl⟩

theorem returns_lastValid {h : Heap FileNode} {start : Pointer} {turns : Nat}
    (segment : Segment h.cell start nodes none) (enough : nodes.length ≤ turns) :
    Returns (lastValid turns start) h (nodes.getLast?.map Prod.fst) h := by
  induction nodes generalizing start turns with
  | nil =>
      cases segment
      cases turns <;> exact returns_pure_iff.mpr ⟨rfl, rfl⟩
  | cons node rest ih =>
      obtain ⟨address, value⟩ := node
      obtain ⟨rfl, next, live, behind⟩ := segment
      cases turns with
      | zero => simp at enough
      | succ turns =>
          refine (Heap.returns_load live).bind ?_
          have looked := ih behind (by simpa using enough)
          cases rest with
          | nil =>
              cases behind
              exact returns_pure_iff.mpr ⟨rfl, rfl⟩
          | cons second rest =>
              obtain ⟨rfl, _⟩ := behind
              simpa [List.getLast?_cons] using looked

/-- The list is freed node by node. -/
theorem returns_destroyLoop {h : Heap FileNode} {start : Pointer} {turns : Nat}
    (list : IsList h start nodes) (enough : nodes.length ≤ turns) :
    ∃ after, Returns (destroyLoop turns start) h () after ∧ IsList after none [] ∧
      after.frees = h.frees ++ nodes.map Prod.fst := by
  induction nodes generalizing h start turns with
  | nil =>
      obtain rfl := list.root_eq
      refine ⟨h, ?_, list, by simp⟩
      cases turns <;> exact returns_pure_iff.mpr ⟨rfl, rfl⟩
  | cons node rest ih =>
      obtain ⟨address, value⟩ := node
      have listed : IsList h start ([] ++ (address, value) :: rest) := list
      have live := listed.cell_eq
      obtain rfl := list.root_eq
      cases turns with
      | zero => simp at enough
      | succ turns =>
          obtain ⟨after, ran, gone, freed⟩ := ih list.remove_first (by simpa using enough)
          refine ⟨after, (Heap.returns_load live).bind ((Heap.returns_store (by simp [live])).bind
            ((Heap.returns_free (by simp)).bind ?_)), gone, ?_⟩
          · rw [Heap.put_drop (by simp [live])]
            exact ran
          · simpa [Heap.drop] using freed

/-- The nodes are the list from the root, and the cursor is at the last of them. -/
structure At (s : RuleHeap σ) (nodes : List (Nat × FileNode)) (lastvalidFl : Pointer) : Prop where
  list : IsList s.heap s.root nodes
  last : lastvalidFl = nodes.getLast?.map Prod.fst

/-- The module with a new node that nothing leads to yet. -/
def withNode (s : RuleHeap σ) (value : FileNode) : RuleHeap σ :=
  { s with heap := (s.heap.grow freshNode).put s.heap.fresh ⟨value, none⟩ }

/-- Linking a new node in appends it. -/
theorem linkNode_returns {lastvalidFl : Pointer} (cursor : s.At nodes lastvalidFl)
    (value : FileNode) :
    ∃ after, Returns (linkNode s.heap.fresh lastvalidFl) (s.withNode value) () after ∧
      after.At (nodes ++ [(s.heap.fresh, value)]) (some s.heap.fresh) ∧
      after.heap.frees = s.heap.frees ∧ after.outside = s.outside := by
  obtain ⟨list, rfl⟩ := cursor
  rcases List.eq_nil_or_concat' nodes with rfl | ⟨front, ⟨last, before⟩, rfl⟩
  · have isFirst := list.append_first freshNode value
    exact ⟨_, returns_modify, ⟨isFirst, rfl⟩, rfl, rfl⟩
  · have isLast := list.append_last freshNode value
    have atLast : (s.withNode value).heap.cell last = some ⟨before, none⟩ := list.grown_cell _ _
    have atNew : (s.withNode value).heap.cell s.heap.fresh = some ⟨value, none⟩ :=
      Heap.put_cell_self
    have filled : Returns (Heap.store Fault.badPointer (some s.heap.fresh) ⟨value, none⟩)
        (s.withNode value).heap () (s.withNode value).heap := by
      have stored : Returns (Heap.store Fault.badPointer (some s.heap.fresh) ⟨value, none⟩)
          (s.withNode value).heap () _ := Heap.returns_store (Option.isSome_of_eq_some atNew)
      rwa [withNode, Heap.put_put] at stored
    have linked : Returns (Heap.store Fault.badPointer (some last) ⟨before, some s.heap.fresh⟩)
        (s.withNode value).heap () _ := Heap.returns_store (Option.isSome_of_eq_some atLast)
    have ran : Returns (linkNode s.heap.fresh (some last)) (s.withNode value) () _ :=
      (returns_onHeap (Heap.returns_load atLast)).bind
        ((returns_onHeap (Heap.returns_load atNew)).bind
          ((returns_onHeap filled).bind (returns_onHeap linked)))
    rw [List.getLast?_concat, Option.map_some]
    exact ⟨_, ran, ⟨isLast, by simp⟩, rfl, rfl⟩

/-- From one cursor to another nodes were linked in behind the others, and counted. -/
structure Linked (s : RuleHeap σ) (nodes added : List (Nat × FileNode)) (cursor next : Cursor)
    (after : RuleHeap σ) : Prop where
  isAt : after.At (nodes ++ added) next.lastvalidFl
  cnt : next.cnt = cursor.cnt + added.length
  frees : after.heap.frees = s.heap.frees

/-- The node of a line whose path opened is filled in and linked in behind the others. -/
theorem makeNode_returns {line path : Bytes} {cursor : Cursor}
    (here : s.At nodes cursor.lastvalidFl) {pStr1 : Option Bytes} {file : File}
    {type : ProtectType} {opening outside : σ}
    (cut : strsep (some line) atSign = (some path, pStr1)) (named : path ≠ [])
    (opened : Returns (filpOpen k path) s.outside (some file) opening)
    (typed : protectTypeFromStr pStr1 = .ok type)
    (closed : Returns (filpClose k file) opening () outside) :
    ∃ after,
      Returns (createLine k line cursor) s (⟨some s.heap.fresh, cursor.cnt + 1⟩, pStr1) after ∧
      s.Linked nodes [(s.heap.fresh, .make path file.inode type)] cursor
        ⟨some s.heap.fresh, cursor.cnt + 1⟩ after ∧ after.outside = outside := by
  have openedAt : At { s with outside := opening } nodes cursor.lastvalidFl :=
    ⟨here.list, here.last⟩
  obtain ⟨after, linked, isAt, freed, same⟩ :=
    linkNode_returns openedAt (.make path file.inode type)
  have allocated : Returns (Heap.malloc freshNode : Program _ Fault Nat) s.heap s.heap.fresh _ :=
    Heap.returns_malloc_iff.mpr ⟨rfl, rfl⟩
  have filled : Returns (Heap.store Fault.badPointer (some s.heap.fresh)
      ⟨.make path file.inode type, none⟩) (s.heap.grow freshNode) () _ :=
    Heap.returns_store (by simp)
  have stillOpening : after.outside = opening := same
  rw [← stillOpening] at closed
  refine ⟨{ after with outside := outside }, ?_, ⟨⟨isAt.list, isAt.last⟩, rfl, freed⟩, rfl⟩
  simp only [createLine, cut, if_neg named]
  refine (returns_onOutside opened).bind
    ((returns_onHeap (s := { s with outside := opening }) allocated).bind ?_)
  refine (returns_lift_iff.mpr ⟨typed, rfl⟩).bind ((returns_onHeap filled).bind ?_)
  exact linked.bind ((returns_onOutside closed).bind (returns_pure_iff.mpr ⟨rfl, rfl⟩))

/-- A turn of the loop on the heap does what the list-level turn does. -/
theorem createLine_refines {line : Bytes} {cursor : Cursor} (here : s.At nodes cursor.lastvalidFl)
    {next : ListState} {pStr1 : Option Bytes} {outside : σ}
    (ran : Returns (createListLine k line ⟨nodes.map Prod.snd, cursor.cnt⟩) s.outside (next, pStr1)
      outside) :
    ∃ cursor' after added, Returns (createLine k line cursor) s (cursor', pStr1) after ∧
      s.Linked nodes added cursor cursor' after ∧
      next = ⟨(nodes ++ added).map Prod.snd, cursor'.cnt⟩ ∧ after.outside = outside := by
  have skips : next = ⟨nodes.map Prod.snd, cursor.cnt⟩ →
      Returns (createLine k line cursor) s (cursor, pStr1) { s with outside := outside } →
      ∃ cursor' after added, Returns (createLine k line cursor) s (cursor', pStr1) after ∧
        s.Linked nodes added cursor cursor' after ∧
        next = ⟨(nodes ++ added).map Prod.snd, cursor'.cnt⟩ ∧ after.outside = outside := by
    rintro rfl skipped
    exact ⟨cursor, _, [], skipped, ⟨by simpa using ⟨here.list, here.last⟩, rfl, rfl⟩, by simp, rfl⟩
  rcases cut : strsep (some line) atSign with ⟨_ | path, rest⟩
  · simp only [createListLine, cut, returns_pure_iff, Prod.mk.injEq] at ran
    obtain ⟨⟨same, rfl⟩, rfl⟩ := ran
    exact skips same (by rw [createLine, cut]; exact returns_pure_iff.mpr ⟨rfl, rfl⟩)
  simp only [createListLine, cut] at ran
  by_cases empty : path = []
  · simp only [if_pos empty, pure_bind, returns_pure_iff, Prod.mk.injEq] at ran
    obtain ⟨⟨same, rfl⟩, rfl⟩ := ran
    exact skips same (by simp [createLine, cut, empty])
  rw [if_neg empty] at ran
  obtain ⟨fs, middle, opened, continued⟩ := returns_bind_iff.mp ran
  cases fs with
  | none =>
      obtain ⟨outcome, rfl⟩ := returns_pure_iff.mp continued
      obtain ⟨same, rfl⟩ := Prod.mk.inj outcome
      refine skips same ?_
      simp only [createLine, cut, if_neg empty]
      exact (returns_onOutside opened).bind (returns_pure_iff.mpr ⟨rfl, rfl⟩)
  | some file =>
      obtain ⟨type, opening, lifted, filling⟩ := returns_bind_iff.mp continued
      obtain ⟨typed, rfl⟩ := returns_lift_iff.mp lifted
      obtain ⟨_, _, closed, answered⟩ := returns_bind_iff.mp filling
      obtain ⟨outcome, rfl⟩ := returns_pure_iff.mp answered
      obtain ⟨rfl, rfl⟩ := Prod.mk.inj outcome
      obtain ⟨after, made, linked, same⟩ := makeNode_returns here cut empty opened typed closed
      exact ⟨_, after, _, made, linked, by simp [ListState.append], same⟩

theorem Linked.trans {added more : List (Nat × FileNode)} {first second third : Cursor}
    {middle after : RuleHeap σ} (linked : s.Linked nodes added first second middle)
    (goesOn : middle.Linked (nodes ++ added) more second third after) :
    s.Linked nodes (added ++ more) first third after where
  isAt := by
    rw [← List.append_assoc]
    exact goesOn.isAt
  cnt := by rw [goesOn.cnt, linked.cnt, List.length_append, Nat.add_assoc]
  frees := goesOn.frees.trans linked.frees

/-- So does the whole loop. -/
theorem createLoop_refines {text : Bytes} {cursor : Cursor} (here : s.At nodes cursor.lastvalidFl)
    {next : ListState} {rest : Option Bytes} {outside : σ}
    (ran : Returns (createListLoop k (some text) ⟨nodes.map Prod.snd, cursor.cnt⟩) s.outside
      (next, rest) outside) :
    ∃ cursor' after added, Returns (createLoop k (some text) cursor) s (cursor', rest) after ∧
      s.Linked nodes added cursor cursor' after ∧
      next = ⟨(nodes ++ added).map Prod.snd, cursor'.cnt⟩ ∧ after.outside = outside := by
  refine @createListLoop_induct _ k (fun text state before final rest outside =>
    ∀ (s : RuleHeap σ) nodes cursor, s.At nodes cursor.lastvalidFl →
      state = ⟨nodes.map Prod.snd, cursor.cnt⟩ → before = s.outside →
      ∃ cursor' after added, Returns (createLoop k (some text) cursor) s (cursor', rest) after ∧
        s.Linked nodes added cursor cursor' after ∧
        final = ⟨(nodes ++ added).map Prod.snd, cursor'.cnt⟩ ∧ after.outside = outside)
    ?_ ?_ _ _ _ _ _ _ ran s nodes cursor here rfl rfl
  · rintro text _ _ final pStr1 outside line ends s nodes cursor here rfl rfl
    obtain ⟨cursor', after, added, turn, linked, rfl, rfl⟩ := createLine_refines here line
    refine ⟨cursor', after, added, ?_, linked, rfl, rfl⟩
    rw [createLoop]
    refine turn.bind ?_
    cases pStr1 with
    | none => exact returns_pure_iff.mpr ⟨rfl, rfl⟩
    | some str =>
        have cut : (strsep (some text) newline).2 = none := ends
        simp only [cut, Option.isSome_some, if_true, createLoop]
        exact returns_pure_iff.mpr ⟨rfl, rfl⟩
  · rintro text _ _ next str middle remaining final rest outside line cut ih s nodes cursor here
      rfl rfl
    obtain ⟨cursor', after, added, turn, linked, rfl, rfl⟩ := createLine_refines here line
    obtain ⟨cursor'', last, more, looped, goesOn, same, sameOutside⟩ :=
      ih after (nodes ++ added) cursor' linked.isAt rfl rfl
    refine ⟨cursor'', last, added ++ more, ?_, linked.trans goesOn, ?_, sameOutside⟩
    · rw [createLoop]
      refine turn.bind ?_
      simp only [cut, Option.isSome_some, if_true]
      exact looped
    · rw [same, List.append_assoc]

theorem returns_lastValid_root (list : IsList s.heap s.root nodes) :
    Returns (onHeap (lastValid s.heap.bound s.root)) s (nodes.getLast?.map Prod.fst) s :=
  returns_onHeap (returns_lastValid list.chain list.length_le)

/-- `create_list` on any list and text that parses: its new nodes are behind the earlier
ones, in the order of their lines, and counted. -/
theorem createNodes_returns (list : IsList s.heap s.root nodes) {text : Bytes}
    (parses : k.ParsesIn (textLines text) s.outside) :
    ∃ after added, Returns (createNodes k text) s added.length after ∧
      IsList after.heap after.root (nodes ++ added) ∧
      added.map Prod.snd = k.parsedIn (textLines text) s.outside ∧
      after.heap.frees = s.heap.frees ∧
      after.outside = k.afterLines (textLines text) s.outside := by
  obtain ⟨⟨next, rest⟩, outside, looped, appended, rfl⟩ :=
    (createListLoop_settles text ⟨nodes.map Prod.snd, 0⟩ s.outside).outcome parses
  have here : s.At nodes (Cursor.mk (nodes.getLast?.map Prod.fst) 0).lastvalidFl := ⟨list, rfl⟩
  obtain ⟨cursor, after, added, ran, linked, same, sameOutside⟩ := createLoop_refines here looped
  have whole : (nodes ++ added).map Prod.snd =
      nodes.map Prod.snd ++ k.parsedIn (textLines text) s.outside :=
    congrArg ListState.top (same.symm.trans appended)
  rw [List.map_append] at whole
  have counted : cursor.cnt = added.length := by
    rw [linked.cnt, Nat.zero_add]
  refine ⟨after, added, ?_, linked.isAt.list, List.append_cancel_left whole, linked.frees,
    sameOutside⟩
  refine (returns_get_iff.mpr ⟨rfl, rfl⟩).bind ((returns_lastValid_root list).bind (ran.bind ?_))
  exact returns_pure_iff.mpr ⟨counted.symm, rfl⟩

/-- On the heap `create_list` computes what the list-level model says. -/
theorem create_refines (list : IsList s.heap s.root nodes) {rdt : Bytes} {size cnt : Nat}
    {top : List FileNode} {outside : σ}
    (ran : Returns (createList k (nodes.map Prod.snd) rdt size) s.outside (cnt, top) outside) :
    ∃ after added, Returns (create k rdt size) s cnt after ∧
      IsList after.heap after.root (nodes ++ added) ∧ (nodes ++ added).map Prod.snd = top ∧
      after.outside = outside := by
  obtain ⟨⟨fits, parses⟩, outcome, rfl⟩ := (createList_settles _ rdt size s.outside).returned ran
  obtain ⟨rfl, rfl⟩ := Prod.mk.inj outcome
  obtain ⟨after, added, created, holds, made, _, same⟩ := createNodes_returns list parses
  refine ⟨after, added, ?_, holds, by rw [List.map_append, made], same⟩
  rw [create, if_pos fits, ← made, List.length_map]
  exact created

/-- `destroy_list` frees every node once and leaves the root NULL. -/
theorem destroy_returns (list : IsList s.heap s.root nodes) :
    ∃ after, Returns destroy s () after ∧ after.root = none ∧ IsList after.heap none [] ∧
      after.heap.frees = s.heap.frees ++ nodes.map Prod.fst ∧ after.outside = s.outside := by
  obtain ⟨heap, freed, gone, frees⟩ := returns_destroyLoop list list.length_le
  have ran : Returns destroy s () _ :=
    (returns_get_iff.mpr ⟨rfl, rfl⟩).bind ((returns_onHeap freed).bind returns_modify)
  exact ⟨_, ran, rfl, gone, frees, rfl⟩

end Spec

/-- A call of `create_list` on a text or of `destroy_list`, or anything elsewhere. -/
inductive ListCall (σ : Type) where
  | create (text : Bytes)
  | destroy
  | elsewhere (outside : σ)

def step (k : Kernel σ) (s : RuleHeap σ) : ListCall σ → Except Fault (RuleHeap σ)
  | .create text => do
      let outcome ← (createNodes k text).run s
      return outcome.2
  | .destroy => do
      let outcome ← destroy.run s
      return outcome.2
  | .elsewhere outside => return { s with outside := outside }

/-- Every line of a text that is looked at has a type if its path opens. -/
def Typed (k : Kernel σ) (s : RuleHeap σ) : ListCall σ → Prop
  | .create text => k.ParsesIn (textLines text) s.outside
  | _ => True

section Runs

variable {k : Kernel σ} {place : Nat → Nat} {outside : σ} {calls : List (ListCall σ)}

theorem step_holds {s : RuleHeap σ} {nodes : List (Nat × FileNode)}
    (list : IsList s.heap s.root nodes) {call : ListCall σ} (typed : s.Typed k call) :
    ∃ after nodes, s.step k call = .ok after ∧ IsList after.heap after.root nodes := by
  cases call with
  | create text =>
      obtain ⟨after, added, ran, holds, _⟩ := createNodes_returns list typed
      exact ⟨after, _, run_bind_eq_ok.mpr ⟨_, _, ran, rfl⟩, holds⟩
  | destroy =>
      obtain ⟨after, ran, ended, holds, _⟩ := destroy_returns list
      exact ⟨after, [], run_bind_eq_ok.mpr ⟨_, _, ran, rfl⟩, ended ▸ holds⟩
  | elsewhere outside => exact ⟨_, nodes, rfl, list⟩

/-- After any calls of `create_list` and `destroy_list`, on texts whose lines have a type
wherever their path opens, none of which faults, the fileList nodes are one list from the
root: the chain ends at NULL through distinct nodes, exactly these are live, and every
other node that was allocated was freed once. There `create_list` leaves the nodes it
finds, appends those of its lines in order and returns their number, and `destroy_list`
frees each node once and leaves the root NULL. -/
theorem rule_heap_holds
    (typed : ∀ past call before, past ++ [call] <+: calls →
      execute (step k) (initial place outside) past = .ok before → before.Typed k call) :
    ∃ s nodes, execute (step k) (initial place outside) calls = .ok s ∧
      IsList s.heap s.root nodes ∧
      (∀ text, k.ParsesIn (textLines text) s.outside →
        ∃ after added, Returns (createNodes k text) s added.length after ∧
          IsList after.heap after.root (nodes ++ added) ∧
          added.map Prod.snd = k.parsedIn (textLines text) s.outside ∧
          after.heap.frees = s.heap.frees) ∧
      ∃ after, Returns destroy s () after ∧ after.root = none ∧ IsList after.heap none [] ∧
        after.heap.frees = s.heap.frees ++ nodes.map Prod.fst := by
  obtain ⟨s, ran, nodes, list⟩ := execute_total_of
    (fun _ (s : RuleHeap σ) => ∃ nodes, IsList s.heap s.root nodes)
    ⟨[], IsList.empty place⟩ (fun _ _ _ ⟨_, list⟩ typed => by
      obtain ⟨after, nodes, stepped, holds⟩ := step_holds list typed
      exact ⟨after, stepped, nodes, holds⟩) typed
  refine ⟨s, nodes, ran, list, fun text parses => ?_, ?_⟩
  · obtain ⟨after, added, created, holds, made, frees, _⟩ := createNodes_returns list parses
    exact ⟨after, added, created, holds, made, frees⟩
  · obtain ⟨after, destroyed, ended, gone, frees, _⟩ := destroy_returns list
    exact ⟨after, destroyed, ended, gone, frees⟩

end Runs

/-- A text with a rule that opens and one that does not. -/
def halfText : Bytes := lit "/f@r\n/g@w\n"

theorem halfText_parses : (Kernel.quiet oneFile).ParsesIn (textLines halfText) () := by
  have lines : textLines halfText = [lit "/f@r", lit "/g@w", []] := by decide
  rw [((Kernel.quiet_pathView oneFile).lines _ ()).1, lines]
  refine parses_of_typed fun line member bare => ?_
  simp only [List.mem_cons, List.not_mem_nil, or_false] at member
  rcases member with rfl | rfl | rfl
  · exact absurd (by decide) bare
  · exact absurd (by decide) bare
  · rfl

/-- Lists are made, extended, destroyed and made again, at one address where that is free. -/
theorem halfText_holds :
    ∃ s nodes, execute (step (Kernel.quiet oneFile)) (initial (fun _ => 7) ())
        [.create halfText, .create halfText, .destroy, .create halfText] = .ok s ∧
      IsList s.heap s.root nodes := by
  obtain ⟨s, nodes, ran, list, _⟩ :=
    @rule_heap_holds _ (Kernel.quiet oneFile) (fun _ => 7) ()
      [.create halfText, .create halfText, .destroy, .create halfText]
      fun past call before first _ => by
        have member := first.subset (List.mem_append_right past (List.mem_singleton_self call))
        simp only [List.mem_cons, List.not_mem_nil, or_false] at member
        rcases member with rfl | rfl | rfl | rfl
        · exact halfText_parses
        · exact halfText_parses
        · trivial
        · exact halfText_parses
  exact ⟨s, nodes, ran, list⟩

end RuleHeap

end FsProtection
