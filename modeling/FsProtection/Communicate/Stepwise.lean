import FsProtection.Base.Script
import FsProtection.Base.Walk
import FsProtection.Communicate.RuleHeap

/-!
# The rule list one access at a time

`create_list` and `destroy_list` as scripts of their accesses to the nodes. A new node is
filled in where nobody can reach it, which is one access here.
-/

namespace FsProtection

open Base

/-- What a rule protects, which is what the lookups by path compare and report. -/
def FileNode.shown (node : FileNode) : SizedBytes filepathSize × ProtectType :=
  (node.filePath, node.type)

namespace RuleHeap

variable {σ : Type}

/-- What `create_list` and `destroy_list` do to memory they share, and the calls they make.
The bound on the addresses stands for nothing in the source: it bounds the turns of a loop. -/
inductive Access where
  | top
  | setTop (p : Pointer)
  | load (p : Pointer)
  | store (p : Pointer) (node : Node FileNode)
  | vmalloc
  | vfree (address : Nat)
  | filpOpen (path : Bytes)
  | filpClose (file : File)
  | typeFromStr (str : Option Bytes)

/-- What an access answers. -/
abbrev Access.Answer : Access → Type
  | .top => Nat × Pointer
  | .setTop _ => Unit
  | .load _ => Node FileNode
  | .store _ _ => Unit
  | .vmalloc => Nat
  | .vfree _ => Unit
  | .filpOpen _ => Option File
  | .filpClose _ => Unit
  | .typeFromStr _ => ProtectType

/-- An access to the shared memory, or a call. `vfree` of a block that is not live only
warns. -/
def perform (k : Kernel σ) : (access : Access) → RuleM σ access.Answer
  | .top => do
      let s ← get
      return (s.heap.bound, s.root)
  | .setTop p => modify fun s => { s with root := p }
  | .load p => onHeap (Heap.load .badPointer p)
  | .store p node => onHeap (Heap.store .badPointer p node)
  | .vmalloc => onHeap (Heap.malloc freshNode)
  | .vfree address => onHeap (Heap.release Fault address)
  | .filpOpen path => onOutside (FsProtection.filpOpen k path)
  | .filpClose file => onOutside (FsProtection.filpClose k file)
  | .typeFromStr str => (protectTypeFromStr str : Except Fault ProtectType)

/-- `create_list` and `destroy_list` between their accesses. -/
abbrev RuleScript := Script Access Access.Answer

namespace Stepwise

/-- A node is read. -/
def load (p : Pointer) : RuleScript (Node FileNode) := Script.call (Access.load p)

/-- A node that can be reached is written. -/
def store (p : Pointer) (node : Node FileNode) : RuleScript Unit :=
  Script.call (Access.store p node)

/-- The walk of `create_list` to the last node of an old list. -/
def lastValid : Nat → Pointer → RuleScript Pointer
  | _, none => return none
  | 0, some _ => do
      let _ ← load none
      return none
  | turns + 1, some address => do
      let node ← load (some address)
      match node.next with
      | none => return some address
      | some next => lastValid turns (some next)

/-- `lastvalid_fl->next = p_fl`, or the root of an empty list. -/
def linkNode (pFl : Nat) (lastvalidFl : Pointer) : RuleScript Unit := do
  match lastvalidFl with
  | none => Script.call (Access.setTop (some pFl))
  | some _ => do
      let last ← load lastvalidFl
      let node ← load (some pFl)
      store (some pFl) { node with next := last.next }
      store lastvalidFl { last with next := some pFl }

/-- The body of the loop of `create_list` on a line. -/
def createLine (line : Bytes) (cursor : Cursor) : RuleScript (Cursor × Option Bytes) := do
  let (pSubstr1, pStr1) := strsep (some line) atSign
  match pSubstr1 with
  | none => return (cursor, pStr1)
  | some path =>
      let fs : Option File ← if path = [] then pure none else Script.call (Access.filpOpen path)
      match fs with
      | none => return (cursor, pStr1)
      | some file =>
          let pFl : Nat ← Script.call Access.vmalloc
          let type : ProtectType ← Script.call (Access.typeFromStr pStr1)
          store (some pFl) ⟨.make path file.inode type, none⟩
          linkNode pFl cursor.lastvalidFl
          let _ : Unit ← Script.call (Access.filpClose file)
          return (⟨some pFl, cursor.cnt + 1⟩, pStr1)

/-- The loop of `create_list` over the lines. -/
def createLoop (tmpData : Option Bytes) (cursor : Cursor) :
    RuleScript (Cursor × Option Bytes) := do
  match tmpData with
  | none => return (cursor, none)
  | some text =>
      let line := text.takeWhile (· != newline)
      let (cursor, pStr1) ← createLine line cursor
      if pStr1.isSome then
        createLoop (strsep (some text) newline).2 cursor
      else
        return (cursor, (strsep (some text) newline).2)
termination_by pending tmpData
decreasing_by exact strsep_pending_lt text newline

/-- `create_list` once its text is in the scratch copy. -/
def createNodes (text : Bytes) : RuleScript Nat := do
  let (bound, top) : Nat × Pointer ← Script.call Access.top
  let lastvalidFl ← lastValid bound top
  let (cursor, _tmpData) ← createLoop (some text) ⟨lastvalidFl, 0⟩
  return cursor.cnt

/-- The loop of `destroy_list`, which clears the inode of a node before it frees the node. -/
def destroyLoop : Nat → Pointer → RuleScript Unit
  | _, none => return
  | 0, some _ => do
      let _ ← load none
  | turns + 1, some p1 => do
      let node ← load (some p1)
      store (some p1) { node with value := { node.value with inode := 0 } }
      let _ : Unit ← Script.call (Access.vfree p1)
      destroyLoop turns node.next

/-- `destroy_list (&fileList_root)`. -/
def destroy : RuleScript Unit := do
  let (bound, top) : Nat × Pointer ← Script.call Access.top
  destroyLoop bound top
  Script.call (Access.setTop none)

end Stepwise

section Whole

variable {k : Kernel σ}

/-- What runs on the heap in two pieces runs on it in one. -/
theorem onHeap_bind {Value Other : Type} (first : Program (Heap FileNode) Fault Other)
    (rest : Other → Program (Heap FileNode) Fault Value) :
    onHeap (first >>= rest) =
      (onHeap first >>= fun value => onHeap (rest value) : RuleM σ Value) := by
  funext s
  change (onHeap (first >>= rest)).run s = (onHeap first >>= fun value => onHeap (rest value)).run s
  rw [StateT.run_bind, onHeap, onHeap, run_onPart, run_onPart, StateT.run_bind]
  cases first.run s.heap with
  | error fault => rfl
  | ok outcome =>
      obtain ⟨value, heap⟩ := outcome
      change ((rest value).run heap).map _ = (onHeap (rest value)).run { s with heap := heap }
      rw [onHeap, run_onPart]

/-- Run at once, an access is the step of the function it was taken from, -/
@[simp] theorem whole_load (p : Pointer) :
    (Stepwise.load p).whole (perform k) = onHeap (Heap.load .badPointer p) :=
  Script.whole_call _

@[simp] theorem whole_store (p : Pointer) (node : Node FileNode) :
    (Stepwise.store p node).whole (perform k) = onHeap (Heap.store .badPointer p node) :=
  Script.whole_call _

/-- and so is a walk, -/
@[simp] theorem whole_lastValid (turns : Nat) (start : Pointer) :
    (Stepwise.lastValid turns start).whole (perform k) = onHeap (lastValid turns start) := by
  induction turns generalizing start with
  | zero => cases start <;> rfl
  | succ turns ih =>
      cases start with
      | none => rfl
      | some address =>
          rw [Stepwise.lastValid, lastValid, Script.whole_bind, whole_load, onHeap_bind]
          refine bind_congr fun node => ?_
          cases node.next with
          | none => rfl
          | some next => exact ih (some next)

@[simp] theorem whole_linkNode (pFl : Nat) (lastvalidFl : Pointer) :
    (Stepwise.linkNode pFl lastvalidFl).whole (perform k) = linkNode pFl lastvalidFl := by
  cases lastvalidFl with
  | none => rfl
  | some last => simp [Stepwise.linkNode, linkNode]

/-- a line, -/
@[simp] theorem whole_createLine (line : Bytes) (cursor : Cursor) :
    (Stepwise.createLine line cursor).whole (perform k) = createLine k line cursor := by
  unfold Stepwise.createLine createLine
  rcases strsep (some line) atSign with ⟨_ | path, rest⟩
  · rfl
  · by_cases empty : path = []
    · simp [empty]
    · simp only [if_neg empty, Script.whole_bind, Script.whole_call]
      refine bind_congr fun fs => ?_
      cases fs with
      | none => rfl
      | some file => simp [perform]

/-- the loop over the lines, -/
@[simp] theorem whole_createLoop (tmpData : Option Bytes) (cursor : Cursor) :
    (Stepwise.createLoop tmpData cursor).whole (perform k) = createLoop k tmpData cursor := by
  induction tmpData, cursor using Stepwise.createLoop.induct with
  | case1 cursor =>
      rw [Stepwise.createLoop, createLoop]
      rfl
  | case2 cursor text ih =>
      rw [Stepwise.createLoop, createLoop, Script.whole_bind, whole_createLine]
      refine bind_congr fun outcome => ?_
      obtain ⟨next, pStr1⟩ := outcome
      cases pStr1 with
      | none => rfl
      | some str => exact ih next

/-- With nothing between its accesses the script of `create_list` is `create_list`. -/
theorem whole_createNodes (text : Bytes) :
    (Stepwise.createNodes text).whole (perform k) = createNodes k text := by
  simp [Stepwise.createNodes, createNodes, perform]

/-- and the freeing of a list. -/
@[simp] theorem whole_destroyLoop (turns : Nat) (start : Pointer) :
    (Stepwise.destroyLoop turns start).whole (perform k) = onHeap (destroyLoop turns start) := by
  induction turns generalizing start with
  | zero => cases start <;> rfl
  | succ turns ih =>
      cases start with
      | none => rfl
      | some p1 =>
          have freed : ∀ node next, (onHeap (Heap.store .badPointer (some p1) node) >>= fun _ =>
              onHeap (Heap.release Fault p1) >>= fun _ => onHeap (destroyLoop turns next) :
                RuleM σ Unit) =
              onHeap (Heap.store .badPointer (some p1) node) >>= fun _ =>
                onHeap (Heap.free .badPointer p1) >>= fun _ => onHeap (destroyLoop turns next) := by
            intro node next
            simp only [← onHeap_bind, Heap.store_release]
          simp only [Stepwise.destroyLoop, destroyLoop, Script.whole_bind, whole_load, whole_store,
            Script.whole_call, onHeap_bind, ih]
          exact bind_congr fun node => freed _ _

/-- So is the script of `destroy_list`. -/
theorem whole_destroy : Stepwise.destroy.whole (perform k) = destroy := by
  simp [Stepwise.destroy, destroy, perform]

end Whole

end RuleHeap

end FsProtection
