import FsProtection.Configuration

/-!
# The `vmalloc` blocks of the module

The write handlers again, with the blocks they take: a scratch copy of the text for each
`create_list` and a block for each node, beside the four buffers. The ledger of live blocks
is kept beside the state the handlers work on, which they change as before.
-/

namespace FsProtection

open Base

/-- A pointer into a block from `vmalloc`. -/
structure VmPointer where
  block : Nat
  offset : Nat
deriving DecidableEq

/-- What a `create_list` did with its scratch copy: the `sz` it allocated, the bytes
`strcpy` stored, the block it got and the pointer it gave to `vfree`. -/
structure ScratchUse where
  sz : Nat
  stored : Nat
  tmpData : Nat
  freed : Option VmPointer
deriving DecidableEq

/-- The state of the handlers, the live blocks of the module, those of its nodes in list
order, and the scratch copies made so far. Blocks are numbered as they are allocated. -/
structure VmState (σ : Type) where
  proc : ProcState σ
  live : List Nat
  allocated : Nat
  nodes : List Nat
  uses : List ScratchUse

/-- `data_buf`, `ctrl_data_buf`, `noti_data_buf` and `raw_data_buff`, the first blocks. -/
def bufferBlocks : List Nat := [0, 1, 2, 3]

/-- What `vfree` leaves live: it frees the block a pointer is the start of. NULL is no
block, and any other pointer earns a warning only. -/
def vfreed (live : List Nat) : Option VmPointer → List Nat
  | some ⟨block, 0⟩ => live.erase block
  | _ => live

/-- The command makes `proc_ctrl_write` parse `data_buf`. -/
def parsesData (command : Option Command) : Bool :=
  command = some .refresh ∨ command = some .clear

/-- The event makes its handler parse a text. -/
def ProcEvent.parses {σ : Type} : ProcEvent σ → Bool
  | .protect buffer count => count ≠ 0 && (written buffer count).isSome
  | .ctrl buffer count => parsesData (ProcEvent.command buffer count)
  | .elsewhere _ => false

namespace VmState

variable {σ : Type}

/-- A handler beside the blocks that `vmalloc` gave out. -/
abbrev VmM (σ : Type) := Program (VmState σ) Fault

/-- The state `init_communicate` leaves. -/
def initial (raw : SizedBytes bufferSize) (outside : σ) : VmState σ where
  proc := ⟨Globals.initial raw, outside⟩
  live := bufferBlocks
  allocated := bufferBlocks.length
  nodes := []
  uses := []

def outside (s : VmState σ) : σ := s.proc.outside

def onProc {Value : Type} (program : ProcM σ Value) : VmM σ Value :=
  onPart proc (fun proc s => { s with proc := proc }) program

def onOutside {Value : Type} (program : Program σ Fault Value) : VmM σ Value :=
  onPart outside (fun outside s => { s with proc := { s.proc with outside := outside } }) program

/-- A block that was not given out before. -/
def vmalloc : VmM σ Nat := do
  let s ← get
  set { s with live := s.allocated :: s.live, allocated := s.allocated + 1 }
  return s.allocated

/-- `vfree`, and what it leaves live. -/
def vfree (pointer : Option VmPointer) : VmM σ Unit :=
  modify fun s => { s with live := vfreed s.live pointer }

/-- The block of a new node, the last of the list. -/
def takeNode : VmM σ Unit := do
  let pFl ← vmalloc
  modify fun s => { s with nodes := s.nodes ++ [pFl] }

/-- The body of the loop of `create_list`, with the block of the node it makes. -/
def createLine (k : Kernel σ) (line : Bytes) (state : ListState) :
    VmM σ (ListState × Option Bytes) := do
  let turn ← onOutside (createListLine k line state)
  if state.cnt < turn.1.cnt then
    takeNode
    return turn
  else
    return turn

/-- The loop of `create_list`, which advances `tmp_data`. -/
def createLoop (k : Kernel σ) (tmpData : Option Bytes) (state : ListState) :
    VmM σ (ListState × Option Bytes) := do
  match tmpData with
  | none => return (state, none)
  | some text =>
      let line := text.takeWhile (· != newline)
      let (state, pStr1) ← createLine k line state
      if pStr1.isSome then
        createLoop k (strsep (some text) newline).2 state
      else
        return (state, (strsep (some text) newline).2)
termination_by pending tmpData
decreasing_by exact strsep_pending_lt text newline

/-- `tmp_data` with some of its text behind it. -/
def tmpPointer (tmpData : Nat) (text : Bytes) (rest : Option Bytes) : Option VmPointer :=
  rest.map fun rest => ⟨tmpData, text.length - rest.length⟩

/-- `create_list`, with its scratch copy. -/
def createList (k : Kernel σ) (top : List FileNode) (rdt : Bytes) (sz : Nat) :
    VmM σ (Nat × List FileNode) := do
  let tmpData ← vmalloc
  if Terminated rdt ∧ (cstr rdt).length < k.vmallocRoom sz then
    let (state, rest) ← createLoop k (some (cstr rdt)) ⟨top, 0⟩
    let freed := tmpPointer tmpData (cstr rdt) rest
    vfree freed
    modify fun s =>
      { s with uses := s.uses ++ [⟨sz, (cstr rdt).length + 1, tmpData, freed⟩] }
    return (state.cnt, state.top)
  else
    throw .overrun

/-- `create_root`, whose copy of the text is freed by the pointer that was advanced. -/
def createRoot (k : Kernel σ) (rdt : Bytes) : VmM σ Nat := do
  let s ← onProc get
  let outcome ← createList k s.globals.fileListRoot rdt sizeofPointer
  onProc (modify fun s => s.withRules outcome.2)
  return outcome.1

/-- The loop of `destroy_list` over the blocks of the nodes. -/
def freeNodes : List Nat → VmM σ Unit
  | [] => return
  | p1 :: rest => do
      vfree (some ⟨p1, 0⟩)
      freeNodes rest

/-- `destroy_root`, node by node. -/
def destroyRoot : VmM σ Unit := do
  let s ← get
  freeNodes s.nodes
  modify fun s => { s with nodes := [] }
  onProc FsProtection.destroyRoot

def refresh (k : Kernel σ) : VmM σ Unit := do
  destroyRoot
  let s ← onProc get
  let _ ← createRoot k s.globals.dataBuf.1

def clear (k : Kernel σ) : VmM σ Unit := do
  destroyRoot
  onProc (modify fun s => { s with globals := { s.globals with
    dataBuf := s.globals.dataBuf.overwrite (List.replicate sizeofPointer 0) } })
  let s ← onProc get
  let _ ← createRoot k s.globals.dataBuf.1

/-- What both handlers do with a text that arrives. -/
def receive (buffer : Bytes) (cnt : Nat) (act : VmM σ Unit) : VmM σ Int := do
  let left ← onProc (copyToRaw buffer cnt)
  if left ≠ 0 then
    return -efault
  else
    onProc (terminateRaw cnt)
    act
    return cnt

/-- The comparisons of `proc_ctrl_write`. -/
def ctrlCommand (k : Kernel σ) : VmM σ Unit := do
  if ← onProc (rawStartsWith "refresh") then
    refresh k
  else if ← onProc (rawStartsWith "clear") then
    clear k
  else if ← onProc (rawStartsWith "disable") then
    onProc disable
  else if ← onProc (rawStartsWith "enable") then
    onProc enable

def procCtrlWrite (k : Kernel σ) (buffer : Bytes) (count : Nat) : VmM σ Int := do
  if count = 0 then
    return 0
  else
    receive buffer (clampCount count) (ctrlCommand k)

/-- `destroy_root` and `create_root`, as `proc_protect_write` calls them. -/
def replaceRules (k : Kernel σ) : VmM σ Unit := do
  destroyRoot
  let s ← onProc get
  let _ ← createRoot k s.globals.rawDataBuff.1

def procProtectWrite (k : Kernel σ) (buffer : Bytes) (count : Nat) : VmM σ Int := do
  if count = 0 then
    destroyRoot
    return 0
  else
    receive buffer (clampCount count) (replaceRules k)

/-- One event, with what it allocates and frees. -/
def handle (k : Kernel σ) : ProcEvent σ → VmM σ Int
  | .protect buffer count => procProtectWrite k buffer count
  | .ctrl buffer count => procCtrlWrite k buffer count
  | .elsewhere next => onProc do
      modify fun s => { s with outside := next }
      return 0

def step (k : Kernel σ) (s : VmState σ) (event : ProcEvent σ) : Except Fault (VmState σ) :=
  ((handle k event).run s).map Prod.snd

/-- The scratch copies fit what was allocated for them and were given back, and what is
live is the buffers and a block for each node. -/
structure Released (s : VmState σ) : Prop where
  fits : ∀ use ∈ s.uses, use.stored ≤ use.sz
  freed : ∀ use ∈ s.uses, use.freed = some ⟨use.tmpData, 0⟩
  live : s.live.Perm (s.nodes ++ bufferBlocks)
  listed : s.nodes.length = s.proc.globals.fileListRoot.length

section Tracking

variable {k : Kernel σ} {Value : Type}

/-- Blocks aside, what runs on the handler's state is that. -/
theorem onProc_tracks (program : ProcM σ Value) : Tracks proc (onProc program) program :=
  .of_onPart fun _ _ => rfl

theorem onOutside_tracks (program : Program σ Fault Value) :
    Tracks outside (onOutside program) program :=
  .of_onPart fun _ _ => rfl

theorem returns_onProc_get (s : VmState σ) : Returns (onProc get) s s.proc s :=
  returns_onPart_iff.mpr ⟨s.proc, returns_get_iff.mpr ⟨rfl, rfl⟩, rfl⟩

theorem returns_vmalloc (s : VmState σ) : Returns vmalloc s s.allocated
    { s with live := s.allocated :: s.live, allocated := s.allocated + 1 } := by
  simp [vmalloc, returns_bind_iff]

theorem returns_takeNode (s : VmState σ) : Returns takeNode s () { s with
    live := s.allocated :: s.live
    allocated := s.allocated + 1
    nodes := s.nodes ++ [s.allocated] } :=
  (returns_vmalloc s).bind (returns_modify_iff.mpr rfl)

/-- Blocks aside, a line is taken as by `create_list`, -/
theorem createLine_tracks (line : Bytes) (state : ListState) :
    Tracks outside (createLine k line state) (createListLine k line state) := by
  rw [← bind_pure (createListLine k line state)]
  refine (onOutside_tracks _).bind fun turn => ?_
  split
  · exact .beside (fun s => ⟨(), _, returns_takeNode s, rfl⟩) fun _ => .of_pure turn
  · exact .of_pure turn

/-- and so are all of them, -/
theorem createLoop_tracks (text : Bytes) (state : ListState) :
    Tracks outside (createLoop k (some text) state) (createListLoop k (some text) state) := by
  induction size : text.length using Nat.strong_induction_on generalizing text state with
  | _ size ih =>
      subst size
      have shorter := strsep_pending_lt text newline
      rw [createLoop, createListLoop]
      refine (createLine_tracks _ _).bind fun turn => ?_
      obtain ⟨next, pStr1⟩ := turn
      cases pStr1 with
      | none => exact .of_pure _
      | some str =>
          cases cut : (strsep (some text) newline).2 with
          | none =>
              simp only [Option.isSome_some, if_true, createLoop, createListLoop]
              exact .of_pure _
          | some remaining =>
              rw [cut] at shorter
              exact ih remaining.length (by simpa [pending] using shorter) remaining next rfl

/-- and the list as a whole. -/
theorem createList_tracks (top : List FileNode) (rdt : Bytes) (sz : Nat) :
    Tracks outside (createList k top rdt sz) (FsProtection.createList k top rdt sz) := by
  refine .beside (fun s => ⟨_, _, returns_vmalloc s, rfl⟩) fun tmpData => ?_
  unfold FsProtection.createList
  split
  · refine (createLoop_tracks _ _).bind fun outcome => ?_
    obtain ⟨state, rest⟩ := outcome
    refine .beside (fun s => ⟨(), _, returns_modify, rfl⟩) fun _ => ?_
    exact .beside (fun s => ⟨(), _, returns_modify, rfl⟩) fun _ => .of_pure _
  · exact .of_throw _

end Tracking

end VmState

end FsProtection
