import Mathlib.Data.Finset.Basic
import Mathlib.Data.Finset.Insert
import FsProtection.Communicate.RuleHeap

/-!
# `lkm_init` and `lkm_exit`

`lkm_init` patches the system call table, then allocates the buffers, creates the proc
entries and opens the netlink socket; each of these may fail. `lkm_exit` undoes all of
them. What can fail is a parameter, so is what the table, the buffers and `/proc` hold
before.
-/

namespace FsProtection

open Base

/-- The calls the module hooks. -/
inductive Hooked where
  | mkdir
  | chdir
  | rmdir
  | getdents64
  | read
  | write
  | open_
  | unlinkat
  | unlink
  | rename
  | renameat
deriving DecidableEq, Repr

/-- In the order of `lkm_init` and `lkm_exit`. -/
def Hooked.all : List Hooked :=
  [.mkdir, .chdir, .rmdir, .getdents64, .read, .write, .open_, .unlinkat, .unlink, .rename,
    .renameat]

theorem Hooked.mem_all (call : Hooked) : call ∈ Hooked.all := by
  cases call <;> decide

/-- What a build of the module fixes: the numbers `__NR_*` of the hooked calls, and the
addresses of the handlers `modified_*`. -/
structure Build where
  nr : Hooked → Nat
  modified : Hooked → UInt32
  distinct : Function.Injective nr

/-- `data_buf`, `ctrl_data_buf`, `noti_data_buf` and `raw_data_buff`. -/
inductive Buffer where
  | data
  | ctrlData
  | notiData
  | rawData
deriving DecidableEq, Repr

def Buffer.all : List Buffer := [.data, .ctrlData, .notiData, .rawData]

theorem Buffer.mem_all (which : Buffer) : which ∈ Buffer.all := by
  cases which <;> decide

theorem Buffer.mem_reverse (which : Buffer) : which ∈ Buffer.all.reverse :=
  List.mem_reverse.mpr which.mem_all

/-- `proc_protect`, `proc_ctrl` and `proc_noti`. -/
inductive ProcFile where
  | protect
  | ctrl
  | noti
deriving DecidableEq, Repr

/-- An entry of `/proc`, by the names that lead to it. -/
abbrev ProcPath := List Bytes

/-- `PROC_DIR_NAME`. -/
def procDirName : Bytes := lit "gsfileprotection"

/-- `PROC_PROTECT_NAME`, `PROC_CTRL_NAME` and `PROC_NOTI_NAME`. -/
def ProcFile.name : ProcFile → Bytes
  | .protect => lit "protect"
  | .ctrl => lit "ctrl"
  | .noti => lit "noti"

/-- What succeeds when the module is loaded. -/
structure LoadOutcomes where
  getSysCallTable : Bool
  vmalloc : Buffer → Bool
  procMkdir : Bool
  createProcEntry : ProcFile → Bool
  netlinkKernelCreate : Bool

/-- The buffers that `init_communicate` looks at are allocated. -/
def LoadOutcomes.buffered (o : LoadOutcomes) : Bool :=
  o.vmalloc .data && o.vmalloc .ctrlData && o.vmalloc .notiData

/-- The directory and its entries are created. -/
def LoadOutcomes.created (o : LoadOutcomes) : Bool :=
  o.procMkdir && (o.createProcEntry .protect && o.createProcEntry .ctrl && o.createProcEntry .noti)

def LoadOutcomes.complete (o : LoadOutcomes) : Bool :=
  o.buffered && o.created && o.netlinkKernelCreate

/-- The parts of the kernel the module takes hold of, and its globals. `procFiles` are
`proc_protect`, `proc_ctrl` and `proc_noti`; `served` tells which of these entries have the
module's handlers; `socket` is the netlink socket, `nlSk` the global that points to it. -/
structure LoadState (σ : Type) where
  cr0 : UInt32
  table : Nat → UInt32
  area : Heap Bytes
  procEntries : Finset ProcPath
  served : ProcFile → Bool
  socket : Bool
  syscallTable : Bool
  origin : Hooked → UInt32
  buffers : Buffer → Pointer
  procDir : Option ProcPath
  procFiles : ProcFile → Option ProcPath
  protectEnabeled : Bool
  nlSk : Bool
  rules : RuleHeap σ

namespace Load

variable {σ : Type}

abbrev LoadM (σ : Type) := Program (LoadState σ) Fault

def enomem : Int32 := 12

/-- The bit of `cr0` that protects read-only pages from the kernel itself. -/
def writeProtect : UInt32 := 0x10000

def withCr0 (val : UInt32) (s : LoadState σ) : LoadState σ :=
  { s with cr0 := val }

def clearAndReturnCr0 : LoadM σ UInt32 := do
  let s ← get
  set (withCr0 (s.cr0 &&& 0xfffeffff) s)
  return s.cr0

def setbackCr0 (val : UInt32) : LoadM σ Unit :=
  modify (withCr0 val)

/-- `syscall_table[number]`. -/
def loadEntry (number : Nat) : LoadM σ UInt32 := do
  let s ← get
  if s.syscallTable then return s.table number else throw .badPointer

/-- `syscall_table[number] = handler`. The table is on a read-only page, so the store
faults while writes are protected. -/
def storeEntry (number : Nat) (handler : UInt32) : LoadM σ Unit := do
  let s ← get
  if s.syscallTable ∧ s.cr0 &&& writeProtect = 0 then
    set { s with table := Function.update s.table number handler }
  else
    throw .badPointer

/-- `origin_call = syscall_table[__NR_call]`, for one call after the other. -/
def saveEntries (b : Build) (calls : List Hooked) : LoadM σ Unit :=
  calls.forM fun call => do
    let handler ← loadEntry (b.nr call)
    modify fun s => { s with origin := Function.update s.origin call handler }

/-- `syscall_table[__NR_call] = ...`, for one call after the other. -/
def storeEntries (b : Build) (handler : Hooked → UInt32) (calls : List Hooked) :
    LoadM σ Unit :=
  calls.forM fun call => storeEntry (b.nr call) (handler call)

def onArea {Value : Type} (program : Program (Heap Bytes) Fault Value) : LoadM σ Value :=
  onPart LoadState.area (fun area s => { s with area := area }) program

def onRules {Value : Type} (program : RuleHeap.RuleM σ Value) : LoadM σ Value :=
  onPart LoadState.rules (fun rules s => { s with rules := rules }) program

/-- A block of `BUFFER_SIZE` bytes as `memset` clears it; what `vmalloc` leaves in it does
not matter here. -/
def bufferBlock : Node Bytes := ⟨List.replicate bufferSize 0, none⟩

/-- One of the globals `data_buf` to `raw_data_buff` is set to what `vmalloc` returns. -/
def vmalloc (o : LoadOutcomes) (which : Buffer) : LoadM σ Unit := do
  if o.vmalloc which then
    let address ← onArea (Heap.malloc bufferBlock)
    modify fun s => { s with buffers := Function.update s.buffers which (some address) }
  else
    modify fun s => { s with buffers := Function.update s.buffers which none }

/-- `memset` of a whole buffer to zero. -/
def memset (which : Buffer) : LoadM σ Unit := do
  let s ← get
  onArea (Heap.store .badPointer (s.buffers which) bufferBlock)

/-- `vfree` of a buffer, which does nothing to NULL. -/
def vfree (which : Buffer) : LoadM σ Unit := do
  let s ← get
  match s.buffers which with
  | none => return
  | some address => onArea (Heap.free .badPointer address)

/-- The entry of a name in a directory; NULL stands for `/proc` itself. -/
def procEntry (name : Bytes) (parent : Option ProcPath) : ProcPath :=
  parent.getD [] ++ [name]

/-- The state after `proc_dir = proc_mkdir(PROC_DIR_NAME, NULL)`. -/
def withProcDir (o : LoadOutcomes) (s : LoadState σ) : LoadState σ :=
  if o.procMkdir then
    { s with
      procEntries := insert (procEntry procDirName none) s.procEntries
      procDir := some (procEntry procDirName none) }
  else { s with procDir := none }

def procMkdir (o : LoadOutcomes) : LoadM σ Unit :=
  modify (withProcDir o)

/-- The state after `create_proc_entry` in `proc_dir`, for one of the globals
`proc_protect` to `proc_noti`. -/
def withProcFile (o : LoadOutcomes) (file : ProcFile) (s : LoadState σ) : LoadState σ :=
  if o.createProcEntry file then
    { s with
      procEntries := insert (procEntry file.name s.procDir) s.procEntries
      procFiles := Function.update s.procFiles file (some (procEntry file.name s.procDir)) }
  else { s with procFiles := Function.update s.procFiles file none }

def createProcEntry (o : LoadOutcomes) (file : ProcFile) : LoadM σ Unit :=
  modify (withProcFile o file)

/-- The state after `remove_proc_entry` of a file in `proc_dir`. -/
def withoutProcFile (file : ProcFile) (s : LoadState σ) : LoadState σ :=
  { s with procEntries := s.procEntries.erase (procEntry file.name s.procDir) }

def removeProcFile (file : ProcFile) : LoadM σ Unit :=
  modify (withoutProcFile file)

/-- The state after `remove_proc_entry(PROC_DIR_NAME, NULL)`. -/
def withoutProcDir (s : LoadState σ) : LoadState σ :=
  { s with procEntries := s.procEntries.erase (procEntry procDirName none) }

def removeProcDir : LoadM σ Unit :=
  modify withoutProcDir

/-- The handlers are stored through `proc_protect` or `proc_ctrl`. -/
def serve (file : ProcFile) : LoadM σ Unit := do
  let s ← get
  if (s.procFiles file).isSome then
    set { s with served := Function.update s.served file true }
  else
    throw .badPointer

/-- The check of `proc_protect` to `proc_noti`, and what follows it. -/
def serveProcFiles : LoadM σ Int32 := do
  let s ← get
  if s.procFiles .protect = none ∨ s.procFiles .ctrl = none ∨ s.procFiles .noti = none then
    removeProcFile .protect
    removeProcFile .ctrl
    removeProcFile .noti
    return -1
  else
    serve .protect
    serve .ctrl
    modify fun s => { s with protectEnabeled := true }
    return 0

/-- The rest of `init_communicate` once `proc_dir` is there. -/
def createProcFiles (o : LoadOutcomes) : LoadM σ Int32 := do
  createProcEntry o .protect
  createProcEntry o .ctrl
  createProcEntry o .noti
  serveProcFiles

/-- The rest of `init_communicate` once the buffers are cleared. -/
def createProc (o : LoadOutcomes) : LoadM σ Int32 := do
  procMkdir o
  let s ← get
  if s.procDir = none then
    removeProcDir
    return -1
  else
    createProcFiles o

def allocateBuffers (o : LoadOutcomes) : LoadM σ Unit := do
  vmalloc o .data
  vmalloc o .ctrlData
  vmalloc o .notiData
  vmalloc o .rawData

def clearBuffers : LoadM σ Unit := do
  memset .data
  memset .ctrlData
  memset .notiData

/-- The state after `fileList_root = NULL`. -/
def withNoRules (s : LoadState σ) : LoadState σ :=
  { s with rules := { s.rules with root := none } }

def initCommunicate (o : LoadOutcomes) : LoadM σ Int32 := do
  modify withNoRules
  allocateBuffers o
  let s ← get
  -- `raw_data_buff` is not looked at.
  if s.buffers .data = none ∨ s.buffers .ctrlData = none ∨ s.buffers .notiData = none then
    return -enomem
  else
    clearBuffers
    createProc o

def freeBuffers : LoadM σ Unit := do
  vfree .data
  vfree .ctrlData
  vfree .notiData
  vfree .rawData

def cleanupCommunicate : LoadM σ Unit := do
  onRules RuleHeap.destroy
  freeBuffers
  removeProcFile .protect
  removeProcFile .ctrl
  removeProcFile .noti
  removeProcDir

/-- The state after `nl_sk = netlink_kernel_create(...)`. -/
def withSocket (o : LoadOutcomes) (s : LoadState σ) : LoadState σ :=
  { s with nlSk := o.netlinkKernelCreate, socket := s.socket || o.netlinkKernelCreate }

def notificationInit (o : LoadOutcomes) : LoadM σ Int32 := do
  modify (withSocket o)
  let s ← get
  if s.nlSk then return 0 else return -1

def notificationExit : LoadM σ Unit := do
  let s ← get
  if s.nlSk then
    if s.socket then set { s with socket := false } else throw .badPointer

/-- What `lkm_init` does to the table it found. -/
def patch (b : Build) : LoadM σ Unit := do
  saveEntries b Hooked.all
  let origCr0 ← clearAndReturnCr0
  storeEntries b b.modified Hooked.all
  setbackCr0 origCr0

/-- What `lkm_exit` does to the table. -/
def unpatch (b : Build) : LoadM σ Unit := do
  let origCr0 ← clearAndReturnCr0
  let s ← get
  storeEntries b s.origin Hooked.all
  setbackCr0 origCr0

/-- What `lkm_init` does once the table is patched. -/
def openChannels (o : LoadOutcomes) : LoadM σ Int32 := do
  let communicate ← initCommunicate o
  if communicate ≠ 0 then
    return -1
  else
    let notification ← notificationInit o
    if notification ≠ 0 then return -1 else return 0

/-- The state after `syscall_table = get_sys_call_table()`. -/
def withTable (o : LoadOutcomes) (s : LoadState σ) : LoadState σ :=
  { s with syscallTable := o.getSysCallTable }

def lkmInit (b : Build) (o : LoadOutcomes) : LoadM σ Int32 := do
  modify (withTable o)
  let s ← get
  if s.syscallTable then
    patch b
    openChannels o
  else
    return -1

def lkmExit (b : Build) : LoadM σ Unit := do
  unpatch b
  cleanupCommunicate
  notificationExit

end Load

end FsProtection
