import FsProtection.Base.Program
import FsProtection.Communicate.Rules

/-!
# The kernel around the module

`Kernel` collects what the module calls and does not define: the original system
calls, the allocators, the file table, `d_path` and `filp_open`. Each is a
function of the state of the rest of the machine, an arbitrary type, so whatever
an allocation or a user copy may do is some choice of that state. The target is
32-bit Linux 2.6.32: `int`, `long` and pointers are 32 bits wide.

`Machine` is the state one hooked call runs on, and records what the results about
hooks speak of: references and blocks taken, messages sent, originals called.
-/

namespace FsProtection

open Base

/-- `PATH_MAX` -/
def pathMax : Nat := 4096

/-- `PAGE_SIZE` -/
def pageSize : Nat := 4096

/-- The largest block `kmalloc` serves on the target. -/
def kmallocMaxSize : Nat := 4194304

/-- `EACCES` -/
def eacces : Int32 := 13

/-- `EFAULT` -/
def efault : Int := 14

/-- `AT_FDCWD` -/
def atFdcwd : Int32 := -100

/-- The hooked calls. A user string is given by the bytes that can be read from its
pointer; the caller's data buffer is `Machine.userBuf`. -/
inductive Syscall where
  | mkdir (path : Bytes) (mode : UInt32)
  | chdir (path : Bytes)
  | rmdir (pathname : Bytes)
  | getdents64 (fd : UInt32) (count : UInt32)
  | read (fd : UInt32) (size : UInt32)
  | write (fd : Int32) (count : UInt32)
  | open_ (pathname : Bytes) (flags : Int32) (mode : UInt32)
  | unlinkat (dirfd : Int32) (pathname : Bytes) (flags : Int32)
  | unlink (pathname : Bytes)
  | rename (old new : Bytes)
  | renameat (olddirfd : Int32) (oldpath : Bytes) (newdirfd : Int32) (newpath : Bytes)
deriving DecidableEq

/-- An open file: its identity and the inode of its dentry. -/
structure File where
  id : Nat
  inode : InodeAddr
deriving DecidableEq

/-- What the module calls outside its own sources. -/
structure Kernel (σ : Type) where
  /-- The original system calls, acting on the rest of the machine and the caller's
  data buffer. -/
  origin : Syscall → σ → Bytes → Int32 × σ × Bytes
  /-- `filp_open`; `none` is an error pointer. -/
  filpOpen : Bytes → σ → Option File × σ
  filpClose : File → σ → σ
  /-- `fget`; `none` is NULL. -/
  fget : UInt32 → σ → Option File
  /-- `i_ino` of the inode at an address. -/
  iIno : InodeAddr → σ → UInt32
  /-- The path `d_path` spells for the working directory. -/
  dPath : σ → Bytes
  /-- `kmalloc`: for the n-th call and a size, NULL or the old contents of a block. -/
  kmalloc : σ → Nat → Nat → Option Bytes
  /-- How much of the caller's data buffer can be read, and written. -/
  readable : σ → Nat
  writable : σ → Nat
  /-- The bytes that can be used behind a pointer from `vmalloc`. -/
  vmallocRoom : Nat → Nat
  /-- The bytes of a node's members after `filePath` up to their first NUL, which a
  scan of a full `filePath` goes on to read. -/
  spill : FileNode → Bytes
  dPathClean : ∀ state, (0 : Byte) ∉ dPath state
  kmallocLength : ∀ {state index size bytes},
    kmalloc state index size = some bytes → bytes.length = size
  kmallocLimit : ∀ {state index size}, kmallocMaxSize < size → kmalloc state index size = none
  vmallocCovers : ∀ size, size ≤ vmallocRoom size
  /-- `vmalloc` maps whole pages. -/
  vmallocPages : ∀ size, 0 < size → pageSize ≤ vmallocRoom size
  spillClean : ∀ node, (0 : Byte) ∉ spill node
  /-- Two pointers and the low byte of `type`, whose other bytes are zero. -/
  spillShort : ∀ node, (spill node).length ≤ 9

/-- A block from `kmalloc`: the call that made it and its contents. -/
structure Block where
  id : Nat
  bytes : Bytes
deriving DecidableEq

/-- What a hook takes and has to give back. -/
inductive Resource where
  | block (id : Nat)
  | file (id : Nat)
  | pwd
deriving DecidableEq

/-- The state a hooked call runs on. -/
structure Machine (σ : Type) where
  outside : σ
  userBuf : Bytes
  kmallocs : Nat
  held : List Resource
  messages : List Bytes
  calls : List Syscall
deriving DecidableEq

/-- The state a call of the current process starts in. -/
def Machine.start {σ : Type} (outside : σ) (userBuf : Bytes) : Machine σ where
  outside := outside
  userBuf := userBuf
  kmallocs := 0
  held := []
  messages := []
  calls := []

/-- A hook, which may stop at a fault. -/
abbrev HookM (σ : Type) := Program (Machine σ) Fault

variable {σ : Type} (k : Kernel σ)

/-- `kmalloc (size, GFP_KERNEL)`. -/
def kmalloc (size : Nat) : HookM σ (Option Block) := do
  let m ← get
  match k.kmalloc m.outside m.kmallocs size with
  | none =>
      set { m with kmallocs := m.kmallocs + 1 }
      return none
  | some bytes =>
      set { m with kmallocs := m.kmallocs + 1, held := .block m.kmallocs :: m.held }
      return some ⟨m.kmallocs, bytes⟩

/-- `kfree`, which ignores NULL. -/
def kfree : Option Block → HookM σ Unit
  | none => pure ()
  | some block => modify fun m => { m with held := m.held.erase (.block block.id) }

/-- `fget (fd)`. -/
def fget (fd : UInt32) : HookM σ (Option File) := do
  let m ← get
  match k.fget fd m.outside with
  | none => return none
  | some file =>
      set { m with held := .file file.id :: m.held }
      return some file

/-- `fput`, which decrements a counter in its argument. -/
def fput : Option File → HookM σ Unit
  | none => throw .badPointer
  | some file => modify fun m => { m with held := m.held.erase (.file file.id) }

/-- `path_get (&pwd)`. -/
def pathGet : HookM σ Unit :=
  modify fun m => { m with held := .pwd :: m.held }

/-- `copy_from_user` of the leading bytes of the caller's data buffer: what lands in
the destination, and how many bytes could not be copied. Those are zero-filled. -/
def copyFromUser (count : Nat) : HookM σ (Bytes × Nat) := do
  let m ← get
  let copied := min count (min (k.readable m.outside) m.userBuf.length)
  return (m.userBuf.take copied ++ List.replicate (count - copied) 0, count - copied)

/-- `copy_to_user` to the start of the caller's data buffer. -/
def copyToUser (bytes : Bytes) : HookM σ Nat := do
  let m ← get
  let copied := min bytes.length (min (k.writable m.outside) m.userBuf.length)
  set { m with userBuf := bytes.take copied ++ m.userBuf.drop copied }
  return bytes.length - copied

/-- A call through one of the `origin_` pointers. -/
def callOrigin (call : Syscall) : HookM σ Int32 := do
  let m ← get
  let answer := k.origin call m.outside m.userBuf
  set { m with outside := answer.2.1, userBuf := answer.2.2, calls := m.calls ++ [call] }
  return answer.1

/-- The string at a pointer a hook passes to `strcat`, `strlen` or `printk`. -/
def readString : Option Block → HookM σ Bytes
  | none => throw .badPointer
  | some block => if Terminated block.bytes then return cstr block.bytes else throw .overrun

/-- `strcat` to a region. -/
def strcatRegion (dst text : Bytes) : HookM σ Bytes :=
  match strcat dst text with
  | none => throw .overrun
  | some out => return out

/-- The region a scan of a node's `filePath` reads. -/
def Kernel.filePathRegion (node : FileNode) : Bytes :=
  node.filePath.1 ++ (k.spill node ++ [0])

/-- A node's `filePath` as the C string functions read it. -/
def Kernel.pathOf (node : FileNode) : Bytes :=
  cstr (k.filePathRegion node)

section Effects

variable {k} {m : Machine σ}

/-- A block that is granted is held by the hook. -/
theorem returns_kmalloc_some {size : Nat} {bytes : Bytes}
    (allocated : k.kmalloc m.outside m.kmallocs size = some bytes) :
    Returns (kmalloc k size) m (some ⟨m.kmallocs, bytes⟩)
      { m with kmallocs := m.kmallocs + 1, held := .block m.kmallocs :: m.held } := by
  simp [kmalloc, returns_bind_iff, allocated]

theorem returns_kmalloc_none {size : Nat}
    (refused : k.kmalloc m.outside m.kmallocs size = none) :
    Returns (kmalloc k size) m none { m with kmallocs := m.kmallocs + 1 } := by
  simp [kmalloc, returns_bind_iff, refused]

@[simp] theorem returns_kfree_none_iff {value : Unit} {after : Machine σ} :
    Returns (kfree none) m value after ↔ after = m := by
  simp [kfree]

@[simp] theorem returns_kfree_some_iff {block : Block} {value : Unit} {after : Machine σ} :
    Returns (kfree (some block)) m value after ↔
      after = { m with held := m.held.erase (.block block.id) } := by
  simp [kfree]

/-- A file that is open is held until `fput`. -/
theorem returns_fget_some {fd : UInt32} {file : File} (found : k.fget fd m.outside = some file) :
    Returns (fget k fd) m (some file) { m with held := .file file.id :: m.held } := by
  simp [fget, returns_bind_iff, found]

theorem returns_fget_none {fd : UInt32} (closed : k.fget fd m.outside = none) :
    Returns (fget k fd) m none m := by
  simp [fget, returns_bind_iff, closed]

/-- `fput` of NULL does not return. -/
@[simp] theorem returns_fput_none_iff {value : Unit} {after : Machine σ} :
    Returns (fput none) m value after ↔ False := by
  simp [fput]

@[simp] theorem returns_fput_some_iff {file : File} {value : Unit} {after : Machine σ} :
    Returns (fput (some file)) m value after ↔
      after = { m with held := m.held.erase (.file file.id) } := by
  simp [fput]

/-- The original call works on the kernel and the buffer of the caller. -/
@[simp] theorem returns_callOrigin_iff {call : Syscall} {ret : Int32} {after : Machine σ} :
    Returns (callOrigin k call) m ret after ↔
      ret = (k.origin call m.outside m.userBuf).1 ∧
      after = { m with
        outside := (k.origin call m.outside m.userBuf).2.1
        userBuf := (k.origin call m.outside m.userBuf).2.2
        calls := m.calls ++ [call] } := by
  simp [callOrigin, returns_bind_iff, and_comm]

@[simp] theorem returns_readString_none_iff {text : Bytes} {after : Machine σ} :
    Returns (readString none) m text after ↔ False := by
  simp [readString]

/-- A string ends inside its block, or is not read. -/
@[simp] theorem returns_readString_some_iff {block : Block} {text : Bytes} {after : Machine σ} :
    Returns (readString (some block)) m text after ↔
      Terminated block.bytes ∧ text = cstr block.bytes ∧ after = m := by
  by_cases terminated : Terminated block.bytes <;> simp [readString, terminated]

@[simp] theorem returns_strcatRegion_iff {dst text out : Bytes} {after : Machine σ} :
    Returns (strcatRegion dst text) m out after ↔ strcat dst text = some out ∧ after = m := by
  cases appended : strcat dst text <;> simp [strcatRegion, appended, eq_comm]

theorem strcatRegion_eq (dst text : Bytes) :
    (strcatRegion dst text : HookM σ Bytes) = liftM (strcatTo dst text) := by
  unfold strcatRegion strcatTo
  cases strcat dst text <;> rfl

@[simp] theorem faults_kfree_iff {path : Option Block} {fault : Fault} :
    Faults (kfree path) m fault ↔ False := by
  cases path <;> simp [kfree]

@[simp] theorem faults_readString_none_iff {fault : Fault} :
    Faults (readString none) m fault ↔ fault = .badPointer := by
  simp [readString]

@[simp] theorem faults_readString_some_iff {block : Block} {fault : Fault} :
    Faults (readString (some block)) m fault ↔ ¬ Terminated block.bytes ∧ fault = .overrun := by
  by_cases terminated : Terminated block.bytes <;> simp [readString, terminated]

/-- The bytes behind `filePath` in a node end the string at the latest. -/
theorem filePathRegion_terminated (node : FileNode) : Terminated (k.filePathRegion node) := by
  simp [Terminated, Kernel.filePathRegion]

/-- The path of a node whose field is terminated is the string in the field. -/
theorem pathOf_eq {node : FileNode} (terminated : Terminated node.filePath.1) :
    k.pathOf node = cstr node.filePath.1 :=
  cstr_append_of_terminated terminated _

theorem pathOf_clean (node : FileNode) : (0 : Byte) ∉ k.pathOf node :=
  zero_notMem_cstr

/-- What a node's `filePath` is read as leaves the field by nine bytes at most. -/
theorem pathOf_length_le (node : FileNode) : (k.pathOf node).length ≤ filepathSize + 9 := by
  have within := cstr_length_lt (filePathRegion_terminated (k := k) node)
  have short := k.spillShort node
  simp only [Kernel.filePathRegion, List.length_append, SizedBytes.length, List.length_cons,
    List.length_nil] at within
  unfold Kernel.pathOf Kernel.filePathRegion
  omega

/-- The path of the node `create_list` makes for a short path is that path. -/
theorem pathOf_make {path : Bytes} (clean : (0 : Byte) ∉ path) (short : path.length < filepathSize)
    (inode : InodeAddr) (type : ProtectType) : k.pathOf (.make path inode type) = path := by
  rw [pathOf_eq (strncpy_terminated short)]
  exact cstr_strncpy clean (Nat.le_of_lt short)

end Effects

end FsProtection
