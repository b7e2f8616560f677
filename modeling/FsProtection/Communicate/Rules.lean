import FsProtection.Base.CString

/-!
# The data of `communicate.c`

Protection types, the nodes of `fileList_root` and the globals the write handlers
share. A list of nodes stands for the `next` chain.
-/

namespace FsProtection

open Base

/-- How a call into the module can go wrong below the level of return codes. -/
inductive Fault where
  /-- A NULL pointer, or an error pointer, is dereferenced. -/
  | badPointer
  /-- An access leaves the block or array it started in. -/
  | overrun
deriving DecidableEq, Repr

/-- A write of some bytes through a pointer into a region. -/
def storeAt (region : Bytes) (offset : Nat) (bytes : Bytes) : Except Fault Bytes :=
  match store region offset bytes with
  | none => .error .overrun
  | some out => .ok out

theorem storeAt_eq_ok {region bytes out : Bytes} {offset : Nat} :
    storeAt region offset bytes = .ok out ↔ store region offset bytes = some out := by
  unfold storeAt
  cases store region offset bytes <;> simp

/-- `strcat` to a pointer into a block. -/
def strcatTo (dst text : Bytes) : Except Fault Bytes :=
  match strcat dst text with
  | none => .error .overrun
  | some out => .ok out

section Appending

variable {block text piece : Bytes} {size : Nat}

theorem strcatTo_fits (spells : Spells block size text) (clean : (0 : Byte) ∉ piece)
    (fits : text.length + piece.length < size) :
    ∃ out, strcatTo block piece = .ok out ∧ Spells out size (text ++ piece) := by
  obtain ⟨out, appended, spellsOut⟩ := spells.append clean fits
  exact ⟨out, by rw [strcatTo, appended], spellsOut⟩

theorem strcatTo_overruns (spells : Spells block size text)
    (long : ¬ text.length + piece.length < size) : strcatTo block piece = .error .overrun := by
  rw [strcatTo, spells.append_overruns long]

/-- What an append that succeeds needed and left. -/
theorem strcatTo_spells (spells : Spells block size text) (clean : (0 : Byte) ∉ piece)
    {out : Bytes} (appended : strcatTo block piece = .ok out) :
    Spells out size (text ++ piece) := by
  by_cases fits : text.length + piece.length < size
  · obtain ⟨other, ran, spellsOther⟩ := strcatTo_fits spells clean fits
    obtain rfl := Except.ok.inj (appended.symm.trans ran)
    exact spellsOther
  · rw [strcatTo_overruns spells fits] at appended
    cases appended

end Appending

def filepathSize : Nat := 256

def filelistSize : Nat := 256

/-- `BUFFER_SIZE`. -/
def bufferSize : Nat := filepathSize * filelistSize

/-- The address of a `struct inode`. -/
abbrev InodeAddr := Nat

inductive ProtectType where
  | none
  | read
  | write
  | hide
  | rename
  | open_
  | del
  | mkdir
deriving DecidableEq, Repr

/-- The letter comparisons of `protectTypeFromStr`, on a string that is there. -/
def protectTypeOfString (str : Bytes) : ProtectType :=
  if str = lit "r" then .read
  else if str = lit "w" then .write
  else if str = lit "h" then .hide
  else if str = lit "o" then .open_
  else if str = lit "d" then .del
  else if str = lit "n" then .rename
  else if str = lit "m" then .mkdir
  else .none

/-- `protectTypeFromStr`; `strcmp` reads its argument, so NULL faults. -/
def protectTypeFromStr : Option Bytes → Except Fault ProtectType
  | none => .error .badPointer
  | some str => .ok (protectTypeOfString str)

/-- A node of `struct fileList`. -/
structure FileNode where
  filePath : SizedBytes filepathSize
  inode : InodeAddr
  type : ProtectType
deriving DecidableEq

/-- The `filePath` field after `strncpy` of a path. -/
def pathField (path : Bytes) : SizedBytes filepathSize :=
  ⟨strncpy filepathSize path, strncpy_length _ _⟩

/-- The node `create_list` fills in for a path, its opened inode and its type. -/
def FileNode.make (path : Bytes) (inode : InodeAddr) (type : ProtectType) : FileNode where
  filePath := pathField path
  inode := inode
  type := type

/-- The globals of `communicate.c` that its handlers and lookups use. -/
structure Globals where
  fileListRoot : List FileNode
  protectEnabeled : Bool
  dataBuf : SizedBytes bufferSize
  rawDataBuff : SizedBytes bufferSize
deriving DecidableEq

/-- The globals `init_communicate` leaves when its buffers were allocated:
`raw_data_buff` is the one buffer it does not clear. -/
def Globals.initial (rawDataBuff : SizedBytes bufferSize) : Globals where
  fileListRoot := []
  protectEnabeled := true
  dataBuf := SizedBytes.zeros bufferSize
  rawDataBuff := rawDataBuff

end FsProtection
