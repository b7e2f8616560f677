import FsProtection.Hooks.Decision
import FsProtection.Kernel.Dirent

/-!
# `modified_getdents64`

The hook lets the original fill the caller's buffer, copies it, walks the copy by
`d_reclen` and copies the rest back. `Scan` is the state of the walk; on a buffer of
records it ends with `filteredBytes`.
-/

namespace FsProtection

open Base

/-- The variables of the walk: the copy at `dirp2`, the offsets of `head` and `prev` in
it, and `modified_buf_length`. -/
structure Scan where
  dirp2 : Bytes
  head : Nat
  prev : Option Nat
  modifiedBufLength : UInt32

/-- Read a little-endian field of a record. -/
def loadField {σ : Type} (region : Bytes) (offset width : Nat) : HookM σ Nat :=
  match load region offset width with
  | none => throw .overrun
  | some field => return leNat field

section Model

variable {σ : Type} (k : Kernel σ) (globals : Globals)

/-- What the walk does with a hidden record at `dirp3`. -/
def hideRecord (scan : Scan) (dirp3 recordLength : Nat) : HookM σ Scan := do
  match scan.prev with
  | none =>
      return { scan with
        head := dirp3 + recordLength
        modifiedBufLength := scan.modifiedBufLength - recordLength.toUInt32 }
  | some prev =>
      let reclen ← loadField scan.dirp2 (prev + 16) 2
      let bytes ← (storeAt scan.dirp2 (prev + 16) (leBytes 2 (reclen + recordLength)) :
        Except Fault Bytes)
      let bytes ← (storeAt bytes dirp3 (List.replicate recordLength 0) : Except Fault Bytes)
      return { scan with dirp2 := bytes }

/-- The walk over the copy, `dirp3` the offset of the next record. -/
def scanLoop (bufLength dirp3 : Nat) (scan : Scan) : HookM σ Scan := do
  if dirp3 < bufLength then
    let recordLength ← loadField scan.dirp2 (dirp3 + 16) 2
    if 0 < recordLength then
      let ino ← loadField scan.dirp2 dirp3 8
      let scan ←
        if ← isInoProtected k globals ino.toUInt32 .hide then hideRecord scan dirp3 recordLength
        else pure { scan with prev := some dirp3 }
      scanLoop bufLength (dirp3 + recordLength) scan
    else return scan
  else return scan
termination_by bufLength - dirp3

/-- The hook from the copy of the caller's buffer on. -/
def filterDirents (bufLength : UInt32) (dirp2 : Block) : HookM σ Int32 := do
  let copy ← copyFromUser k bufLength.toNat
  if copy.2 ≠ 0 then
    return bufLength.toInt32
  else
    let scan ← scanLoop k globals bufLength.toNat 0 ⟨copy.1, 0, none, bufLength⟩
    match load scan.dirp2 scan.head scan.modifiedBufLength.toNat with
    | none => throw .overrun
    | some shown =>
        let _ ← copyToUser k shown
        kfree (some dirp2)
        return scan.modifiedBufLength.toInt32

/-- The hook from the answer of the original on. `buf_length` is unsigned, so the test
for an error catches zero only, and an error code is a size for `kmalloc`. -/
def copyDirents (bufLength : UInt32) : HookM σ Int32 := do
  if bufLength ≤ 0 then
    return bufLength.toInt32
  else
    match ← kmalloc k bufLength.toNat with
    | none => return bufLength.toInt32
    | some dirp2 => filterDirents k globals bufLength dirp2

def modifiedGetdents64 (fd count : UInt32) : HookM σ Int32 := do
  let answer ← callOrigin k (.getdents64 fd count)
  copyDirents k globals answer.toUInt32

end Model

section Walk

variable {σ : Type} (k : Kernel σ) (globals : Globals) (outside : σ)

/-- A record whose number, cut to the width of `unsigned long`, is that of the inode of
a hide rule. -/
def Kernel.hides (d : Dirent) : Bool :=
  globals.fileListRoot.any (k.inoMatches outside d.ino.toUInt32 .hide)

/-- The messages the lookups of a walk send. -/
def Kernel.hideNotices (records : List Dirent) : List Bytes :=
  records.flatMap fun d =>
    k.firstNotice (k.inoMatches outside d.ino.toUInt32 .hide) globals.fileListRoot

theorem Kernel.hideNotices_cons (d : Dirent) (rest : List Dirent) :
    k.hideNotices globals outside (d :: rest) =
      k.hideNotices globals outside [d] ++ k.hideNotices globals outside rest := by
  simp [Kernel.hideNotices]

variable {k globals outside} {m : Machine σ}

def Machine.notified (m : Machine σ) (messages : List Bytes) : Machine σ :=
  { m with messages := m.messages ++ messages }

@[simp] theorem notified_nil : m.notified [] = m := by simp [Machine.notified]

@[simp] theorem notified_notified (first second : List Bytes) :
    (m.notified first).notified second = m.notified (first ++ second) := by
  simp [Machine.notified]

theorem returns_loadField {region field : Bytes} {offset width : Nat}
    (loaded : load region offset width = some field) :
    Returns (loadField region offset width) m (leNat field) m := by
  simp [loadField, loaded]

theorem leNat_reclen (value : Nat) : leNat (leBytes 2 value) = value % 65536 :=
  leNat_leBytes 2 value

/-- One turn of the walk, on a record the copy holds. -/
theorem scanLoop_turn {front back : Bytes} {d : Dirent} {scan : Scan} {bufLength : Nat}
    (here : m.outside = outside) (holds : scan.dirp2 = front ++ (d.bytes ++ back))
    (inside : front.length < bufLength) {out : Scan} {after : Machine σ} :
    Returns (scanLoop k globals bufLength front.length scan) m out after ↔
      Returns (do
        let scan ←
          if k.hides globals outside d then hideRecord scan front.length d.size
          else pure { scan with prev := some front.length }
        scanLoop k globals bufLength (front.length + d.size) scan)
        (m.notified (k.hideNotices globals outside [d])) out after := by
  have lengthField := returns_loadField (m := m) (d.load_reclen front back d.size)
  rw [leNat_reclen, Nat.mod_eq_of_lt d.size_lt] at lengthField
  have inoField := returns_loadField (m := m) (d.load_ino front back d.size)
  rw [leNat_leBytes_eight] at inoField
  have looked : Returns (isInoProtected k globals d.ino.toNat.toUInt32 .hide) m _ _ :=
    returns_isInoProtected _
  subst here
  rw [scanLoop, if_pos inside, holds]
  have sameBytes : d.bytes = d.bytesWith d.size := rfl
  rw [sameBytes, returns_bind_of_returns lengthField, if_pos d.size_pos,
    returns_bind_of_returns inoField, returns_bind_of_returns looked]
  simp [Kernel.hides, Kernel.hideNotices, Machine.notified]

/-- A hidden record with no shown one before it moves `head`. -/
theorem hideRecord_head {scan : Scan} (noPrev : scan.prev = none) (dirp3 : Nat) (d : Dirent) :
    Returns (hideRecord scan dirp3 d.size) m { scan with
      head := dirp3 + d.size
      modifiedBufLength := scan.modifiedBufLength - d.size.toUInt32 } m := by
  simp [hideRecord, noPrev]

theorem toNat_sub_size {left : UInt32} {d : Dirent} (covers : d.size ≤ left.toNat) :
    (left - d.size.toUInt32).toNat = left.toNat - d.size := by
  have small : d.size.toUInt32.toNat = d.size := by
    have bounded := d.size_lt
    simp only [Nat.toUInt32_eq, UInt32.toNat_ofNat']
    omega
  rw [UInt32.toNat_sub_of_le _ _ (UInt32.le_iff_toNat_le.mpr (by omega)), small]

/-- A hidden record behind a shown one is taken over by it. -/
theorem hideRecord_behind {front back : Bytes} {prev d : Dirent} {extra : Nat} {scan : Scan}
    (holds : scan.dirp2 = front ++ (prev.bytesWith (prev.size + extra) ++
      (List.replicate extra 0 ++ (d.bytes ++ back))))
    (behind : scan.prev = some front.length) {dirp3 : Nat}
    (here : dirp3 = front.length + prev.size + extra) :
    Returns (hideRecord scan dirp3 d.size) m { scan with
      dirp2 := front ++ (prev.bytesWith (prev.size + (extra + d.size)) ++
        (List.replicate (extra + d.size) 0 ++ back)) } m := by
  have lengthField := returns_loadField (m := m)
    (prev.load_reclen front (List.replicate extra 0 ++ (d.bytes ++ back)) (prev.size + extra))
  have grown : prev.bytesWith ((prev.size + extra) % 65536 + d.size) =
      prev.bytesWith (prev.size + (extra + d.size)) := by
    rw [← prev.bytesWith_mod, Nat.mod_add_mod, prev.bytesWith_mod, Nat.add_assoc]
  have lengthStored := prev.store_reclen front (List.replicate extra 0 ++ (d.bytes ++ back))
    (prev.size + extra) ((prev.size + extra) % 65536 + d.size)
  rw [grown] at lengthStored
  have place : (front ++ (prev.bytesWith (prev.size + (extra + d.size)) ++
      List.replicate extra 0)).length = dirp3 := by
    simp [here, Nat.add_assoc]
  have cleared : (List.replicate d.size (0 : Byte)).length = d.bytes.length := by
    simp [Dirent.bytes]
  have wiped := store_append (front ++ (prev.bytesWith (prev.size + (extra + d.size)) ++
    List.replicate extra 0)) back cleared
  rw [place] at wiped
  simp only [List.append_assoc] at wiped
  unfold hideRecord
  simp only [behind, holds]
  rw [returns_bind_of_returns lengthField, leNat_reclen]
  simp only [returns_bind_iff, returns_lift_iff, returns_pure_iff, storeAt_eq_ok]
  refine ⟨_, m, ⟨lengthStored, rfl⟩, _, m, ⟨wiped, rfl⟩, ?_, rfl⟩
  rw [List.replicate_add]
  simp only [List.append_assoc]

/-- The walk behind a shown record ends with the bytes it and the records behind it are
to show. -/
theorem scanLoop_shown (records : List Dirent) (prev : Dirent) (extra : Nat) (front : Bytes)
    (scan : Scan) {dirp3 bufLength : Nat} (here : m.outside = outside)
    (holds : scan.dirp2 = front ++ (prev.bytesWith (prev.size + extra) ++
      (List.replicate extra 0 ++ direntBytes records)))
    (behind : scan.prev = some front.length) (place : dirp3 = front.length + prev.size + extra)
    (size : bufLength = dirp3 + totalSize records) :
    ∃ last, Returns (scanLoop k globals bufLength dirp3 scan) m
      { scan with
        dirp2 := front ++ shownBytes (k.hides globals outside) prev extra records
        prev := some last }
      (m.notified (k.hideNotices globals outside records)) := by
  induction records generalizing prev extra front scan dirp3 m with
  | nil =>
      refine ⟨front.length, ?_⟩
      rw [scanLoop, if_neg (by simp [size])]
      have whole : scan.dirp2 = front ++ shownBytes (k.hides globals outside) prev extra [] := by
        simpa [shownBytes] using holds
      rw [returns_pure_iff, ← whole, ← behind]
      exact ⟨rfl, notified_nil⟩
  | cons d rest ih =>
      rw [direntBytes_cons] at holds
      rw [totalSize_cons] at size
      obtain ⟨passed, isPassed⟩ : ∃ passed, passed =
        front ++ (prev.bytesWith (prev.size + extra) ++ List.replicate extra 0) := ⟨_, rfl⟩
      have turn : scan.dirp2 = passed ++ (d.bytes ++ direntBytes rest) := by
        rw [isPassed]
        simpa only [List.append_assoc] using holds
      have length : passed.length = dirp3 := by simp [isPassed, place, Nat.add_assoc]
      have inside : passed.length < bufLength := by
        have positive := d.size_pos
        omega
      simp only [← length, scanLoop_turn here turn inside,
        k.hideNotices_cons globals outside d rest, ← notified_notified]
      rw [length]
      by_cases hide : k.hides globals outside d
      · rw [if_pos hide, shownBytes, if_pos hide]
        simp only [returns_bind_of_returns (hideRecord_behind holds behind place)]
        exact ih prev (extra + d.size) front _ here rfl behind (by omega) (by omega)
      · rw [if_neg hide, shownBytes, if_neg hide]
        simp only [pure_bind]
        have next : scan.dirp2 = passed ++ (d.bytesWith (d.size + 0) ++
            (List.replicate 0 0 ++ direntBytes rest)) := by
          simpa [Dirent.bytes] using turn
        have nextPlace : dirp3 + d.size = passed.length + d.size + 0 := by
          rw [length, Nat.add_zero]
        obtain ⟨last, walked⟩ :=
          ih (m := m.notified (k.hideNotices globals outside [d])) d 0 _
            { scan with prev := some dirp3 } here next (by rw [length]) nextPlace (by omega)
        exact ⟨last, by simpa [isPassed] using walked⟩

/-- The walk over a buffer of records: whatever hidden ones it starts with stand before
`head`, and the rest is filtered. -/
theorem scanLoop_records (globals : Globals) (records : List Dirent) (front : Bytes)
    (scan : Scan) {bufLength : Nat} (here : m.outside = outside)
    (holds : scan.dirp2 = front ++ direntBytes records)
    (noPrev : scan.prev = none) (head : scan.head = front.length)
    (size : bufLength = front.length + totalSize records)
    (left : scan.modifiedBufLength.toNat = totalSize records) :
    ∃ before last rest, Returns (scanLoop k globals bufLength front.length scan) m
        ⟨before ++ filteredBytes (k.hides globals outside) records, before.length, last, rest⟩
        (m.notified (k.hideNotices globals outside records)) ∧
      rest.toNat = (filteredBytes (k.hides globals outside) records).length := by
  induction records generalizing front scan m with
  | nil =>
      refine ⟨front, none, scan.modifiedBufLength, ?_, by simpa [filteredBytes] using left⟩
      rw [scanLoop, if_neg (by simp [size]), returns_pure_iff]
      refine ⟨?_, notified_nil⟩
      obtain ⟨dirp2, _, _, _⟩ := scan
      simp only at holds noPrev head
      simp [holds, noPrev, head, filteredBytes]
  | cons d rest ih =>
      rw [direntBytes_cons] at holds
      rw [totalSize_cons] at size left
      have inside : front.length < bufLength := by
        have positive := d.size_pos
        omega
      simp only [scanLoop_turn here holds inside, k.hideNotices_cons globals outside d rest,
        ← notified_notified]
      by_cases hide : k.hides globals outside d
      · have next : scan.dirp2 = (front ++ d.bytes) ++ direntBytes rest := by
          rw [holds, List.append_assoc]
        have length : front.length + d.size = (front ++ d.bytes).length := by
          simp [Dirent.bytes]
        have covers : d.size ≤ scan.modifiedBufLength.toNat := by omega
        rw [if_pos hide, filteredBytes_cons_hidden hide]
        simp only [returns_bind_of_returns (hideRecord_head noPrev front.length d)]
        rw [length]
        refine ih (front ++ d.bytes) _ here next noPrev rfl (by omega) ?_
        rw [toNat_sub_size covers]
        omega
      · have next : scan.dirp2 = front ++ (d.bytesWith (d.size + 0) ++
            (List.replicate 0 0 ++ direntBytes rest)) := by
          simpa [Dirent.bytes] using holds
        obtain ⟨last, walked⟩ :=
          scanLoop_shown (m := m.notified (k.hideNotices globals outside [d])) rest d 0 front
            { scan with prev := some front.length } here next rfl (Nat.add_zero _).symm
            (by omega : bufLength = front.length + d.size + totalSize rest)
        rw [if_neg hide, filteredBytes_cons_shown hide]
        simp only [pure_bind]
        refine ⟨front, some last, scan.modifiedBufLength, ?_, ?_⟩
        · rw [← head]
          simpa [head] using walked
        · rw [left, shownBytes_length, Nat.add_zero]

end Walk

end FsProtection
