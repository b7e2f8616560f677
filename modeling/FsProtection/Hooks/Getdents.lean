import FsProtection.Hooks.Directory

/-!
# What `modified_getdents64` answers

Over what the original delivers: records that can be copied are answered without the hidden
ones, and everything else is passed on.
-/

namespace FsProtection

open Base

section Answers

variable {σ : Type} (k : Kernel σ) (m : Machine σ)

/-- The original answers the size of the records it left at the start of the caller's
buffer. -/
structure Kernel.Delivers (fd count : UInt32) (records : List Dirent) (rest : Bytes) : Prop where
  buffer : (m.answered k (.getdents64 fd count)).userBuf = direntBytes records ++ rest
  size : (k.origin (.getdents64 fd count) m.outside m.userBuf).1.toInt = totalSize records

/-- `getdents64` answers an error code or delivers records. -/
def Kernel.DeliversRecords : Prop :=
  ∀ (m : Machine σ) fd count,
    (k.origin (.getdents64 fd count) m.outside m.userBuf).1 < 0 ∨
      ∃ records rest, k.Delivers m fd count records rest

theorem toNat_toUInt32_of_toInt {ret : Int32} {size : Nat} (answered : ret.toInt = size) :
    ret.toUInt32.toNat = size := by
  have bits : ret.toBitVec.toInt = size := answered
  have same : ret.toUInt32.toNat = ret.toBitVec.toNat := rfl
  have bound := ret.toBitVec.isLt
  rw [BitVec.toInt_eq_toNat_cond] at bits
  split at bits <;> omega

theorem toInt_of_toNat_toUInt32 {ret : Int32} (small : ret.toUInt32.toNat < 65536) :
    ret.toInt = ret.toUInt32.toNat := by
  have same : ret.toUInt32.toNat = ret.toBitVec.toNat := rfl
  have bits : ret.toInt = ret.toBitVec.toInt := rfl
  rw [bits, BitVec.toInt_eq_toNat_cond]
  split <;> omega

/-- An error code is a size no allocation serves. -/
theorem kmallocMaxSize_lt_of_neg {ret : Int32} (negative : ret < 0) :
    kmallocMaxSize < ret.toUInt32.toNat := by
  have bits : ret.toBitVec.toInt < 0 := Int32.lt_iff_toInt_lt.mp negative
  have same : ret.toUInt32.toNat = ret.toBitVec.toNat := rfl
  rw [BitVec.toInt_eq_toNat_cond] at bits
  unfold kmallocMaxSize
  split at bits <;> omega

end Answers

section Filter

variable {σ : Type} {k : Kernel σ} {globals : Globals} {m : Machine σ}

/-- After the answer of the original `modified_getdents64` is `copyDirents`. -/
theorem returns_modifiedGetdents64_iff {fd count : UInt32} {ret : Int32} {after : Machine σ} :
    Returns (modifiedGetdents64 k globals fd count) m ret after ↔
      Returns (copyDirents k globals
        (k.origin (.getdents64 fd count) m.outside m.userBuf).1.toUInt32)
        (m.answered k (.getdents64 fd count)) ret after :=
  returns_bind_of_returns (returns_callOrigin_iff.mpr ⟨rfl, rfl⟩)

/-- How much of the filtered records reaches the caller's buffer. -/
def Kernel.copiedBack (k : Kernel σ) (m : Machine σ) (shown : Bytes) : Nat :=
  min shown.length (min (k.writable m.outside) m.userBuf.length)

theorem Kernel.copiedBack_le (k : Kernel σ) (m : Machine σ) (shown : Bytes) :
    k.copiedBack m shown ≤ shown.length :=
  Nat.min_le_left _ _

/-- What the hook leaves of records it filters. -/
structure Filtered (k : Kernel σ) (globals : Globals) (records : List Dirent) (m : Machine σ)
    (ret : Int32) (after : Machine σ) : Prop where
  size : ret.toUInt32.toNat = (filteredBytes (k.hides globals m.outside) records).length
  outside : after.outside = m.outside
  userBuf : after.userBuf =
    (filteredBytes (k.hides globals m.outside) records).take
      (k.copiedBack m (filteredBytes (k.hides globals m.outside) records)) ++
    m.userBuf.drop (k.copiedBack m (filteredBytes (k.hides globals m.outside) records))
  messages : after.messages = m.messages ++ k.hideNotices globals m.outside records
  calls : after.calls = m.calls

/-- The copy of records none of which is hidden leaves no trace. -/
theorem Filtered.unseen {records : List Dirent} {rest : Bytes} {ret : Int32} {after : Machine σ}
    (filtered : Filtered k globals records m ret after)
    (holds : m.userBuf = direntBytes records ++ rest)
    (shown : ∀ d ∈ records, k.hides globals m.outside d = false) : Unseen m after where
  outside := filtered.outside
  userBuf := by
    have back := filtered.userBuf
    rw [filteredBytes_of_all_shown shown] at back
    have within := k.copiedBack_le m (direntBytes records)
    have taken : (direntBytes records ++ rest).take (k.copiedBack m (direntBytes records)) =
        (direntBytes records).take (k.copiedBack m (direntBytes records)) :=
      List.take_append_of_le_length within
    rw [back, holds, ← taken, List.take_append_drop]
  messages := by
    have silent : k.hideNotices globals m.outside records = [] := by
      refine List.flatMap_eq_nil_iff.mpr fun d member => ?_
      exact firstNotice_eq_nil (shown d member)
    rw [filtered.messages, silent, List.append_nil]
  calls := filtered.calls

/-- A copy that falls short changes nothing. -/
theorem filterDirents_short {bufLength : UInt32} {dirp2 : Block}
    (short : min (k.readable m.outside) m.userBuf.length < bufLength.toNat) :
    Returns (filterDirents k globals bufLength dirp2) m bufLength.toInt32 m := by
  have missing : bufLength.toNat - min bufLength.toNat
      (min (k.readable m.outside) m.userBuf.length) ≠ 0 := by omega
  simp [filterDirents, copyFromUser, returns_bind_iff, missing]

/-- A full copy of records is filtered. -/
theorem filterDirents_full (globals : Globals) (dirp2 : Block) {bufLength : UInt32}
    {records : List Dirent} {rest : Bytes} (holds : m.userBuf = direntBytes records ++ rest)
    (size : bufLength.toNat = totalSize records)
    (readable : totalSize records ≤ k.readable m.outside) :
    ∃ ret after, Returns (filterDirents k globals bufLength dirp2) m ret after ∧
      Filtered k globals records m ret after := by
  have whole : min bufLength.toNat (min (k.readable m.outside) m.userBuf.length) =
      totalSize records := by
    rw [holds, List.length_append, direntBytes_length, size]
    omega
  have copied : Returns (copyFromUser k bufLength.toNat) m (direntBytes records, 0) m := by
    have taken : m.userBuf.take (totalSize records) = direntBytes records := by
      rw [holds, List.take_left' (direntBytes_length records)]
    simp only [copyFromUser, returns_bind_iff, returns_get_iff, returns_pure_iff]
    refine ⟨m, m, ⟨rfl, rfl⟩, ?_, rfl⟩
    rw [whole, taken, size, Nat.sub_self, List.replicate_zero, List.append_nil]
  obtain ⟨before, last, left, walked, leftSize⟩ :=
    scanLoop_records (k := k) (m := m) globals records []
      ⟨direntBytes records, 0, none, bufLength⟩ rfl rfl rfl rfl
      (by simpa using size) size
  have loaded : load (before ++ filteredBytes (k.hides globals m.outside) records) before.length
      left.toNat = some (filteredBytes (k.hides globals m.outside) records) := by
    have here := load_append before (filteredBytes (k.hides globals m.outside) records) []
    rwa [List.append_nil, ← leftSize] at here
  refine ⟨left.toInt32, ?_⟩
  simp only [filterDirents, returns_bind_of_returns copied, ne_eq, not_true_eq_false, if_false]
  simp only [List.length_nil] at walked
  simp only [returns_bind_of_returns walked, loaded, copyToUser, returns_bind_iff, returns_get_iff,
    returns_set_iff, returns_pure_iff, returns_kfree_some_iff]
  refine ⟨_, ⟨_, _, ⟨_, _, ⟨rfl, rfl⟩, (), _, rfl, rfl, rfl⟩, (), _, rfl, trivial, rfl⟩, ?_⟩
  exact ⟨by simpa using leftSize, rfl, rfl, rfl, rfl⟩

/-- The allocation and the copy of the caller's buffer go through for a size. -/
def Kernel.Copies (k : Kernel σ) (m : Machine σ) (size : Nat) : Prop :=
  (k.kmalloc m.outside m.kmallocs size).isSome ∧ size ≤ min (k.readable m.outside) m.userBuf.length

theorem not_copies_of_neg {ret : Int32} (negative : ret < 0) : ¬ k.Copies m ret.toUInt32.toNat := by
  rintro ⟨allocated, _⟩
  rw [k.kmallocLimit (kmallocMaxSize_lt_of_neg negative)] at allocated
  exact Bool.false_ne_true allocated

/-- Where nothing can be copied the answer and the caller's buffer are left alone. -/
theorem copyDirents_unfiltered (globals : Globals) {bufLength : UInt32}
    (unfiltered : ¬ k.Copies m bufLength.toNat) :
    ∃ after, Returns (copyDirents k globals bufLength) m bufLength.toInt32 after ∧
      Unseen m after := by
  unfold copyDirents
  by_cases zero : bufLength ≤ 0
  · exact ⟨m, by simp [zero], .rfl⟩
  rw [if_neg zero]
  cases allocated : k.kmalloc m.outside m.kmallocs bufLength.toNat with
  | none =>
      exact ⟨_, returns_bind_iff.mpr ⟨_, _, returns_kmalloc_none allocated,
        returns_pure_iff.mpr ⟨rfl, rfl⟩⟩, rfl, rfl, rfl, rfl⟩
  | some old =>
      have short : min (k.readable m.outside) m.userBuf.length < bufLength.toNat := by
        by_contra long
        exact unfiltered ⟨by rw [allocated]; rfl, Nat.not_lt.mp long⟩
      exact ⟨_, returns_bind_iff.mpr ⟨_, _, returns_kmalloc_some allocated,
        filterDirents_short short⟩, rfl, rfl, rfl, rfl⟩

/-- Records that can be copied are filtered. -/
theorem copyDirents_filtered (globals : Globals) {bufLength : UInt32} {records : List Dirent}
    {rest : Bytes}
    (holds : m.userBuf = direntBytes records ++ rest)
    (size : bufLength.toNat = totalSize records) (copies : k.Copies m (totalSize records)) :
    ∃ ret after, Returns (copyDirents k globals bufLength) m ret after ∧
      Filtered k globals records m ret after := by
  unfold copyDirents
  by_cases zero : bufLength ≤ 0
  · have none : totalSize records = 0 := by
      rw [← size]
      exact Nat.le_zero.mp (UInt32.le_iff_toNat_le.mp zero)
    cases eq_nil_of_totalSize none
    refine ⟨bufLength.toInt32, m, by simp [zero], ?_, rfl, ?_, ?_, rfl⟩
    · simpa [filteredBytes] using size
    · simp [filteredBytes, Kernel.copiedBack]
    · simp [Kernel.hideNotices]
  · rw [if_neg zero]
    obtain ⟨allocates, readable⟩ := copies
    obtain ⟨old, allocated⟩ := Option.isSome_iff_exists.mp allocates
    rw [← size] at allocated
    have readable := le_trans readable (Nat.min_le_left _ _)
    obtain ⟨ret, after, ran, filtered⟩ := filterDirents_full (k := k)
      (m := { m with kmallocs := m.kmallocs + 1, held := .block m.kmallocs :: m.held })
      globals ⟨m.kmallocs, old⟩ holds size readable
    refine ⟨ret, after, returns_bind_iff.mpr ⟨_, _, returns_kmalloc_some allocated, ran⟩, ?_⟩
    exact ⟨filtered.size, filtered.outside, filtered.userBuf, filtered.messages, filtered.calls⟩

/-- Records that are copied both ways reach the caller filtered, and the answer is how
many bytes they take. -/
theorem Kernel.Delivers.filtered (globals : Globals) {fd count : UInt32} {records : List Dirent}
    {rest : Bytes} (delivered : k.Delivers m fd count records rest)
    (copies : k.Copies (m.answered k (.getdents64 fd count)) (totalSize records))
    (writable : totalSize records ≤ k.writable (m.answered k (.getdents64 fd count)).outside) :
    ∃ ret after, Returns (modifiedGetdents64 k globals fd count) m ret after ∧
      ret.toUInt32.toNat = (filteredBytes
        (k.hides globals (m.answered k (.getdents64 fd count)).outside) records).length ∧
      after.userBuf.take ret.toUInt32.toNat =
        filteredBytes (k.hides globals (m.answered k (.getdents64 fd count)).outside) records ∧
      after.userBuf.length = (m.answered k (.getdents64 fd count)).userBuf.length ∧
      after.outside = (m.answered k (.getdents64 fd count)).outside := by
  obtain ⟨ret, after, ran, filtered⟩ := copyDirents_filtered globals delivered.buffer
    (toNat_toUInt32_of_toInt delivered.size) copies
  have room := copies.2
  have shorter := @filteredBytes_length_le
    (k.hides globals (m.answered k (.getdents64 fd count)).outside) records
  have whole : k.copiedBack (m.answered k (.getdents64 fd count)) (filteredBytes
      (k.hides globals (m.answered k (.getdents64 fd count)).outside) records) = _ :=
    Nat.min_eq_left (by omega)
  have back := filtered.userBuf
  rw [whole, List.take_length] at back
  refine ⟨ret, after, returns_modifiedGetdents64_iff.mpr ran, filtered.size, ?_, ?_,
    filtered.outside⟩
  · rw [back, filtered.size, List.take_left]
  · rw [back, List.length_append, List.length_drop]
    omega

end Filter

section Frame

variable {σ : Type} {k : Kernel σ} {globals : Globals} {Observed : Type}
  {observe : Machine σ → Observed}

theorem loadField_preserves (region : Bytes) (offset width : Nat) :
    Preserves observe (loadField region offset width : HookM σ Nat) := by
  unfold loadField
  cases load region offset width with
  | none => exact preserves_throw _
  | some field => exact preserves_pure _

theorem hideRecord_preserves (scan : Scan) (dirp3 recordLength : Nat) :
    Preserves observe (hideRecord scan dirp3 recordLength : HookM σ Scan) := by
  unfold hideRecord
  cases scan.prev with
  | none => exact preserves_pure _
  | some prev =>
      refine (loadField_preserves _ _ _).bind fun reclen => ?_
      exact (preserves_lift _).bind fun _ => (preserves_lift _).bind fun _ => preserves_pure _

theorem scanLoop_preserves (muted : Muted observe) (bufLength dirp3 : Nat) (scan : Scan) :
    Preserves observe (scanLoop k globals bufLength dirp3 scan) := by
  induction left : bufLength - dirp3 using Nat.strong_induction_on generalizing dirp3 scan with
  | _ left ih =>
      rw [scanLoop]
      split
      · refine (loadField_preserves _ _ _).bind fun recordLength => ?_
        split
        · refine (loadField_preserves _ _ _).bind fun ino => ?_
          refine (isInoProtected_preserves muted _).bind fun hide => ?_
          cases hide with
          | true =>
              exact (hideRecord_preserves _ _ _).bind fun next =>
                ih _ (by omega) (dirp3 + recordLength) next rfl
          | false =>
              exact (preserves_pure _).bind fun next =>
                ih _ (by omega) (dirp3 + recordLength) next rfl
        · exact preserves_pure _
      · exact preserves_pure _

theorem kmalloc_preserves (size : Nat) : Preserves Machine.outside (kmalloc k size) := by
  intro before block after ran
  cases allocated : k.kmalloc before.outside before.kmallocs size with
  | none =>
      obtain ⟨_, rfl⟩ := ran.unique (returns_kmalloc_none allocated)
      rfl
  | some bytes =>
      obtain ⟨_, rfl⟩ := ran.unique (returns_kmalloc_some allocated)
      rfl

theorem copyToUser_preserves (bytes : Bytes) : Preserves Machine.outside (copyToUser k bytes) := by
  intro before left after ran
  simp only [copyToUser, returns_bind_iff, returns_get_iff, returns_set_iff,
    returns_pure_iff] at ran
  obtain ⟨_, _, ⟨rfl, rfl⟩, _, _, rfl, _, rfl⟩ := ran
  rfl

/-- After the answer of the original the hook leaves the rest of the machine alone,
whatever is in the caller's buffer. -/
theorem copyDirents_preserves (bufLength : UInt32) :
    Preserves Machine.outside (copyDirents k globals bufLength) := by
  unfold copyDirents
  split
  · exact preserves_pure _
  refine (kmalloc_preserves _).bind fun dirp2 => ?_
  cases dirp2 with
  | none => exact preserves_pure _
  | some dirp2 =>
      have copies : Preserves Machine.outside (copyFromUser k bufLength.toNat) :=
        preserves_get.bind fun _ => preserves_pure _
      refine copies.bind fun copy => ?_
      split
      · exact preserves_pure _
      refine (scanLoop_preserves (fun _ _ => rfl) _ _ _).bind fun scan => ?_
      cases load scan.dirp2 scan.head scan.modifiedBufLength.toNat with
      | none => exact preserves_throw _
      | some shown =>
          have frees : Preserves Machine.outside (kfree (some dirp2) : HookM σ Unit) :=
            preserves_modify fun _ => rfl
          exact (copyToUser_preserves _).bind fun _ => frees.bind fun _ => preserves_pure _

end Frame

end FsProtection
