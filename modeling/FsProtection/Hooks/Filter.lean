import FsProtection.Hooks.Listing

/-!
# What the filter leaves of a buffer

A shown record takes over the hidden ones behind it by adding their sizes to its
`d_reclen`, 16 bits wide. Up to 65535 bytes the reader of the filtered buffer meets
exactly the shown records; in a larger buffer a long run of hidden records can wrap the
length of the record in front of it.
-/

namespace FsProtection

open Base

/-- Every shown record of a buffer has the length of its span stored with it, and a
reader who follows the lengths meets the shown records. -/
structure LengthsExact (hidden : Dirent → Bool) (records : List Dirent) (buffer : Bytes) :
    Prop where
  stored : ∀ front span back, spans hidden records = front ++ span :: back →
    (load buffer ((front.map Span.length).sum + 16) 2).map leNat = some span.length
  walked : readDirents buffer = some (visible hidden records)

theorem lengthsExact_filteredBytes_iff {hidden : Dirent → Bool} {records : List Dirent} :
    LengthsExact hidden records (filteredBytes hidden records) ↔
      ∀ span ∈ spans hidden records, span.length < 65536 := by
  constructor
  · intro exact span member
    obtain ⟨front, back, split⟩ := List.append_of_mem member
    have stored := exact.stored front span back split
    rw [filteredBytes_eq_spans, split, load_span_length, Option.some.injEq] at stored
    omega
  · intro within
    refine ⟨fun front span back split => ?_, ?_⟩
    · have small := within span (by rw [split]; simp)
      rw [filteredBytes_eq_spans, split, load_span_length, Nat.mod_eq_of_lt small]
    · rw [filteredBytes_eq_spans, readDirents_flatMap within, visible, ← spans_records,
        List.map_map]
      rfl

/-- Where no record is hidden every length is that of its own record. -/
theorem span_length_of_all_shown {hidden : Dirent → Bool} {records : List Dirent}
    (shown : ∀ d ∈ records, hidden d = false) {span : Span}
    (member : span ∈ spans hidden records) : span.length = span.record.size := by
  induction records with
  | nil => simp [spans] at member
  | cons d rest ih =>
      obtain ⟨here, later⟩ := List.forall_mem_cons.mp shown
      have none : rest.takeWhile hidden = [] := by
        cases rest with
        | nil => rfl
        | cons next _ => simp [later next List.mem_cons_self]
      rw [spans, if_neg (by simp [here]), none] at member
      rcases List.mem_cons.mp member with rfl | behind
      · rfl
      · exact ih later behind

section Filter

variable {σ : Type} {k : Kernel σ} (globals : Globals) {m : Machine σ} {fd count : UInt32}
  {records : List Dirent} {rest : Bytes}

/-- The hook answers the length of a part of the caller's buffer in which a reader meets
exactly the records no rule hides. -/
theorem getdents_shows_exactly (delivered : k.Delivers m fd count records rest)
    (small : totalSize records ≤ 65535)
    (copies : k.Copies (m.answered k (.getdents64 fd count)) (totalSize records))
    (writable : totalSize records ≤ k.writable (m.answered k (.getdents64 fd count)).outside) :
    ∃ ret after, Returns (modifiedGetdents64 k globals fd count) m ret after ∧
      ∃ length : Nat, ret.toInt = length ∧ length ≤ totalSize records ∧
        readDirents (after.userBuf.take length) =
          some (visible (k.hides globals (m.answered k (.getdents64 fd count)).outside)
            records) := by
  obtain ⟨ret, after, ran, size, left, _⟩ := delivered.filtered globals copies writable
  have shorter := @filteredBytes_length_le
    (k.hides globals (m.answered k (.getdents64 fd count)).outside) records
  have within : ret.toUInt32.toNat ≤ totalSize records := size ▸ shorter
  refine ⟨ret, after, ran, ret.toUInt32.toNat, toInt_of_toNat_toUInt32 (by omega), within, ?_⟩
  rw [left]
  exact readDirents_filteredBytes (by omega)

instance (k : Kernel σ) (m : Machine σ) (size : Nat) : Decidable (k.Copies m size) :=
  inferInstanceAs (Decidable (_ ∧ _))

variable (k m) in
/-- The records the hook takes out of a buffer: those a rule hides, if the buffer can be
copied. -/
def Kernel.drops (size : Nat) (d : Dirent) : Bool :=
  k.Copies m size ∧ k.hides globals m.outside d

theorem Kernel.drops_of_copies {size : Nat} (copies : k.Copies m size) :
    k.drops globals m size = k.hides globals m.outside := by
  funext d
  simp [Kernel.drops, copies]

theorem Kernel.drops_of_not_copies {size : Nat} (copies : ¬ k.Copies m size) :
    k.drops globals m size = fun _ => false := by
  funext d
  simp [Kernel.drops, copies]

/-- Whether or not the buffer can be copied, the reader is left what the hook does not
take out. -/
theorem Kernel.Delivers.dropped (delivered : k.Delivers m fd count records rest)
    (writable : totalSize records ≤ k.writable (m.answered k (.getdents64 fd count)).outside) :
    ∃ ret after, Returns (modifiedGetdents64 k globals fd count) m ret after ∧
      after.userBuf.take ret.toUInt32.toNat = filteredBytes
        (k.drops globals (m.answered k (.getdents64 fd count)) (totalSize records)) records := by
  by_cases copies : k.Copies (m.answered k (.getdents64 fd count)) (totalSize records)
  · obtain ⟨ret, after, ran, _, left, _⟩ := delivered.filtered globals copies writable
    exact ⟨ret, after, ran, by rw [left, Kernel.drops_of_copies globals copies]⟩
  · have size := toNat_toUInt32_of_toInt delivered.size
    obtain ⟨after, ran, unseen⟩ := copyDirents_unfiltered globals (size ▸ copies)
    refine ⟨_, after, returns_modifiedGetdents64_iff.mpr ran, ?_⟩
    rw [UInt32.toUInt32_toInt32, size, unseen.userBuf, delivered.buffer,
      List.take_left' (direntBytes_length records), Kernel.drops_of_not_copies globals copies,
      filteredBytes_of_all_shown fun _ _ => rfl]

/-- After the hook every shown record has its exact length, and a walk by the lengths
meets the shown records, exactly when no shown record takes over so many hidden ones that
the sum needs more than 16 bits. -/
theorem merged_lengths_exact_iff (delivered : k.Delivers m fd count records rest)
    (writable : totalSize records ≤ k.writable (m.answered k (.getdents64 fd count)).outside) :
    ∃ ret after, Returns (modifiedGetdents64 k globals fd count) m ret after ∧
      (LengthsExact (k.drops globals (m.answered k (.getdents64 fd count)) (totalSize records))
          records (after.userBuf.take ret.toUInt32.toNat) ↔
        (k.Copies (m.answered k (.getdents64 fd count)) (totalSize records) →
          ∀ span ∈ spans (k.hides globals (m.answered k (.getdents64 fd count)).outside) records,
            span.length < 65536)) := by
  obtain ⟨ret, after, ran, left⟩ := delivered.dropped globals writable
  refine ⟨ret, after, ran, ?_⟩
  rw [left, lengthsExact_filteredBytes_iff]
  by_cases copies : k.Copies (m.answered k (.getdents64 fd count)) (totalSize records)
  · rw [Kernel.drops_of_copies globals copies]
    exact ⟨fun within _ => within, fun within => within copies⟩
  · rw [Kernel.drops_of_not_copies globals copies]
    refine iff_of_true (fun span member => ?_) fun copied => absurd copied copies
    rw [span_length_of_all_shown (fun _ _ => rfl) member]
    exact span.record.size_lt

end Filter

section Links

theorem Kernel.shelf_delivers {records : List Dirent} {userBuf : Bytes} (fd count : UInt32)
    (fits : totalSize records < 2 ^ 31) :
    Kernel.shelf.Delivers (Machine.start [records] userBuf) fd count records
      (userBuf.drop (totalSize records)) where
  buffer := rfl
  size := Int32.toInt_ofNat_of_lt fits

theorem Kernel.shelf_copies {records : List Dirent} {userBuf : Bytes} (fd count : UInt32)
    (fits : totalSize records ≤ bufferSize) :
    Kernel.shelf.Copies ((Machine.start [records] userBuf).answered Kernel.shelf
      (.getdents64 fd count)) (totalSize records) := by
  constructor
  · have within : ¬ kmallocMaxSize < totalSize records :=
      Nat.not_lt.mpr (fits.trans (by decide))
    simp [Kernel.shelf, Kernel.resting, within]
  · have behind : ((Machine.start [records] userBuf).answered Kernel.shelf
        (.getdents64 fd count)).userBuf = direntBytes records ++ userBuf.drop (totalSize records) :=
      rfl
    rw [behind, List.length_append, direntBytes_length]
    exact le_min fits (Nat.le_add_right _ _)

/-- A hidden record and a shown one, as the reader meets them. -/
theorem getdents_shows_exactly_beside :
    ∃ ret after, Returns (modifiedGetdents64 Kernel.shelf hideRule 3 64)
        (Machine.start [[letterDirent 7 102, letterDirent 8 103]] (List.replicate 64 0)) ret after ∧
      ∃ length : Nat, ret.toInt = length ∧ length ≤ 42 ∧
        readDirents (after.userBuf.take length) = some [(letterDirent 8 103).view] :=
  getdents_shows_exactly hideRule (Kernel.shelf_delivers 3 64 (by decide)) (by decide)
    (Kernel.shelf_copies 3 64 (by decide)) (by decide)

/-- A hidden record behind a shown one is taken over by it. -/
theorem merged_lengths_exact_beside :
    ∃ ret after, Returns (modifiedGetdents64 Kernel.shelf hideRule 3 64)
        (Machine.start [[letterDirent 8 103, letterDirent 7 102]] (List.replicate 64 0)) ret after ∧
      LengthsExact (Kernel.shelf.drops hideRule ((Machine.start
          [[letterDirent 8 103, letterDirent 7 102]] (List.replicate 64 0)).answered Kernel.shelf
          (.getdents64 3 64)) 42)
        [letterDirent 8 103, letterDirent 7 102] (after.userBuf.take ret.toUInt32.toNat) := by
  obtain ⟨ret, after, ran, exactly⟩ := merged_lengths_exact_iff hideRule
    (@Kernel.shelf_delivers [letterDirent 8 103, letterDirent 7 102] (List.replicate 64 0) 3 64
      (by decide)) (by decide)
  exact ⟨ret, after, ran, exactly.mpr fun _ => by decide⟩

/-- One of the names of an inode in a directory. -/
def link (ino : UInt64) (index : Nat) : Dirent where
  ino := ino
  off := 0
  type := 8
  name := List.replicate 234 97 ++ [.ofNat (97 + index / 16), .ofNat (97 + index % 16), 0]
  fits := by
    rw [List.length_append, List.length_replicate]
    exact (by decide : 256 < 65536)

theorem link_size (ino : UInt64) (index : Nat) : (link ino index).size = 256 := by
  rw [Dirent.size, link, List.length_append, List.length_replicate]
  rfl

/-- A file and behind it 255 names of another one. -/
def hardLinks : List Dirent := link 8 255 :: (List.range 255).map (link 7)

theorem hardLinks_size : totalSize hardLinks = 65536 := by
  have each : (Dirent.size ∘ link 7) = fun _ => 256 := funext (link_size 7)
  rw [hardLinks, totalSize_cons, link_size, totalSize, List.map_map, each, List.map_const',
    List.length_range, List.sum_replicate_nat]

theorem hardLinks_spans (directory : List (List Dirent)) :
    spans (Kernel.shelf.hides hideRule directory) hardLinks = [⟨link 8 255, 65280⟩] := by
  have hidden : ∀ d ∈ (List.range 255).map (link 7),
      Kernel.shelf.hides hideRule directory d = true := by
    intro d member
    obtain ⟨index, _, rfl⟩ := List.mem_map.mp member
    rfl
  have shown : Kernel.shelf.hides hideRule directory (link 8 255) = false := rfl
  have size := hardLinks_size
  rw [hardLinks, totalSize_cons, link_size] at size
  have none :
      spans (Kernel.shelf.hides hideRule directory) ((List.range 255).map (link 7)) = [] := by
    rw [← List.map_eq_nil_iff, spans_records, List.filter_eq_nil_iff]
    simpa using hidden
  have behind : totalSize ((List.range 255).map (link 7)) = 65280 := by omega
  rw [hardLinks, spans, if_neg (by simp [shown]), List.takeWhile_eq_self_iff.mpr hidden, none,
    behind]

/-- Behind 255 hidden records the length of a shown one wraps to zero. -/
theorem hardLinks_wrap :
    ∃ ret after, Returns (modifiedGetdents64 Kernel.shelf hideRule 3 65536)
        (Machine.start [hardLinks] (List.replicate 65536 0)) ret after ∧
      (load (after.userBuf.take ret.toUInt32.toNat) 16 2).map leNat = some 0 ∧
      ¬ LengthsExact (Kernel.shelf.drops hideRule ((Machine.start [hardLinks]
          (List.replicate 65536 0)).answered Kernel.shelf (.getdents64 3 65536))
          (totalSize hardLinks))
        hardLinks (after.userBuf.take ret.toUInt32.toNat) := by
  have delivered := @Kernel.shelf_delivers hardLinks (List.replicate 65536 0) 3 65536
    (by rw [hardLinks_size]; decide)
  have copies := @Kernel.shelf_copies hardLinks (List.replicate 65536 0) 3 65536
    (by rw [hardLinks_size]; decide)
  obtain ⟨ret, after, ran, _, left, _⟩ := delivered.filtered hideRule copies
    (by rw [hardLinks_size]; decide)
  refine ⟨ret, after, ran, ?_, ?_⟩
  · rw [left, filteredBytes_eq_spans, hardLinks_spans]
    simpa [Span.length, link_size] using load_span_length [] ⟨link 8 255, 65280⟩ []
  · rw [left, Kernel.drops_of_copies hideRule copies, lengthsExact_filteredBytes_iff,
      hardLinks_spans]
    intro within
    exact absurd (within _ (List.mem_singleton.mpr rfl)) (by rw [Span.length, link_size]; decide)

end Links

end FsProtection
