import Mathlib.Data.List.Forall2
import FsProtection.Hooks.Listing

/-!
# The names of hidden records

The original has filled the caller's buffer before the hook filters, so the name of a
hidden record stays there unless the filtered records are copied over it. `Alike` buffers
differ in such names only; the answer and the buffer of the hook are the same for all
buffers alike exactly when every hidden name lies in what is copied back.
-/

namespace FsProtection

open Base

/-- The same record up to the name, and with the same name unless it is hidden. -/
structure Alike (hidden : Dirent → Bool) (d e : Dirent) : Prop where
  ino : e.ino = d.ino
  off : e.off = d.off
  type : e.type = d.type
  length : e.name.length = d.name.length
  name : hidden d = false → e.name = d.name

section Alike

variable {hidden : Dirent → Bool}

theorem Dirent.eq_of_fields {d e : Dirent} (ino : e.ino = d.ino) (off : e.off = d.off)
    (type : e.type = d.type) (name : e.name = d.name) : e = d := by
  cases d
  cases e
  simp_all

theorem Alike.rfl {d : Dirent} : Alike hidden d d :=
  ⟨.refl _, .refl _, .refl _, .refl _, fun _ => .refl _⟩

variable {d e : Dirent}

theorem Alike.size (alike : Alike hidden d e) : e.size = d.size := by
  rw [Dirent.size, Dirent.size, alike.length]

theorem Alike.eq_of_shown (alike : Alike hidden d e) (shown : hidden d = false) : e = d :=
  Dirent.eq_of_fields alike.ino alike.off alike.type (alike.name shown)

theorem Alike.eq_of_unnamed (alike : Alike hidden d e) (unnamed : d.name = []) : e = d := by
  have length := alike.length
  rw [unnamed, List.length_nil, List.length_eq_zero_iff] at length
  exact Dirent.eq_of_fields alike.ino alike.off alike.type (length.trans unnamed.symm)

variable {records other : List Dirent}

theorem alike_refl (records : List Dirent) : List.Forall₂ (Alike hidden) records records :=
  List.forall₂_same.mpr fun _ _ => .rfl

theorem alike_totalSize (alike : List.Forall₂ (Alike hidden) records other) :
    totalSize other = totalSize records := by
  induction alike with
  | nil => rfl
  | cons same _ ih => rw [totalSize_cons, totalSize_cons, same.size, ih]

variable (numbered : ∀ d e : Dirent, e.ino = d.ino → hidden e = hidden d)
include numbered

theorem alike_shownBytes (prev : Dirent) (extra : Nat)
    (alike : List.Forall₂ (Alike hidden) records other) :
    shownBytes hidden prev extra other = shownBytes hidden prev extra records := by
  induction alike generalizing prev extra with
  | nil => rfl
  | @cons d e _ _ same _ ih =>
      have sameHidden := numbered d e same.ino
      by_cases hide : hidden d
      · rw [shownBytes, shownBytes, sameHidden, if_pos hide, if_pos hide, same.size, ih]
      · rw [shownBytes, shownBytes, sameHidden, if_neg hide, if_neg hide,
          same.eq_of_shown (by simpa using hide), ih]

theorem alike_hiddenHead (alike : List.Forall₂ (Alike hidden) records other) :
    totalSize (hiddenHead hidden other) = totalSize (hiddenHead hidden records) := by
  induction alike with
  | nil => rfl
  | @cons d e _ _ same _ ih =>
      have sameHidden := numbered d e same.ino
      unfold hiddenHead at ih ⊢
      by_cases hide : hidden d
      · rw [List.takeWhile_cons_of_pos (sameHidden.trans hide), List.takeWhile_cons_of_pos hide,
          totalSize_cons, totalSize_cons, same.size, ih]
      · rw [List.takeWhile_cons_of_neg (by rwa [sameHidden]), List.takeWhile_cons_of_neg hide]

/-- What is left of a buffer tells nothing about the names of hidden records. -/
theorem alike_filteredBytes (alike : List.Forall₂ (Alike hidden) records other) :
    filteredBytes hidden other = filteredBytes hidden records := by
  induction alike with
  | nil => rfl
  | @cons d e _ _ same behind ih =>
      have sameHidden := numbered d e same.ino
      by_cases hide : hidden d
      · rw [filteredBytes_cons_hidden (sameHidden.trans hide), filteredBytes_cons_hidden hide, ih]
      · rw [filteredBytes_cons_shown (by rwa [sameHidden]), filteredBytes_cons_shown hide,
          same.eq_of_shown (by simpa using hide), alike_shownBytes numbered d 0 behind]

end Alike

section Behind

variable {hidden : Dirent → Bool}

/-- All hidden names end within the leading bytes. -/
def HiddenWithin (hidden : Dirent → Bool) (records : List Dirent) (covered : Nat) : Prop :=
  ∀ front d back, records = front ++ d :: back → hidden d = true → d.name ≠ [] →
    totalSize front + d.size ≤ covered

/-- Buffers alike agree behind the leading bytes that take in all hidden names. -/
theorem drop_eq_of_hiddenWithin {records other : List Dirent} (rest : Bytes) {covered : Nat}
    (alike : List.Forall₂ (Alike hidden) records other)
    (within : HiddenWithin hidden records covered) :
    (direntBytes other ++ rest).drop covered = (direntBytes records ++ rest).drop covered := by
  induction alike generalizing covered with
  | nil => rfl
  | @cons d e records other same _ ih =>
      have behind : HiddenWithin hidden records (covered - d.size) := by
        intro front next back split hide named
        have here := within (d :: front) next back (by rw [split, List.cons_append]) hide named
        rw [totalSize_cons] at here
        omega
      have leading : e.bytes.drop covered = d.bytes.drop covered := by
        by_cases inside : d.size ≤ covered
        · rw [List.drop_of_length_le, List.drop_of_length_le]
          · simpa [Dirent.bytes] using inside
          · simpa [Dirent.bytes, same.size] using inside
        · have equal : e = d := by
            by_cases unnamed : d.name = []
            · exact same.eq_of_unnamed unnamed
            · refine same.eq_of_shown (by_contra fun hide => inside ?_)
              simpa using within [] d records rfl (by simpa using hide) unnamed
          rw [equal]
      have split : ∀ bytes tail : Bytes, bytes.length = d.size → (bytes ++ tail).drop covered =
          bytes.drop covered ++ tail.drop (covered - d.size) :=
        fun bytes tail length => by rw [List.drop_append, length]
      rw [direntBytes_cons, direntBytes_cons, List.append_assoc, List.append_assoc,
        split e.bytes _ (by simp [Dirent.bytes, same.size]),
        split d.bytes _ (by simp [Dirent.bytes]), leading, ih behind]

/-- The record with another last byte of its name. -/
def Dirent.renamed (d : Dirent) (named : d.name ≠ []) : Dirent where
  ino := d.ino
  off := d.off
  type := d.type
  name := d.name.dropLast ++ [d.name.getLast named + 1]
  fits := by
    have positive := List.length_pos_iff.mpr named
    have fits := d.fits
    simp only [List.length_append, List.length_dropLast, List.length_singleton]
    omega

theorem Dirent.renamed_alike {d : Dirent} (named : d.name ≠ []) (hide : hidden d = true) :
    Alike hidden d (d.renamed named) where
  ino := rfl
  off := rfl
  type := rfl
  length := by
    have positive := List.length_pos_iff.mpr named
    simp only [Dirent.renamed, List.length_append, List.length_dropLast, List.length_singleton]
    omega
  name shown := by
    rw [hide] at shown
    exact absurd shown (by decide)

/-- The bytes of a record before the last one of its name. -/
def Dirent.untilLast (d : Dirent) : Bytes :=
  d.lead ++ (leBytes 2 d.size ++ d.type :: d.name.dropLast)

theorem Dirent.untilLast_length {d : Dirent} (named : d.name ≠ []) :
    d.untilLast.length + 1 = d.size := by
  have positive := List.length_pos_iff.mpr named
  simp [untilLast, lead, size, direntHeader]
  omega

theorem Dirent.bytes_eq_untilLast {d : Dirent} (named : d.name ≠ []) :
    d.bytes = d.untilLast ++ [d.name.getLast named] := by
  simp [bytes, bytesWith, untilLast, lead, List.dropLast_concat_getLast]

theorem Dirent.renamed_bytes {d : Dirent} (named : d.name ≠ []) :
    (d.renamed named).bytes = d.untilLast ++ [d.name.getLast named + 1] := by
  have alike : Alike (fun _ => true) d (d.renamed named) := d.renamed_alike named rfl
  rw [bytes, bytesWith, alike.size]
  simp [renamed, untilLast, lead]

/-- A byte behind the leading ones is seen. -/
theorem eq_of_drop_eq {front back other : Bytes} {first second : Byte} {covered : Nat}
    (inside : covered ≤ front.length)
    (same : (front ++ first :: back).drop covered = (front ++ second :: other).drop covered) :
    first = second := by
  rw [List.drop_append_of_le_length inside, List.drop_append_of_le_length inside] at same
  exact (List.cons.inj (List.append_cancel_left same)).1

/-- A hidden name that reaches further shows behind the leading bytes. -/
theorem hiddenWithin_of_drop_eq {records : List Dirent} (rest : Bytes) {covered : Nat}
    (same : ∀ other, List.Forall₂ (Alike hidden) records other →
      (direntBytes other ++ rest).drop covered = (direntBytes records ++ rest).drop covered) :
    HiddenWithin hidden records covered := by
  rintro front d back rfl hide named
  by_contra outside
  have alike : List.Forall₂ (Alike hidden) (front ++ d :: back)
      (front ++ d.renamed named :: back) :=
    List.rel_append (alike_refl front) (.cons (d.renamed_alike named hide) (alike_refl back))
  have drops := same _ alike
  have place : covered ≤ (direntBytes front ++ d.untilLast).length := by
    have last := Dirent.untilLast_length named
    rw [List.length_append, direntBytes_length]
    omega
  have spelled : ∀ e : Dirent, ∀ last, e.bytes = d.untilLast ++ [last] →
      direntBytes (front ++ e :: back) ++ rest =
        (direntBytes front ++ d.untilLast) ++ last :: (direntBytes back ++ rest) := by
    intro e last bytes
    simp [direntBytes, bytes]
  rw [spelled _ _ (Dirent.renamed_bytes named),
    spelled _ _ (Dirent.bytes_eq_untilLast named)] at drops
  have changed : d.name.getLast named + 1 = d.name.getLast named := eq_of_drop_eq place drops
  simp at changed

end Behind

section Runs

variable {σ : Type} (k : Kernel σ) (globals : Globals) (fd count : UInt32) (m : Machine σ)

/-- The kernel whose original has left records at the start of the caller's buffer. -/
def Kernel.delivering (outside : σ) (records : List Dirent) (rest : Bytes) : Kernel σ :=
  { k with
    origin := fun _ _ _ => (.ofNat (totalSize records), outside, direntBytes records ++ rest) }

/-- Started on delivered records the hook answers and leaves a buffer. -/
def Leaves (outside : σ) (records : List Dirent) (rest : Bytes) (ret : Int32) (buffer : Bytes) :
    Prop :=
  ∃ after, Returns (modifiedGetdents64 (k.delivering outside records rest) globals fd count) m ret
    after ∧ after.userBuf = buffer

/-- The hook answers the same and leaves the same buffer on two lots of records. -/
def SameAnswer (outside : σ) (rest : Bytes) (records other : List Dirent) : Prop :=
  ∃ ret buffer, Leaves k globals fd count m outside records rest ret buffer ∧
    Leaves k globals fd count m outside other rest ret buffer

/-- How many bytes the hook copies back over the records: none when it cannot allocate
or copy them first. -/
def Kernel.writtenBack (outside : σ) (kmallocs : Nat) (records : List Dirent) : Nat :=
  if (k.kmalloc outside kmallocs (totalSize records)).isSome ∧
      totalSize records ≤ k.readable outside then
    min (totalSize records - totalSize (hiddenHead (k.hides globals outside) records))
      (k.writable outside)
  else 0

variable {outside : σ} {records other : List Dirent} {rest : Bytes}

/-- What the hook leaves of delivered records: their filtered bytes over their own, as
far as they are copied back. -/
theorem leaves_of_delivering (rest : Bytes) (signed : totalSize records < 2 ^ 31) :
    ∃ ret, Leaves k globals fd count m outside records rest ret
        ((filteredBytes (k.hides globals outside) records).take
            (k.writtenBack globals outside m.kmallocs records) ++
          (direntBytes records ++ rest).drop (k.writtenBack globals outside m.kmallocs records)) ∧
      ret.toUInt32.toNat =
        if (k.kmalloc outside m.kmallocs (totalSize records)).isSome ∧
            totalSize records ≤ k.readable outside then
          totalSize records - totalSize (hiddenHead (k.hides globals outside) records)
        else totalSize records := by
  have size : (Int32.ofNat (totalSize records)).toUInt32.toNat = totalSize records :=
    toNat_toUInt32_of_toInt (Int32.toInt_ofNat_of_lt signed)
  have length : (direntBytes records ++ rest).length = totalSize records + rest.length := by
    rw [List.length_append, direntBytes_length]
  let start := m.answered (k.delivering outside records rest) (.getdents64 fd count)
  by_cases copies : (k.kmalloc outside m.kmallocs (totalSize records)).isSome ∧
      totalSize records ≤ k.readable outside
  · have copied : (k.delivering outside records rest).Copies start (totalSize records) := by
      refine ⟨copies.1, le_min copies.2 ?_⟩
      exact length.symm ▸ Nat.le_add_right _ _
    obtain ⟨ret, after, filtering, filtered⟩ := copyDirents_filtered globals rfl size copied
    have filteredSize : (filteredBytes (k.hides globals outside) records).length = _ :=
      filteredBytes_length records
    have within : (filteredBytes (k.hides globals outside) records).length ≤ totalSize records :=
      filteredBytes_length_le records
    have back : (k.delivering outside records rest).copiedBack start
        (filteredBytes (k.hides globals outside) records) =
        k.writtenBack globals outside m.kmallocs records := by
      rw [Kernel.writtenBack, if_pos copies, ← filteredSize]
      show min _ (min (k.writable outside) (direntBytes records ++ rest).length) = _
      omega
    refine ⟨ret, ⟨after, returns_modifiedGetdents64_iff.mpr filtering, ?_⟩, ?_⟩
    · rw [← back]
      exact filtered.userBuf
    · rw [if_pos copies, ← filteredSize]
      exact filtered.size
  · have unfiltered : ¬ (k.delivering outside records rest).Copies start
        (Int32.ofNat (totalSize records)).toUInt32.toNat := by
      rw [size]
      rintro ⟨allocated, readable⟩
      exact copies ⟨allocated, readable.trans (Nat.min_le_left _ _)⟩
    obtain ⟨after, left, unseen⟩ := copyDirents_unfiltered globals unfiltered
    refine ⟨_, ⟨after, returns_modifiedGetdents64_iff.mpr left, ?_⟩, ?_⟩
    · rw [Kernel.writtenBack, if_neg copies, List.take_zero, List.drop_zero, List.nil_append]
      exact unseen.userBuf
    · rw [if_neg copies, Int32.toInt32_toUInt32, size]

variable {k globals fd count m}

theorem Leaves.unique {ret again : Int32} {buffer second : Bytes}
    (leaves : Leaves k globals fd count m outside records rest ret buffer)
    (other : Leaves k globals fd count m outside records rest again second) :
    ret = again ∧ buffer = second := by
  obtain ⟨after, ran, rfl⟩ := leaves
  obtain ⟨final, ranAgain, rfl⟩ := other
  obtain ⟨rfl, rfl⟩ := ran.unique ranAgain
  exact ⟨rfl, rfl⟩

/-- On buffers alike the hook does the same exactly when they agree behind what it
copies back. -/
theorem sameAnswer_iff (signed : totalSize records < 2 ^ 31)
    (alike : List.Forall₂ (Alike (k.hides globals outside)) records other) :
    SameAnswer k globals fd count m outside rest records other ↔
      (direntBytes other ++ rest).drop (k.writtenBack globals outside m.kmallocs records) =
        (direntBytes records ++ rest).drop (k.writtenBack globals outside m.kmallocs records) := by
  have numbered : ∀ d e : Dirent, e.ino = d.ino →
      k.hides globals outside e = k.hides globals outside d :=
    fun d e same => by rw [Kernel.hides, Kernel.hides, same]
  have total := alike_totalSize alike
  have head := alike_hiddenHead numbered alike
  have back : k.writtenBack globals outside m.kmallocs other =
      k.writtenBack globals outside m.kmallocs records := by
    rw [Kernel.writtenBack, Kernel.writtenBack, total, head]
  obtain ⟨ret, leaves, answer⟩ := leaves_of_delivering k globals fd count m rest signed
  obtain ⟨otherRet, otherLeaves, otherAnswer⟩ := leaves_of_delivering k globals fd count m rest
    (total.trans_lt signed)
  rw [total, head, ← answer] at otherAnswer
  have sameRet : otherRet = ret := by
    have same := UInt32.toNat_inj.mp otherAnswer
    rw [← otherRet.toInt32_toUInt32, same, Int32.toInt32_toUInt32]
  rw [alike_filteredBytes numbered alike, back] at otherLeaves
  subst sameRet
  constructor
  · rintro ⟨_, buffer, first, second⟩
    obtain ⟨_, rfl⟩ := first.unique leaves
    obtain ⟨_, same⟩ := second.unique otherLeaves
    exact (List.append_cancel_left same).symm
  · intro same
    rw [same] at otherLeaves
    exact ⟨_, _, leaves, otherLeaves⟩

/-- The names of hidden records change neither the answer nor the caller's buffer exactly
when they all end within what the hook copies back. -/
theorem hidden_names_stay_hidden_iff (signed : totalSize records < 2 ^ 31) :
    (∀ other, List.Forall₂ (Alike (k.hides globals outside)) records other →
      SameAnswer k globals fd count m outside rest records other) ↔
      HiddenWithin (k.hides globals outside) records
        (k.writtenBack globals outside m.kmallocs records) := by
  constructor
  · intro same
    exact hiddenWithin_of_drop_eq rest fun other alike =>
      (sameAnswer_iff signed alike).mp (same other alike)
  · intro within other alike
    exact (sameAnswer_iff signed alike).mpr (drop_eq_of_hiddenWithin rest alike within)

end Runs

/-- The name of a hidden record before a shown one is copied over. -/
theorem hidden_head_stays_hidden :
    SameAnswer (Kernel.quiet oneFile) hideRule 3 64 (Machine.start () []) () []
      [letterDirent 7 102, letterDirent 8 103] [letterDirent 7 104, letterDirent 8 103] := by
  refine (hidden_names_stay_hidden_iff (by decide)).mpr ?_ _
    (.cons ⟨rfl, rfl, rfl, rfl, by decide⟩ (.cons .rfl .nil))
  intro front d back split hide _
  rcases front with _ | ⟨first, _ | ⟨second, more⟩⟩
  · obtain ⟨rfl, _⟩ := List.cons.inj split
    decide
  · obtain ⟨_, tail⟩ := List.cons.inj split
    obtain ⟨rfl, _⟩ := List.cons.inj tail
    exact absurd hide (by decide)
  · simp at split

/-- The name of a hidden record that is all there is stays in the buffer. -/
theorem hidden_name_alone_leaks :
    List.Forall₂ (Alike ((Kernel.quiet oneFile).hides hideRule ())) [letterDirent 7 102]
        [letterDirent 7 104] ∧
      ¬ SameAnswer (Kernel.quiet oneFile) hideRule 3 64 (Machine.start () []) () []
        [letterDirent 7 102] [letterDirent 7 104] := by
  have alike : List.Forall₂ (Alike ((Kernel.quiet oneFile).hides hideRule ())) [letterDirent 7 102]
      [letterDirent 7 104] := .cons ⟨rfl, rfl, rfl, rfl, by decide⟩ .nil
  refine ⟨alike, fun same => ?_⟩
  have behind := (sameAnswer_iff (by decide) alike).mp same
  revert behind
  decide

end FsProtection
