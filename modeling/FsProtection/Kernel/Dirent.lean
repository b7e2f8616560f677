import FsProtection.Base.CString

/-!
# Directory records

The `struct linux_dirent64` records `getdents64` fills a buffer with, as bytes, and
what a reader that follows `d_reclen` sees of them.
-/

namespace FsProtection

open Base

/-- The offset of `d_name`. -/
def direntHeader : Nat := 19

/-- A directory record. `name` is all bytes from `d_name` to the end of the record. -/
structure Dirent where
  ino : UInt64
  off : UInt64
  type : Byte
  name : Bytes
  fits : direntHeader + name.length < 65536
deriving DecidableEq

namespace Dirent

def size (d : Dirent) : Nat := direntHeader + d.name.length

/-- The bytes of a record, under a given `d_reclen`. -/
def bytesWith (d : Dirent) (reclen : Nat) : Bytes :=
  leBytes 8 d.ino.toNat ++ (leBytes 8 d.off.toNat ++ (leBytes 2 reclen ++ (d.type :: d.name)))

def bytes (d : Dirent) : Bytes := d.bytesWith d.size

theorem size_lt (d : Dirent) : d.size < 65536 := d.fits

theorem size_pos (d : Dirent) : 0 < d.size :=
  Nat.lt_of_lt_of_le (by decide) (Nat.le_add_right direntHeader _)

@[simp] theorem bytesWith_length (d : Dirent) (reclen : Nat) :
    (d.bytesWith reclen).length = d.size := by
  simp [bytesWith, size, direntHeader]
  omega

/-- The stored length counts modulo the width of its field. -/
theorem bytesWith_mod (d : Dirent) (reclen : Nat) :
    d.bytesWith (reclen % 65536) = d.bytesWith reclen := by
  have same : leBytes 2 (reclen % 65536) = leBytes 2 reclen := by
    have low : reclen % 65536 % 256 = reclen % 256 := by omega
    have high : reclen % 65536 / 256 % 256 = reclen / 256 % 256 := by omega
    simp only [leBytes, low, high]
  rw [bytesWith, same, bytesWith]

variable (d : Dirent) (front back : Bytes) (reclen : Nat)

theorem load_ino : load (front ++ (d.bytesWith reclen ++ back)) front.length 8 =
    some (leBytes 8 d.ino.toNat) := by
  have split : front ++ (d.bytesWith reclen ++ back) =
      front ++ (leBytes 8 d.ino.toNat ++ (leBytes 8 d.off.toNat ++
        (leBytes 2 reclen ++ (d.type :: d.name)) ++ back)) := by
    simp [bytesWith]
  have here := load_append front (leBytes 8 d.ino.toNat)
    (leBytes 8 d.off.toNat ++ (leBytes 2 reclen ++ (d.type :: d.name)) ++ back)
  rw [split]
  simpa using here

/-- The bytes before `d_reclen`. -/
def lead : Bytes := leBytes 8 d.ino.toNat ++ leBytes 8 d.off.toNat

theorem split_reclen : front ++ (d.bytesWith reclen ++ back) =
    (front ++ d.lead) ++ (leBytes 2 reclen ++ (d.type :: d.name ++ back)) := by
  simp [bytesWith, lead]

theorem lead_length : (front ++ d.lead).length = front.length + 16 := by
  simp [lead]

theorem load_reclen : load (front ++ (d.bytesWith reclen ++ back)) (front.length + 16) 2 =
    some (leBytes 2 reclen) := by
  have here := load_append (front ++ d.lead) (leBytes 2 reclen) (d.type :: d.name ++ back)
  rw [split_reclen, ← lead_length]
  simpa using here

theorem store_reclen (other : Nat) :
    store (front ++ (d.bytesWith reclen ++ back)) (front.length + 16) (leBytes 2 other) =
      some (front ++ (d.bytesWith other ++ back)) := by
  rw [split_reclen, split_reclen, ← lead_length]
  exact store_append _ _ (by simp)

end Dirent

/-- A buffer of records. -/
def direntBytes (records : List Dirent) : Bytes := records.flatMap Dirent.bytes

def totalSize (records : List Dirent) : Nat := (records.map Dirent.size).sum

@[simp] theorem direntBytes_nil : direntBytes [] = [] := rfl

@[simp] theorem direntBytes_cons (d : Dirent) (records : List Dirent) :
    direntBytes (d :: records) = d.bytes ++ direntBytes records := by
  simp [direntBytes]

@[simp] theorem totalSize_nil : totalSize [] = 0 := rfl

@[simp] theorem totalSize_cons (d : Dirent) (records : List Dirent) :
    totalSize (d :: records) = d.size + totalSize records := by
  simp [totalSize]

@[simp] theorem direntBytes_length (records : List Dirent) :
    (direntBytes records).length = totalSize records := by
  induction records with
  | nil => rfl
  | cons d rest ih => simp [ih, Dirent.bytes]

theorem eq_nil_of_totalSize {records : List Dirent} (empty : totalSize records = 0) :
    records = [] := by
  cases records with
  | nil => rfl
  | cons d rest =>
      have positive := d.size_pos
      rw [totalSize_cons] at empty
      omega

section Filter

variable (hidden : Dirent → Bool)

/-- The bytes of a shown record, of `extra` bytes of hidden records behind it, and of
the records after those: a shown record takes over the hidden ones that follow it. -/
def shownBytes (prev : Dirent) (extra : Nat) : List Dirent → Bytes
  | [] => prev.bytesWith (prev.size + extra) ++ List.replicate extra 0
  | d :: rest =>
      if hidden d then shownBytes prev (extra + d.size) rest
      else prev.bytesWith (prev.size + extra) ++ (List.replicate extra 0 ++ shownBytes d 0 rest)

/-- The hidden records before the first shown one. -/
def hiddenHead (records : List Dirent) : List Dirent := records.takeWhile hidden

/-- The bytes of a buffer of records without its hidden head, the other hidden ones
taken over. -/
def filteredBytes (records : List Dirent) : Bytes :=
  match records.dropWhile hidden with
  | [] => []
  | d :: rest => shownBytes hidden d 0 rest

variable {hidden}

theorem shownBytes_length (prev : Dirent) (extra : Nat) (records : List Dirent) :
    (shownBytes hidden prev extra records).length = prev.size + extra + totalSize records := by
  induction records generalizing prev extra with
  | nil => simp [shownBytes]
  | cons d rest ih =>
      by_cases hide : hidden d
      · simp [shownBytes, hide, ih]
        omega
      · simp [shownBytes, hide, ih]
        omega

theorem filteredBytes_cons_hidden {d : Dirent} (hide : hidden d = true) (rest : List Dirent) :
    filteredBytes hidden (d :: rest) = filteredBytes hidden rest := by
  simp [filteredBytes, hide]

theorem filteredBytes_cons_shown {d : Dirent} (shown : ¬ hidden d = true) (rest : List Dirent) :
    filteredBytes hidden (d :: rest) = shownBytes hidden d 0 rest := by
  simp [filteredBytes, shown]

theorem totalSize_append (front back : List Dirent) :
    totalSize (front ++ back) = totalSize front + totalSize back := by
  simp [totalSize]

theorem filteredBytes_length (records : List Dirent) :
    (filteredBytes hidden records).length =
      totalSize records - totalSize (hiddenHead hidden records) := by
  have split := totalSize_append (records.takeWhile hidden) (records.dropWhile hidden)
  rw [List.takeWhile_append_dropWhile] at split
  unfold filteredBytes hiddenHead
  cases rest : records.dropWhile hidden with
  | nil =>
      rw [rest] at split
      simp [split]
  | cons d tail =>
      rw [rest] at split
      simp only [shownBytes_length, totalSize_cons] at split ⊢
      omega

theorem filteredBytes_length_le (records : List Dirent) :
    (filteredBytes hidden records).length ≤ totalSize records := by
  rw [filteredBytes_length]
  omega

/-- Nothing is left of a buffer exactly when all its records are hidden. -/
theorem filteredBytes_eq_nil_iff {records : List Dirent} :
    filteredBytes hidden records = [] ↔ ∀ d ∈ records, hidden d = true := by
  induction records with
  | nil => simp [filteredBytes]
  | cons d rest ih =>
      by_cases hide : hidden d
      · rw [filteredBytes_cons_hidden hide, ih, List.forall_mem_cons, hide]
        simp
      · have length := (shownBytes_length d 0 rest : (shownBytes hidden d 0 rest).length = _)
        have positive := d.size_pos
        refine iff_of_false (fun empty => ?_) (fun all => hide (all d List.mem_cons_self))
        rw [← filteredBytes_cons_shown hide, empty, List.length_nil] at length
        omega

theorem shownBytes_of_all_shown {prev : Dirent} {records : List Dirent}
    (shown : ∀ d ∈ records, hidden d = false) :
    shownBytes hidden prev 0 records = prev.bytes ++ direntBytes records := by
  induction records generalizing prev with
  | nil => simp [shownBytes, Dirent.bytes]
  | cons d rest ih =>
      have visible := shown d List.mem_cons_self
      rw [shownBytes, if_neg (by simp [visible]),
        ih fun other member => shown other (List.mem_cons_of_mem _ member), direntBytes_cons]
      rfl

/-- Filtering changes nothing in a buffer without hidden records. -/
theorem filteredBytes_of_all_shown {records : List Dirent}
    (shown : ∀ d ∈ records, hidden d = false) :
    filteredBytes hidden records = direntBytes records := by
  cases records with
  | nil => rfl
  | cons d rest =>
      have visible := shown d List.mem_cons_self
      simp [filteredBytes, visible,
        shownBytes_of_all_shown fun other member => shown other (List.mem_cons_of_mem d member)]

/-- A shown record with some hidden ones behind it is followed by zeros in their place. -/
theorem shownBytes_split (prev : Dirent) (extra : Nat) (records : List Dirent) :
    ∃ reclen back, shownBytes hidden prev extra records =
      prev.bytesWith reclen ++ (List.replicate extra 0 ++ back) := by
  induction records generalizing extra with
  | nil => exact ⟨prev.size + extra, [], by simp [shownBytes]⟩
  | cons d rest ih =>
      by_cases hide : hidden d
      · obtain ⟨reclen, back, split⟩ := ih (extra + d.size)
        refine ⟨reclen, List.replicate d.size 0 ++ back, ?_⟩
        rw [shownBytes, if_pos hide, split, List.replicate_add, List.append_assoc]
      · exact ⟨_, shownBytes hidden d 0 rest, by rw [shownBytes, if_neg hide]⟩

/-- The bytes of a record are not all zero: its length is not. -/
theorem Dirent.bytes_ne_zeros (d : Dirent) : d.bytes ≠ List.replicate d.size 0 := by
  intro zeros
  have field := d.load_reclen [] [] d.size
  have behind : 16 + 2 ≤ d.size := Nat.le_add_right_of_le (by decide)
  have cleared : load (List.replicate d.size 0) 16 2 = some (List.replicate 2 0) := by
    rw [load, if_pos (by simpa using behind), List.drop_replicate, List.take_replicate]
    congr 2
    omega
  simp only [List.nil_append, List.append_nil, List.length_nil, Nat.zero_add] at field
  rw [← Dirent.bytes, zeros, cleared, Option.some.injEq] at field
  have size : leNat (leBytes 2 d.size) = d.size % 65536 := leNat_leBytes 2 d.size
  rw [← field, Nat.mod_eq_of_lt d.size_lt] at size
  exact absurd size (Nat.ne_of_lt d.size_pos)

/-- Filtering a hidden record out changes what stands behind the record before it. -/
theorem shownBytes_ne (prev : Dirent) (extra reclen : Nat) {records : List Dirent}
    (some_hidden : ∃ d ∈ records, hidden d = true) :
    shownBytes hidden prev extra records ≠
      prev.bytesWith reclen ++ (List.replicate extra 0 ++ direntBytes records) := by
  induction records generalizing prev extra reclen with
  | nil => simp at some_hidden
  | cons d rest ih =>
      intro same
      rw [direntBytes_cons] at same
      by_cases hide : hidden d
      · obtain ⟨other, back, split⟩ :=
          @shownBytes_split hidden prev (extra + d.size) rest
        rw [shownBytes, if_pos hide, split, List.replicate_add, List.append_assoc] at same
        have behind := (List.append_inj same (by simp)).2
        have zeros := (List.append_inj (List.append_cancel_left behind) (by simp [Dirent.bytes])).1
        exact d.bytes_ne_zeros zeros.symm
      · have later : ∃ d ∈ rest, hidden d = true := by simpa [hide] using some_hidden
        rw [shownBytes, if_neg hide] at same
        have behind := (List.append_inj same (by simp)).2
        refine ih d 0 d.size later ?_
        simpa [Dirent.bytes] using List.append_cancel_left behind

/-- Filtering changes a buffer with a hidden record. -/
theorem filteredBytes_ne {records : List Dirent} (some_hidden : ∃ d ∈ records, hidden d = true) :
    filteredBytes hidden records ≠ direntBytes records := by
  cases records with
  | nil => simp at some_hidden
  | cons d rest =>
      by_cases hide : hidden d
      · intro same
        have length := congrArg List.length same
        have positive := d.size_pos
        have shorter := @filteredBytes_length_le hidden rest
        rw [filteredBytes_cons_hidden hide, direntBytes_length, totalSize_cons] at length
        omega
      · have later : ∃ d ∈ rest, hidden d = true := by simpa [hide] using some_hidden
        rw [filteredBytes_cons_shown hide]
        simpa [Dirent.bytes] using shownBytes_ne d 0 d.size later

end Filter

/-- What a reader sees of a record. -/
structure DirentView where
  ino : Nat
  off : Nat
  type : Byte
  name : Bytes
deriving DecidableEq

def Dirent.view (d : Dirent) : DirentView where
  ino := d.ino.toNat
  off := d.off.toNat
  type := d.type
  name := cstr d.name

/-- A reader that walks a buffer by `d_reclen`: it ends where the buffer does, and
answers nothing when a record does not fit. -/
def readDirents (buffer : Bytes) : Option (List DirentView) :=
  if buffer = [] then some []
  else
    match load buffer 0 8, load buffer 8 8, load buffer 16 2, buffer[18]? with
    | some ino, some off, some field, some type =>
        let reclen := leNat field
        if _sized : direntHeader ≤ reclen ∧ reclen ≤ buffer.length then
          (readDirents (buffer.drop reclen)).map fun rest =>
            ⟨leNat ino, leNat off, type, cstr ((buffer.take reclen).drop direntHeader)⟩ :: rest
        else none
    | _, _, _, _ => none
termination_by buffer.length
decreasing_by
  simp only [direntHeader] at _sized
  simp only [List.length_drop]
  omega

theorem leNat_leBytes_eight (field : UInt64) : leNat (leBytes 8 field.toNat) = field.toNat := by
  rw [leNat_leBytes]
  exact Nat.mod_eq_of_lt field.toNat_lt

/-- What a reader does with a buffer whose first record is `reclen` bytes long. -/
theorem readDirents_step {buffer ino off : Bytes} {reclen : Nat} {type : Byte}
    (loadsIno : load buffer 0 8 = some ino) (loadsOff : load buffer 8 8 = some off)
    (loadsReclen : load buffer 16 2 = some (leBytes 2 reclen)) (loadsType : buffer[18]? = some type)
    (small : reclen < 65536) (sized : direntHeader ≤ reclen ∧ reclen ≤ buffer.length) :
    readDirents buffer = (readDirents (buffer.drop reclen)).map fun rest =>
      ⟨leNat ino, leNat off, type, cstr ((buffer.take reclen).drop direntHeader)⟩ :: rest := by
  have length : leNat (leBytes 2 reclen) = reclen := by
    rw [leNat_leBytes]
    exact Nat.mod_eq_of_lt small
  have nonempty : buffer ≠ [] := by
    rintro rfl
    simp only [List.length_nil, direntHeader] at sized
    omega
  rw [readDirents, if_neg nonempty, loadsIno, loadsOff, loadsReclen, loadsType]
  simp only [length, dif_pos sized]

/-- A reader sees a record, with whatever zeros its length takes in behind it, and goes
on behind those. -/
theorem readDirents_bytesWith (d : Dirent) {extra : Nat} (within : d.size + extra < 65536)
    (back : Bytes) :
    readDirents (d.bytesWith (d.size + extra) ++ (List.replicate extra 0 ++ back)) =
      (readDirents back).map (d.view :: ·) := by
  have fields : d.bytesWith (d.size + extra) ++ (List.replicate extra 0 ++ back) =
      leBytes 8 d.ino.toNat ++ (leBytes 8 d.off.toNat ++ (leBytes 2 (d.size + extra) ++
        (d.type :: (d.name ++ List.replicate extra 0) ++ back))) := by
    simp [Dirent.bytesWith]
  have record : (d.bytesWith (d.size + extra) ++ List.replicate extra 0).length =
      d.size + extra := by simp
  generalize isBuffer : d.bytesWith (d.size + extra) ++ (List.replicate extra 0 ++ back) = buffer
    at fields
  rw [← List.append_assoc] at isBuffer
  have taken : buffer.take (d.size + extra) =
      d.bytesWith (d.size + extra) ++ List.replicate extra 0 := by
    rw [← isBuffer, List.take_left' record]
  have dropped : buffer.drop (d.size + extra) = back := by
    rw [← isBuffer, List.drop_left' record]
  have ino : load buffer 0 8 = some (leBytes 8 d.ino.toNat) := by
    rw [fields]
    exact load_append [] (leBytes 8 d.ino.toNat) _
  have off : load buffer 8 8 = some (leBytes 8 d.off.toNat) := by
    rw [fields]
    simpa using load_append (leBytes 8 d.ino.toNat) (leBytes 8 d.off.toNat) _
  have reclen : load buffer 16 2 = some (leBytes 2 (d.size + extra)) := by
    rw [fields, ← List.append_assoc]
    simpa using load_append (leBytes 8 d.ino.toNat ++ leBytes 8 d.off.toNat)
      (leBytes 2 (d.size + extra)) _
  have type : buffer[18]? = some d.type := by
    rw [fields]
    simp [List.getElem?_append]
  have name : (buffer.take (d.size + extra)).drop direntHeader =
      d.name ++ List.replicate extra 0 := by
    have passed : ∀ width value count, width ≤ count → (leBytes width value).drop count = [] :=
      fun width value count short => List.drop_eq_nil_of_le (by simpa using short)
    rw [taken]
    simp [Dirent.bytesWith, direntHeader, List.drop_append, passed]
  have sized : direntHeader ≤ d.size + extra ∧ d.size + extra ≤ buffer.length := by
    rw [← isBuffer, List.length_append, record, Dirent.size]
    omega
  rw [readDirents_step ino off reclen type within sized, dropped, name,
    cstr_append_zeros, leNat_leBytes_eight, leNat_leBytes_eight]
  rfl

/-- A shown record with the sizes of the hidden records up to the next shown one. -/
structure Span where
  record : Dirent
  behind : Nat

namespace Span

/-- The length the record is to have in a filtered buffer. -/
def length (span : Span) : Nat := span.record.size + span.behind

/-- The record with its length in the field, and zeros up to there. -/
def bytes (span : Span) : Bytes :=
  span.record.bytesWith span.length ++ List.replicate span.behind 0

@[simp] theorem bytes_length (span : Span) : span.bytes.length = span.length := by
  simp [bytes, length]

end Span

section Spans

variable (hidden : Dirent → Bool)

/-- The shown records of a buffer, each with the hidden ones behind it. -/
def spans : List Dirent → List Span
  | [] => []
  | d :: rest =>
      if hidden d then spans rest else ⟨d, totalSize (rest.takeWhile hidden)⟩ :: spans rest

variable {hidden}

theorem shownBytes_eq_spans (prev : Dirent) (extra : Nat) (records : List Dirent) :
    shownBytes hidden prev extra records =
      Span.bytes ⟨prev, extra + totalSize (records.takeWhile hidden)⟩ ++
        (spans hidden records).flatMap Span.bytes := by
  induction records generalizing prev extra with
  | nil => simp [shownBytes, Span.bytes, Span.length, spans, totalSize]
  | cons d rest ih =>
      by_cases hide : hidden d
      · rw [shownBytes, if_pos hide, ih, spans, if_pos hide, List.takeWhile_cons_of_pos hide,
          totalSize_cons, Nat.add_assoc]
      · rw [shownBytes, if_neg hide, ih, spans, if_neg hide, List.takeWhile_cons_of_neg hide,
          List.flatMap_cons, Nat.zero_add]
        simp [Span.bytes, Span.length, totalSize]

/-- A filtered buffer is its spans. -/
theorem filteredBytes_eq_spans (records : List Dirent) :
    filteredBytes hidden records = (spans hidden records).flatMap Span.bytes := by
  induction records with
  | nil => rfl
  | cons d rest ih =>
      by_cases hide : hidden d
      · rw [filteredBytes_cons_hidden hide, ih, spans, if_pos hide]
      · rw [filteredBytes_cons_shown hide, shownBytes_eq_spans, spans, if_neg hide,
          List.flatMap_cons, Nat.zero_add]

/-- The records of the spans are those that are not hidden, in order. -/
theorem spans_records (records : List Dirent) :
    (spans hidden records).map Span.record = records.filter fun d => !hidden d := by
  induction records with
  | nil => rfl
  | cons d rest ih =>
      by_cases hide : hidden d
      · simpa [spans, hide] using ih
      · simpa [spans, hide] using ih

theorem length_flatMap_bytes (entries : List Span) :
    (entries.flatMap Span.bytes).length = (entries.map Span.length).sum := by
  simp [List.length_flatMap]

/-- No span is longer than the buffer. -/
theorem span_length_le {records : List Dirent} {span : Span}
    (member : span ∈ spans hidden records) : span.length ≤ totalSize records := by
  obtain ⟨front, back, split⟩ := List.append_of_mem member
  have whole := @filteredBytes_length_le hidden records
  rw [filteredBytes_eq_spans, length_flatMap_bytes, split, List.map_append, List.map_cons,
    List.sum_append, List.sum_cons] at whole
  omega

/-- The length stored with a record is that of its span modulo the width of the field. -/
theorem load_span_length (front : List Span) (span : Span) (back : List Span) :
    (load ((front ++ span :: back).flatMap Span.bytes) ((front.map Span.length).sum + 16) 2).map
      leNat = some (span.length % 65536) := by
  have here := span.record.load_reclen (front.flatMap Span.bytes)
    (List.replicate span.behind 0 ++ back.flatMap Span.bytes) span.length
  rw [length_flatMap_bytes] at here
  rw [List.flatMap_append, List.flatMap_cons, Span.bytes, List.append_assoc, here, Option.map_some,
    leNat_leBytes]
  rfl

/-- A reader of spans that fit the field sees their records. -/
theorem readDirents_flatMap {entries : List Span}
    (within : ∀ span ∈ entries, span.length < 65536) :
    readDirents (entries.flatMap Span.bytes) =
      some (entries.map fun span => span.record.view) := by
  induction entries with
  | nil =>
      rw [List.flatMap_nil, readDirents, if_pos rfl]
      rfl
  | cons span rest ih =>
      have here := readDirents_bytesWith span.record (within span List.mem_cons_self)
        (rest.flatMap Span.bytes)
      rw [List.flatMap_cons, Span.bytes, List.append_assoc, Span.length, here,
        ih fun other member => within other (List.mem_cons_of_mem _ member)]
      rfl

/-- A reader of the filtered buffer sees the records that are not hidden, in order. -/
theorem readDirents_filteredBytes {records : List Dirent} (within : totalSize records < 65536) :
    readDirents (filteredBytes hidden records) =
      some ((records.filter fun d => !hidden d).map Dirent.view) := by
  rw [filteredBytes_eq_spans, readDirents_flatMap fun span member =>
    (span_length_le member).trans_lt within, ← spans_records, List.map_map]
  rfl

end Spans

end FsProtection
