import Mathlib.Data.List.TakeWhile
import FsProtection.Base.Region

/-!
# C strings over byte regions

A region is the list of bytes that can be read from a pointer, and a string is
what stands before its first NUL. The functions of `string.h` are modelled over
regions; each answers `none` where the C function would leave a region.
-/

namespace FsProtection.Base

/-- The bytes of a character literal, without its NUL. -/
def lit (text : String) : Bytes := text.toList.map fun char => char.toNat.toUInt8

/-- The string a region holds: its bytes before the first NUL. -/
def cstr (region : Bytes) : Bytes := region.takeWhile (· != 0)

/-- A region that contains a NUL, so that a scan for one stays inside it. -/
def Terminated (region : Bytes) : Prop := 0 ∈ region

instance (region : Bytes) : Decidable (Terminated region) :=
  inferInstanceAs (Decidable (0 ∈ region))

section Strings

variable {region text : Bytes}

@[simp] theorem cstr_nil : cstr [] = [] := rfl

@[simp] theorem cstr_cons_zero : cstr (0 :: region) = [] := rfl

theorem cstr_cons {byte : Byte} (nonzero : byte ≠ 0) :
    cstr (byte :: region) = byte :: cstr region := by
  simp [cstr, nonzero]

theorem zero_notMem_cstr : (0 : Byte) ∉ cstr region := by
  intro member
  simpa using List.mem_takeWhile_imp member

/-- A clean prefix passes through `cstr` unchanged. -/
theorem cstr_append (clean : (0 : Byte) ∉ text) (rest : Bytes) :
    cstr (text ++ rest) = text ++ cstr rest := by
  induction text with
  | nil => rfl
  | cons byte tail ih =>
      simp only [List.mem_cons, not_or] at clean
      rw [List.cons_append, cstr_cons (Ne.symm clean.1), ih clean.2, List.cons_append]

theorem cstr_append_zero (clean : (0 : Byte) ∉ text) (rest : Bytes) :
    cstr (text ++ 0 :: rest) = text := by
  rw [cstr_append clean, cstr_cons_zero, List.append_nil]

/-- A NUL after a region ends its string there at the latest. -/
theorem cstr_append_nul (region rest : Bytes) : cstr (region ++ 0 :: rest) = cstr region := by
  induction region with
  | nil => rfl
  | cons byte tail ih =>
      by_cases zero : byte = 0
      · subst zero
        rfl
      · rw [List.cons_append, cstr_cons zero, cstr_cons zero, ih]

theorem cstr_of_clean (clean : (0 : Byte) ∉ text) : cstr text = text := by
  simpa using cstr_append clean []

/-- Zeros behind a region do not change its string. -/
theorem cstr_append_zeros (region : Bytes) (count : Nat) :
    cstr (region ++ List.replicate count 0) = cstr region := by
  cases count with
  | zero => rw [List.replicate_zero, List.append_nil]
  | succ count => rw [List.replicate_succ, cstr_append_nul]

/-- What follows the first NUL of a region does not change its string. -/
theorem cstr_append_of_terminated (terminated : Terminated region) (rest : Bytes) :
    cstr (region ++ rest) = cstr region := by
  induction region with
  | nil => simp [Terminated] at terminated
  | cons byte tail ih =>
      by_cases zero : byte = 0
      · subst zero
        rfl
      · have tailTerminated : Terminated tail := by
          simpa [Terminated, Ne.symm zero] using terminated
        rw [List.cons_append, cstr_cons zero, cstr_cons zero, ih tailTerminated]

theorem cstr_eq_self_of_not_terminated (unterminated : ¬ Terminated region) :
    cstr region = region :=
  cstr_of_clean unterminated

theorem cstr_length_lt (terminated : Terminated region) :
    (cstr region).length < region.length := by
  induction region with
  | nil => simp [Terminated] at terminated
  | cons byte tail ih =>
      by_cases zero : byte = 0
      · subst zero
        simp
      · have tailTerminated : Terminated tail := by
          simpa [Terminated, Ne.symm zero] using terminated
        rw [cstr_cons zero]
        simpa using ih tailTerminated

/-- A terminated region is its string, a NUL and the rest. -/
theorem terminated_split (terminated : Terminated region) :
    ∃ rest, region = cstr region ++ 0 :: rest := by
  induction region with
  | nil => simp [Terminated] at terminated
  | cons byte tail ih =>
      by_cases zero : byte = 0
      · exact ⟨tail, by rw [zero]; rfl⟩
      · have tailTerminated : Terminated tail := by
          simpa [Terminated, Ne.symm zero] using terminated
        obtain ⟨rest, equal⟩ := ih tailTerminated
        exact ⟨rest, by rw [cstr_cons zero, List.cons_append, ← equal]⟩

theorem zeros_terminated {count : Nat} (positive : 0 < count) :
    Terminated (SizedBytes.zeros count).1 := by
  simpa [Terminated, SizedBytes.zeros] using Nat.pos_iff_ne_zero.mp positive

theorem cstr_replicate_zero (count : Nat) : cstr (List.replicate count 0) = [] := by
  cases count <;> rfl

end Strings

/-- `strcmp (left, right) == 0`. -/
def strcmp : Bytes → Bytes → Option Bool
  | left :: lefts, right :: rights =>
      if left ≠ right then some false
      else if left = 0 then some true
      else strcmp lefts rights
  | _, _ => none

/-- Two terminated regions compare by their strings. The left one may also be
unterminated as long as it is longer than the right one's string. -/
theorem strcmp_eq {left right : Bytes} (rightTerminated : Terminated right)
    (covered : Terminated left ∨ (cstr right).length < left.length) :
    strcmp left right = some (decide (cstr left = cstr right)) := by
  induction left generalizing right with
  | nil => simp [Terminated] at covered
  | cons byte lefts ih =>
      cases right with
      | nil => simp [Terminated] at rightTerminated
      | cons other rights =>
          by_cases same : byte = other
          · subst same
            by_cases zero : byte = 0
            · subst zero
              simp [strcmp]
            · have restTerminated : Terminated rights := by
                simpa [Terminated, Ne.symm zero] using rightTerminated
              have restCovered : Terminated lefts ∨ (cstr rights).length < lefts.length := by
                simpa [Terminated, Ne.symm zero, cstr_cons zero] using covered
              simp [strcmp, zero, cstr_cons, ih restTerminated restCovered]
          · have differ : cstr (byte :: lefts) ≠ cstr (other :: rights) := by
              by_cases zero : byte = 0
              · subst zero
                simp [cstr_cons (Ne.symm same)]
              · by_cases otherZero : other = 0
                · subst otherZero
                  simp [cstr_cons zero]
                · simp [cstr_cons zero, cstr_cons otherZero, same]
            simp [strcmp, same, differ]

/-- `strncmp (left, right, count) == 0`. -/
def strncmp : Nat → Bytes → Bytes → Option Bool
  | 0, _, _ => some true
  | count + 1, left :: lefts, right :: rights =>
      if left ≠ right then some false
      else if left = 0 then some true
      else strncmp count lefts rights
  | _ + 1, _, _ => none

/-- Comparing as many bytes as a clean literal has tests for it as a prefix. -/
theorem strncmp_literal {literal region rest : Bytes} (clean : (0 : Byte) ∉ literal)
    (terminated : Terminated region) :
    strncmp literal.length region (literal ++ rest) = some (decide (literal <+: cstr region)) := by
  induction literal generalizing region with
  | nil => simp [strncmp]
  | cons byte tail ih =>
      simp only [List.mem_cons, not_or] at clean
      cases region with
      | nil => simp [Terminated] at terminated
      | cons other others =>
          by_cases same : other = byte
          · subst same
            have nonzero : other ≠ 0 := Ne.symm clean.1
            have restTerminated : Terminated others := by
              simpa [Terminated, clean.1] using terminated
            simp [strncmp, nonzero, cstr_cons nonzero, ih clean.2 restTerminated]
          · have noPrefix : ¬ (byte :: tail) <+: cstr (other :: others) := by
              by_cases zero : other = 0
              · subst zero
                simp
              · simp [cstr_cons zero, Ne.symm same]
            simp [strncmp, same, noPrefix]

/-- `strlen`. -/
def strlen (region : Bytes) : Option Nat :=
  if Terminated region then some (cstr region).length else none

/-- Of a text and zeros behind it `strlen` counts the text exactly when the text is clean
and there is a zero. -/
theorem strlen_padded_iff {text : Bytes} {free : Nat} :
    strlen (text ++ List.replicate free 0) = some text.length ↔ (0 : Byte) ∉ text ∧ 0 < free := by
  rw [strlen, cstr_append_zeros]
  constructor
  · intro counted
    split at counted
    · rename_i terminated
      have clean : (0 : Byte) ∉ text := fun member =>
        absurd (Option.some.inj counted) (cstr_length_lt member).ne
      have zero : (0 : Byte) ∈ List.replicate free 0 :=
        (List.mem_append.mp terminated).resolve_left clean
      exact ⟨clean, Nat.pos_of_ne_zero (List.mem_replicate.mp zero).1⟩
    · cases counted
  · rintro ⟨clean, room⟩
    have terminated : Terminated (text ++ List.replicate free 0) :=
      List.mem_append_right _ (List.mem_replicate.mpr ⟨room.ne', rfl⟩)
    rw [if_pos terminated, cstr_of_clean clean]

/-- `strcpy (dst + offset, text)`: the string and its NUL. -/
def strcpyAt (dst : Bytes) (offset : Nat) (text : Bytes) : Option Bytes :=
  store dst offset (text ++ [0])

/-- `strcat (dst, text)`: scan to the NUL of `dst`, then copy. -/
def strcat (dst text : Bytes) : Option Bytes :=
  if Terminated dst then strcpyAt dst (cstr dst).length text else none

theorem take_cstr_length (region : Bytes) : region.take (cstr region).length = cstr region :=
  (List.prefix_iff_eq_take.mp (List.takeWhile_prefix _)).symm

/-- An append succeeds exactly when the destination holds a string and has room
for the appended text and its NUL. -/
theorem strcat_isSome_iff {dst text : Bytes} :
    (strcat dst text).isSome ↔
      Terminated dst ∧ (cstr dst).length + text.length < dst.length := by
  unfold strcat strcpyAt store
  by_cases terminated : Terminated dst <;> simp [terminated, Nat.lt_iff_add_one_le, Nat.add_assoc]

/-- A successful append keeps the region's length, leaves a terminated region and
holds the concatenation. -/
theorem strcat_spec {dst text out : Bytes} (clean : (0 : Byte) ∉ text)
    (appended : strcat dst text = some out) :
    out.length = dst.length ∧ Terminated out ∧ cstr out = cstr dst ++ text := by
  unfold strcat strcpyAt at appended
  split at appended
  · refine ⟨store_length appended, ?_⟩
    obtain ⟨_, rfl⟩ := store_eq_some appended
    have joined : (dst.take (cstr dst).length ++ (text ++ [0])) ++
          dst.drop ((cstr dst).length + (text ++ [0]).length) =
        (cstr dst ++ text) ++ 0 :: dst.drop ((cstr dst).length + (text ++ [0]).length) := by
      rw [take_cstr_length]
      simp
    rw [joined]
    refine ⟨by simp [Terminated], cstr_append_zero ?_ _⟩
    simp [zero_notMem_cstr, clean]
  · simp at appended

/-- A text for which a region has room is appended. -/
theorem strcat_fits {region text : Bytes} (clean : (0 : Byte) ∉ text)
    (terminated : Terminated region) (fits : (cstr region).length + text.length < region.length) :
    ∃ out, strcat region text = some out ∧ out.length = region.length ∧ Terminated out ∧
      cstr out = cstr region ++ text := by
  have succeeds : (strcat region text).isSome := strcat_isSome_iff.mpr ⟨terminated, fits⟩
  obtain ⟨out, appended⟩ := Option.isSome_iff_exists.mp succeeds
  exact ⟨out, appended, strcat_spec clean appended⟩

/-- A block of a size that holds a string. -/
structure Spells (block : Bytes) (size : Nat) (text : Bytes) : Prop where
  length : block.length = size
  terminated : Terminated block
  content : cstr block = text

section Spells

variable {block text piece : Bytes} {size : Nat}

theorem zeros_spell (positive : 0 < size) : Spells (List.replicate size 0) size [] where
  length := List.length_replicate
  terminated := zeros_terminated positive
  content := cstr_replicate_zero size

/-- A string stored at the start of a block with room for it is the block's. -/
theorem store_spells (length : block.length = size) (clean : (0 : Byte) ∉ text)
    (fits : text.length < size) :
    ∃ out, store block 0 (text ++ [0]) = some out ∧ Spells out size text := by
  have room : 0 + (text ++ [0]).length ≤ block.length := by
    rw [length, List.length_append, List.length_singleton]
    omega
  have stored : store block 0 (text ++ [0]) = some (block.take 0 ++ (text ++ [0]) ++
      block.drop (0 + (text ++ [0]).length)) := if_pos room
  refine ⟨_, stored, (store_length stored).trans length, ?_, ?_⟩
  · simp [Terminated]
  · rw [List.take_zero, List.nil_append, List.append_assoc]
    exact cstr_append_zero clean _

namespace Spells

theorem length_lt (spells : Spells block size text) : text.length < size := by
  have within := cstr_length_lt spells.terminated
  rwa [spells.content, spells.length] at within

/-- Appending a piece that fits with the NUL leaves the string with the piece. -/
theorem append (spells : Spells block size text) (clean : (0 : Byte) ∉ piece)
    (fits : text.length + piece.length < size) :
    ∃ out, strcat block piece = some out ∧ Spells out size (text ++ piece) := by
  obtain ⟨out, appended, length, terminated, content⟩ := strcat_fits clean spells.terminated (by
    rw [spells.content, spells.length]
    exact fits)
  exact ⟨out, appended, length.trans spells.length, terminated, by rw [content, spells.content]⟩

theorem append_overruns (spells : Spells block size text)
    (long : ¬ text.length + piece.length < size) : strcat block piece = none := by
  rw [← Option.not_isSome_iff_eq_none, strcat_isSome_iff, spells.content, spells.length]
  exact fun fits => long fits.2

end Spells

end Spells

/-- `strncpy (dst, text, count)`: exactly `count` bytes, padded with NULs. -/
def strncpy (count : Nat) (text : Bytes) : Bytes :=
  text.take count ++ List.replicate (count - text.length) 0

@[simp] theorem strncpy_length (count : Nat) (text : Bytes) :
    (strncpy count text).length = count := by
  simp [strncpy]
  omega

theorem strncpy_terminated {count : Nat} {text : Bytes} (short : text.length < count) :
    Terminated (strncpy count text) := by
  have padded : count - text.length ≠ 0 := by omega
  simp [Terminated, strncpy, padded]

theorem cstr_strncpy {count : Nat} {text : Bytes} (clean : (0 : Byte) ∉ text)
    (short : text.length ≤ count) : cstr (strncpy count text) = text := by
  rw [strncpy, List.take_of_length_le short, cstr_append clean, cstr_replicate_zero,
    List.append_nil]

/-- `strsep (&text, delim)`: the token up to the delimiter and the string pointer
after it; `none` is NULL. -/
def strsep (text : Option Bytes) (delim : Byte) : Option Bytes × Option Bytes :=
  match text with
  | none => (none, none)
  | some text =>
      (some (text.takeWhile (· != delim)),
        match text.dropWhile (· != delim) with
        | [] => none
        | _ :: rest => some rest)

/-- How much a `strsep` pointer still has to deliver; NULL is exhausted. -/
def pending : Option Bytes → Nat
  | none => 0
  | some text => text.length + 1

theorem strsep_pending_lt (text : Bytes) (delim : Byte) :
    pending (strsep (some text) delim).2 < pending (some text) := by
  have shorter := (List.dropWhile_sublist (· != delim) (l := text)).length_le
  simp only [strsep]
  split
  · simp [pending]
  · next equal =>
      rw [equal, List.length_cons] at shorter
      simp only [pending]
      omega

/-- `strsep` peels the first piece of `List.splitOn`. -/
theorem splitOn_eq_strsep (text : Bytes) (delim : Byte) :
    text.splitOn delim = text.takeWhile (· != delim) ::
      match (strsep (some text) delim).2 with
      | none => []
      | some rest => rest.splitOn delim := by
  induction text with
  | nil => rfl
  | cons byte tail ih =>
      rw [List.splitOn, List.splitOnP_cons_eq_if_modifyHead]
      by_cases same : byte = delim
      · subst same
        simp [strsep, List.splitOn]
      · rw [List.splitOn] at ih
        simp [strsep, same, ih]

/-- A piece of a split is part of the text and free of the delimiter. -/
theorem splitOn_piece {text piece : Bytes} {delim : Byte} (member : piece ∈ text.splitOn delim) :
    piece.Sublist text ∧ delim ∉ piece := by
  induction text generalizing piece with
  | nil =>
      have empty : piece = [] := by simpa [List.splitOn] using member
      simp [empty]
  | cons byte tail ih =>
      rw [List.splitOn, List.splitOnP_cons_eq_if_modifyHead] at member
      by_cases same : byte = delim
      · rw [if_pos (by simpa using same), List.mem_cons] at member
        rcases member with rfl | member
        · simp
        · exact ⟨(ih member).1.cons byte, (ih member).2⟩
      · rw [if_neg (by simpa using same)] at member
        obtain ⟨head, rest, pieces⟩ := List.exists_cons_of_ne_nil (List.splitOnP_ne_nil _ tail)
        rw [pieces, List.modifyHead_cons, List.mem_cons] at member
        rcases member with rfl | member
        · have inTail : head.Sublist tail ∧ delim ∉ head :=
            ih (by rw [List.splitOn, pieces]; exact List.mem_cons_self)
          exact ⟨inTail.1.cons_cons byte, by simp [Ne.symm same, inTail.2]⟩
        · have inTail : piece.Sublist tail ∧ delim ∉ piece :=
            ih (by rw [List.splitOn, pieces]; exact List.mem_cons_of_mem _ member)
          exact ⟨inTail.1.cons byte, inTail.2⟩

/-- A text with the delimiter is cut at its first occurrence. -/
theorem strsep_of_mem {text : Bytes} {delim : Byte} (present : delim ∈ text) :
    strsep (some text) delim =
      (some (text.takeWhile (· != delim)), some (text.dropWhile (· != delim)).tail) := by
  have remains : text.dropWhile (· != delim) ≠ [] := by
    intro empty
    simpa using List.dropWhile_eq_nil_iff.mp empty delim present
  obtain ⟨head, rest, equal⟩ := List.exists_cons_of_ne_nil remains
  simp [strsep, equal]

theorem strsep_of_absent {text : Bytes} {delim : Byte} (absent : delim ∉ text) :
    strsep (some text) delim = (some text, none) := by
  have passes : ∀ byte ∈ text, (byte != delim) = true := by
    intro byte member
    simpa using fun same : byte = delim => absent (same ▸ member)
  have whole : text.takeWhile (· != delim) = text := List.takeWhile_eq_self_iff.mpr passes
  have exhausted : text.dropWhile (· != delim) = [] := List.dropWhile_eq_nil_iff.mpr passes
  simp [strsep, whole, exhausted]

end FsProtection.Base
