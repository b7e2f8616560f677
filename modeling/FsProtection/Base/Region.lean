import Mathlib.Data.List.Basic
import Mathlib.Data.Nat.ModEq

/-!
# Byte regions

Loads and stores at offsets of a region, regions whose length is fixed by their
type, and little-endian fields. An access that leaves the region has no result.
-/

namespace FsProtection.Base

abbrev Byte := UInt8

abbrev Bytes := List Byte

/-- The `count` bytes at an offset. -/
def load (region : Bytes) (offset count : Nat) : Option Bytes :=
  if offset + count ≤ region.length then some ((region.drop offset).take count) else none

/-- Overwrite the bytes at an offset. -/
def store (region : Bytes) (offset : Nat) (bytes : Bytes) : Option Bytes :=
  if offset + bytes.length ≤ region.length then
    some (region.take offset ++ bytes ++ region.drop (offset + bytes.length))
  else none

theorem load_append (front middle back : Bytes) :
    load (front ++ (middle ++ back)) front.length middle.length = some middle := by
  simp [load]

theorem store_append (front : Bytes) {old new : Bytes} (back : Bytes)
    (sameLength : new.length = old.length) :
    store (front ++ (old ++ back)) front.length new = some (front ++ (new ++ back)) := by
  simp [store, sameLength]

theorem store_eq_some {region bytes out : Bytes} {offset : Nat}
    (stored : store region offset bytes = some out) :
    offset + bytes.length ≤ region.length ∧
      out = region.take offset ++ bytes ++ region.drop (offset + bytes.length) := by
  unfold store at stored
  split at stored
  · next fits => exact ⟨fits, (Option.some.inj stored).symm⟩
  · simp at stored

theorem store_length {region bytes out : Bytes} {offset : Nat}
    (stored : store region offset bytes = some out) : out.length = region.length := by
  obtain ⟨fits, rfl⟩ := store_eq_some stored
  simp
  omega

/-- Storing bytes one after the other is storing them at once. -/
theorem store_cons (region : Bytes) (offset : Nat) (byte : Byte) (rest : Bytes) :
    store region offset (byte :: rest) =
      (store region offset [byte]).bind fun out => store out (offset + 1) rest := by
  by_cases inside : offset < region.length
  · obtain ⟨old, back, equal⟩ :=
      List.exists_cons_of_ne_nil (mt List.drop_eq_nil_iff.mp (Nat.not_le.mpr inside))
    have split : region = region.take offset ++ old :: back := by
      rw [← equal, List.take_append_drop]
    have taken : (region.take offset).length = offset := by
      rw [List.length_take]
      omega
    generalize region.take offset = front at split taken
    subst split taken
    have behind : rest.length + (front.length + 1) - front.length = rest.length + 1 := by omega
    have whole : front.take (front.length + 1) = front := List.take_of_length_le (by omega)
    have none₁ : front.drop (front.length + 1) = [] := List.drop_eq_nil_of_le (by omega)
    have none₂ : front.drop (rest.length + (front.length + 1)) = [] :=
      List.drop_eq_nil_of_le (by omega)
    simp [store, Nat.add_comm, Nat.add_left_comm, List.take_append, List.drop_append, behind,
      whole, none₁, none₂]
  · have outside : ¬ offset + [byte].length ≤ region.length := by
      simp only [List.length_cons, List.length_nil]
      omega
    have beyond : ¬ offset + (byte :: rest).length ≤ region.length := by
      simp only [List.length_cons]
      omega
    rw [store, store, if_neg outside, if_neg beyond, Option.bind_none]

/-- A region whose first bytes are overwritten by some of a text starts with the text
exactly when it held the others. -/
theorem take_overwritten_iff {text region : Bytes} {count : Nat} (within : count ≤ text.length) :
    (text.take count ++ region.drop count).take text.length = text ↔
      (region.drop count).take (text.length - count) = text.drop count := by
  have taken : (text.take count).length = count := List.length_take_of_le within
  have split : text = text.take count ++ text.drop count := (List.take_append_drop count text).symm
  rw [List.take_append, taken, List.take_of_length_le (by omega)]
  constructor
  · intro same
    exact List.append_cancel_left (same.trans split)
  · intro same
    rw [same, ← split]

/-- A region whose length is exactly `count`. -/
abbrev SizedBytes (count : Nat) := {bytes : Bytes // bytes.length = count}

namespace SizedBytes

variable {count : Nat}

@[ext] theorem ext {left right : SizedBytes count} (bytes : left.1 = right.1) : left = right :=
  Subtype.ext bytes

@[simp] theorem length (region : SizedBytes count) : region.1.length = count := region.2

/-- The region a `memset` to zero leaves. -/
def zeros (count : Nat) : SizedBytes count := ⟨List.replicate count 0, by simp⟩

/-- Overwrite the leading bytes of a region; bytes beyond its end are not taken. -/
def overwrite (region : SizedBytes count) (bytes : Bytes) : SizedBytes count :=
  ⟨bytes.take count ++ region.1.drop bytes.length, by simp; omega⟩

/-- Store one byte at an index inside the region. -/
def setByte (region : SizedBytes count) (index : Fin count) (byte : Byte) : SizedBytes count :=
  ⟨region.1.set index byte, by simp⟩

/-- Clearing leading bytes of a clear region changes nothing. -/
theorem overwrite_zeros {leading : Nat} (within : leading ≤ count) :
    (zeros count).overwrite (List.replicate leading 0) = zeros count := by
  ext1
  simp [zeros, overwrite, within]

end SizedBytes

/-- The little-endian bytes of a number, cut to `width` of them. -/
def leBytes : Nat → Nat → Bytes
  | 0, _ => []
  | width + 1, value => (value % 256).toUInt8 :: leBytes width (value / 256)

/-- The number a little-endian field holds. -/
def leNat : Bytes → Nat
  | [] => 0
  | byte :: rest => byte.toNat + 256 * leNat rest

@[simp] theorem leBytes_length (width value : Nat) : (leBytes width value).length = width := by
  induction width generalizing value with
  | zero => rfl
  | succ width ih => simp [leBytes, ih]

/-- Reading a field back gives the stored number modulo the field's width. -/
theorem leNat_leBytes (width value : Nat) : leNat (leBytes width value) = value % 256 ^ width := by
  induction width generalizing value with
  | zero => simp [leBytes, leNat, Nat.mod_one]
  | succ width ih =>
      have low : (value % 256).toUInt8.toNat = value % 256 := by simp
      rw [leBytes, leNat, ih, low, Nat.pow_succ', Nat.mod_mul]

end FsProtection.Base
