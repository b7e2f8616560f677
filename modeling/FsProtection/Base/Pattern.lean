import Mathlib.Data.List.Infix
import FsProtection.Base.Region

/-!
# Searching a pattern

The first offset below a bound at which a pattern stands in some bytes. A pattern that
cannot overlap itself is found where it was put, if it is not in what stands before it.
-/

namespace FsProtection.Base

variable {pattern bytes front back : Bytes} {bound offset : Nat}

/-- The pattern stands at the offset. -/
def StandsAt (pattern bytes : Bytes) (offset : Nat) : Prop := pattern <+: bytes.drop offset

instance (pattern bytes : Bytes) (offset : Nat) : Decidable (StandsAt pattern bytes offset) :=
  inferInstanceAs (Decidable (pattern <+: bytes.drop offset))

def firstOffset (pattern bytes : Bytes) (bound : Nat) : Option Nat :=
  (List.range bound).find? fun offset => StandsAt pattern bytes offset

/-- No end of the pattern, but itself and the empty one, is a beginning of it. -/
def Unbordered (pattern : Bytes) : Prop :=
  ∀ shift, pattern.drop shift <+: pattern → shift = 0 ∨ pattern.length ≤ shift

theorem firstOffset_eq_some_iff : firstOffset pattern bytes bound = some offset ↔
    offset < bound ∧ StandsAt pattern bytes offset ∧
      ∀ earlier < offset, ¬ StandsAt pattern bytes earlier := by
  rw [firstOffset, List.find?_range_eq_some]
  simp only [decide_eq_true_eq, Bool.not_eq_true', decide_eq_false_iff_not, List.mem_range]
  tauto

theorem firstOffset_prefix (begins : pattern <+: bytes) (bound : Nat) :
    firstOffset pattern bytes (bound + 1) = some 0 :=
  firstOffset_eq_some_iff.mpr ⟨Nat.succ_pos _, begins, fun _ earlier => absurd earlier (by omega)⟩

/-- A pattern that does not begin the bytes is found behind the first one. -/
theorem firstOffset_cons {byte : Byte} {rest : Bytes} (differs : ¬ pattern <+: byte :: rest)
    (bound : Nat) :
    firstOffset pattern (byte :: rest) (bound + 1) =
      (firstOffset pattern rest bound).map (· + 1) := by
  rw [firstOffset, List.range_succ_eq_map, List.find?_cons, List.find?_map]
  simp only [StandsAt, List.drop_zero, differs, decide_false]
  rfl

theorem standsAt_append (front pattern back : Bytes) :
    StandsAt pattern (front ++ (pattern ++ back)) front.length := by
  rw [StandsAt, List.drop_left]
  exact List.prefix_append _ _

/-- What stands before the pattern and does not overlap it is in the bytes before it. -/
theorem standsAt_before (unbordered : Unbordered pattern) (before : offset < front.length)
    (stands : StandsAt pattern (front ++ (pattern ++ back)) offset) : pattern <:+: front := by
  rw [StandsAt, List.drop_append_of_le_length (Nat.le_of_lt before)] at stands
  by_cases inside : pattern.length ≤ (front.drop offset).length
  · have begins := List.prefix_of_prefix_length_le stands (List.prefix_append _ _) inside
    exact begins.isInfix.trans (List.drop_suffix _ _).isInfix
  · have short : (front.drop offset).length ≤ pattern.length := by omega
    obtain ⟨rest, whole⟩ := List.prefix_of_prefix_length_le (List.prefix_append _ _) stands short
    have begins : front.drop offset ++ rest <+: front.drop offset ++ (pattern ++ back) := by
      rw [whole]
      exact stands
    have overlaps : rest <+: pattern ++ back := (List.prefix_append_right_inj _).mp begins
    have isDrop : pattern.drop (front.drop offset).length = rest := by
      rw [← whole, List.drop_left]
    have shorter : rest.length ≤ pattern.length := by
      rw [← isDrop, List.length_drop]
      omega
    have borders : rest <+: pattern :=
      List.prefix_of_prefix_length_le overlaps (List.prefix_append _ _) shorter
    rcases unbordered (front.drop offset).length (isDrop ▸ borders) with zero | long
    · rw [List.length_drop] at zero
      omega
    · omega

/-- A pattern is found where it was put. -/
theorem firstOffset_append (unbordered : Unbordered pattern) (inside : front.length < bound)
    (absent : ¬ pattern <:+: front) (back : Bytes) :
    firstOffset pattern (front ++ (pattern ++ back)) bound = some front.length :=
  firstOffset_eq_some_iff.mpr ⟨inside, standsAt_append front pattern back,
    fun _ earlier stands => absent (standsAt_before unbordered earlier stands)⟩

end FsProtection.Base
