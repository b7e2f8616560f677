import FsProtection.Client.Limits

/-!
# What the client reads and where it stores it

A number is read by `scanf`, which takes nothing of a word that is none; `readline` and
`kill` are the system's. A line that leads `addFile` out of `filePath` does not stop the
client: it reads and stores what is there.
-/

namespace FsProtection

open Base

/-- What the client calls outside its own source. -/
structure Surroundings where
  /-- `readline`: the line, or NULL, and what is left of the input. -/
  readline : Bytes → Option Bytes × Bytes
  /-- Whether the n-th `kill` succeeds. -/
  kill : Nat → Bool
  /-- What the n-th `removeFile` finds in `number` before it reads one. -/
  number : Nat → Int
  /-- The two bytes in front of the `filePath` of the n-th `addFile`. -/
  front : Nat → SizedBytes 2
  /-- Whether the client goes on when the n-th `addFile` stores outside its `filePath`. -/
  goesOn : Nat → Bool
  readlineRest : ∀ input, (readline input).2 <:+ input
  readlineEnd : (readline []).1 = none

section Scanning

/-- `isspace`. -/
def isSpace (byte : Byte) : Bool := byte ∈ ([32, 9, 10, 11, 12, 13] : Bytes)

def isSign (byte : Byte) : Bool := byte ∈ ([43, 45] : Bytes)

def isDigit (byte : Byte) : Bool := 48 ≤ byte ∧ byte ≤ 57

/-- The value of some digits. -/
def digitsValue (digits : Bytes) : Int :=
  digits.foldl (fun value digit => 10 * value + (digit.toNat - 48)) 0

/-- A `long` of 32 bits, where a number that is none is cut off. -/
def toLong (value : Int) : Int := max (-2147483648) (min 2147483647 value)

/-- What follows the white space and a sign. -/
def unsignedPart (input : Bytes) : Bytes :=
  let word := input.dropWhile isSpace
  if word.head?.any isSign then word.tail else word

/-- `scanf ("%d")`: the number, if there is one, and what is left of the input. White space
and a sign are taken also when no digit follows. -/
def scanInt (input : Bytes) : Option Int × Bytes :=
  let unsigned := unsignedPart input
  let digits := unsigned.takeWhile isDigit
  let value := digitsValue digits
  if digits = [] then (none, unsigned)
  else if (input.dropWhile isSpace).head? = some 45 then
    (some (toLong (-value)), unsigned.dropWhile isDigit)
  else (some (toLong value), unsigned.dropWhile isDigit)

/-- The input begins with white space, a sign or a digit. -/
def Begins (input : Bytes) : Prop :=
  ∃ byte ∈ input.head?, isSpace byte ∨ isSign byte ∨ isDigit byte

variable {input : Bytes}

theorem unsignedPart_suffix (input : Bytes) : unsignedPart input <:+ input := by
  unfold unsignedPart
  dsimp only
  split
  · exact (List.tail_suffix _).trans (List.dropWhile_suffix _)
  · exact List.dropWhile_suffix _

theorem scanInt_rest (input : Bytes) :
    (scanInt input).2 = (unsignedPart input).dropWhile isDigit := by
  unfold scanInt
  dsimp only
  split
  · rename_i none
    conv_lhs => rw [← List.takeWhile_append_dropWhile (p := isDigit) (l := unsignedPart input)]
    rw [none, List.nil_append]
  · split <;> rfl

theorem scanInt_suffix (input : Bytes) : (scanInt input).2 <:+ input := by
  rw [scanInt_rest]
  exact (List.dropWhile_suffix _).trans (unsignedPart_suffix input)

theorem unsignedPart_space {first : Byte} (spaced : isSpace first) (rest : Bytes) :
    unsignedPart (first :: rest) = unsignedPart rest := by
  rw [unsignedPart, List.dropWhile_cons_of_pos spaced]
  rfl

theorem unsignedPart_word {first : Byte} (word : ¬ isSpace first) (rest : Bytes) :
    unsignedPart (first :: rest) = if isSign first then rest else first :: rest := by
  rw [unsignedPart, List.dropWhile_cons_of_neg word]
  rfl

/-- White space, a sign or a digit at the front is taken, -/
theorem scanInt_consumes (begins : Begins input) : (scanInt input).2.length < input.length := by
  obtain ⟨byte, isFirst, kind⟩ := begins
  cases input with
  | nil => cases isFirst
  | cons first rest =>
      obtain rfl := Option.some.inj isFirst
      rw [scanInt_rest, List.length_cons, Nat.lt_succ_iff]
      by_cases spaced : isSpace first
      · rw [unsignedPart_space spaced]
        exact ((List.dropWhile_suffix _).trans (unsignedPart_suffix rest)).length_le
      · rw [unsignedPart_word spaced]
        by_cases signed : isSign first
        · rw [if_pos signed]
          exact (List.dropWhile_suffix _).length_le
        · have digit := (kind.resolve_left spaced).resolve_left signed
          rw [if_neg signed, List.dropWhile_cons_of_pos digit]
          exact (List.dropWhile_suffix _).length_le

/-- and nothing else is. -/
theorem scanInt_stuck (stuck : ¬ Begins input) : scanInt input = (none, input) := by
  cases input with
  | nil => rfl
  | cons first rest =>
      have word : ¬ isSpace first := fun spaced => stuck ⟨first, rfl, .inl spaced⟩
      have unsigned : ¬ isSign first := fun signed => stuck ⟨first, rfl, .inr (.inl signed)⟩
      have letter : ¬ isDigit first := fun digit => stuck ⟨first, rfl, .inr (.inr digit)⟩
      have same : unsignedPart (first :: rest) = first :: rest :=
        (unsignedPart_word word rest).trans (if_neg unsigned)
      rw [scanInt, same]
      exact if_pos (List.takeWhile_cons_of_neg letter)

end Scanning

section Storing

/-- `filePath[len - 1]` is cleared and left out when it is the byte. The region begins in
front of `filePath`, and `place` is where `filePath[len - 1]` is in it. -/
def trimLast (byte : Byte) (region : Bytes) (place : Nat) : Bytes × Nat :=
  if region[place]? = some byte then (region.set place 0, place - 1) else (region, place)

/-- Memory from the two bytes in front of `filePath` on, when `addFile` has laid a text over
it and looked at its end twice. -/
def storedLine (front : SizedBytes 2) (text : Bytes) : Bytes :=
  let region := front.1 ++ (text ++ List.replicate (filepathSize - text.length) 0)
  let trimmed := trimLast space region (text.length + 1)
  (trimLast slash trimmed.1 trimmed.2).1

variable {byte : Byte} {region front text : Bytes} {place count : Nat}

theorem trimLast_length : (trimLast byte region place).1.length = region.length := by
  unfold trimLast
  split
  · exact List.length_set
  · rfl

theorem storedLine_field (front : SizedBytes 2) (text : Bytes) :
    (((storedLine front text).drop 2).take filepathSize).length = filepathSize := by
  have size := front.2
  simp only [storedLine, List.length_take, List.length_drop, trimLast_length, List.length_append,
    List.length_replicate]
  omega

/-- The `filePath` of the n-th `addFile`. `strlen` stops at NULL, and a store outside
`filePath` may stop the client. -/
def Surroundings.filePath (env : Surroundings) (n : Nat) :
    Option Bytes → Except Fault (SizedBytes filepathSize)
  | none => .error .badPointer
  | some line =>
      let region := storedLine (env.front n) (cstr line)
      if (filepathSize < (cstr line).length ∨ region.take 2 ≠ (env.front n).1) ∧
          env.goesOn n = false then
        .error .overrun
      else .ok ⟨(region.drop 2).take filepathSize, storedLine_field _ _⟩

/-- What the `type` of the n-th `addFile` is before it is read: cleared by `memset`, or under
a line that is too long. -/
def Surroundings.typeBefore (env : Surroundings) (n : Nat) : Option Bytes → Byte
  | none => 0
  | some line => (storedLine (env.front n) (cstr line))[filepathSize + 2]?.getD 0

theorem Surroundings.filePath_goesOn {env : Surroundings} {n : Nat} (goes : env.goesOn n = true)
    (line : Bytes) : ∃ filePath, env.filePath n (some line) = .ok filePath := by
  rw [Surroundings.filePath, if_neg (by simp [goes])]
  exact ⟨_, rfl⟩

end Storing

end FsProtection
