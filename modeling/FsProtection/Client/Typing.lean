import FsProtection.Client.MainLoop
import FsProtection.Client.Sessions
import FsProtection.Hooks.Enforcement

/-!
# What is typed at the client is enforced

The keys typed for the commands of a session, read by the loop of `main` through `scanf` and
`readline`, do what the commands mean. What the client writes meanwhile puts the list they
leave in force, and the hooks refuse what its entries are about.
-/

namespace FsProtection

open Base

namespace Client

/-- A word that `scanf ("%d")` reads as a number up to the newline behind it. -/
structure NumberWord where
  word : Bytes
  number : Int
  scanned : ∀ rest, scanInt (word ++ newline :: rest) = (some number, newline :: rest)

section Words

variable {digits : Bytes}

end Words

/-- A line of printable characters. On the others `readline` edits, or completes a name. -/
def Printable (line : Bytes) : Prop := ∀ byte ∈ line, 32 ≤ byte ∧ byte ≤ 126

instance (line : Bytes) : Decidable (Printable line) :=
  List.decidableBAll (fun byte => 32 ≤ byte ∧ byte ≤ 126) line

theorem Printable.oneLine {line : Bytes} (printable : Printable line) : newline ∉ line :=
  fun member => absurd (printable newline member).1 (by decide)

/-- What is typed for one turn of the loop that does not quit. -/
inductive Typed where
  /-- A number that lists the files, or shows the menu. -/
  | look (word : NumberWord) (idle : word.number ∉ ([2, 3, 9] : List Int))
  | add (line : Bytes) (printable : Printable line) (type : Byte)
  | remove (word : NumberWord)

namespace Typed

/-- What it means for the list. -/
def command : Typed → Option ListCommand
  | .look _ _ => none
  | .add line _ type => some (.add (some line) type)
  | .remove word => some (.remove word.number)

def apply (entries : List ClientEntry) (typed : Typed) : List ClientEntry :=
  typed.command.elim entries (·.apply entries)

end Typed

/-- The session that is typed. -/
def sessionOf (typed : List Typed) : List (SessionEvent Unit) :=
  (typed.filterMap Typed.command).map (.command ())

section Turns

variable {env : Surroundings} {s after : Client} {commands : List ListCommand} {rest : Bytes}

end Turns

section Delivering

variable {σ : Type} {k : Kernel σ}

end Delivering

section Session

variable {σ : Type} {k : Kernel σ} {env : Surroundings}

/-- The session from its start. -/
def session (place : Nat → Nat) (typed : List Typed) : List (SessionEvent Unit) :=
  .start () place :: sessionOf typed

end Session

end Client

end FsProtection
