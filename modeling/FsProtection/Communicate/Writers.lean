import FsProtection.Base.Interleave
import FsProtection.Communicate.Walks

/-!
# Writers side by side

Nothing keeps two processes from writing to the proc files at once. Any number of calls of
`create_list` and `destroy_list` make their accesses to the one list in any order.
-/

namespace FsProtection

open Base

variable {σ : Type}

/-- The block an access reads, changes or frees. -/
def RuleHeap.Access.block : Access → Pointer
  | .load p => p
  | .store p _ => p
  | .vfree address => some address
  | _ => none

/-- The block the next access is to. -/
def RuleHeap.RuleScript.block {Value : Type} : RuleScript Value → Pointer
  | .done _ => none
  | .access request _ => request.block

/-- Whether the next access reads the root. -/
def RuleHeap.RuleScript.readsRoot {Value : Type} : RuleScript Value → Bool
  | .access .top _ => true
  | _ => false

/-- Whether the next access frees a block. -/
def RuleHeap.RuleScript.vfrees {Value : Type} : RuleScript Value → Bool
  | .access (.vfree _) _ => true
  | _ => false

/-- The calls that change the list. -/
def listWrites (k : Kernel σ) :
    Service ListWrite σ (RuleHeap σ) Fault Unit RuleHeap.Access.Answer where
  script := ListWrite.script
  perform := RuleHeap.perform k
  elsewhere outside nodes := { nodes with outside := outside }

/-- The nodes, and what is left of the calls that change them. -/
abbrev Writers (σ : Type) := Running (RuleHeap σ) Unit RuleHeap.Access.Answer

abbrev WriterEvent (σ : Type) := CallEvent ListWrite σ

end FsProtection
