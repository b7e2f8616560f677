import FsProtection.Base.Interleave
import FsProtection.Communicate.Proc
import FsProtection.Kernel.Quiet

/-!
# Handlers side by side

Both write handlers receive into the one `raw_data_buff`, and nothing keeps two of them apart.
Calls of them copy their bytes, put their NUL and act on the buffer in any order, each of these
in one go.
-/

namespace FsProtection

open Base

variable {σ : Type}

inductive ProcHandler where
  | protect
  | ctrl
deriving DecidableEq

/-- A write to one of the two files. -/
structure ProcWrite where
  handler : ProcHandler
  buffer : Bytes
  count : Nat
deriving DecidableEq

def ProcWrite.handle (k : Kernel σ) : ProcWrite → ProcM σ Int
  | ⟨.protect, buffer, count⟩ => procProtectWrite k buffer count
  | ⟨.ctrl, buffer, count⟩ => procCtrlWrite k buffer count

/-- What the handlers do to the globals. Acting on the text is one step here, and so is freeing
the list for an empty write: the accesses to the list they consist of do not overlap those of
another call. -/
inductive RawAccess where
  | copyToRaw (buffer : Bytes) (cnt : Nat)
  | terminateRaw (cnt : Nat)
  | act (handler : ProcHandler)
  | destroyRoot

namespace RawAccess

abbrev Answer : RawAccess → Type
  | .copyToRaw _ _ => Nat
  | _ => Unit

def perform (k : Kernel σ) : (access : RawAccess) → ProcM σ access.Answer
  | .copyToRaw buffer cnt => FsProtection.copyToRaw buffer cnt
  | .terminateRaw cnt => FsProtection.terminateRaw cnt
  | .act .protect => replaceRules k
  | .act .ctrl => ctrlCommand k
  | .destroyRoot => FsProtection.destroyRoot

end RawAccess

abbrev RawScript := Script RawAccess RawAccess.Answer

namespace ProcWrite

/-- What both handlers do with a non-empty write. -/
def receiveScript (handler : ProcHandler) (buffer : Bytes) (cnt : Nat) : RawScript Int := do
  let left : Nat ← Script.call (RawAccess.copyToRaw buffer cnt)
  if left ≠ 0 then
    return -efault
  else
    let _ : Unit ← Script.call (RawAccess.terminateRaw cnt)
    let _ : Unit ← Script.call (RawAccess.act handler)
    return cnt

/-- `proc_protect_write` and `proc_ctrl_write`, cut behind the copy and behind the NUL. -/
def script (write : ProcWrite) : RawScript Int := do
  if write.count = 0 then
    match write.handler with
    | .protect =>
        let _ : Unit ← Script.call RawAccess.destroyRoot
        return 0
    | .ctrl => return 0
  else
    receiveScript write.handler write.buffer (clampCount write.count)

theorem whole_receiveScript (k : Kernel σ) (handler : ProcHandler) (buffer : Bytes) (cnt : Nat) :
    (receiveScript handler buffer cnt).whole (RawAccess.perform k) =
      receive buffer cnt (RawAccess.perform k (.act handler)) := by
  unfold receiveScript receive
  rw [Script.whole_bind, Script.whole_call]
  refine bind_congr fun left => ?_
  by_cases all : left = 0
  · simp [all, RawAccess.perform]
  · simp [all]

/-- With nothing between its accesses a script is its handler. -/
theorem whole_script (k : Kernel σ) (write : ProcWrite) :
    write.script.whole (RawAccess.perform k) = write.handle k := by
  obtain ⟨handler, buffer, count⟩ := write
  unfold script
  by_cases empty : count = 0
  · cases handler <;>
      simp [empty, ProcWrite.handle, procProtectWrite, procCtrlWrite, RawAccess.perform]
  · rw [if_neg empty, whole_receiveScript]
    cases handler <;>
      simp [empty, ProcWrite.handle, procProtectWrite, procCtrlWrite, RawAccess.perform]

end ProcWrite

/-- The handlers, and a kernel that changes. -/
def procWrites (k : Kernel σ) :
    Service ProcWrite σ (ProcState σ) Fault Int RawAccess.Answer where
  script := ProcWrite.script
  perform := RawAccess.perform k
  elsewhere outside s := { s with outside := outside }

/-- The next access copies a text in. -/
def RawScript.copies : RawScript Int → Bool
  | .access (.copyToRaw _ _) _ => true
  | _ => false

/-- A text is copied in that is not acted on yet. -/
def RawScript.receives : RawScript Int → Bool
  | .access (.terminateRaw _) _ => true
  | .access (.act _) _ => true
  | _ => false

namespace ProcWrite

/-- The handler as one access; a ctrl write of nothing makes none. -/
def once (write : ProcWrite) : Script ProcWrite (fun _ => Int) Int :=
  if write.count = 0 ∧ write.handler = .ctrl then return 0 else Script.call write

/-- The handlers as accesses. -/
def atOnce (k : Kernel σ) :
    Service ProcWrite σ (ProcState σ) Fault Int (fun _ : ProcWrite => Int) where
  script := once
  perform := handle k
  elsewhere outside s := { s with outside := outside }

/-- What is left of a write that was copied in. -/
def afterCopy (write : ProcWrite) : RawScript Int := do
  let _ : Unit ← Script.call (RawAccess.terminateRaw (clampCount write.count))
  let _ : Unit ← Script.call (RawAccess.act write.handler)
  return clampCount write.count

/-- What is left of a write that was copied in and ended. -/
def afterNul (write : ProcWrite) : RawScript Int := do
  let _ : Unit ← Script.call (RawAccess.act write.handler)
  return clampCount write.count

section Accesses

variable {k : Kernel σ} {write : ProcWrite} {s after : ProcState σ} {following : RawScript Int}

/-- The first access of a write. -/
inductive First (write : ProcWrite) (s : ProcState σ) : RawScript Int → ProcState σ → Prop where
  | nothing (empty : write.count = 0) (ctrl : write.handler = .ctrl) : First write s (.done 0) s
  | destroyed (empty : write.count = 0) (protect : write.handler = .protect) :
      First write s (.done 0) (s.withRules [])
  | short (nonempty : write.count ≠ 0) (left : write.buffer.length < clampCount write.count) :
      First write s (.done (-efault)) (s.withRaw
        (copiedRaw s.globals.rawDataBuff write.buffer (clampCount write.count)))
  | copied (nonempty : write.count ≠ 0) (full : clampCount write.count ≤ write.buffer.length) :
      First write s write.afterCopy (s.withRaw
        (copiedRaw s.globals.rawDataBuff write.buffer (clampCount write.count)))

theorem first_of_advance
    (ran : Returns (write.script.advance (RawAccess.perform k)) s following after) :
    First write s following after := by
  obtain ⟨handler, buffer, count⟩ := write
  unfold script at ran
  dsimp only at ran
  by_cases empty : count = 0
  · rw [if_pos empty] at ran
    cases handler with
    | protect =>
        obtain ⟨_, destroyed, rfl⟩ := Script.returns_advance_iff.mp ran
        obtain rfl := returns_destroyRoot_iff.mp destroyed
        exact .destroyed empty rfl
    | ctrl =>
        obtain ⟨rfl, rfl⟩ := returns_pure_iff.mp ran
        exact .nothing empty rfl
  · rw [if_neg empty, receiveScript, Script.returns_advance_iff] at ran
    obtain ⟨left, copied, rfl⟩ := ran
    have known : Returns (copyToRaw buffer (clampCount count)) s (clampCount count - buffer.length)
        (s.withRaw (copiedRaw s.globals.rawDataBuff buffer (clampCount count))) := by
      simp [copyToRaw, ProcState.withRaw, copiedRaw]
    obtain ⟨rfl, rfl⟩ := known.unique copied
    by_cases short : buffer.length < clampCount count
    · rw [if_pos (by omega)]
      exact .short empty short
    · rw [if_neg (by omega)]
      exact .copied empty (Nat.le_of_not_lt short)

/-- What a handler does with a non-empty write. -/
theorem handle_eq (nonempty : write.count ≠ 0) : write.handle k =
    receive write.buffer (clampCount write.count) (RawAccess.perform k (.act write.handler)) := by
  obtain ⟨handler, buffer, count⟩ := write
  cases handler <;>
    simp only [handle, procProtectWrite, procCtrlWrite, if_neg nonempty, RawAccess.perform]

/-- A write that ends with its first access. -/
theorem First.returns {ret : Int} (first : First write s (.done ret) after)
    (called : write.once = Script.call write) : Returns (write.handle k) s ret after := by
  generalize isDone : Script.done ret = following at first
  cases first with
  | nothing empty ctrl =>
      rw [once, if_pos ⟨empty, ctrl⟩] at called
      cases called
  | destroyed empty protect =>
      cases isDone
      obtain ⟨handler, buffer, count⟩ := write
      cases protect
      simp only [handle, procProtectWrite, if_pos empty]
      have destroyed : Returns destroyRoot s () (s.withRules []) := returns_destroyRoot_iff.mpr rfl
      exact destroyed.bind (returns_pure_iff.mpr ⟨rfl, rfl⟩)
  | short nonempty left =>
      cases isDone
      rw [handle_eq nonempty]
      exact returns_receive_iff.mpr (.inl ⟨left, rfl, rfl⟩)
  | copied nonempty full => cases isDone

/-- A write between its copy and its act: what its accesses did to the buffer, and what is left
of it. -/
inductive Received (write : ProcWrite) (t s : ProcState σ) : RawScript Int → Prop where
  | copied (same : s = t.withRaw
      (copiedRaw t.globals.rawDataBuff write.buffer (clampCount write.count))) :
      Received write t s write.afterCopy
  | ended (inside : clampCount write.count < bufferSize) (same : s = t.withRaw
      (receivedRaw t.globals.rawDataBuff write.buffer ⟨clampCount write.count, inside⟩)) :
      Received write t s write.afterNul

theorem Received.receives {t : ProcState σ} {rest : RawScript Int}
    (received : Received write t s rest) : rest.receives = true := by
  cases received <;> rfl

/-- An access of it is its NUL, or the handler is done. -/
theorem Received.advance {t : ProcState σ} {rest : RawScript Int} (nonempty : write.count ≠ 0)
    (full : clampCount write.count ≤ write.buffer.length) (received : Received write t s rest)
    (ran : Returns (rest.advance (RawAccess.perform k)) s following after) :
    Received write t after following ∨ following = .done (clampCount write.count) ∧
      Returns (write.handle k) t (clampCount write.count) after := by
  cases received with
  | copied same =>
      obtain ⟨_, ended, rfl⟩ := Script.returns_advance_iff.mp ran
      change Returns (terminateRaw (clampCount write.count)) s _ after at ended
      rw [terminateRaw] at ended
      split at ended
      · next inside =>
          obtain rfl := returns_modify_iff.mp ended
          exact .inl (.ended inside (by rw [same]; rfl))
      · exact absurd ended returns_throw_iff.mp
  | ended inside same =>
      obtain ⟨_, acted, rfl⟩ := Script.returns_advance_iff.mp ran
      rw [handle_eq nonempty]
      exact .inr ⟨rfl, returns_receive_iff.mpr (.inr ⟨full, inside, rfl, same ▸ acted⟩)⟩

/-- Something else changes that leaves the buffer. -/
theorem Received.beside {t : ProcState σ} {rest : RawScript Int}
    (received : Received write t s rest) (change : ProcState σ → ProcState σ)
    (commutes : ∀ x raw, change (x.withRaw raw) = (change x).withRaw raw)
    (keeps : ∀ x, (change x).globals.rawDataBuff = x.globals.rawDataBuff) :
    Received write (change t) (change s) rest := by
  cases received with
  | copied same => exact .copied (by rw [same, commutes, keeps])
  | ended inside same => exact .ended inside (by rw [same, commutes, keeps])

end Accesses

end ProcWrite

end FsProtection
