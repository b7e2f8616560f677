import FsProtection.Load.Soundness

/-!
# Where system calls get

A call in a handler is in the one the kernel had for it. Whether a call goes on is whether the
module is where its hooks are, until a loading fails with the table patched.
-/

namespace FsProtection

open Base

namespace Load

variable {σ : Type} {text : Text}

namespace Dispatch

variable {b : Build} {table : Nat → UInt32} {s next : Dispatch text σ} {kernel : LoadState σ}
  {call : Hooked} {hook handler : UInt32} {event : DispatchEvent text σ}

/-- How calls go on while no loading has left its handlers in the table. -/
structure Reaches (b : Build) (table : Nat → UInt32) (s : Dispatch text σ) : Prop where
  enters : ∀ caller call, ∃ next, s.step b (.enter caller call) = .ok next
  forwards : ∀ caller call hook outer life, s.callers caller = .inHook call hook outer life →
    ((∃ next, s.step b (.forward caller) = .ok next) ↔
      s.there call hook = true ∧ s.kernel.origin call = table (b.nr call))
  refuses : ∀ caller call hook outer life, s.callers caller = .inHook call hook outer life →
    ((∃ next, s.step b (.refuse caller) = .ok next) ↔
      ∀ through ∈ hook :: outer, s.there call through = true)
  finishes : ∀ caller call handler hooks life,
    s.callers caller = .handled call handler hooks life →
    ((∃ next, s.step b (.finish caller) = .ok next) ↔
      ∀ through ∈ hooks, s.there call through = true)
  hooked : ∀ caller call hook outer, s.callers caller = .inHook call hook outer s.freed →
    (∀ through ∈ hook :: outer, s.there call through = true) ∧
      s.kernel.origin call = table (b.nr call)
  passed : ∀ caller call handler hooks, s.callers caller = .handled call handler hooks s.freed →
    ∀ through ∈ hooks, s.there call through = true
  live : ∀ place, s.phase = .live place → ∀ call, s.kernel.table (b.nr call) = place.modified call
  absent : s.phase = .absent → s.kernel.table = table

/-- An entry leads into the kernel or into a hook of the module that is there. -/
theorem Intact.leads (handlers : ∀ call, text.has (table (b.nr call)) = true)
    (intact : s.phase.Intact b table s.kernel) (call : Hooked) :
    s.there call (s.kernel.table (b.nr call)) = true ∨
      text.has (s.kernel.table (b.nr call)) = true := by
  cases isPlace : s.phase.place with
  | none =>
      cases phase : s.phase with
      | absent =>
          rw [phase] at intact
          exact .inr (intact.1.symm ▸ handlers call)
      | _ => simp [phase, Phase.place] at isPlace
  | some place =>
      obtain kept | ⟨isHook, _⟩ := (Intact.sane intact isPlace).hooked call
      · exact .inr (kept.symm ▸ handlers call)
      · exact .inl (there_iff.mpr ⟨place, isPlace, isHook.symm⟩)

/-- A saved handler is the kernel's, or there is nothing to run at it. -/
theorem Intact.backs (handlers : ∀ call, text.has (table (b.nr call)) = true)
    (intact : s.phase.Intact b table s.kernel) (call : Hooked) :
    (s.there call (s.kernel.origin call) = true ∨ text.has (s.kernel.origin call) = true) ↔
      s.kernel.origin call = table (b.nr call) := by
  have known : s.kernel.origin call = 0 ∨ s.kernel.origin call = table (b.nr call) := by
    cases phase : s.phase with
    | absent =>
        rw [phase] at intact
        exact .inl (intact.2 call)
    | loading place =>
        rw [phase] at intact
        exact intact.1.origin call
    | live place =>
        rw [phase] at intact
        exact intact.1.origin call
    | leaving place =>
        rw [phase] at intact
        exact intact.1.origin call
  constructor
  · intro leads
    refine known.resolve_left fun null => ?_
    rw [null] at leads
    obtain isThere | isText := leads
    · obtain ⟨place, _, isNull⟩ := there_iff.mp isThere
      exact place.notNull call isNull
    · cases text.null.symm.trans isText
  · intro same
    exact .inr (same.symm ▸ handlers call)

theorem Sound.reaches (handlers : ∀ call, text.has (table (b.nr call)) = true)
    (sound : s.Sound b table) (kept : s.lost = false) : s.Reaches b table := by
  obtain ⟨intact, alive⟩ := sound.intact kept
  refine ⟨?_, ?_, ?_, ?_, ?_, ?_, ?_, ?_⟩
  · intro caller call
    simp only [Dispatch.step]
    split
    · exact exists_withCaller_iff.mpr (leads_iff.mpr (Intact.leads handlers intact call))
    · exact ⟨s, rfl⟩
  · intro caller call hook outer life here
    simp only [Dispatch.step, here]
    cases isThere : s.there call hook with
    | true =>
        simp only [if_true, true_and]
        exact exists_withCaller_iff.trans (leads_iff.trans (Intact.backs handlers intact call))
    | false => simp [throw, throwThe, MonadExceptOf.throw]
  · intro caller call hook outer life here
    simp only [Dispatch.step, here]
    rw [← List.all_eq_true]
    cases (hook :: outer).all (s.there call) <;>
      simp [throw, throwThe, MonadExceptOf.throw, pure, Except.pure]
  · intro caller call handler hooks life here
    simp only [Dispatch.step, here]
    rw [← List.all_eq_true]
    cases hooks.all (s.there call) <;>
      simp [throw, throwThe, MonadExceptOf.throw, pure, Except.pure]
  · intro caller call hook outer here
    have inHook := alive caller
    rw [here] at inHook
    obtain ⟨hooks, saved⟩ := inHook.2 rfl
    exact ⟨hooks, saved call⟩
  · intro caller call handler hooks here
    have handled := alive caller
    rw [here] at handled
    exact handled.2 rfl
  · intro place live
    rw [live] at intact
    exact intact.2.2
  · intro absent
    rw [absent] at intact
    exact intact.1

/-- Kernel code as a 32-bit kernel has it, and the module's pages apart from it. -/
def kernelText : Text := ⟨fun address => 0xc1000000 ≤ address && address < 0xd0000000, rfl⟩

def modulePages : Place kernelText where
  modified := i386.modified
  apart call := by cases call <;> decide
  notNull call := by cases call <;> decide

def everything : LoadOutcomes := ⟨true, fun _ => true, true, fun _ => true, true⟩

/-- While the module is loaded: `mkdir` has its hook by then, `chdir` has not. -/
def loading : List (DispatchEvent kernelText Unit) :=
  .insmod modulePages everything ::
    (List.replicate 25 .access ++ [.enter 0 .mkdir, .enter 1 .chdir])

/-- What a run shows: whether the table is lost, whether the module is there, how often its
memory was freed, and two of the calls. -/
def shown (events : List (DispatchEvent kernelText Unit)) (caller other : Nat) :
    Option (Bool × Bool × Nat × Caller × Caller) :=
  (execute (step i386) (start unloaded) events).toOption.map fun s =>
    (s.lost, s.phase.place.isSome, s.freed, s.callers caller, s.callers other)

end Dispatch

end Load

end FsProtection
