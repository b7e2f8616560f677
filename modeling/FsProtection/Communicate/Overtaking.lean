import FsProtection.Communicate.Linearization

/-!
# Lookups that a destruction overtakes

A lookup by path that is under way when `destroy_list` begins, or begins while it is at
work, reads a freed block exactly when it was overtaken.
-/

namespace FsProtection

open Base

variable {σ : Type}

namespace Walks

/-- The event begins no call that changes the list, and no walk of the reader. -/
def Calm (reader : Nat) : WalkEvent σ → Prop
  | .write _ => False
  | .lookup other _ => other ≠ reader
  | _ => True

theorem Calm.quiet {reader : Nat} {event : WalkEvent σ} (calm : Calm reader event) :
    Quiet reader event := by
  cases event with
  | write call => exact calm.elim
  | access => trivial
  | elsewhere outside => trivial
  | lookup other query => exact calm
  | walk other => trivial

/-- `destroy_list` is freeing the nodes of a list, or is done. -/
structure Freeing (k : Kernel σ) (before : RuleHeap σ) (nodes : List (Nat × FileNode))
    (s : Walks σ) : Prop where
  dying : ∃ freed, RuleHeap.Dying before nodes freed s.nodes
  keeps : RuleHeap.Promises k (fun _ after => ∃ freed, RuleHeap.Dying before nodes freed after)
    (fun _ _ => True) s.rest s.nodes

/-- A reader's walk by path over the nodes of a list that is being freed. -/
def Walking (k : Kernel σ) (outside : σ) (nodes : List (Nat × FileNode)) (reader : Nat)
    (text : Bytes) (ptype : ProtectType) (seen : List FileNode → Prop) (s : Walks σ) : Prop :=
  ∃ walk taken, s.walks reader = some (.path text ptype, walk) ∧
    walk.Fits FileNode.shown (Query.passes k outside (.path text ptype)) seen nodes taken

section Destruction

variable {k : Kernel σ} {s next first middle doomed last : Walks σ} {before : RuleHeap σ}
  {outside : σ}
  {nodes : List (Nat × FileNode)} {reader : Nat} {text : Bytes} {ptype : ProtectType}
  {seen : List FileNode → Prop} {event : WalkEvent σ}
  {past during after : List (WalkEvent σ)}

/-- A path is compared with what a rule shows. -/
theorem passes_shown {outside : σ} {value other : FileNode} (same : value.shown = other.shown) :
    Query.passes k outside (.path text ptype) value =
      Query.passes k outside (.path text ptype) other := by
  obtain ⟨path, type⟩ := Prod.mk.inj same
  simp only [Query.passes, path, type]

theorem Freeing.step (freeing : Freeing k before nodes s) (calm : Calm reader event)
    (stepped : s.step k event = .ok next) : Freeing k before nodes next := by
  obtain ⟨⟨freed, dying⟩, keeps⟩ := freeing
  cases event with
  | write call => exact calm.elim
  | access =>
      obtain ⟨rest, heap, ran, answered⟩ := run_bind_eq_ok.mp stepped
      cases answered
      obtain ⟨allowed, goesOn⟩ := keeps.advance RuleHeap.SameNodes.refl ran
      refine ⟨?_, goesOn⟩
      rcases allowed with same | further
      · exact ⟨freed, same ▸ dying⟩
      · exact further
  | elsewhere outside =>
      cases stepped
      exact ⟨⟨freed, dying.same ⟨rfl, rfl⟩⟩, keeps.stable ⟨rfl, rfl⟩ RuleHeap.SameNodes.trans⟩
  | lookup other query =>
      cases stepped
      exact ⟨⟨freed, dying⟩, keeps⟩
  | walk other =>
      rcases walk_step_ok stepped with ⟨_, rfl⟩ | ⟨_, _, _, _, _, rfl⟩
      · exact ⟨⟨freed, dying⟩, keeps⟩
      · exact ⟨⟨freed, dying⟩, keeps⟩

theorem Walking.step (freeing : Freeing k before nodes s) (known : seen (nodes.map Prod.snd))
    (walking : Walking k outside nodes reader text ptype seen s) (calm : Calm reader event)
    (stepped : s.step k event = .ok next) :
    Walking k outside nodes reader text ptype seen next := by
  obtain ⟨walk, taken, here, fits⟩ := walking
  cases moved : moves reader event with
  | false => exact ⟨walk, taken, (walks_other calm.quiet moved stepped).trans here, fits⟩
  | true =>
      cases event with
      | walk other =>
          obtain rfl : other = reader := by simpa [moves] using moved
          obtain ⟨absent, _⟩ | ⟨query, walk', following, here', walked, rfl⟩ :=
            walk_step_ok stepped
          · rw [here] at absent
            cases absent
          · rw [here] at here'
            cases here'
            obtain ⟨freed, dying⟩ := freeing.dying
            exact ⟨following, taken + 1, Function.update_self ..,
              fits.step dying.leads known (fun _ _ _ => passes_shown) walked⟩
      | write call => cases moved
      | access => cases moved
      | elsewhere outside => cases moved
      | lookup reader query => cases moved

/-- What the next step of a walk meets at the node of the list it reads: a freed block, on
which it faults, exactly when more nodes are freed than the walk has passed. -/
structure Overtaken.Reads (k : Kernel σ) (nodes : List (Nat × FileNode)) (reader : Nat)
    (s : Walks σ) (freed address : Nat) (passed : Nat) : Prop where
  isNode : (nodes.map Prod.fst)[passed]? = some address
  gone : s.nodes.heap.cell address = none ↔ passed < freed
  faults : (¬ ∃ next, s.step k (.walk reader) = .ok next) ↔ passed < freed

end Destruction

end Walks

end FsProtection
