import FsProtection.Communicate.Clears

/-!
# Clears in lock step

Which accesses of overlapping calls of `destroy_list` are stopped, and which calls end. A
call that ends is never behind the others by more than a node it frees once more.
-/

namespace FsProtection

open Base

variable {σ : Type}

namespace Clears

open RuleHeap (Access Dying RuleScript Stepwise.destroy)

open Running Script Service

section Outcomes

variable {k : Kernel σ} {s next last : Writers σ} {before after : RuleHeap σ}
  {nodes : List (Nat × FileNode)} {freed count call : Nat} {took : Nat → Option Nat}
  {rest following : RuleScript Unit}

/-- The block a call is at, by how many nodes it passed. -/
theorem Racing.block_eq (racing : Racing before nodes freed took s)
    (here : s.calls call = some rest) :
    rest.block = (took call).bind fun count => (nodes.map Prod.fst)[count]? := by
  have stage := racing.stages call rest here
  cases taken : took call with
  | none =>
      rw [taken] at stage
      rcases stage with rfl | ⟨_, rfl | rfl⟩ <;> rfl
  | some count =>
      rw [taken] at stage
      rcases stage with left | ⟨passed, _, rfl⟩
      · rw [left.block_eq, List.head?_drop, Option.bind_some, List.getElem?_map]
      · rw [Option.bind_some, List.getElem?_eq_none (by simpa using passed)]
        rfl

/-- A call that is at a block took the list, and the block is its next node. -/
theorem Racing.at_node {address : Nat} (racing : Racing before nodes freed took s)
    (here : s.calls call = some rest) (isBlock : rest.block = some address) :
    ∃ gone value behind, took call = some gone.length ∧
      nodes = gone ++ (address, value) :: behind ∧ Left ((address, value) :: behind) rest := by
  have block := (racing.block_eq here).symm.trans isBlock
  obtain ⟨count, taken, position⟩ := Option.bind_eq_some_iff.mp block
  obtain ⟨inside, isAddress⟩ := List.getElem?_eq_some_iff.mp position
  rw [List.length_map] at inside
  have isNode : nodes[count] = (address, nodes[count].2) := by
    rw [← isAddress, List.getElem_map]
  have remaining : nodes.drop count = (address, nodes[count].2) :: nodes.drop (count + 1) := by
    rw [← isNode, List.drop_eq_getElem_cons inside]
  obtain ⟨gone, rfl, whole⟩ := drop_eq_cons remaining
  refine ⟨gone, _, _, taken, whole, ?_⟩
  have stage := racing.stages call rest here
  rw [taken] at stage
  rcases stage with left | ⟨passed, _, _⟩
  · exact remaining ▸ left
  · omega

theorem Racing.ended (racing : Racing before nodes freed took s)
    (done : s.calls call = some (.done ())) : freed = nodes.length ∧ s.shared.root = none := by
  have null : s.shared.root = none := by
    have stage := racing.stages call _ done
    cases taken : took call with
    | none =>
        rw [taken] at stage
        rcases stage with unread | ⟨null, _⟩
        · exact absurd unread nofun
        · exact null
    | some count =>
        rw [taken] at stage
        rcases stage with left | ⟨_, null, _⟩
        · exact absurd rfl left.ne_done
        · exact null
  refine ⟨?_, null⟩
  have le := racing.dying.le
  rcases racing.dying.root with root | ⟨_, all⟩
  · rw [null, eq_comm, Option.map_eq_none_iff, List.head?_eq_none_iff] at root
    rw [root, List.length_nil] at le ⊢
    omega
  · exact all

/-- A call that is at a node that is freed, or behind one that is freed after it freed its own
once more. -/
def Late (nodes : List (Nat × FileNode)) (freed : Nat) (s : Writers σ) (call : Nat) : Prop :=
  ∃ (rest : RuleScript Unit) (count : Nat), s.calls call = some rest ∧
    Left (nodes.drop count) rest ∧ count + (if rest.vfrees then 1 else 0) < freed

/-- The call does not end: it frees its node at most, and is stopped by the next. -/
theorem Late.step (late : Late nodes freed s call) (racing : Racing before nodes freed took s)
    {event : WriterEvent σ} (stepped : (listWrites k).step s event = .ok next) {later : Nat}
    (further : freed ≤ later) : Late nodes later next call := by
  obtain ⟨rest, count, here, left, behindFreed⟩ := late
  have kept : ∀ (other : Nat) (following : RuleScript Unit) (shared : RuleHeap σ), other ≠ call →
      Late nodes later (s.accessed other following shared) call :=
    fun other following shared apart => ⟨rest, count, by rw [accessed_ne apart.symm, here], left,
      behindFreed.trans_le further⟩
  cases step_moves stepped with
  | began other write idle =>
      refine kept other _ _ ?_
      rintro rfl
      cases idle.symm.trans here
  | again | absent | elsewhere => exact ⟨rest, count, here, left, behindFreed.trans_le further⟩
  | accessed other left' following after isHere ran =>
      by_cases same : other = call
      · subst same
        obtain rfl := Option.some.inj (isHere.symm.trans here)
        have le := racing.dying.le
        have inside : count < nodes.length := by omega
        have remaining : nodes.drop count =
            (nodes[count].1, nodes[count].2) :: nodes.drop (count + 1) :=
          List.drop_eq_getElem_cons inside
        rw [remaining] at left
        obtain ⟨gone, length, whole⟩ := drop_eq_cons remaining
        have dead : ¬ (s.shared.heap.cell nodes[count].1).isSome := by
          have position : (nodes.map Prod.fst)[count]? = some nodes[count].1 := by simp [inside]
          rw [Option.isSome_iff_ne_none, not_not]
          exact (racing.dying.gone _ _ position).mpr (by omega)
        cases left.access (racing.dying.leads _ _ _ _ whole) ran with
        | read live left same => exact absurd live dead
        | zero node live left shown points put => exact absurd live dead
        | free frees left goesOn release =>
            rw [if_pos frees] at behindFreed
            refine ⟨following, count + 1, accessed_self, left, ?_⟩
            rw [if_neg (by rw [goesOn]; exact Bool.false_ne_true)]
            exact behindFreed.trans_le further
      · exact kept other _ _ same

/-- Nor does it in any run. -/
theorem Late.run (late : Late nodes freed s call) (racing : Racing before nodes freed took s)
    (distinct : (nodes.map Prod.fst).Nodup) {events : List (WriterEvent σ)}
    (clears : ∀ event ∈ events, WriterEvent.Clears event)
    (ran : execute (listWrites k).step s events = .ok last) :
    last.calls call ≠ some (.done ()) := by
  have kept := execute_history
    (fun past last => (∀ event ∈ past, WriterEvent.Clears event) →
      ∃ later counts, Racing before nodes later counts last ∧ Late nodes later last call)
    (fun _ => ⟨freed, took, racing, late⟩) (fun past _ event _ holds stepped clears => by
      obtain ⟨_, _, racing, late⟩ :=
        holds fun other member => clears other (List.mem_append_left _ member)
      obtain ⟨later, counts, next, further⟩ := racing.step distinct (clears event (by simp)) stepped
      exact ⟨later, counts, next, late.step racing stepped further⟩) ran
  obtain ⟨later, counts, _, rest, count, here, left, _⟩ := kept clears
  intro done
  exact left.ne_done (Option.some.inj (here.symm.trans done))

end Outcomes

end Clears

end FsProtection
