import FsProtection.Communicate.Writers

/-!
# Clears that overlap

Calls of `destroy_list` make their accesses to one list in any order. A call is stopped when
it reads or changes a node another has freed, while to free it again is only warned about.
What is freed is a first part of the list, as far as one of the calls has come.
-/

namespace FsProtection

open Base

variable {σ : Type}

/-- An event of calls of `destroy_list`. -/
def WriterEvent.Clears : WriterEvent σ → Prop
  | .begins _ write => write = .destroyList
  | _ => True

namespace Clears

open RuleHeap (Access Dying RuleScript Stepwise.destroy Stepwise.destroyLoop)

open Running Script Service

/-- A call that took the list, by the nodes it has still to free: it reads the next one,
takes its inode away, or frees it, and behind the last one it sets the root. -/
inductive Left : List (Nat × FileNode) → RuleScript Unit → Prop where
  | read {rest turns} (enough : rest.length ≤ turns) :
      Left rest (do
        Stepwise.destroyLoop turns (rest.head?.map Prod.fst)
        Script.call (Access.setTop none))
  | zero {address value rest turns} {node : Node FileNode}
      (shown : node.value.shown = value.shown) (next : node.next = rest.head?.map Prod.fst)
      (enough : rest.length ≤ turns) :
      Left ((address, value) :: rest) (do
        RuleHeap.Stepwise.store (some address) { node with value := { node.value with inode := 0 } }
        let _ : Unit ← Script.call (Access.vfree address)
        Stepwise.destroyLoop turns node.next
        Script.call (Access.setTop none))
  | free {address value rest turns} (enough : rest.length ≤ turns) :
      Left ((address, value) :: rest) (do
        let _ : Unit ← Script.call (Access.vfree address)
        Stepwise.destroyLoop turns (rest.head?.map Prod.fst)
        Script.call (Access.setTop none))

/-- What is left of a call, by how many nodes it freed if it took the list. -/
def Stage (nodes : List (Nat × FileNode)) (root : Pointer) :
    Option Nat → RuleScript Unit → Prop
  | some count, rest => Left (nodes.drop count) rest ∨
      nodes.length ≤ count ∧ root = none ∧ rest = .done ()
  | none, rest => rest = Stepwise.destroy ∨
      root = none ∧ (rest = Script.call (Access.setTop none) ∨ rest = .done ())

/-- Calls over the nodes of a list, some of which are freed. `took` are the calls that took
the list, and how many nodes each has passed. -/
structure Racing (before : RuleHeap σ) (nodes : List (Nat × FileNode)) (freed : Nat)
    (took : Nat → Option Nat) (s : Writers σ) : Prop where
  dying : Dying before nodes freed s.shared
  bound : nodes.length ≤ s.shared.heap.bound
  listed : ∀ call count, took call = some count → nodes ≠ []
  passed : ∀ call count, took call = some count → count ≤ freed
  farthest : 0 < freed → ∃ call, took call = some freed
  begun : ∀ call, s.calls call = none → took call = none
  stages : ∀ call rest, s.calls call = some rest → Stage nodes s.shared.root (took call) rest

section Accesses

variable {k : Kernel σ} {here after : RuleHeap σ} {remaining behind : List (Nat × FileNode)}
  {rest next : RuleScript Unit} {address : Nat} {value : FileNode}

theorem destroyLoop_null (turns : Nat) : Stepwise.destroyLoop turns none = pure () := by
  cases turns <;> rfl

theorem returns_perform_heap {Value : Type} {program : Program (Heap FileNode) Fault Value}
    {answer : Value} : Returns (RuleHeap.onHeap program) here answer after ↔
      ∃ heap, Returns program here.heap answer heap ∧ after = { here with heap := heap } :=
  returns_onPart_iff

/-- Behind the last node the root is set. -/
theorem loop_ends (turns : Nat) :
    (do
      Stepwise.destroyLoop turns (([] : List (Nat × FileNode)).head?.map Prod.fst)
      Script.call (Access.setTop none)) = Script.call (Access.setTop none) := by
  rw [List.head?_nil, Option.map_none, destroyLoop_null]
  rfl

/-- A node that is left is read first. -/
theorem loop_reads {turns : Nat} (enough : ((address, value) :: behind).length ≤ turns) :
    ∃ less, behind.length ≤ less ∧
      (do
        Stepwise.destroyLoop turns (((address, value) :: behind).head?.map Prod.fst)
        Script.call (Access.setTop none)) =
      (Script.call (Access.load (some address)) >>= fun node => do
        RuleHeap.Stepwise.store (some address) { node with value := { node.value with inode := 0 } }
        let _ : Unit ← Script.call (Access.vfree address)
        Stepwise.destroyLoop less node.next
        Script.call (Access.setTop none)) := by
  cases turns with
  | zero => simp at enough
  | succ less => exact ⟨less, by simpa using enough, rfl⟩

/-- A call with nodes to free is at the first of them. -/
theorem Left.block_eq (left : Left remaining rest) :
    rest.block = remaining.head?.map Prod.fst := by
  cases left with
  | read enough =>
      cases remaining with
      | nil =>
          rw [loop_ends]
          rfl
      | cons node behind =>
          obtain ⟨less, _, reads⟩ := loop_reads enough
          rw [reads]
          rfl
  | zero shown next enough => rfl
  | free enough => rfl

/-- A call that is about to go on to a node does not free one. -/
theorem Left.goesOn {turns : Nat} (enough : remaining.length ≤ turns) :
    RuleHeap.RuleScript.vfrees (do
      Stepwise.destroyLoop turns (remaining.head?.map Prod.fst)
      Script.call (Access.setTop none)) = false := by
  cases remaining with
  | nil =>
      rw [loop_ends]
      rfl
  | cons node behind =>
      obtain ⟨less, _, reads⟩ := loop_reads enough
      rw [reads]
      rfl

theorem Left.ne_done (left : Left remaining rest) : rest ≠ .done () := by
  cases left with
  | read enough =>
      cases remaining with
      | nil =>
          rw [loop_ends]
          exact nofun
      | cons node behind =>
          obtain ⟨less, _, reads⟩ := loop_reads enough
          rw [reads]
          exact nofun
  | zero shown next enough => exact nofun
  | free enough => exact nofun

/-- Behind the last node a call sets the root. -/
theorem Left.ends (left : Left [] rest) :
    Returns (rest.advance (RuleHeap.perform k)) here next after ↔
      next = .done () ∧ after = { here with root := none } := by
  cases left with
  | read enough =>
      rw [loop_ends, ← bind_pure (Script.call (Access.setTop none)), returns_advance_iff]
      simp only [RuleHeap.perform, returns_modify_iff]
      constructor
      · rintro ⟨_, rfl, rfl⟩
        exact ⟨rfl, rfl⟩
      · rintro ⟨rfl, rfl⟩
        exact ⟨(), rfl, rfl⟩

/-- What an access to the first node left does: it reads it or changes its inode, when it is
live, or frees it. -/
inductive Left.Access (here : RuleHeap σ) (address : Nat) (value : FileNode)
    (behind : List (Nat × FileNode)) (rest next : RuleScript Unit) (after : RuleHeap σ) : Prop where
  | read (live : (here.heap.cell address).isSome) (left : Left ((address, value) :: behind) next)
      (same : after = here)
  | zero (node : Node FileNode) (live : (here.heap.cell address).isSome)
      (left : Left ((address, value) :: behind) next)
      (shown : node.value.shown = value.shown) (points : node.next = behind.head?.map Prod.fst)
      (put : after = { here with heap := here.heap.put address node })
  | free (frees : rest.vfrees = true) (left : Left behind next) (goesOn : next.vfrees = false)
      (release : after = { here with heap :=
        if (here.heap.cell address).isSome then here.heap.drop address else here.heap })

theorem Left.access (left : Left ((address, value) :: behind) rest)
    (leads : ∀ node, here.heap.cell address = some node →
      node.value.shown = value.shown ∧ node.next = behind.head?.map Prod.fst)
    (ran : Returns (rest.advance (RuleHeap.perform k)) here next after) :
    Left.Access here address value behind rest next after := by
  cases left with
  | read enough =>
      obtain ⟨less, enough, reads⟩ := loop_reads enough
      rw [reads, returns_advance_iff] at ran
      obtain ⟨node, ran, rfl⟩ := ran
      obtain ⟨heap, loaded, rfl⟩ := returns_perform_heap.mp ran
      obtain ⟨live, rfl⟩ := Heap.returns_load_iff.mp loaded
      obtain ⟨shown, points⟩ := leads node live
      exact .read (Option.isSome_of_eq_some live) (.zero shown points enough) rfl
  | @zero _ _ _ turns node shown points enough =>
      rw [RuleHeap.Stepwise.store, returns_advance_iff] at ran
      obtain ⟨_, ran, rfl⟩ := ran
      obtain ⟨heap, stored, rfl⟩ := returns_perform_heap.mp ran
      obtain ⟨live, rfl⟩ := Heap.returns_store_iff.mp stored
      refine .zero { node with value := { node.value with inode := 0 } } live ?_ shown points rfl
      rw [points]
      exact .free enough
  | free enough =>
      rw [returns_advance_iff] at ran
      obtain ⟨_, ran, rfl⟩ := ran
      obtain ⟨heap, freed, rfl⟩ := returns_perform_heap.mp ran
      rw [Heap.returns_release_iff.mp freed]
      exact .free rfl (.read enough) (Left.goesOn enough) rfl

end Accesses

section Race

variable {k : Kernel σ} {s next last : Writers σ} {before after : RuleHeap σ}
  {nodes : List (Nat × FileNode)} {freed count call : Nat} {took : Nat → Option Nat}
  {rest following : RuleScript Unit}

/-- A root that is set to NULL leaves the others what they were about to do. -/
theorem Stage.cleared {root : Pointer} {counted : Option Nat}
    (stage : Stage nodes root counted rest) : Stage nodes none counted rest := by
  cases counted with
  | none => exact stage.imp id fun ⟨_, ends⟩ => ⟨rfl, ends⟩
  | some count => exact stage.imp id fun ⟨passed, _, ended⟩ => ⟨passed, rfl, ended⟩

/-- An access that leaves the counts as they are. -/
theorem Racing.stays (racing : Racing before nodes freed took s)
    (dying : Dying before nodes freed after) (bound : s.shared.heap.bound ≤ after.heap.bound)
    (root : after.root = s.shared.root ∨ after.root = none)
    (stage : Stage nodes after.root (took call) following) :
    Racing before nodes freed took (s.accessed call following after) where
  dying := dying
  bound := racing.bound.trans bound
  listed := racing.listed
  passed := racing.passed
  farthest := racing.farthest
  begun other idle := racing.begun other (accessed_idle idle).2
  stages other left now := by
    rcases update_eq_some.mp now with ⟨rfl, rfl⟩ | ⟨_, was⟩
    · exact stage
    · have was := racing.stages other left was
      rcases root with root | root
      · exact root ▸ was
      · exact root ▸ was.cleared

/-- A call that reads the root of the list takes it. -/
theorem Racing.takes (racing : Racing before nodes freed took s) (listed : nodes ≠ [])
    (untaken : took call = none) (left : Left nodes following) :
    Racing before nodes freed (Function.update took call (some 0))
      (s.accessed call following s.shared) where
  dying := racing.dying
  bound := racing.bound
  listed _ _ _ := listed
  passed other count counted := by
    rcases update_eq_some.mp counted with ⟨_, rfl⟩ | ⟨_, was⟩
    · exact Nat.zero_le _
    · exact racing.passed other count was
  farthest some := by
    obtain ⟨farthest, counted⟩ := racing.farthest some
    have apart : farthest ≠ call := by
      rintro rfl
      rw [untaken] at counted
      cases counted
    exact ⟨farthest, by rw [Function.update_of_ne apart, counted]⟩
  begun other idle := by
    obtain ⟨apart, idle⟩ := accessed_idle idle
    rw [Function.update_of_ne apart]
    exact racing.begun other idle
  stages other rest now := by
    rcases update_eq_some.mp now with ⟨rfl, rfl⟩ | ⟨apart, was⟩
    · rw [Function.update_self]
      exact .inl left
    · rw [Function.update_of_ne apart]
      exact racing.stages other rest was

/-- A call that took the list makes an access, with which it may pass a node. -/
theorem Racing.passes {more later : Nat} (racing : Racing before nodes freed took s)
    (counted : took call = some count) (dying : Dying before nodes later after)
    (bound : s.shared.heap.bound ≤ after.heap.bound)
    (root : after.root = s.shared.root ∨ after.root = none) (farther : count ≤ more)
    (within : more ≤ later) (further : freed ≤ later) (farthest : later = freed ∨ later = more)
    (stage : Stage nodes after.root (some more) following) :
    Racing before nodes later (Function.update took call (some more))
      (s.accessed call following after) where
  dying := dying
  bound := racing.bound.trans bound
  listed _ _ _ := racing.listed call count counted
  passed other others now := by
    rcases update_eq_some.mp now with ⟨_, rfl⟩ | ⟨_, was⟩
    · exact within
    · exact (racing.passed other others was).trans further
  farthest some := by
    rcases farthest with rfl | rfl
    · obtain ⟨farthest, was⟩ := racing.farthest some
      refine ⟨farthest, update_eq_some.mpr ?_⟩
      by_cases same : farthest = call
      · subst same
        obtain rfl := Option.some.inj (was.symm.trans counted)
        exact .inl ⟨rfl, le_antisymm farther within⟩
      · exact .inr ⟨same, was⟩
    · exact ⟨call, Function.update_self ..⟩
  begun other idle := by
    obtain ⟨apart, idle⟩ := accessed_idle idle
    rw [Function.update_of_ne apart]
    exact racing.begun other idle
  stages other rest now := by
    rcases update_eq_some.mp now with ⟨rfl, rfl⟩ | ⟨apart, was⟩
    · rw [Function.update_self]
      exact stage
    · rw [Function.update_of_ne apart]
      have was := racing.stages other rest was
      rcases root with root | root
      · exact root ▸ was
      · exact root ▸ was.cleared

/-- A node a call is at is live when no other call has freed it. -/
theorem Racing.live_iff {gone behind : List (Nat × FileNode)} {address : Nat} {value : FileNode}
    (racing : Racing before nodes freed took s) (counted : took call = some gone.length)
    (whole : nodes = gone ++ (address, value) :: behind) :
    (s.shared.heap.cell address).isSome ↔ freed = gone.length := by
  have position : (nodes.map Prod.fst)[gone.length]? = some address := by simp [whole]
  rw [Option.isSome_iff_ne_none, ne_eq, racing.dying.gone _ _ position]
  have passed := racing.passed call gone.length counted
  omega

/-- What an access leaves: no fewer nodes are freed. -/
def Races (before : RuleHeap σ) (nodes : List (Nat × FileNode)) (freed : Nat) (s : Writers σ) :
    Prop :=
  ∃ later counts, Racing before nodes later counts s ∧ freed ≤ later

/-- An access of a call that did not take the list. -/
theorem Racing.access_untaken (racing : Racing before nodes freed took s)
    (here : s.calls call = some rest) (untaken : took call = none)
    (ran : Returns (rest.advance (RuleHeap.perform k)) s.shared following after) :
    Races before nodes freed (s.accessed call following after) := by
  have stage := racing.stages call rest here
  rw [untaken] at stage
  rcases stage with rfl | ⟨null, rfl | rfl⟩
  · rw [Stepwise.destroy, returns_advance_iff] at ran
    obtain ⟨⟨bound, top⟩, ran, rfl⟩ := ran
    obtain ⟨rfl, rfl, rfl⟩ :
        after = s.shared ∧ bound = s.shared.heap.bound ∧ top = s.shared.root := by
      simpa [RuleHeap.perform, returns_bind_iff] using ran
    by_cases null : s.shared.root = none
    · refine ⟨freed, took, racing.stays racing.dying (le_refl _) (.inl rfl) ?_, le_refl _⟩
      simp only [untaken, null, destroyLoop_null]
      exact .inr ⟨rfl, .inl rfl⟩
    · have root : s.shared.root = nodes.head?.map Prod.fst := by
        rcases racing.dying.root with root | ⟨root, _⟩
        · exact root
        · exact absurd root null
      have listed : nodes ≠ [] := by
        rintro rfl
        exact null root
      refine ⟨freed, _, racing.takes listed untaken ?_, le_refl _⟩
      rw [root]
      exact .read racing.bound
  · rw [← bind_pure (Script.call (Access.setTop none)), returns_advance_iff] at ran
    obtain ⟨_, ran, rfl⟩ := ran
    simp only [RuleHeap.perform, returns_modify_iff] at ran
    obtain ⟨_, rfl⟩ := ran
    refine ⟨freed, took, racing.stays ?_ (le_refl _) (.inr rfl) ?_, le_refl _⟩
    · exact racing.dying.same ⟨rfl, null.symm⟩
    · rw [untaken]
      exact .inr ⟨rfl, .inr rfl⟩
  · obtain ⟨rfl, rfl⟩ := returns_pure_iff.mp ran
    refine ⟨freed, took, racing.stays racing.dying (le_refl _) (.inl rfl) ?_, le_refl _⟩
    rw [untaken]
    exact .inr ⟨null, .inr rfl⟩

/-- The root leads to the list as long as a node is live. -/
theorem Racing.root_eq (racing : Racing before nodes freed took s) (some : freed < nodes.length) :
    s.shared.root = nodes.head?.map Prod.fst := by
  rcases racing.dying.root with root | ⟨_, all⟩
  · exact root
  · omega

/-- An access of a call at a node: it reads the node, changes it, or passes it. -/
theorem Racing.access_node {address : Nat} {value : FileNode} {gone behind : List (Nat × FileNode)}
    (racing : Racing before nodes freed took s) (distinct : (nodes.map Prod.fst).Nodup)
    (counted : took call = some gone.length) (whole : nodes = gone ++ (address, value) :: behind)
    (access : Left.Access s.shared address value behind rest following after) :
    Races before nodes freed (s.accessed call following after) := by
  have remaining : nodes.drop gone.length = (address, value) :: behind := by
    rw [whole, List.drop_left]
  have next : nodes.drop (gone.length + 1) = behind := by
    rw [← List.drop_drop, remaining]
    rfl
  have within := racing.passed call gone.length counted
  have same : Function.update took call (some gone.length) = took := by
    rw [← counted, Function.update_eq_self]
  cases access with
  | read live left unchanged =>
      subst unchanged
      exact ⟨freed, _, racing.passes counted racing.dying (le_refl _) (.inl rfl) (le_refl _) within
        (le_refl _) (.inl rfl) (.inl (remaining ▸ left)), le_refl _⟩
  | zero node live left shown points put =>
      subst put
      obtain ⟨old, isOld⟩ := Option.isSome_iff_exists.mp live
      obtain ⟨oldShown, oldPoints⟩ := racing.dying.leads _ _ _ _ whole old isOld
      have stored := racing.dying.stored node isOld (shown.trans oldShown.symm)
        (points.trans oldPoints.symm)
      exact ⟨freed, _, racing.passes counted stored (le_max_left _ _) (.inl rfl) (le_refl _) within
        (le_refl _) (.inl rfl) (.inl (remaining ▸ left)), le_refl _⟩
  | free frees left goesOn release =>
      subst release
      by_cases live : (s.shared.heap.cell address).isSome
      · obtain rfl := (racing.live_iff counted whole).mp live
        have inside : gone.length < nodes.length := by simp [whole]
        have dropped := racing.dying.dropped distinct whole (racing.root_eq inside)
        rw [if_pos live]
        exact ⟨gone.length + 1, _, racing.passes counted dropped (le_refl _) (.inl rfl)
          (Nat.le_succ _) (le_refl _) (Nat.le_succ _) (.inr rfl) (.inl (next ▸ left)),
          Nat.le_succ _⟩
      · -- the kernel warns and goes on
        have behindFreed := mt (racing.live_iff counted whole).mpr live
        rw [if_neg live]
        exact ⟨freed, _, racing.passes counted racing.dying (le_refl _) (.inl rfl) (Nat.le_succ _)
          (by omega) (le_refl _) (.inl rfl) (.inl (next ▸ left)), le_refl _⟩

/-- The place of a call that took the list and is at a node. -/
theorem drop_eq_cons {address : Nat} {value : FileNode} {behind : List (Nat × FileNode)}
    (remaining : nodes.drop count = (address, value) :: behind) :
    ∃ gone, gone.length = count ∧ nodes = gone ++ (address, value) :: behind := by
  have inside : count < nodes.length := by
    by_contra outside
    rw [List.drop_eq_nil_iff.mpr (Nat.le_of_not_lt outside)] at remaining
    cases remaining
  refine ⟨nodes.take count, by rw [List.length_take]; omega, ?_⟩
  rw [← remaining, List.take_append_drop]

/-- An access of a call that took the list. -/
theorem Racing.access_taken (racing : Racing before nodes freed took s)
    (distinct : (nodes.map Prod.fst).Nodup) (here : s.calls call = some rest)
    (taken : took call = some count)
    (ran : Returns (rest.advance (RuleHeap.perform k)) s.shared following after) :
    Races before nodes freed (s.accessed call following after) := by
  have stage := racing.stages call rest here
  have within := racing.passed call count taken
  rw [taken] at stage
  rcases stage with left | ⟨passed, null, rfl⟩
  · cases remaining : nodes.drop count with
    | nil =>
        rw [remaining] at left
        obtain ⟨rfl, rfl⟩ := left.ends.mp ran
        have passed : nodes.length ≤ count := List.drop_eq_nil_iff.mp remaining
        obtain ⟨le, frees, gone, leads, _⟩ := racing.dying
        have all : freed = nodes.length := by omega
        exact ⟨freed, _, racing.passes taken ⟨le, frees, gone, leads, .inr ⟨rfl, all⟩⟩ (le_refl _)
          (.inr rfl) (le_refl _) within (le_refl _) (.inl rfl) (.inr ⟨passed, rfl, rfl⟩), le_refl _⟩
    | cons node behind =>
        obtain ⟨address, value⟩ := node
        rw [remaining] at left
        obtain ⟨gone, rfl, whole⟩ := drop_eq_cons remaining
        have access := left.access (racing.dying.leads _ _ _ _ whole) ran
        exact racing.access_node distinct taken whole access
  · obtain ⟨rfl, rfl⟩ := returns_pure_iff.mp ran
    exact ⟨freed, _, racing.passes taken racing.dying (le_refl _) (.inl rfl) (le_refl _) within
      (le_refl _) (.inl rfl) (.inr ⟨passed, null, rfl⟩), le_refl _⟩

theorem Racing.step (racing : Racing before nodes freed took s)
    (distinct : (nodes.map Prod.fst).Nodup) {event : WriterEvent σ}
    (clears : WriterEvent.Clears event)
    (stepped : (listWrites k).step s event = .ok next) : Races before nodes freed next := by
  cases step_moves stepped with
  | began call write idle =>
      obtain rfl : write = .destroyList := clears
      refine ⟨freed, took, racing.stays racing.dying (le_refl _) (.inl rfl) ?_, le_refl _⟩
      rw [racing.begun call idle]
      exact .inl rfl
  | again | absent => exact ⟨freed, took, racing, le_refl _⟩
  | accessed call rest following after here ran =>
      cases taken : took call with
      | none => exact racing.access_untaken here taken ran
      | some count => exact racing.access_taken distinct here taken ran
  | elsewhere outside =>
      exact ⟨freed, took, { racing with dying := racing.dying.same ⟨rfl, rfl⟩ }, le_refl _⟩

theorem Racing.run (racing : Racing before nodes freed took s)
    (distinct : (nodes.map Prod.fst).Nodup) {events : List (WriterEvent σ)}
    (clears : ∀ event ∈ events, WriterEvent.Clears event)
    (ran : execute (listWrites k).step s events = .ok last) : Races before nodes freed last := by
  have kept := execute_history
    (fun past last => (∀ event ∈ past, WriterEvent.Clears event) → Races before nodes freed last)
    (fun _ => ⟨freed, took, racing, le_refl _⟩) (fun past _ event _ holds stepped clears => by
      obtain ⟨_, _, racing, kept⟩ :=
        holds fun other member => clears other (List.mem_append_left _ member)
      obtain ⟨later, counts, next, still⟩ := racing.step distinct (clears event (by simp)) stepped
      exact ⟨later, counts, next, kept.trans still⟩) ran
  exact kept clears

end Race

end Clears

end FsProtection
