import FsProtection.Communicate.Stepwise

/-!
# What the writers of the rule list promise

Between any two accesses of `create_list` the list is what it was, with nodes behind it; of
`destroy_list` a part from the root on is freed, and the rest is as it was.
-/

namespace FsProtection

open Base

namespace RuleHeap

variable {σ : Type}

/-- The nodes from the root on. -/
def Listed (s : RuleHeap σ) (nodes : List (Nat × FileNode)) : Prop :=
  Segment s.heap.cell s.root nodes none

/-- Nothing but the rest of the kernel moved. -/
def SameNodes (s here : RuleHeap σ) : Prop := here.heap = s.heap ∧ here.root = s.root

/-- The list is as it was, or has nodes behind it. -/
def Grows (s after : RuleHeap σ) : Prop :=
  ∀ nodes, s.Listed nodes → ∃ more, after.Listed (nodes ++ more)

section Promises

variable {k : Kernel σ} {s after : RuleHeap σ} {nodes : List (Nat × FileNode)}

theorem SameNodes.refl (s : RuleHeap σ) : SameNodes s s := ⟨rfl, rfl⟩

theorem SameNodes.trans {first second third : RuleHeap σ} (one : SameNodes first second)
    (two : SameNodes second third) : SameNodes first third :=
  ⟨two.1.trans one.1, two.2.trans one.2⟩

theorem grows_of (more : List (Nat × FileNode)) (before : s.Listed nodes)
    (now : after.Listed (nodes ++ more)) : Grows s after := by
  intro others listed
  rw [listed.unique before]
  exact ⟨more, now⟩

/-- What leaves the nodes alone lets the list grow by nothing. -/
theorem grows_same (same : SameNodes s after) : Grows s after := by
  intro nodes listed
  refine ⟨[], ?_⟩
  rw [List.append_nil, Listed, same.1, same.2]
  exact listed

/-- A script while others move the rest of the kernel. -/
abbrev Promises {Value : Type} (k : Kernel σ) (guarantee : RuleHeap σ → RuleHeap σ → Prop)
    (post : Value → RuleHeap σ → Prop) (script : RuleScript Value) (s : RuleHeap σ) : Prop :=
  script.Keeps (perform k) SameNodes guarantee post s

variable {Value : Type} {guarantee : RuleHeap σ → RuleHeap σ → Prop}
  {post : Value → RuleHeap σ → Prop}

/-- An access to the heap whose outcome is known. -/
theorem promises_heap {request : Access} {continued : request.Answer → RuleScript Value}
    {program : Program (Heap FileNode) Fault request.Answer} {answer : request.Answer}
    {heap : Heap FileNode} (isHeap : perform k request = onHeap program)
    (ran : Returns program s.heap answer heap)
    (allowed : ∀ outside, guarantee { s with outside := outside }
      { s with heap := heap, outside := outside })
    (goesOn : Promises k guarantee post (continued answer) { s with heap := heap }) :
    Promises k guarantee post (Script.call request >>= continued) s := by
  refine Script.keeps_returns answer fun here same => ?_
  obtain ⟨_, _, outside⟩ := here
  obtain ⟨rfl, rfl⟩ := same
  refine ⟨{ s with heap := heap, outside := outside }, ?_, allowed outside, ?_⟩
  · rw [isHeap]
    exact returns_onHeap ran
  · exact goesOn.stable ⟨rfl, rfl⟩ SameNodes.trans

/-- A load promises nothing but that the others may go on. -/
theorem promises_load {address : Nat} {node : Node FileNode}
    {continued : Node FileNode → RuleScript Value} (live : s.heap.cell address = some node)
    (allowed : ∀ outside, guarantee { s with outside := outside } { s with outside := outside })
    (goesOn : Promises k guarantee post (continued node) s) :
    Promises k guarantee post (Stepwise.load (some address) >>= continued) s :=
  promises_heap rfl (Heap.returns_load live) allowed goesOn

/-- Nothing else is read before the list is known. -/
theorem promises_top {continued : Nat × Pointer → RuleScript Value}
    (allowed : ∀ outside, guarantee { s with outside := outside } { s with outside := outside })
    (goesOn : Promises k guarantee post (continued (s.heap.bound, s.root)) s) :
    Promises k guarantee post (Script.call Access.top >>= continued) s := by
  refine Script.keeps_returns (s.heap.bound, s.root) fun here same => ?_
  obtain ⟨_, _, outside⟩ := here
  obtain ⟨rfl, rfl⟩ := same
  refine ⟨{ s with outside := outside }, ?_, allowed outside, ?_⟩
  · exact (returns_get_iff.mpr ⟨rfl, rfl⟩).bind (returns_pure_iff.mpr ⟨rfl, rfl⟩)
  · exact goesOn.stable ⟨rfl, rfl⟩ SameNodes.trans

theorem promises_setTop {p : Pointer} {continued : Unit → RuleScript Value}
    (allowed : ∀ outside, guarantee { s with outside := outside }
      { s with root := p, outside := outside })
    (goesOn : Promises k guarantee post (continued ()) { s with root := p }) :
    Promises k guarantee post (Script.call (Access.setTop p) >>= continued) s := by
  refine Script.keeps_returns () fun here same => ?_
  obtain ⟨_, _, outside⟩ := here
  obtain ⟨rfl, rfl⟩ := same
  exact ⟨{ s with root := p, outside := outside }, returns_modify, allowed outside,
    goesOn.stable ⟨rfl, rfl⟩ SameNodes.trans⟩

/-- An access that only asks the rest of the kernel, whatever it answers. -/
theorem promises_outside {request : Access} {continued : request.Answer → RuleScript Value}
    (silent : ∀ here answer after, Returns (perform k request) here answer after →
      SameNodes here after)
    (allowed : ∀ here after : RuleHeap σ, SameNodes s here → SameNodes here after →
      guarantee here after)
    (goesOn : ∀ answer, Promises k guarantee post (continued answer) s) :
    Promises k guarantee post (Script.call request >>= continued) s := by
  refine Script.keeps_call fun here same answer after ran => ?_
  have still := silent here answer after ran
  exact ⟨allowed here after same still, (goesOn answer).stable (same.trans still) SameNodes.trans⟩

/-- What works on the rest of the kernel leaves the nodes alone: -/
theorem onOutside_silent {program : Program σ Fault Value} {here : RuleHeap σ} {answer : Value}
    (ran : Returns (onOutside program) here answer after) : SameNodes here after := by
  rw [onOutside, returns_onPart_iff] at ran
  obtain ⟨_, _, rfl⟩ := ran
  exact ⟨rfl, rfl⟩

/-- opening a path, -/
theorem filpOpen_silent (path : Bytes) (here : RuleHeap σ) (answer : Option File)
    (after : RuleHeap σ) (ran : Returns (perform k (.filpOpen path)) here answer after) :
    SameNodes here after :=
  onOutside_silent ran

/-- closing a file, -/
theorem filpClose_silent (file : File) (here : RuleHeap σ) (answer : Unit)
    (after : RuleHeap σ) (ran : Returns (perform k (.filpClose file)) here answer after) :
    SameNodes here after :=
  onOutside_silent ran

/-- and reading a type. -/
theorem typeFromStr_silent (str : Option Bytes) (here : RuleHeap σ) (answer : ProtectType)
    (after : RuleHeap σ) (ran : Returns (perform k (.typeFromStr str)) here answer after) :
    SameNodes here after := by
  obtain ⟨_, rfl⟩ := returns_lift_iff.mp ran
  exact ⟨rfl, rfl⟩

theorem promises_store {address : Nat} {node : Node FileNode}
    {continued : Unit → RuleScript Value} (live : (s.heap.cell address).isSome)
    (allowed : ∀ outside, guarantee { s with outside := outside }
      { s with heap := s.heap.put address node, outside := outside })
    (goesOn : Promises k guarantee post (continued ())
      { s with heap := s.heap.put address node }) :
    Promises k guarantee post (Stepwise.store (some address) node >>= continued) s :=
  promises_heap rfl (Heap.returns_store live) allowed goesOn

/-- A script whose value is known and that changes no node. -/
theorem promises_known {Known : Type} {first : RuleScript Known} {value : Known}
    {continued : Known → RuleScript Value}
    (known : Promises k guarantee (fun result after => result = value ∧ SameNodes s after) first s)
    (goesOn : Promises k guarantee post (continued value) s) :
    Promises k guarantee post (first >>= continued) s := by
  refine Script.Keeps.bind SameNodes.refl (known.imp (fun _ _ => id) ?_)
  rintro _ after ⟨rfl, same⟩
  exact goesOn.stable same SameNodes.trans

end Promises

section Create

variable {k : Kernel σ} {s : RuleHeap σ} {nodes rest : List (Nat × FileNode)}

/-- A node nothing leads to yet leaves the list as it is. -/
theorem listed_withNode (list : IsList s.heap s.root nodes) (value : FileNode) :
    (s.withNode value).Listed nodes := by
  refine list.chain.frame fun address member => ?_
  have apart : address ≠ s.heap.fresh := fun same => list.fresh_notMem (same ▸ member)
  rw [withNode, Heap.put_cell_ne apart, Heap.grow_cell, Heap.put_cell_ne apart]

/-- A block that is not linked yet is not in the list. -/
theorem listed_grow (list : IsList s.heap s.root nodes) (node : Node FileNode) :
    Listed { s with heap := s.heap.grow node } nodes := by
  refine list.chain.frame fun address member => ?_
  have apart : address ≠ s.heap.fresh := fun same => list.fresh_notMem (same ▸ member)
  rw [Heap.grow_cell, Heap.put_cell_ne apart]

/-- The walk ends at the last node and changes none. -/
theorem lastValid_promises {turns : Nat} {start : Pointer}
    (segment : Segment s.heap.cell start rest none) (enough : rest.length ≤ turns) :
    Promises k Grows (fun p after => p = rest.getLast?.map Prod.fst ∧ SameNodes s after)
      (Stepwise.lastValid turns start) s := by
  induction rest generalizing start turns with
  | nil =>
      cases segment
      cases turns <;> exact Script.keeps_pure fun here same => ⟨rfl, same⟩
  | cons node rest ih =>
      obtain ⟨address, value⟩ := node
      obtain ⟨rfl, next, live, behind⟩ := segment
      cases turns with
      | zero => simp at enough
      | succ turns =>
          refine promises_load live (fun _ => grows_same (.refl _)) ?_
          have looked := ih behind (by simpa using enough)
          cases rest with
          | nil =>
              cases behind
              exact Script.keeps_pure fun here same => ⟨rfl, same⟩
          | cons second rest =>
              obtain ⟨rfl, _⟩ := behind
              simpa [List.getLast?_cons] using looked

/-- Linking in a node that is filled in: nobody sees a list but the one without it and the
one with it. -/
theorem linkNode_promises {lastvalidFl : Pointer} (cursor : s.At nodes lastvalidFl)
    (value : FileNode) :
    Promises k Grows
      (fun _ after => after.At (nodes ++ [(s.heap.fresh, value)]) (some s.heap.fresh))
      (Stepwise.linkNode s.heap.fresh lastvalidFl) (s.withNode value) := by
  obtain ⟨list, rfl⟩ := cursor
  have listed := listed_withNode list value
  rcases List.eq_nil_or_concat' nodes with rfl | ⟨front, ⟨last, before⟩, rfl⟩
  · have isFirst := list.append_first freshNode value
    change Promises k Grows _ (Script.call (Access.setTop (some s.heap.fresh))) _
    rw [← bind_pure (Script.call _)]
    refine promises_setTop (fun _ => grows_of [(s.heap.fresh, value)] listed ?_) ?_
    · exact isFirst.chain
    · refine Script.keeps_pure fun here same => ⟨?_, rfl⟩
      rw [same.1, same.2]
      exact isFirst
  · have isLast := list.append_last freshNode value
    have atLast : (s.withNode value).heap.cell last = some ⟨before, none⟩ := list.grown_cell _ _
    have atNew : (s.withNode value).heap.cell s.heap.fresh = some ⟨value, none⟩ :=
      Heap.put_cell_self
    have refilled : (s.withNode value).heap.put s.heap.fresh ⟨value, none⟩ =
        (s.withNode value).heap := Heap.put_put _ _
    rw [List.getLast?_concat, Option.map_some]
    unfold Stepwise.linkNode
    dsimp only
    refine promises_load atLast (fun _ => grows_same (.refl _)) ?_
    refine promises_load atNew (fun _ => grows_same (.refl _)) ?_
    refine promises_store (Option.isSome_of_eq_some atNew) (fun _ => grows_same ⟨refilled, rfl⟩) ?_
    simp only [refilled]
    rw [← bind_pure (Stepwise.store (some last) _)]
    refine promises_store (Option.isSome_of_eq_some atLast)
      (fun _ => grows_of [(s.heap.fresh, value)] listed ?_) ?_
    · exact isLast.chain
    · refine Script.keeps_pure fun here same => ⟨?_, by simp⟩
      rw [same.1, same.2]
      exact isLast

/-- A line adds a node at the end of the list, or none. -/
theorem createLine_promises {cursor : Cursor} (here : s.At nodes cursor.lastvalidFl)
    (line : Bytes) :
    Promises k Grows (fun outcome after => ∃ nodes, after.At nodes outcome.1.lastvalidFl)
      (Stepwise.createLine line cursor) s := by
  have stays : ∀ {after : RuleHeap σ}, SameNodes s after → after.At nodes cursor.lastvalidFl := by
    intro after same
    exact ⟨by rw [same.1, same.2]; exact here.list, here.last⟩
  unfold Stepwise.createLine
  rcases strsep (some line) atSign with ⟨_ | path, pStr1⟩
  · exact Script.keeps_pure fun _ same => ⟨nodes, stays same⟩
  dsimp only
  by_cases empty : path = []
  · rw [if_pos empty, pure_bind]
    exact Script.keeps_pure fun _ same => ⟨nodes, stays same⟩
  rw [if_neg empty]
  refine promises_outside (filpOpen_silent path) (fun _ _ _ => grows_same) fun fs => ?_
  cases fs with
  | none => exact Script.keeps_pure fun _ same => ⟨nodes, stays same⟩
  | some file =>
      refine promises_heap rfl (Heap.returns_malloc_iff.mpr ⟨rfl, rfl⟩)
        (fun _ => grows_of [] here.list.chain ?_) ?_
      · rw [List.append_nil]
        exact listed_grow here.list freshNode
      refine promises_outside (typeFromStr_silent pStr1) (fun _ _ _ => grows_same) fun type => ?_
      refine promises_store (by simp) (fun _ => grows_of []
        (listed_grow here.list freshNode) ?_) ?_
      · rw [List.append_nil]
        exact listed_withNode here.list _
      refine Script.Keeps.bind SameNodes.refl
        ((linkNode_promises here (.make path file.inode type)).imp (fun _ _ => id) ?_)
      intro _ after isAt
      refine promises_outside (filpClose_silent file) (fun _ _ _ => grows_same) fun _ => ?_
      refine Script.keeps_pure fun last same =>
        ⟨nodes ++ [(s.heap.fresh, .make path file.inode type)], ?_⟩
      exact ⟨by rw [same.1, same.2]; exact isAt.list, isAt.last⟩

/-- So do all the lines one after the other. -/
theorem createLoop_promises (tmpData : Option Bytes) {cursor : Cursor}
    (here : s.At nodes cursor.lastvalidFl) :
    Promises k Grows (fun outcome after => ∃ nodes, after.At nodes outcome.1.lastvalidFl)
      (Stepwise.createLoop tmpData cursor) s := by
  have stays : ∀ {s after : RuleHeap σ} {nodes : List (Nat × FileNode)} {cursor : Cursor},
      s.At nodes cursor.lastvalidFl → SameNodes s after → after.At nodes cursor.lastvalidFl := by
    intro s after nodes cursor isAt same
    exact ⟨by rw [same.1, same.2]; exact isAt.list, isAt.last⟩
  induction tmpData, cursor using Stepwise.createLoop.induct generalizing s nodes with
  | case1 cursor =>
      rw [Stepwise.createLoop]
      exact Script.keeps_pure fun _ same => ⟨nodes, stays here same⟩
  | case2 cursor text ih =>
      rw [Stepwise.createLoop]
      refine Script.Keeps.bind SameNodes.refl
        ((createLine_promises here _).imp (fun _ _ => id) ?_)
      rintro ⟨next, pStr1⟩ after ⟨nodes, isAt⟩
      cases pStr1 with
      | none => exact Script.keeps_pure fun _ same => ⟨nodes, stays isAt same⟩
      | some str => exact ih next isAt

/-- `create_list` on a list: at each of its accesses the list is there, as it was or with
nodes behind it. -/
theorem createNodes_promises (list : IsList s.heap s.root nodes) (text : Bytes) :
    Promises k Grows (fun _ after => ∃ nodes, IsList after.heap after.root nodes)
      (Stepwise.createNodes text) s := by
  refine promises_top (fun _ => grows_same (.refl _)) ?_
  refine promises_known (lastValid_promises list.chain list.length_le) ?_
  have here : s.At nodes (Cursor.mk (nodes.getLast?.map Prod.fst) 0).lastvalidFl := ⟨list, rfl⟩
  refine Script.Keeps.bind SameNodes.refl
    ((createLoop_promises (some text) here).imp (fun _ _ => id) ?_)
  rintro ⟨cursor, tmpData⟩ after ⟨nodes, isAt⟩
  refine Script.keeps_pure fun last same => ⟨nodes, ?_⟩
  rw [same.1, same.2]
  exact isAt.list

end Create

/-- The list while `destroy_list` frees its nodes, some of which are freed: the first ones.
The others are as they were up to their inode, and the root is as it was or, at the end,
NULL. -/
structure Dying (s : RuleHeap σ) (nodes : List (Nat × FileNode)) (freed : Nat)
    (here : RuleHeap σ) : Prop where
  le : freed ≤ nodes.length
  frees : here.heap.frees = s.heap.frees ++ (nodes.map Prod.fst).take freed
  gone : ∀ j address, (nodes.map Prod.fst)[j]? = some address →
    (here.heap.cell address = none ↔ j < freed)
  leads : Leads FileNode.shown here.heap.cell nodes
  root : here.root = nodes.head?.map Prod.fst ∨ here.root = none ∧ freed = nodes.length

section Destroy

variable {k : Kernel σ} {s here after : RuleHeap σ} {nodes gone rest : List (Nat × FileNode)}
  {freed address : Nat} {value : FileNode} {next start : Pointer}

theorem Dying.same (dying : Dying s nodes freed here) (same : SameNodes here after) :
    Dying s nodes freed after := by
  obtain ⟨heap, root⟩ := same
  exact ⟨dying.le, by rw [heap, dying.frees], by rw [heap]; exact dying.gone,
    by rw [heap]; exact dying.leads, by rw [root]; exact dying.root⟩

/-- Before the first node is freed the list is whole. -/
theorem dying_start (list : IsList s.heap s.root nodes) : Dying s nodes 0 s where
  le := Nat.zero_le _
  frees := by simp
  gone j address here := by
    have live := (list.live address).mpr (List.mem_of_getElem? here)
    rw [Option.isSome_iff_ne_none] at live
    simp [live]
  leads := list.chain.leads _
  root := .inl list.root_eq

/-- A store that leaves what a node shows and where it leads. -/
theorem Dying.stored {old : Node FileNode} (dying : Dying s nodes freed here)
    (node : Node FileNode) (live : here.heap.cell address = some old)
    (shown : node.value.shown = old.value.shown) (points : node.next = old.next) :
    Dying s nodes freed { here with heap := here.heap.put address node } where
  le := dying.le
  frees := dying.frees
  gone j other isOther := by
    by_cases same : other = address
    · subst same
      have still := dying.gone j other isOther
      rw [live] at still
      simpa using still
    · rw [Heap.put_cell_ne same]
      exact dying.gone j other isOther
  leads := by
    intro front other before back whole found isFound
    by_cases same : other = address
    · subst same
      rw [Heap.put_cell_self] at isFound
      obtain rfl := Option.some.inj isFound
      rw [shown, points]
      exact dying.leads front other before back whole old live
    · rw [Heap.put_cell_ne same] at isFound
      exact dying.leads front other before back whole found isFound
  root := dying.root

/-- Freeing the first node left. -/
theorem Dying.dropped (dying : Dying s nodes gone.length here)
    (distinct : (nodes.map Prod.fst).Nodup) (whole : nodes = gone ++ (address, value) :: rest)
    (root : here.root = nodes.head?.map Prod.fst) :
    Dying s nodes (gone.length + 1) { here with heap := here.heap.drop address } where
  le := by rw [whole, List.length_append, List.length_cons]; omega
  frees := by
    simp only [Heap.drop, dying.frees, List.append_assoc]
    rw [whole]
    simp [List.take_append, List.take_of_length_le]
  gone j other isOther := by
    have position : (nodes.map Prod.fst)[gone.length]? = some address := by simp [whole]
    by_cases same : other = address
    · subst same
      have inside : gone.length < (nodes.map Prod.fst).length := by simp [whole]
      have equal := (List.getElem?_inj inside distinct).mp (position.trans isOther.symm)
      simp [← equal]
    · have apart : j ≠ gone.length := by
        rintro rfl
        exact same (Option.some.inj (isOther.symm.trans position))
      rw [Heap.drop_cell_ne same, dying.gone j other isOther]
      omega
  leads := by
    intro front other before back isWhole node isNode
    by_cases same : other = address
    · subst same
      rw [Heap.drop_cell_self] at isNode
      cases isNode
    · rw [Heap.drop_cell_ne same] at isNode
      exact dying.leads front other before back isWhole node isNode
  root := .inl root

/-- The loop of `destroy_list`, with some nodes freed. -/
theorem destroyLoop_promises (gone : List (Nat × FileNode)) {turns : Nat}
    (distinct : (nodes.map Prod.fst).Nodup) (dying : Dying s nodes gone.length here)
    (root : here.root = nodes.head?.map Prod.fst) (whole : nodes = gone ++ rest)
    (list : IsList here.heap start rest) (enough : rest.length ≤ turns) :
    Promises k (fun _ after => ∃ freed, Dying s nodes freed after)
      (fun _ after => Dying s nodes nodes.length after ∧ after.root = nodes.head?.map Prod.fst ∧
        IsList after.heap none [])
      (Stepwise.destroyLoop turns start) here := by
  induction rest generalizing gone here start turns with
  | nil =>
      obtain rfl := list.root_eq
      obtain rfl : nodes = gone := by rw [whole, List.append_nil]
      have ended : ∀ after, SameNodes here after → Dying s nodes nodes.length after ∧
          after.root = nodes.head?.map Prod.fst ∧ IsList after.heap none [] := by
        rintro after same
        exact ⟨dying.same same, same.2.trans root, same.1 ▸ list⟩
      cases turns <;> exact Script.keeps_pure ended
  | cons node rest ih =>
      obtain ⟨address, value⟩ := node
      have listed : IsList here.heap start ([] ++ (address, value) :: rest) := list
      have live := listed.cell_eq
      have left := list.remove_first
      obtain rfl := list.root_eq
      cases turns with
      | zero => simp at enough
      | succ turns =>
          have zeroed := dying.stored ⟨{ value with inode := 0 }, _⟩ live rfl rfl
          have dropped := dying.dropped distinct whole root
          have freed : ∀ node, (here.heap.put address node).drop address = here.heap.drop address :=
            fun _ => Heap.put_drop (Option.isSome_of_eq_some live)
          refine promises_load live (fun _ => ⟨_, dying.same ⟨rfl, rfl⟩⟩) ?_
          refine promises_store (Option.isSome_of_eq_some live)
            (fun _ => ⟨_, zeroed.same ⟨rfl, rfl⟩⟩) ?_
          refine promises_heap rfl (Heap.returns_release (by simp)) ?_ ?_
          · intro outside
            simp only [freed]
            exact ⟨_, dropped.same ⟨rfl, rfl⟩⟩
          · simp only [freed]
            have goneOn : Dying s nodes (gone ++ [(address, value)]).length
                { here with heap := here.heap.drop address } := by simpa using dropped
            exact ih _ goneOn root (by simp [whole]) left (by simpa using enough)

/-- `destroy_list` on a list: at each of its accesses some first nodes are freed and the
others lead to each other as before. -/
theorem destroy_promises (list : IsList s.heap s.root nodes) :
    Promises k (fun _ after => ∃ freed, Dying s nodes freed after)
      (fun _ after => after.root = none ∧ IsList after.heap none []) Stepwise.destroy s := by
  have starting := dying_start list
  refine promises_top (fun _ => ⟨0, starting.same ⟨rfl, rfl⟩⟩) ?_
  refine Script.Keeps.bind SameNodes.refl
    ((destroyLoop_promises [] list.distinct starting list.root_eq rfl list
      list.length_le).imp (fun _ _ => id) ?_)
  rintro _ after ⟨dying, root, ended⟩
  change Promises k _ _ (Script.call (Access.setTop none)) after
  rw [← bind_pure (Script.call _)]
  refine promises_setTop (fun outside => ⟨nodes.length, ?_⟩) ?_
  · exact ⟨dying.le, dying.frees, dying.gone, dying.leads, .inr ⟨rfl, rfl⟩⟩
  · refine Script.keeps_pure fun here same => ⟨same.2, ?_⟩
    rw [same.1]
    exact ended

end Destroy

end RuleHeap

end FsProtection
