import Mathlib.Data.List.Nodup
import Mathlib.Data.List.Perm.Subperm
import FsProtection.Base.Heap

/-!
# Lists of nodes

`Segment` follows the nodes from one pointer to another. `IsList` says that the blocks of a
heap are one list: the chain from the root ends at NULL without meeting a block twice, and
no block is anywhere else.
-/

namespace FsProtection.Base

variable {Value Fault : Type}

/-- The nodes from a pointer on lead to another pointer: their addresses and values. -/
def Segment (cell : Nat → Option (Node Value)) : Pointer → List (Nat × Value) → Pointer → Prop
  | start, [], stop => start = stop
  | start, (address, value) :: rest, stop =>
      start = some address ∧
        ∃ next, cell address = some ⟨value, next⟩ ∧ Segment cell next rest stop

namespace Segment

variable {cell changed : Nat → Option (Node Value)} {start stop : Pointer}
  {nodes front back : List (Nat × Value)}

theorem append_iff : Segment cell start (front ++ back) stop ↔
    ∃ middle, Segment cell start front middle ∧ Segment cell middle back stop := by
  induction front generalizing start with
  | nil => simp [Segment]
  | cons node rest ih =>
      obtain ⟨address, value⟩ := node
      simp only [List.cons_append, Segment, ih]
      constructor
      · rintro ⟨rfl, next, live, middle, first, second⟩
        exact ⟨middle, ⟨rfl, next, live, first⟩, second⟩
      · rintro ⟨middle, ⟨rfl, next, live, first⟩, second⟩
        exact ⟨rfl, next, live, middle, first, second⟩

/-- A segment stays when its own nodes do. -/
theorem frame (segment : Segment cell start nodes stop)
    (same : ∀ address ∈ nodes.map Prod.fst, changed address = cell address) :
    Segment changed start nodes stop := by
  induction nodes generalizing start with
  | nil => exact segment
  | cons node rest ih =>
      obtain ⟨address, value⟩ := node
      obtain ⟨rfl, next, live, behind⟩ := segment
      refine ⟨rfl, next, ?_, ih behind fun other member => same other (by simp [member])⟩
      rw [same address (by simp), live]

/-- A node behind the last one. -/
theorem extend {last address : Nat} {before value : Value}
    (segment : Segment cell start (front ++ [(last, before)]) none)
    (same : ∀ other ∈ front.map Prod.fst, changed other = cell other)
    (linked : changed last = some ⟨before, some address⟩)
    (behind : changed address = some ⟨value, none⟩) :
    Segment changed start (front ++ [(last, before)] ++ [(address, value)]) none := by
  obtain ⟨_, toLast, rfl, _⟩ := append_iff.mp segment
  have toNew : Segment changed start (front ++ [(last, before)]) (some address) :=
    append_iff.mpr ⟨some last, toLast.frame same, rfl, some address, linked, rfl⟩
  exact append_iff.mpr ⟨some address, toNew, rfl, none, behind, rfl⟩

/-- A segment that ends at NULL starts at its first node. -/
theorem start_eq (segment : Segment cell start nodes none) :
    start = nodes.head?.map Prod.fst := by
  cases nodes with
  | nil => exact segment
  | cons node rest => exact segment.1

/-- A pointer leads to NULL in one way only. -/
theorem unique {others : List (Nat × Value)} (segment : Segment cell start nodes none)
    (other : Segment cell start others none) : nodes = others := by
  induction nodes generalizing start others with
  | nil =>
      cases segment
      cases others with
      | nil => rfl
      | cons node rest => exact absurd other.1 (by simp)
  | cons node rest ih =>
      obtain ⟨address, value⟩ := node
      obtain ⟨rfl, next, live, behind⟩ := segment
      cases others with
      | nil => cases other
      | cons node rest =>
          obtain ⟨same, next', live', behind'⟩ := other
          obtain rfl := Option.some.inj same
          obtain ⟨rfl, rfl⟩ := Node.mk.inj (Option.some.inj (live.symm.trans live'))
          rw [ih behind behind']

end Segment

/-- The blocks of a heap are the nodes of one list: the chain from the root reaches NULL,
its nodes are distinct, exactly they are live, and every other block that was allocated
was freed once. -/
structure IsList (h : Heap Value) (root : Pointer) (nodes : List (Nat × Value)) : Prop where
  chain : Segment h.cell root nodes none
  distinct : (nodes.map Prod.fst).Nodup
  live : ∀ address, (h.cell address).isSome ↔ address ∈ nodes.map Prod.fst
  ledger : h.mallocs.Perm (h.frees ++ nodes.map Prod.fst)

namespace IsList

variable {h : Heap Value} {root next : Pointer} {nodes front rest : List (Nat × Value)}
  {address previous : Nat} {value before : Value}

theorem empty (place : Nat → Nat) : IsList (Heap.empty place : Heap Value) none [] where
  chain := rfl
  distinct := List.nodup_nil
  live address := by simp [Heap.empty]
  ledger := List.Perm.nil

/-- A list has no more nodes than the heap has addresses. -/
theorem length_le (list : IsList h root nodes) : nodes.length ≤ h.bound := by
  have inside : nodes.map Prod.fst ⊆ List.range h.bound := by
    intro address member
    exact List.mem_range.mpr (Heap.lt_bound ((list.live address).mpr member))
  simpa using (List.subperm_of_subset list.distinct inside).length_le

/-- The root points to the first node. -/
theorem root_eq (list : IsList h root nodes) : root = nodes.head?.map Prod.fst :=
  list.chain.start_eq

/-- Every node is in the heap, and points to the one behind it. -/
theorem cell_eq (list : IsList h root (front ++ (address, value) :: rest)) :
    h.cell address = some ⟨value, rest.head?.map Prod.fst⟩ := by
  obtain ⟨_, _, _, next, live, behind⟩ := Segment.append_iff.mp list.chain
  rw [live, behind.start_eq]

/-- A node is the last one exactly when nothing is behind it. -/
theorem isLast_iff (list : IsList h root (front ++ (address, value) :: rest)) :
    some address = (front ++ (address, value) :: rest).getLast?.map Prod.fst ↔ rest = [] := by
  have distinct := list.distinct
  simp only [List.map_append, List.map_cons] at distinct
  have behind := (List.nodup_cons.mp (List.nodup_append.mp distinct).2.1).1
  rcases List.eq_nil_or_concat rest with rfl | ⟨init, last, rfl⟩
  · simp
  · have apart : address ≠ last.1 := fun same => behind (by simp [same])
    simp [List.getLast?_append, List.getLast?_cons, apart]

/-- Neighbours are different blocks. -/
theorem apart (list : IsList h root (front ++ (previous, before) :: (address, value) :: rest)) :
    address ≠ previous := by
  have distinct := list.distinct
  simp only [List.map_append, List.map_cons] at distinct
  have unlinked := (List.nodup_cons.mp (List.nodup_append.mp distinct).2.1).1
  exact fun same => unlinked (by simp [same])

/-- The new block is none of the list's. -/
theorem fresh_notMem (list : IsList h root nodes) : h.fresh ∉ nodes.map Prod.fst := by
  intro member
  have live := (list.live h.fresh).mpr member
  rw [h.fresh_free] at live
  cases live

/-- The nodes are as they were when a node is allocated and filled in. -/
theorem grown_cell (list : IsList h root (front ++ (address, value) :: rest))
    (node filled : Node Value) :
    ((h.grow node).put h.fresh filled).cell address =
      some ⟨value, rest.head?.map Prod.fst⟩ := by
  have apart : address ≠ h.fresh := fun same => list.fresh_notMem (by simp [← same])
  rw [Heap.put_cell_ne apart, Heap.grow_cell, Heap.put_cell_ne apart, list.cell_eq]

/-- A first node is allocated, filled in and made the root. -/
theorem append_first (list : IsList h root []) (node : Node Value) (value : Value) :
    IsList ((h.grow node).put h.fresh ⟨value, none⟩) (some h.fresh) [(h.fresh, value)] where
  chain := ⟨rfl, none, Heap.put_cell_self, rfl⟩
  distinct := List.nodup_singleton _
  live address := by
    by_cases same : address = h.fresh
    · simp [same]
    · have dead := list.live address
      simp only [List.map_nil, List.not_mem_nil, iff_false] at dead
      simpa [Heap.put_cell_ne same, same] using dead
  ledger := by
    have ledger := list.ledger
    rw [List.map_nil, List.append_nil] at ledger
    exact ledger.append_right [h.fresh]

/-- A node is allocated, filled in and linked behind the last one. -/
theorem append_last (list : IsList h root (front ++ [(previous, before)])) (node : Node Value)
    (value : Value) :
    IsList (((h.grow node).put h.fresh ⟨value, none⟩).put previous ⟨before, some h.fresh⟩) root
      (front ++ [(previous, before)] ++ [(h.fresh, value)]) := by
  have unused := list.fresh_notMem
  have apart : h.fresh ≠ previous := fun same => unused (by simp [same])
  obtain ⟨middle, first, rfl, next, _, last⟩ := Segment.append_iff.mp list.chain
  have unlinked := (List.nodup_append.mp (List.map_append ▸ list.distinct)).2.2
  refine ⟨Segment.append_iff.mpr ⟨some h.fresh, Segment.append_iff.mpr ⟨_, ?_, rfl, _, ?_, rfl⟩,
    rfl, none, ?_, rfl⟩, ?_, ?_, ?_⟩
  · refine first.frame fun address member => ?_
    have notLast : address ≠ previous := unlinked address member previous (by simp)
    have notFresh : address ≠ h.fresh := fun same => unused (by simp [← same, member])
    rw [Heap.put_cell_ne notLast, Heap.put_cell_ne notFresh, Heap.grow_cell,
      Heap.put_cell_ne notFresh]
  · exact Heap.put_cell_self
  · rw [Heap.put_cell_ne apart, Heap.put_cell_self]
  · rw [List.map_append]
    refine List.nodup_append.mpr ⟨list.distinct, List.nodup_singleton _, ?_⟩
    rintro address member _ isFresh rfl
    have same : address = h.fresh := by simpa using isFresh
    exact unused (same ▸ member)
  · intro address
    by_cases isFresh : address = h.fresh
    · subst isFresh
      simp [Heap.put_cell_ne apart]
    · by_cases isLast : address = previous
      · subst isLast
        simp
      · rw [Heap.put_cell_ne isLast, Heap.put_cell_ne isFresh, Heap.grow_cell,
          Heap.put_cell_ne isFresh, list.live]
        simp [isFresh]
  · rw [List.map_append, ← List.append_assoc]
    exact list.ledger.append_right [h.fresh]

/-- The first node is freed, and the list goes on behind it. -/
theorem remove_first (list : IsList h root ((address, value) :: rest)) :
    IsList (h.drop address) (rest.head?.map Prod.fst) rest := by
  obtain ⟨_, _, _, behind⟩ := list.chain
  obtain rfl := behind.start_eq
  obtain ⟨unlinked, distinct⟩ := List.nodup_cons.mp list.distinct
  refine ⟨behind.frame fun other member => ?_, distinct, fun other => ?_, ?_⟩
  · exact Heap.drop_cell_ne fun same => unlinked (same ▸ member)
  · by_cases same : other = address
    · subst same
      simpa using unlinked
    · rw [Heap.drop_cell_ne same, list.live]
      simp [same]
  · simpa [Heap.drop] using list.ledger

/-- A later node is unlinked from the one before it and freed. -/
theorem remove_after
    (list : IsList h root (front ++ (previous, before) :: (address, value) :: rest)) :
    IsList ((h.put previous ⟨before, rest.head?.map Prod.fst⟩).drop address) root
      (front ++ (previous, before) :: rest) := by
  obtain ⟨_, first, rfl, _, _, rfl, _, _, behind⟩ := Segment.append_iff.mp list.chain
  obtain rfl := behind.start_eq
  have distinct := list.distinct
  simp only [List.map_append, List.map_cons] at distinct
  obtain ⟨firstDistinct, laterDistinct, disjoint⟩ := List.nodup_append.mp distinct
  obtain ⟨notPrevious, restDistinct⟩ := List.nodup_cons.mp laterDistinct
  obtain ⟨notAddress, restDistinct⟩ := List.nodup_cons.mp restDistinct
  have apart : previous ≠ address := list.apart.symm
  have kept : ∀ other, other ≠ previous → other ≠ address →
      ((h.put previous ⟨before, rest.head?.map Prod.fst⟩).drop address).cell other =
        h.cell other := by
    intro other notFirst notSecond
    rw [Heap.drop_cell_ne notSecond, Heap.put_cell_ne notFirst]
  refine ⟨Segment.append_iff.mpr ⟨_, first.frame fun other member => ?_, rfl,
    rest.head?.map Prod.fst, ?_, behind.frame fun other member => ?_⟩, ?_, ?_, ?_⟩
  · exact kept other (disjoint other member previous (by simp))
      (disjoint other member address (by simp))
  · rw [Heap.drop_cell_ne apart, Heap.put_cell_self]
  · exact kept other (fun same => notPrevious (by simp [← same, member]))
      fun same => notAddress (same ▸ member)
  · simp only [List.map_append, List.map_cons]
    refine List.nodup_append.mpr ⟨firstDistinct, List.nodup_cons.mpr ⟨?_, restDistinct⟩, ?_⟩
    · exact fun member => notPrevious (List.mem_cons_of_mem _ member)
    · intro one inFront other inRest
      refine disjoint one inFront other ?_
      rcases List.mem_cons.mp inRest with same | behind
      · exact same ▸ List.mem_cons_self
      · exact List.mem_cons_of_mem _ (List.mem_cons_of_mem _ behind)
  · intro other
    by_cases isAddress : other = address
    · subst isAddress
      have notFront : other ∉ front.map Prod.fst :=
        fun member => disjoint other member other (by simp) rfl
      simpa [apart.symm, notAddress] using notFront
    · by_cases isPrevious : other = previous
      · subst isPrevious
        simp [Heap.drop_cell_ne apart]
      · rw [kept other isPrevious isAddress, list.live]
        simp [isPrevious, isAddress]
  · have ledger := list.ledger
    simp only [List.map_append, List.map_cons] at ledger
    refine ledger.trans ?_
    simp only [List.map_append, List.map_cons, Heap.drop, Heap.put]
    rw [List.append_assoc]
    refine List.Perm.append_left _ ?_
    exact (List.Perm.append_left _ (List.Perm.swap _ _ _)).trans List.perm_middle

end IsList

/-- A loop over a list folds its turn over the values, and changes no node. -/
theorem Segment.returns_forEach {Result : Type} {h : Heap Value} {bad : Fault}
    (turn : Result → Value → Result) {start : Pointer} {nodes : List (Nat × Value)}
    (segment : Segment h.cell start nodes none) {turns : Nat} (enough : nodes.length ≤ turns)
    (result : Result) :
    Returns (Heap.forEach bad turn turns result start) h ((nodes.map Prod.snd).foldl turn result)
      h := by
  induction nodes generalizing start turns result with
  | nil =>
      cases segment
      cases turns <;> exact returns_pure_iff.mpr ⟨rfl, rfl⟩
  | cons node rest ih =>
      obtain ⟨address, value⟩ := node
      obtain ⟨rfl, next, live, behind⟩ := segment
      cases turns with
      | zero => simp at enough
      | succ turns =>
          exact (Heap.returns_load live).bind (ih behind (by simpa using enough) _)

theorem IsList.returns_forNodes {Result : Type} {h : Heap Value} {bad : Fault}
    {root : Pointer} {nodes : List (Nat × Value)} (list : IsList h root nodes)
    (turn : Result → Value → Result) (result : Result) :
    Returns (Heap.forNodes bad turn result root) h ((nodes.map Prod.snd).foldl turn result) h :=
  (returns_get_iff.mpr ⟨rfl, rfl⟩).bind (list.chain.returns_forEach turn list.length_le result)

end FsProtection.Base
