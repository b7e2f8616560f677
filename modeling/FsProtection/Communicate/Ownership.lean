import FsProtection.Communicate.Writers

/-!
# Whose the nodes are

Each of several calls of `create_list` that found no list allocates nodes and links them into a
chain of its own. What it promises the others is to leave theirs alone; what they leave it is
its own chain, and the root unless they set it to a node of theirs.
-/

namespace FsProtection

open Base

variable {σ : Type}

namespace Saves

open RuleHeap (Access freshNode)

/-- The nodes, and which call allocated which. -/
structure Owned (σ : Type) where
  here : RuleHeap σ
  owner : Nat → Option Nat

namespace Owned

/-- Owned nodes are live, and the root leads to one. -/
structure Sane (s : Owned σ) : Prop where
  live : ∀ address, s.owner address ≠ none → (s.here.heap.cell address).isSome
  root : ∀ address, s.here.root = some address → s.owner address ≠ none

/-- A node of a call's own is changed. -/
def put (s : Owned σ) (address : Nat) (node : Node FileNode) : Owned σ :=
  { s with here := { s.here with heap := s.here.heap.put address node } }

/-- A call has a new node. -/
def grown (s : Owned σ) (call : Nat) : Owned σ where
  here := { s.here with heap := s.here.heap.grow freshNode }
  owner := Function.update s.owner s.here.heap.fresh (some call)

/-- The root is set. -/
def rooted (s : Owned σ) (address : Nat) : Owned σ :=
  { s with here := { s.here with root := some address } }

section Grown

variable {s : Owned σ} {call address : Nat}

@[simp] theorem grown_here :
    (s.grown call).here = { s.here with heap := s.here.heap.grow freshNode } := rfl

@[simp] theorem grown_owner_self : (s.grown call).owner s.here.heap.fresh = some call :=
  Function.update_self ..

theorem grown_owner_ne (apart : address ≠ s.here.heap.fresh) :
    (s.grown call).owner address = s.owner address := Function.update_of_ne apart ..

theorem grown_cell_ne (apart : address ≠ s.here.heap.fresh) :
    (s.grown call).here.heap.cell address = s.here.heap.cell address := Heap.put_cell_ne apart

/-- The new node was nobody's. -/
theorem Sane.unowned (sane : s.Sane) : s.owner s.here.heap.fresh = none := by
  by_contra owned
  have live := sane.live _ owned
  rw [Heap.fresh_free] at live
  cases live

theorem Sane.grown (sane : s.Sane) : (s.grown call).Sane where
  live other owned := by
    by_cases same : other = s.here.heap.fresh
    · subst same
      simp
    · rw [grown_owner_ne same] at owned
      rw [grown_cell_ne same]
      exact sane.live other owned
  root other root := by
    have owned := sane.root other root
    have apart : other ≠ s.here.heap.fresh := by
      rintro rfl
      exact owned sane.unowned
    rwa [grown_owner_ne apart]

theorem Sane.put {node : Node FileNode} (sane : s.Sane) : (s.put address node).Sane where
  live other owned := by
    by_cases same : other = address
    · subst same
      simp [Owned.put]
    · rw [Owned.put, Heap.put_cell_ne same]
      exact sane.live other owned
  root := sane.root

end Grown

end Owned

/-- A part of the program of a call. -/
def onHere {Value : Type} (program : RuleHeap.RuleM σ Value) : Program (Owned σ) Fault Value :=
  onPart Owned.here (fun here s => { s with here := here }) program

/-- The accesses of a call, which comes to own what it allocates. A root that leads somewhere is
not read here. -/
def performFor (k : Kernel σ) (call : Nat) :
    (request : Access) → Program (Owned σ) Fault request.Answer
  | .top => do
      let s ← get
      if s.here.root = none then onHere (RuleHeap.perform k .top) else throw .badPointer
  | .vmalloc => do
      let address ← onHere (RuleHeap.perform k .vmalloc)
      modify fun s => { s with owner := Function.update s.owner address (some call) }
      return address
  | request => onHere (RuleHeap.perform k request)

/-- What the other calls leave a call: its nodes, and the root unless they set it to a node of
their own. -/
structure Leaves (opens : σ → Bytes → Option InodeAddr) (call : Nat) (s t : Owned σ) : Prop where
  sane : t.Sane
  mine : ∀ address, t.owner address = some call ↔ s.owner address = some call
  cells : ∀ address, s.owner address = some call →
    t.here.heap.cell address = s.here.heap.cell address
  root : ∀ address, t.here.root = some address → t.owner address = some call →
    s.here.root = some address
  kept : s.here.root ≠ none → t.here.root ≠ none
  paths : opens t.here.outside = opens s.here.outside

/-- The nodes a call has linked in, which show the first of its rules. -/
structure Chain (call : Nat) (rules : List FileNode) (nodes : List (Nat × FileNode))
    (s : Owned σ) : Prop where
  chain : Segment s.here.heap.cell (nodes.head?.map Prod.fst) nodes none
  distinct : (nodes.map Prod.fst).Nodup
  owned : ∀ address ∈ nodes.map Prod.fst, s.owner address = some call
  first : ∀ address, s.here.root = some address → s.owner address = some call →
    nodes.head?.map Prod.fst = some address
  linked : nodes ≠ [] → s.here.root ≠ none
  part : nodes.map Prod.snd <+: rules

/-- What a call promises the others: their nodes stay, the root is as it was or leads to a node
of its own, and its own nodes are a chain. -/
structure Promised (opens : σ → Bytes → Option InodeAddr) (call : Nat) (rules : List FileNode)
    (s t : Owned σ) : Prop where
  sane : t.Sane
  owners : ∀ address other, other ≠ call →
    (t.owner address = some other ↔ s.owner address = some other)
  owned : ∀ address, s.owner address = some call → t.owner address = some call
  cells : ∀ address other, other ≠ call → s.owner address = some other →
    t.here.heap.cell address = s.here.heap.cell address
  rooted : t.here.root = s.here.root ∨
    ∃ address, t.here.root = some address ∧ t.owner address = some call
  paths : opens t.here.outside = opens s.here.outside
  chain : ∃ nodes, Chain call rules nodes t

/-- What a call knows between two accesses: its chain, and the node it is about to link in. -/
structure Mine (opens : σ → Bytes → Option InodeAddr) (paths : Bytes → Option InodeAddr)
    (call : Nat) (rules : List FileNode) (nodes : List (Nat × FileNode))
    (new : Option (Nat × Node FileNode)) (s : Owned σ) : Prop where
  sane : s.Sane
  chain : Chain call rules nodes s
  new : ∀ address node, new = some (address, node) → s.owner address = some call ∧
    s.here.heap.cell address = some node ∧ address ∉ nodes.map Prod.fst
  paths : opens s.here.outside = paths

section Rely

variable {opens : σ → Bytes → Option InodeAddr} {call : Nat} {s t u : Owned σ}

/-- What a call relies on. -/
def Rely (opens : σ → Bytes → Option InodeAddr) (call : Nat) (s t : Owned σ) : Prop :=
  s.Sane → Leaves opens call s t

theorem Rely.refl (s : Owned σ) : Rely opens call s s := fun sane =>
  ⟨sane, fun _ => Iff.rfl, fun _ _ => rfl, fun _ root _ => root, id, rfl⟩

theorem Rely.trans (first : Rely opens call s t) (second : Rely opens call t u) :
    Rely opens call s u := fun sane => by
  have one := first sane
  have two := second one.sane
  exact {
    sane := two.sane
    mine := fun address => (two.mine address).trans (one.mine address)
    cells := fun address owned =>
      (two.cells address ((one.mine address).mpr owned)).trans (one.cells address owned)
    root := fun address root owned =>
      one.root address (two.root address root owned) ((two.mine address).mp owned)
    kept := fun root => two.kept (one.kept root)
    paths := two.paths.trans one.paths }

/-- What a call promises is what the others rely on. -/
theorem Promised.rely {rules : List FileNode} {other : Nat}
    (promised : Promised opens call rules s t) (apart : other ≠ call) : Rely opens other s t :=
  fun _ => {
    sane := promised.sane
    mine := fun address => promised.owners address other apart
    cells := fun address => promised.cells address other apart
    root := fun address root owned => by
      rcases promised.rooted with same | ⟨mine, isRoot, isMine⟩
      · exact same ▸ root
      · obtain rfl := Option.some.inj (isRoot.symm.trans root)
        exact absurd (Option.some.inj (owned.symm.trans isMine)) apart
    kept := fun root => by
      rcases promised.rooted with same | ⟨mine, isRoot, _⟩
      · exact same ▸ root
      · simp [isRoot]
    paths := promised.paths }

variable {paths : Bytes → Option InodeAddr} {rules : List FileNode}
  {nodes : List (Nat × FileNode)} {new : Option (Nat × Node FileNode)}

theorem Chain.stable (chain : Chain call rules nodes s) (leaves : Leaves opens call s t) :
    Chain call rules nodes t where
  chain := chain.chain.frame fun address member => leaves.cells address (chain.owned address member)
  distinct := chain.distinct
  owned address member := (leaves.mine address).mpr (chain.owned address member)
  first address root owned :=
    chain.first address (leaves.root address root owned) ((leaves.mine address).mp owned)
  linked some := leaves.kept (chain.linked some)
  part := chain.part

theorem Mine.stable (mine : Mine opens paths call rules nodes new s)
    (relied : Rely opens call s t) : Mine opens paths call rules nodes new t := by
  have leaves := relied mine.sane
  refine ⟨leaves.sane, mine.chain.stable leaves, fun address node isNew => ?_,
    leaves.paths.trans mine.paths⟩
  obtain ⟨owned, cell, apart⟩ := mine.new address node isNew
  exact ⟨(leaves.mine address).mpr owned, (leaves.cells address owned).trans cell, apart⟩

end Rely

section Effects

variable {opens : σ → Bytes → Option InodeAddr} {paths : Bytes → Option InodeAddr} {call : Nat}
  {rules : List FileNode} {nodes : List (Nat × FileNode)} {new : Option (Nat × Node FileNode)}
  {s : Owned σ} {address : Nat}

/-- The nodes and the root stay. -/
theorem Mine.still (mine : Mine opens paths call rules nodes new s) {t : Owned σ}
    (same : RuleHeap.SameNodes s.here t.here) (owners : t.owner = s.owner)
    (kept : opens t.here.outside = opens s.here.outside) :
    Promised opens call rules s t ∧ Mine opens paths call rules nodes new t := by
  obtain ⟨here, owner⟩ := t
  obtain ⟨heap, root, outside⟩ := here
  obtain ⟨rfl, rfl⟩ := same
  cases owners
  have chain := mine.chain
  have stays : Chain call rules nodes ⟨⟨s.here.heap, s.here.root, outside⟩, s.owner⟩ :=
    ⟨chain.chain, chain.distinct, chain.owned, chain.first, chain.linked, chain.part⟩
  have sane : Owned.Sane ⟨⟨s.here.heap, s.here.root, outside⟩, s.owner⟩ :=
    ⟨mine.sane.live, mine.sane.root⟩
  exact ⟨⟨sane, fun _ _ _ => Iff.rfl, fun _ => id, fun _ _ _ _ => rfl, .inl rfl, kept, nodes,
    stays⟩, sane, stays, mine.new, kept.trans mine.paths⟩

theorem Mine.put (mine : Mine opens paths call rules nodes new s) {node : Node FileNode}
    {linked : List (Nat × FileNode)} (owned : s.owner address = some call)
    (chain : Chain call rules linked (s.put address node)) :
    Promised opens call rules s (s.put address node) where
  sane := mine.sane.put
  owners _ _ _ := Iff.rfl
  owned _ := id
  cells other owner apart isOwned := by
    refine Heap.put_cell_ne fun same => apart ?_
    subst same
    exact Option.some.inj (isOwned.symm.trans owned)
  rooted := .inl rfl
  paths := rfl
  chain := ⟨linked, chain⟩

/-- The call allocates a node. -/
theorem Mine.grown (mine : Mine opens paths call rules nodes new s) :
    Promised opens call rules s (s.grown call) ∧
      Mine opens paths call rules nodes (some (s.here.heap.fresh, freshNode)) (s.grown call) := by
  have apart : ∀ {address other}, s.owner address = some other → address ≠ s.here.heap.fresh := by
    rintro _ other owned rfl
    cases mine.sane.unowned.symm.trans owned
  have keptOwner : ∀ {address other}, s.owner address = some other →
      (s.grown call).owner address = some other := fun owned =>
    (Owned.grown_owner_ne (apart owned)).trans owned
  have keptCell : ∀ {address other}, s.owner address = some other →
      (s.grown call).here.heap.cell address = s.here.heap.cell address := fun owned =>
    Owned.grown_cell_ne (apart owned)
  have chain : Chain call rules nodes (s.grown call) := by
    refine ⟨mine.chain.chain.frame fun address member => keptCell (mine.chain.owned address member),
      mine.chain.distinct, fun address member => keptOwner (mine.chain.owned address member),
      fun address root owned => ?_, mine.chain.linked, mine.chain.part⟩
    obtain ⟨other, isOwned⟩ := Option.ne_none_iff_exists'.mp (mine.sane.root address root)
    rw [Owned.grown_owner_ne (apart isOwned)] at owned
    exact mine.chain.first address root owned
  refine ⟨⟨mine.sane.grown, fun address other notMine => ?_, fun _ => keptOwner,
    fun _ _ _ => keptCell, .inl rfl, rfl, nodes, chain⟩, mine.sane.grown, chain, ?_, mine.paths⟩
  · by_cases same : address = s.here.heap.fresh
    · subst same
      simp [mine.sane.unowned, Ne.symm notMine]
    · rw [Owned.grown_owner_ne same]
  · rintro address node isNew
    obtain ⟨rfl, rfl⟩ := Prod.mk.inj (Option.some.inj isNew)
    refine ⟨Owned.grown_owner_self, by simp, fun member => ?_⟩
    exact apart (mine.chain.owned _ member) rfl

/-- It fills it in. -/
theorem Mine.filled {old : Node FileNode} (mine : Mine opens paths call rules nodes
    (some (address, old)) s) (node : Node FileNode) :
    Promised opens call rules s (s.put address node) ∧
      Mine opens paths call rules nodes (some (address, node)) (s.put address node) := by
  obtain ⟨owned, live, apart⟩ := mine.new address old rfl
  have chain : Chain call rules nodes (s.put address node) :=
    ⟨mine.chain.chain.frame fun other member => Heap.put_cell_ne fun same => apart (same ▸ member),
      mine.chain.distinct, mine.chain.owned, mine.chain.first, mine.chain.linked, mine.chain.part⟩
  refine ⟨mine.put owned chain, mine.sane.put, chain, fun other filled isNew => ?_, mine.paths⟩
  obtain ⟨rfl, rfl⟩ := Prod.mk.inj (Option.some.inj isNew)
  exact ⟨owned, by simp [Owned.put], apart⟩

/-- It links its first node in at the root. -/
theorem Mine.rooted {value : FileNode} (mine : Mine opens paths call rules []
    (some (address, ⟨value, none⟩)) s) (part : [value] <+: rules) :
    Promised opens call rules s (s.rooted address) ∧
      Mine opens paths call rules [(address, value)] none (s.rooted address) := by
  obtain ⟨owned, live, _⟩ := mine.new address _ rfl
  have chain : Chain call rules [(address, value)] (s.rooted address) := by
    refine ⟨⟨rfl, none, live, rfl⟩, List.nodup_singleton _, ?_, fun _ root _ => root, nofun, part⟩
    simpa [Owned.rooted] using owned
  have sane : (s.rooted address).Sane := by
    refine ⟨mine.sane.live, fun other root => ?_⟩
    obtain rfl := Option.some.inj root
    simp [Owned.rooted, owned]
  exact ⟨⟨sane, fun _ _ _ => Iff.rfl, fun _ => id, fun _ _ _ _ => rfl, .inr ⟨address, rfl, owned⟩,
    rfl, _, chain⟩, sane, chain, nofun, mine.paths⟩

/-- It links a node in behind its last one. -/
theorem Mine.linked {front : List (Nat × FileNode)} {last : Nat} {before value : FileNode}
    (whole : nodes = front ++ [(last, before)])
    (mine : Mine opens paths call rules nodes (some (address, ⟨value, none⟩)) s)
    (part : (nodes ++ [(address, value)]).map Prod.snd <+: rules) :
    Promised opens call rules s (s.put last ⟨before, some address⟩) ∧
      Mine opens paths call rules (nodes ++ [(address, value)]) none
        (s.put last ⟨before, some address⟩) := by
  obtain ⟨owned, live, apart⟩ := mine.new address _ rfl
  have lastOwned := mine.chain.owned last (by simp [whole])
  have distinct := mine.chain.distinct
  have others : ∀ other ∈ front.map Prod.fst, other ≠ last := by
    intro other member same
    rw [whole, List.map_append, List.nodup_append] at distinct
    exact distinct.2.2 other member last (by simp) same
  have isFirst : ((nodes ++ [(address, value)]).head?.map Prod.fst) =
      nodes.head?.map Prod.fst := by
    rw [whole]
    cases front <;> rfl
  have chain : Chain call rules (nodes ++ [(address, value)])
      (s.put last ⟨before, some address⟩) := by
    refine ⟨?_, ?_, fun other member => ?_, fun other root owned => ?_,
      fun _ => mine.chain.linked (by simp [whole]), part⟩
    · rw [isFirst]
      have segment := mine.chain.chain
      rw [whole] at segment apart ⊢
      refine segment.extend (fun other member => Heap.put_cell_ne (others other member))
        Heap.put_cell_self ?_
      rw [Owned.put, Heap.put_cell_ne fun same => apart (by simp [same])]
      exact live
    · rw [List.map_append, List.nodup_append]
      refine ⟨distinct, List.nodup_singleton _, fun other member new isNew same => ?_⟩
      obtain rfl := List.mem_singleton.mp isNew
      exact apart (same ▸ member)
    · rw [List.map_append, List.mem_append] at member
      rcases member with member | isNew
      · exact mine.chain.owned other member
      · obtain rfl := List.mem_singleton.mp isNew
        exact owned
    · rw [isFirst]
      exact mine.chain.first other root owned
  exact ⟨mine.put lastOwned chain, mine.sane.put, chain, nofun, mine.paths⟩

end Effects

end Saves

end FsProtection
