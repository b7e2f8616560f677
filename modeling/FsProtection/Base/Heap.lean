import Mathlib.Logic.Function.Basic
import FsProtection.Base.Program

/-!
# A heap of list nodes

Blocks of one kind, each a value and a pointer to the next block. The allocator is a
parameter: for every allocation it names the address it would take, which may be one that
was freed before.
-/

namespace FsProtection.Base

/-- An address, or NULL. -/
abbrev Pointer := Option Nat

/-- A block of the list. -/
structure Node (Value : Type) where
  value : Value
  next : Pointer

/-- The live blocks, and a record of all that was allocated and freed. -/
structure Heap (Value : Type) where
  cell : Nat → Option (Node Value)
  bound : Nat
  within : ∀ address, bound ≤ address → cell address = none
  place : Nat → Nat
  mallocs : List Nat
  frees : List Nat

variable {Value Fault : Type}

namespace Heap

/-- Nothing allocated yet. -/
def empty (place : Nat → Nat) : Heap Value where
  cell _ := none
  bound := 0
  within _ _ := rfl
  place := place
  mallocs := []
  frees := []

/-- The address of the next allocation: the one the allocator names, if it is free. -/
def fresh (h : Heap Value) : Nat :=
  if (h.cell (h.place h.mallocs.length)).isNone then h.place h.mallocs.length else h.bound

/-- The heap with a node at an address. -/
def put (h : Heap Value) (address : Nat) (node : Node Value) : Heap Value where
  cell := Function.update h.cell address (some node)
  bound := max h.bound (address + 1)
  within := by
    intro other outside
    have apart : other ≠ address := by omega
    rw [Function.update_of_ne apart]
    exact h.within other (by omega)
  place := h.place
  mallocs := h.mallocs
  frees := h.frees

/-- The heap after an allocation, with what the block holds first. -/
def grow (h : Heap Value) (node : Node Value) : Heap Value :=
  { h.put h.fresh node with mallocs := h.mallocs ++ [h.fresh] }

/-- The heap after a block was freed. -/
def drop (h : Heap Value) (address : Nat) : Heap Value where
  cell := Function.update h.cell address none
  bound := h.bound
  within := by
    intro other outside
    by_cases same : other = address
    · rw [same, Function.update_self]
    · rw [Function.update_of_ne same]
      exact h.within other outside
  place := h.place
  mallocs := h.mallocs
  frees := h.frees ++ [address]

section Programs

variable (bad : Fault)

/-- A new block with a node in it. -/
def malloc (node : Node Value) : Program (Heap Value) Fault Nat := do
  let h ← get
  set (h.grow node)
  return h.fresh

/-- The node a pointer leads to; NULL and freed blocks fault. -/
def load (pointer : Pointer) : Program (Heap Value) Fault (Node Value) := do
  let h ← get
  match pointer.bind h.cell with
  | none => throw bad
  | some node => return node

/-- A node is overwritten. -/
def store (pointer : Pointer) (node : Node Value) : Program (Heap Value) Fault Unit := do
  let h ← get
  match pointer with
  | none => throw bad
  | some address => if (h.cell address).isSome then set (h.put address node) else throw bad

/-- `free` of a block; a block that is not live faults. -/
def free (address : Nat) : Program (Heap Value) Fault Unit := do
  let h ← get
  if (h.cell address).isSome then set (h.drop address) else throw bad

variable (Fault) in
/-- `free` where a block that is not live is left alone. -/
def release (address : Nat) : Program (Heap Value) Fault Unit := do
  let h ← get
  if (h.cell address).isSome then set (h.drop address) else return

/-- A loop over the nodes from a pointer on. A loop of more turns than there are
addresses would never end, and faults. -/
def forEach {Result : Type} (turn : Result → Value → Result) :
    Nat → Result → Pointer → Program (Heap Value) Fault Result
  | _, result, none => return result
  | 0, _, some _ => throw bad
  | turns + 1, result, some address => do
      let node ← load bad (some address)
      forEach turn turns (turn result node.value) node.next

/-- A loop over a whole list. -/
def forNodes {Result : Type} (turn : Result → Value → Result) (result : Result)
    (root : Pointer) : Program (Heap Value) Fault Result := do
  let h ← get
  forEach bad turn h.bound result root

end Programs

section Spec

variable {h after : Heap Value} {bad : Fault} {node : Node Value} {address other : Nat}

/-- The address of the next block is not in use. -/
theorem fresh_free (h : Heap Value) : h.cell h.fresh = none := by
  unfold fresh
  split
  · next free => exact Option.isNone_iff_eq_none.mp free
  · exact h.within h.bound (Nat.le_refl _)

/-- Every block in use is below the bound. -/
theorem lt_bound (live : (h.cell address).isSome) : address < h.bound := by
  by_contra outside
  rw [h.within address (Nat.le_of_not_lt outside)] at live
  cases live

@[simp] theorem put_cell_self : (h.put address node).cell address = some node :=
  Function.update_self ..

theorem put_cell_ne (apart : other ≠ address) : (h.put address node).cell other = h.cell other :=
  Function.update_of_ne apart ..

@[simp] theorem grow_cell : (h.grow node).cell = (h.put h.fresh node).cell := rfl

@[simp] theorem drop_cell_self : (h.drop address).cell address = none :=
  Function.update_self ..

theorem drop_cell_ne (apart : other ≠ address) : (h.drop address).cell other = h.cell other :=
  Function.update_of_ne apart ..

/-- Of two nodes put at one address the second stays. -/
theorem put_put (first second : Node Value) :
    (h.put address first).put address second = h.put address second := by
  simp [put]

/-- A node put into a live block is gone when the block is freed. -/
theorem put_drop (live : (h.cell address).isSome) :
    (h.put address node).drop address = h.drop address := by
  have inside : address + 1 ≤ h.bound := lt_bound live
  simp [put, drop, inside]

/-- An allocation answers the fresh address. -/
@[simp] theorem returns_malloc_iff :
    Returns (malloc node : Program (Heap Value) Fault Nat) h address after ↔
      address = h.fresh ∧ after = h.grow node := by
  simp only [malloc, returns_bind_iff, returns_get_iff, returns_set_iff, returns_pure_iff]
  constructor
  · rintro ⟨_, _, ⟨rfl, rfl⟩, _, _, rfl, rfl, rfl⟩
    exact ⟨rfl, rfl⟩
  · rintro ⟨rfl, rfl⟩
    exact ⟨h, h, ⟨rfl, rfl⟩, (), _, rfl, rfl, rfl⟩

/-- On a block in use the accesses return, -/
theorem returns_load (live : h.cell address = some node) :
    Returns (load bad (some address)) h node h := by
  simp [load, returns_bind_iff, live]

theorem returns_store (live : (h.cell address).isSome) :
    Returns (store bad (some address) node) h () (h.put address node) := by
  simp [store, returns_bind_iff, live]

theorem returns_free (live : (h.cell address).isSome) :
    Returns (free bad address) h () (h.drop address) := by
  simp [free, returns_bind_iff, live]

theorem returns_release (live : (h.cell address).isSome) :
    Returns (release Fault address) h () (h.drop address) := by
  simp [release, returns_bind_iff, live]

/-- and only there, -/
theorem returns_load_iff {pointer : Pointer} :
    Returns (load bad pointer) h node after ↔ pointer.bind h.cell = some node ∧ after = h := by
  cases leads : pointer.bind h.cell with
  | none => simp [load, returns_bind_iff, leads]
  | some found => simp [load, returns_bind_iff, leads, eq_comm]

theorem returns_store_iff : Returns (store bad (some address) node) h () after ↔
    (h.cell address).isSome ∧ after = h.put address node := by
  by_cases live : (h.cell address).isSome <;> simp [store, returns_bind_iff, live]

/-- but a release goes on where there is no block to free. -/
theorem returns_release_iff : Returns (release Fault address) h () after ↔
    after = if (h.cell address).isSome then h.drop address else h := by
  by_cases live : (h.cell address).isSome <;> simp [release, returns_bind_iff, live]

/-- A block that was just stored to is live. -/
theorem store_release {Result : Type} (rest : Unit → Program (Heap Value) Fault Result) :
    (store bad (some address) node >>= fun _ => release Fault address >>= rest) =
      (store bad (some address) node >>= fun _ => free bad address >>= rest) := by
  funext h
  change (store bad (some address) node >>= fun _ => release Fault address >>= rest).run h =
    (store bad (some address) node >>= fun _ => free bad address >>= rest).run h
  by_cases live : (h.cell address).isSome
  · have stored : (store bad (some address) node).run h = .ok ((), h.put address node) :=
      returns_store live
    simp only [StateT.run_bind, stored]
    have now : ((h.put address node).cell address).isSome := by simp
    have released : (release Fault address).run (h.put address node) = _ := returns_release now
    have freed : (free bad address).run (h.put address node) = _ := returns_free now
    simp [released, freed, bind, Except.bind]
  · have faulted : (store bad (some address) node).run h = .error bad := by
      simp only [store, StateT.run_bind, StateT.run_get, pure_bind, if_neg live]
      rfl
    simp only [StateT.run_bind, faulted]
    rfl

end Spec

end Heap

end FsProtection.Base
