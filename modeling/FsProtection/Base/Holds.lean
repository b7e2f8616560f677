import FsProtection.Base.Heap

/-!
# Blocks held by variables

Of a heap that grew, each block beyond the earlier heap is in one of some variables. What an
error path gives back, and what it leaves behind, is read off the variables.
-/

namespace FsProtection.Base

variable {Value Fault : Type}

/-- Over an earlier heap, one block more for every variable that is listed and not NULL. -/
structure Holds {Name : Type} (base : Nat → Option (Node Value)) (h : Heap Value)
    (pointer : Name → Pointer) (held : List Name) : Prop where
  live : ∀ name ∈ held, ∀ address, pointer name = some address →
    base address = none ∧ (h.cell address).isSome
  apart : ∀ name ∈ held, ∀ other ∈ held, ∀ address, pointer name = some address →
    pointer other = some address → name = other
  rest : ∀ address, (∀ name ∈ held, pointer name ≠ some address) → h.cell address = base address

namespace Holds

variable {Name : Type} {base : Nat → Option (Node Value)} {h : Heap Value}
  {pointer : Name → Pointer} {held : List Name} {name : Name} {address : Nat}

theorem nil : Holds h.cell h pointer [] where
  live _ member := by cases member
  apart _ member := by cases member
  rest _ _ := rfl

/-- A variable holds what is in the heap and was not there before. -/
theorem holder (holds : Holds base h pointer held) (live : (h.cell address).isSome)
    (made : base address = none) : ∃ name ∈ held, pointer name = some address := by
  by_contra unheld
  have same := holds.rest address fun name member points => unheld ⟨name, member, points⟩
  rw [same, made] at live
  cases live

/-- Only what the listed variables point to matters. -/
theorem congr {moved : Name → Pointer} (holds : Holds base h pointer held)
    (same : ∀ name ∈ held, moved name = pointer name) : Holds base h moved held where
  live name member address points :=
    holds.live name member address (same name member ▸ points)
  apart first isFirst second isSecond address points again :=
    holds.apart first isFirst second isSecond address (same first isFirst ▸ points)
      (same second isSecond ▸ again)
  rest address free := holds.rest address fun name member points =>
    free name member ((same name member).trans points)

/-- A variable that is NULL holds nothing. -/
theorem cons_null_iff (isNull : pointer name = none) :
    Holds base h pointer (name :: held) ↔ Holds base h pointer held := by
  have listed : ∀ other ∈ name :: held, ∀ address, pointer other = some address →
      other ∈ held := by
    intro other member address points
    rcases List.mem_cons.mp member with rfl | member
    · rw [isNull] at points
      cases points
    · exact member
  constructor
  · intro holds
    exact ⟨fun other member => holds.live other (List.mem_cons_of_mem _ member),
      fun first isFirst second isSecond => holds.apart first (List.mem_cons_of_mem _ isFirst) second
        (List.mem_cons_of_mem _ isSecond),
      fun address free => holds.rest address fun other member points =>
        free other (listed other member address points) points⟩
  · intro holds
    exact ⟨fun other member address points =>
        holds.live other (listed other member address points) address points,
      fun first isFirst second isSecond address points again =>
        holds.apart first (listed first isFirst address points) second
          (listed second isSecond address again) address points again,
      fun address free => holds.rest address fun other member =>
        free other (List.mem_cons_of_mem _ member)⟩

/-- A variable that gets a new block holds it. -/
theorem grow (holds : Holds base h pointer held) (points : pointer name = some h.fresh)
    (node : Node Value) : Holds base (h.grow node) pointer (name :: held) := by
  have old : ∀ other ∈ held, ∀ address, pointer other = some address → address ≠ h.fresh := by
    rintro other member _ pointed rfl
    have live := (holds.live other member _ pointed).2
    rw [h.fresh_free] at live
    cases live
  have free : base h.fresh = none := by
    rw [← holds.rest h.fresh fun other member pointed => old other member _ pointed rfl,
      h.fresh_free]
  constructor
  · intro other member address pointed
    rcases List.mem_cons.mp member with rfl | member
    · obtain rfl := Option.some.inj (points.symm.trans pointed)
      exact ⟨free, by simp⟩
    · rw [Heap.grow_cell, Heap.put_cell_ne (old other member address pointed)]
      exact holds.live other member address pointed
  · intro first isFirst second isSecond address pointed again
    rcases List.mem_cons.mp isFirst with isNew | isFirst <;>
      rcases List.mem_cons.mp isSecond with alsoNew | isSecond
    · exact isNew.trans alsoNew.symm
    · obtain rfl := Option.some.inj (points.symm.trans (isNew ▸ pointed))
      exact absurd rfl (old second isSecond _ again)
    · obtain rfl := Option.some.inj (points.symm.trans (alsoNew ▸ again))
      exact absurd rfl (old first isFirst _ pointed)
    · exact holds.apart first isFirst second isSecond address pointed again
  · intro address unheld
    have notNew : address ≠ h.fresh := by
      rintro rfl
      exact unheld name (by simp) points
    rw [Heap.grow_cell, Heap.put_cell_ne notNew]
    exact holds.rest address fun other member => unheld other (List.mem_cons_of_mem _ member)

/-- What is written into a held block does not matter. -/
theorem put (holds : Holds base h pointer held) (member : name ∈ held)
    (points : pointer name = some address) (node : Node Value) :
    Holds base (h.put address node) pointer held where
  live other isHeld place pointed := by
    obtain ⟨made, live⟩ := holds.live other isHeld place pointed
    refine ⟨made, ?_⟩
    by_cases same : place = address
    · simp [same]
    · rwa [Heap.put_cell_ne same]
  apart := holds.apart
  rest place unheld := by
    have notWritten : place ≠ address := fun same => unheld name member (same.symm ▸ points)
    rw [Heap.put_cell_ne notWritten]
    exact holds.rest place unheld

/-- A freed block is held no more. -/
theorem drop (holds : Holds base h pointer (name :: held)) (unheld : name ∉ held)
    (points : pointer name = some address) : Holds base (h.drop address) pointer held where
  live other isHeld place pointed := by
    obtain ⟨made, live⟩ := holds.live other (List.mem_cons_of_mem _ isHeld) place pointed
    refine ⟨made, ?_⟩
    have notFreed : place ≠ address := by
      rintro rfl
      have same := holds.apart name (by simp) other (List.mem_cons_of_mem _ isHeld) place
        points pointed
      exact unheld (same ▸ isHeld)
    rwa [Heap.drop_cell_ne notFreed]
  apart first isFirst second isSecond :=
    holds.apart first (List.mem_cons_of_mem _ isFirst) second (List.mem_cons_of_mem _ isSecond)
  rest place free := by
    by_cases freed : place = address
    · subst freed
      rw [Heap.drop_cell_self, (holds.live name (by simp) place points).1]
    · rw [Heap.drop_cell_ne freed]
      refine holds.rest place fun other member pointed => ?_
      rcases List.mem_cons.mp member with rfl | member
      · exact freed (Option.some.inj (pointed.symm.trans points))
      · exact free other member pointed

/-- Live blocks that variables point to, each to another, are held over the rest. -/
theorem of_live (live : ∀ name ∈ held, ∀ address, pointer name = some address →
      (h.cell address).isSome)
    (apart : ∀ name ∈ held, ∀ other ∈ held, ∀ address, pointer name = some address →
      pointer other = some address → name = other) :
    ∃ base, Holds base h pointer held := by
  classical
  refine ⟨fun address => if ∃ name ∈ held, pointer name = some address then none
    else h.cell address, ?_, apart, ?_⟩
  · intro name member address points
    exact ⟨if_pos ⟨name, member, points⟩, live name member address points⟩
  · intro address free
    have unheld : ¬ ∃ name ∈ held, pointer name = some address := by
      rintro ⟨name, member, points⟩
      exact free name member points
    exact (if_neg unheld).symm

end Holds

end FsProtection.Base
