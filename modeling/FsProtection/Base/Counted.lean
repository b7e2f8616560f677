import Mathlib.Data.Option.Basic

/-!
# Reference-counted objects at addresses

A cache loads the object of a key at an address, hands out references to it and may
evict it when there are none; the address may then serve another object. Each object
gets a serial number when it is loaded, which tells it from whatever has its address
later.
-/

namespace FsProtection.Base

/-- An object in the cache. -/
structure Counted (Address Key : Type) where
  address : Address
  key : Key
  serial : Nat
  refs : Nat

/-- `place` is where the allocator would put the n-th object it is asked for. -/
structure Cache (Address Key : Type) where
  objects : List (Counted Address Key)
  loads : Nat
  place : Nat → Address

namespace Cache

variable {Address Key : Type} [DecidableEq Address]

/-- The object at an address, if there is one. -/
def find (cache : Cache Address Key) (address : Address) : Option (Counted Address Key) :=
  cache.objects.find? (·.address = address)

/-- Which object is at an address. -/
def serialAt (cache : Cache Address Key) (address : Address) : Option Nat :=
  (cache.find address).map Counted.serial

/-- Change the number of references to the object at an address. -/
def count (cache : Cache Address Key) (address : Address) (change : Nat → Nat) :
    Cache Address Key :=
  { cache with objects := cache.objects.map fun object =>
      if object.address = address then { object with refs := change object.refs } else object }

/-- Give a reference back. -/
def release (cache : Cache Address Key) (address : Address) : Cache Address Key :=
  cache.count address (· - 1)

/-- Take a reference to the object of a key, loading it first where it is not cached.
There is no answer when the allocator finds no free place. -/
def acquire [DecidableEq Key] (cache : Cache Address Key) (key : Key) :
    Option Address × Cache Address Key :=
  match cache.objects.find? (·.key = key) with
  | some object => (some object.address, cache.count object.address (· + 1))
  | none =>
      if cache.find (cache.place cache.loads) = none then
        (some (cache.place cache.loads),
          { cache with
            objects := cache.objects ++ [⟨cache.place cache.loads, key, cache.loads, 1⟩]
            loads := cache.loads + 1 })
      else (none, { cache with loads := cache.loads + 1 })

/-- An object without references can be evicted. -/
def Evictable (cache : Cache Address Key) (address : Address) : Prop :=
  ∃ object, cache.find address = some object ∧ object.refs = 0

instance (cache : Cache Address Key) (address : Address) : Decidable (cache.Evictable address) :=
  match found : cache.find address with
  | none => isFalse (by simp [Evictable, found])
  | some object => decidable_of_iff (object.refs = 0) (by simp [Evictable, found])

/-- Evict the object at an address, if it can be. -/
def evict (cache : Cache Address Key) (address : Address) : Cache Address Key :=
  if cache.Evictable address then
    { cache with objects := cache.objects.filter (·.address ≠ address) }
  else cache

variable {cache : Cache Address Key} {address other : Address} {serial : Nat}

/-- Counting references replaces no object. -/
@[simp] theorem serialAt_count (change : Nat → Nat) :
    (cache.count other change).serialAt address = cache.serialAt address := by
  unfold serialAt find count
  rw [List.find?_map, Option.map_map]
  have sameAddress : ((fun object : Counted Address Key => decide (object.address = address)) ∘
      fun object => if object.address = other then { object with refs := change object.refs }
        else object) = fun object => decide (object.address = address) := by
    funext object
    by_cases here : object.address = other <;> simp [here]
  rw [sameAddress]
  congr 1
  funext object
  by_cases here : object.address = other <;> simp [here]

@[simp] theorem serialAt_release :
    (cache.release other).serialAt address = cache.serialAt address :=
  serialAt_count _

section Acquire

variable [DecidableEq Key] {key : Key} (unknown : cache.objects.find? (·.key = key) = none)

theorem acquire_cached {object : Counted Address Key}
    (known : cache.objects.find? (·.key = key) = some object) :
    cache.acquire key = (some object.address, cache.count object.address (· + 1)) := by
  simp only [acquire, known]

include unknown in
theorem acquire_loaded (free : cache.find (cache.place cache.loads) = none) :
    cache.acquire key = (some (cache.place cache.loads),
      { cache with
        objects := cache.objects ++ [⟨cache.place cache.loads, key, cache.loads, 1⟩]
        loads := cache.loads + 1 }) := by
  simp only [acquire, unknown, if_pos free]

include unknown in
theorem acquire_full (occupied : cache.find (cache.place cache.loads) ≠ none) :
    cache.acquire key = (none, { cache with loads := cache.loads + 1 }) := by
  simp only [acquire, unknown, if_neg occupied]

/-- Taking a reference replaces no object. -/
theorem serialAt_acquire (key : Key) (live : cache.serialAt address = some serial) :
    (cache.acquire key).2.serialAt address = some serial := by
  cases known : cache.objects.find? (·.key = key) with
  | some object =>
      rw [acquire_cached known]
      simpa using live
  | none =>
      by_cases free : cache.find (cache.place cache.loads) = none
      · obtain ⟨object, found, rfl⟩ := Option.map_eq_some_iff.mp live
        unfold find at found
        rw [acquire_loaded known free]
        simp [serialAt, find, found]
      · rw [acquire_full known free]
        exact live

/-- A reference is to an object that is there. -/
theorem acquire_live (taken : (cache.acquire key).1 = some address) :
    ∃ serial, (cache.acquire key).2.serialAt address = some serial := by
  cases known : cache.objects.find? (·.key = key) with
  | some object =>
      rw [acquire_cached known] at taken ⊢
      obtain rfl := Option.some.inj taken
      have present : (cache.find object.address).isSome :=
        List.find?_isSome.mpr ⟨object, List.mem_of_find?_eq_some known, by simp⟩
      obtain ⟨found, isFound⟩ := Option.isSome_iff_exists.mp present
      exact ⟨found.serial, by rw [serialAt_count, serialAt, isFound, Option.map_some]⟩
  | none =>
      by_cases free : cache.find (cache.place cache.loads) = none
      · rw [acquire_loaded known free] at taken ⊢
        obtain rfl := Option.some.inj taken
        have absent : cache.objects.find? (·.address = cache.place cache.loads) = none := free
        exact ⟨cache.loads, by simp only [serialAt, find, List.find?_append, absent]; simp⟩
      · rw [acquire_full known free] at taken
        exact absurd taken (by simp)

end Acquire

/-- An eviction leaves the other addresses alone. -/
theorem serialAt_evict (apart : address ≠ other) :
    (cache.evict other).serialAt address = cache.serialAt address := by
  unfold evict
  split
  · unfold serialAt find
    rw [List.find?_filter]
    congr 2
    funext object
    by_cases here : object.address = address <;> simp [here, apart]
  · rfl

/-- An eviction that is not possible leaves the cache alone. -/
theorem evict_eq_self (kept : ¬ cache.Evictable other) : cache.evict other = cache :=
  if_neg kept

/-- An evicted object is gone. -/
theorem serialAt_evicted (evictable : cache.Evictable address) :
    (cache.evict address).serialAt address = none := by
  rw [evict, if_pos evictable]
  simp [serialAt, find, List.find?_filter]

end Cache

end FsProtection.Base
