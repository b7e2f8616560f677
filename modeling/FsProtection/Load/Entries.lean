import FsProtection.Load.Accesses

/-!
# What the system call table holds

The entries of the hooked calls and the globals `origin_*`, at any access of `lkm_init` and
`lkm_exit`: nothing of a new kind but the module's handlers gets into them, and over a table
nobody patched each entry is the kernel's or leads to a hook that can pass the call on.
-/

namespace FsProtection

open Base

namespace Load

variable {σ : Type}

/-- What a table and the globals hold for the hooked calls is of one kind, and the other
entries are the kernel's. -/
structure Only (nr : Hooked → Nat) (table : Nat → UInt32) (Kind : Hooked → UInt32 → Prop)
    (s : LoadState σ) : Prop where
  entry : ∀ call, Kind call (s.table (nr call))
  origin : ∀ call, Kind call (s.origin call)
  others : ∀ number, (∀ call, number ≠ nr call) → s.table number = table number

/-- The globals `origin_*` are the handlers of the kernel's table. -/
def Saved (b : Build) (table : Nat → UInt32) (s : LoadState σ) : Prop :=
  ∀ call, s.origin call = table (b.nr call)

/-- Every entry is the kernel's, or that of a hook whose `origin_*` is the kernel's. -/
structure Sane (b : Build) (table : Nat → UInt32) (s : LoadState σ) : Prop where
  hooked : ∀ call, s.table (b.nr call) = table (b.nr call) ∨
    s.table (b.nr call) = b.modified call ∧ Saved b table s
  others : ∀ number, (∀ call, number ≠ b.nr call) → s.table number = table number
  origin : ∀ call, s.origin call = 0 ∨ s.origin call = table (b.nr call)

/-- An access of the module keeps every kind that its handlers are of. -/
def KeepsKinds (b : Build) (table : Nat → UInt32) (s after : LoadState σ) : Prop :=
  ∀ Kind : Hooked → UInt32 → Prop, (∀ call, Kind call (b.modified call)) →
    Only b.nr table Kind s → Only b.nr table Kind after

/-- What an access of the module promises the system calls while no loading has failed. -/
def Safe (b : Build) (table : Nat → UInt32) (s after : LoadState σ) : Prop :=
  (Sane b table s → Sane b table after) ∧ (Saved b table s → Saved b table after)

section Tables

variable {b : Build} {table : Nat → UInt32} {Kind : Hooked → UInt32 → Prop}
  {s after : LoadState σ} {handler : UInt32} {call : Hooked} {o : LoadOutcomes}

theorem Only.same (only : Only b.nr table Kind s) (same : SameTable s after) :
    Only b.nr table Kind after where
  entry call := by
    rw [same.1]
    exact only.entry call
  origin call := by
    rw [same.2]
    exact only.origin call
  others number apart := by
    rw [same.1]
    exact only.others number apart

/-- A store of the right kind keeps the entries of their kinds, -/
theorem Only.withEntry (only : Only b.nr table Kind s) (kind : Kind call handler) :
    Only b.nr table Kind (withEntry (b.nr call) handler s) where
  entry other := by
    by_cases isCall : other = call
    · subst isCall
      rwa [withEntry_same]
    · rw [withEntry_apart fun same => isCall (b.distinct same)]
      exact only.entry other
  origin := only.origin
  others number apart := (withEntry_apart (apart call)).trans (only.others number apart)

/-- and so does a save. -/
theorem Only.withOrigin (only : Only b.nr table Kind s) (kind : Kind call handler) :
    Only b.nr table Kind (withOrigin call handler s) where
  entry := only.entry
  origin other := by
    by_cases isCall : other = call
    · subst isCall
      rwa [withOrigin_same]
    · rw [withOrigin_apart isCall]
      exact only.origin other
  others := only.others

/-- `lkm_init` stores hooks over entries of hooked calls and saves what was there, -/
theorem lkmInit_kinds : (Stepwise.lkmInit b o).Keeps performTable SameTable (KeepsKinds b table)
    (Loads b o s) s := by
  refine lkmInit_keeps (fun _ _ same _ _ only => only.same same) ?_ ?_
  · intro call here sameTable Kind _ only
    refine only.withOrigin ?_
    rw [← sameTable]
    exact only.entry call
  · exact fun call _ _ _ hooks only => only.withEntry (hooks call)

/-- and `lkm_exit` stores what was saved. -/
theorem lkmExit_kinds : (Stepwise.lkmExit b).Keeps performTable SameTable (KeepsKinds b table)
    (fun _ after => after.origin = s.origin ∧ ∀ call, after.table (b.nr call) = s.origin call)
    s := by
  refine lkmExit_keeps (fun _ _ same _ _ only => only.same same) ?_
  intro call here sameOrigin Kind _ only
  refine only.withEntry ?_
  rw [← sameOrigin]
  exact only.origin call

theorem Saved.same (saved : Saved b table s) (same : SameTable s after) : Saved b table after :=
  fun call => (congrFun same.2 call).trans (saved call)

theorem Sane.same (sane : Sane b table s) (same : SameTable s after) : Sane b table after where
  hooked call := by
    rw [same.1]
    exact (sane.hooked call).imp id fun ⟨isHook, saved⟩ => ⟨isHook, saved.same same⟩
  others number apart := by
    rw [same.1]
    exact sane.others number apart
  origin call := by
    rw [same.2]
    exact sane.origin call

theorem SameTable.safe (same : SameTable s after) : Safe b table s after :=
  ⟨fun sane => sane.same same, fun saved => saved.same same⟩

/-- Over a table nobody patched, with the globals clear, everything is sane. -/
theorem sane_of_untouched (untouched : s.table = table) (clear : ∀ call, s.origin call = 0) :
    Sane b table s :=
  ⟨fun _ => .inl (congrFun untouched _), fun number _ => congrFun untouched number,
    fun call => .inl (clear call)⟩

/-- With no hook in it the table is what it was. -/
theorem Sane.table_eq (sane : Sane b table s)
    (unpatched : ∀ call, s.table (b.nr call) = table (b.nr call)) : s.table = table := by
  funext number
  by_cases hooked : ∃ call, number = b.nr call
  · obtain ⟨call, rfl⟩ := hooked
    exact unpatched call
  · exact sane.others number fun call isHooked => hooked ⟨call, isHooked⟩

/-- A hook is stored over a saved entry, or an entry is put back. -/
theorem safe_withEntry (saved : Saved b table s)
    (kind : handler = b.modified call ∨ handler = table (b.nr call)) :
    Safe b table s (withEntry (b.nr call) handler s) := by
  refine ⟨fun sane => ⟨fun other => ?_, fun number apart => ?_, sane.origin⟩, id⟩
  · by_cases isCall : other = call
    · subst isCall
      rw [withEntry_same]
      exact kind.elim (fun isHook => .inr ⟨isHook, saved⟩) .inl
    · rw [withEntry_apart fun same => isCall (b.distinct same)]
      exact (sane.hooked other).imp id fun isHook => ⟨isHook.1, saved⟩
  · rw [withEntry_apart (apart call)]
    exact sane.others number apart

/-- An entry the table had when nobody had patched it is saved. -/
theorem safe_withOrigin (unpatched : s.table = table) :
    Safe b table s (withOrigin call (table (b.nr call)) s) := by
  have moved : ∀ other, (withOrigin call (table (b.nr call)) s).origin other = s.origin other ∨
      (withOrigin call (table (b.nr call)) s).origin other = table (b.nr other) := by
    intro other
    by_cases isCall : other = call
    · subst isCall
      exact .inr withOrigin_same
    · exact .inl (withOrigin_apart isCall)
  refine ⟨fun sane => ⟨fun other => .inl (congrFun unpatched _), fun number _ =>
    congrFun unpatched number, fun other => ?_⟩, fun saved other => ?_⟩
  · exact (moved other).elim (fun same => same ▸ sane.origin other) .inr
  · exact (moved other).elim (fun same => same.trans (saved other)) id

/-- Loading over the table as it was does nothing unsafe to it, -/
theorem lkmInit_safe (unpatched : s.table = table) :
    (Stepwise.lkmInit b o).Keeps performTable SameTable (Safe b table) (Loads b o s) s := by
  refine lkmInit_keeps (fun _ _ => SameTable.safe) ?_ ?_
  · intro call here same
    rw [unpatched]
    exact safe_withOrigin (same.trans unpatched)
  · intro call here origins
    exact safe_withEntry (fun other => (origins other).trans (congrFun unpatched _)) (.inl rfl)

/-- nor does unloading, when the module saved the entries. -/
theorem lkmExit_safe (saved : Saved b table s) :
    (Stepwise.lkmExit b).Keeps performTable SameTable (Safe b table)
      (fun _ after => after.origin = s.origin ∧ ∀ call, after.table (b.nr call) = s.origin call)
      s := by
  refine lkmExit_keeps (fun _ _ => SameTable.safe) fun call here same => ?_
  exact safe_withEntry (fun other => (congrFun same other).trans (saved other)) (.inr (saved call))

end Tables

end Load

end FsProtection
