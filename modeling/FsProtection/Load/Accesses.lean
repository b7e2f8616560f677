import FsProtection.Base.Script
import FsProtection.Load.Complete

/-!
# `lkm_init` and `lkm_exit`, access by access

The other processors go on while `lkm_init` patches the system call table and `lkm_exit`
puts it back, one store after the other. What follows in `lkm_init`, and what `lkm_exit`
does behind the table, has no part in the table and is one access each.
-/

namespace FsProtection

open Base

namespace Load

variable {σ : Type}

/-- What `lkm_init` and `lkm_exit` do to the table, to `cr0` and to the globals `origin_*`,
and the rest of both. -/
inductive TableAccess where
  | findTable (o : LoadOutcomes)
  | loadEntry (number : Nat)
  | saveOrigin (call : Hooked) (handler : UInt32)
  | origins
  | clearAndReturnCr0
  | setbackCr0 (val : UInt32)
  | storeEntry (number : Nat) (handler : UInt32)
  | openChannels (o : LoadOutcomes)
  | closeChannels

/-- What an access answers. -/
abbrev TableAccess.Answer : TableAccess → Type
  | .findTable _ => Bool
  | .loadEntry _ => UInt32
  | .saveOrigin _ _ => Unit
  | .origins => Hooked → UInt32
  | .clearAndReturnCr0 => UInt32
  | .setbackCr0 _ => Unit
  | .storeEntry _ _ => Unit
  | .openChannels _ => Int32
  | .closeChannels => Unit

/-- The state after a store into the table. -/
def withEntry (number : Nat) (handler : UInt32) (s : LoadState σ) : LoadState σ :=
  { s with table := Function.update s.table number handler }

/-- The state after a store into one of the globals `origin_*`. -/
def withOrigin (call : Hooked) (handler : UInt32) (s : LoadState σ) : LoadState σ :=
  { s with origin := Function.update s.origin call handler }

section Stores

variable {s : LoadState σ} {number other : Nat} {handler : UInt32} {call saved : Hooked}

@[simp] theorem withEntry_same : (withEntry number handler s).table number = handler :=
  Function.update_self ..

theorem withEntry_apart (apart : other ≠ number) :
    (withEntry number handler s).table other = s.table other := Function.update_of_ne apart ..

@[simp] theorem withOrigin_same : (withOrigin call handler s).origin call = handler :=
  Function.update_self ..

theorem withOrigin_apart (apart : saved ≠ call) :
    (withOrigin call handler s).origin saved = s.origin saved := Function.update_of_ne apart ..

end Stores

/-- What `lkm_exit` does once the table is put back. -/
def closeChannels : LoadM σ Unit := do
  cleanupCommunicate
  notificationExit

/-- One access to the table, to the saved handlers or to CR0. -/
def performTable : (access : TableAccess) → LoadM σ access.Answer
  | .findTable o => do
      modify (withTable o)
      let s ← get
      return s.syscallTable
  | .loadEntry number => loadEntry number
  | .saveOrigin call handler => modify (withOrigin call handler)
  | .origins => do
      let s ← get
      return s.origin
  | .clearAndReturnCr0 => Load.clearAndReturnCr0
  | .setbackCr0 val => Load.setbackCr0 val
  | .storeEntry number handler => Load.storeEntry number handler
  | .openChannels o => Load.openChannels o
  | .closeChannels => Load.closeChannels

/-- `lkm_init` and `lkm_exit` between their accesses. -/
abbrev TableScript := Script TableAccess TableAccess.Answer

namespace Stepwise

/-- `origin_* = sys_call_table[...]`, one call after the other. -/
def saveEntries (b : Build) (calls : List Hooked) : TableScript Unit :=
  calls.forM fun call => do
    let handler : UInt32 ← Script.call (TableAccess.loadEntry (b.nr call))
    Script.call (TableAccess.saveOrigin call handler)

/-- `sys_call_table[...] = ...`, one call after the other. -/
def storeEntries (b : Build) (handler : Hooked → UInt32) (calls : List Hooked) :
    TableScript Unit :=
  calls.forM fun call => Script.call (TableAccess.storeEntry (b.nr call) (handler call))

/-- What `lkm_init` does to the table. -/
def patch (b : Build) : TableScript Unit := do
  saveEntries b Hooked.all
  let origCr0 : UInt32 ← Script.call TableAccess.clearAndReturnCr0
  storeEntries b b.modified Hooked.all
  Script.call (TableAccess.setbackCr0 origCr0)

/-- What `lkm_exit` does to it. -/
def unpatch (b : Build) : TableScript Unit := do
  let origCr0 : UInt32 ← Script.call TableAccess.clearAndReturnCr0
  let origin : Hooked → UInt32 ← Script.call TableAccess.origins
  storeEntries b origin Hooked.all
  Script.call (TableAccess.setbackCr0 origCr0)

/-- `lkm_init`: the channels are opened behind the patch, and may fail there. -/
def lkmInit (b : Build) (o : LoadOutcomes) : TableScript Int32 := do
  let found : Bool ← Script.call (TableAccess.findTable o)
  if found then
    patch b
    Script.call (TableAccess.openChannels o)
  else
    return -1

/-- `lkm_exit`: the table is restored before the channels are closed. -/
def lkmExit (b : Build) : TableScript Unit := do
  unpatch b
  Script.call TableAccess.closeChannels

end Stepwise

section Whole

variable {b : Build} {o : LoadOutcomes}

/-- With nothing in between, the accesses are the patch of the load, -/
theorem whole_patch : (Stepwise.patch b).whole performTable = (patch b : LoadM σ Unit) := by
  simp only [Stepwise.patch, Stepwise.saveEntries, Stepwise.storeEntries, Script.whole_bind,
    Script.whole_call, Script.whole_forM]
  rfl

/-- and the restoring of the unload. -/
theorem whole_unpatch : (Stepwise.unpatch b).whole performTable = (unpatch b : LoadM σ Unit) := by
  simp only [Stepwise.unpatch, Stepwise.storeEntries, Script.whole_bind, Script.whole_call,
    Script.whole_forM, performTable, bind_assoc, pure_bind]
  rfl

/-- With nothing between its accesses the script is `lkm_init`. -/
theorem whole_lkmInit :
    (Stepwise.lkmInit b o).whole performTable = (lkmInit b o : LoadM σ Int32) := by
  simp only [Stepwise.lkmInit, lkmInit, Script.whole_bind, Script.whole_call, performTable,
    bind_assoc, pure_bind]
  refine bind_congr fun _ => bind_congr fun s => ?_
  cases s.syscallTable with
  | true =>
      simp only [if_true, Script.whole_bind, Script.whole_call, whole_patch]
      rfl
  | false => rfl

/-- And `lkm_exit`. -/
theorem whole_lkmExit :
    (Stepwise.lkmExit b).whole performTable = (lkmExit b : LoadM σ Unit) := by
  simp only [Stepwise.lkmExit, Script.whole_bind, Script.whole_call, whole_unpatch]
  rfl

end Whole

/-- Nothing but `cr0` and the rest of the kernel moved. -/
def SameTable (s here : LoadState σ) : Prop := here.table = s.table ∧ here.origin = s.origin

theorem SameTable.refl (s : LoadState σ) : SameTable s s := ⟨rfl, rfl⟩

theorem SameTable.trans {first second third : LoadState σ} (one : SameTable first second)
    (two : SameTable second third) : SameTable first third :=
  ⟨two.1.trans one.1, two.2.trans one.2⟩

section Returns

variable {s after : LoadState σ} {o : LoadOutcomes}

/-- A store changes one entry, if it returns. -/
theorem returns_storeEntry {number : Nat} {handler : UInt32} {answer : Unit}
    (ran : Returns (storeEntry number handler) s answer after) :
    after = withEntry number handler s := by
  obtain ⟨_, _, got, stored⟩ := returns_bind_iff.mp ran
  obtain ⟨rfl, rfl⟩ := returns_get_iff.mp got
  split at stored
  · exact returns_set_iff.mp stored
  · simp at stored

/-- A load changes nothing. -/
theorem returns_loadEntry {number : Nat} {handler : UInt32}
    (ran : Returns (loadEntry number) s handler after) : handler = s.table number ∧ after = s := by
  obtain ⟨_, _, got, loaded⟩ := returns_bind_iff.mp ran
  obtain ⟨rfl, rfl⟩ := returns_get_iff.mp got
  split at loaded
  · exact returns_pure_iff.mp loaded
  · simp at loaded

theorem returns_clearAndReturnCr0 {answer : UInt32}
    (ran : Returns clearAndReturnCr0 s answer after) : SameTable s after := by
  obtain ⟨rfl, rfl⟩ := ran.unique clearAndReturnCr0_returns
  exact ⟨rfl, rfl⟩

/-- The search of the table answers whether it is there and leaves it alone. -/
theorem returns_findTable {found : Bool}
    (ran : Returns (performTable (.findTable o)) s found after) :
    found = o.getSysCallTable ∧ SameTable s after := by
  obtain ⟨_, _, set, got⟩ := returns_bind_iff.mp ran
  obtain rfl := returns_modify_iff.mp set
  obtain ⟨_, _, read, answered⟩ := returns_bind_iff.mp got
  obtain ⟨rfl, rfl⟩ := returns_get_iff.mp read
  obtain ⟨rfl, rfl⟩ := returns_pure_iff.mp answered
  exact ⟨rfl, rfl, rfl⟩

/-- Opening the channels answers 0 exactly when all of them open, and leaves the table alone. -/
theorem returns_openChannels {ret : Int32} (ran : Returns (openChannels o) s ret after) :
    (ret = 0 ↔ o.complete = true) ∧ SameTable s after := by
  obtain ⟨_, _, again, opens, _⟩ := openChannels_returns (o := o) (s := s)
  obtain ⟨rfl, rfl⟩ := ran.unique again
  exact ⟨opens.answer, opens.patch.1, opens.patch.2.2⟩

/-- The table and the globals `origin_*`. -/
def tableOf (s : LoadState σ) : (Nat → UInt32) × (Hooked → UInt32) := (s.table, s.origin)

/-- What works on another part of the module leaves the table alone. -/
theorem onPart_keepsTable {Part Value : Type} {view : LoadState σ → Part}
    {update : Part → LoadState σ → LoadState σ} (program : Program Part Fault Value)
    (same : ∀ part s, tableOf (update part s) = tableOf s) :
    Preserves tableOf (onPart view update program) := by
  intro before value after ran
  obtain ⟨part, _, rfl⟩ := returns_onPart_iff.mp ran
  exact same part before

theorem vfree_keepsTable (which : Buffer) : Preserves tableOf (vfree which : LoadM σ Unit) := by
  refine preserves_get.bind fun s => ?_
  cases s.buffers which with
  | none => exact preserves_pure ()
  | some address => exact onPart_keepsTable _ fun _ _ => rfl

theorem notificationExit_keepsTable : Preserves tableOf (notificationExit : LoadM σ Unit) := by
  intro before value after ran
  obtain ⟨_, _, got, closed⟩ := returns_bind_iff.mp ran
  obtain ⟨rfl, rfl⟩ := returns_get_iff.mp got
  split at closed
  · split at closed
    · obtain rfl := returns_set_iff.mp closed
      rfl
    · simp at closed
  · obtain ⟨_, rfl⟩ := returns_pure_iff.mp closed
    rfl

/-- What `lkm_exit` does behind the table leaves the table alone. -/
theorem returns_closeChannels {answer : Unit} (ran : Returns closeChannels s answer after) :
    SameTable s after := by
  have kept : Preserves tableOf (closeChannels : LoadM σ Unit) := by
    have removes : ∀ file, Preserves tableOf (removeProcFile file : LoadM σ Unit) :=
      fun _ => preserves_modify fun _ => rfl
    have freed : Preserves tableOf (freeBuffers : LoadM σ Unit) :=
      (vfree_keepsTable _).bind fun _ => (vfree_keepsTable _).bind fun _ =>
        (vfree_keepsTable _).bind fun _ => vfree_keepsTable _
    have emptied : Preserves tableOf (onRules RuleHeap.destroy : LoadM σ Unit) :=
      onPart_keepsTable _ fun _ _ => rfl
    have removed : Preserves tableOf (removeProcDir : LoadM σ Unit) :=
      preserves_modify fun _ => rfl
    have cleaned : Preserves tableOf (cleanupCommunicate : LoadM σ Unit) :=
      emptied.bind fun _ => freed.bind fun _ => (removes _).bind fun _ => (removes _).bind fun _ =>
        (removes _).bind fun _ => removed
    exact cleaned.bind fun _ => notificationExit_keepsTable
  have same := kept _ _ _ ran
  simp only [tableOf, Prod.mk.injEq] at same
  exact same

end Returns

/-! Whatever each store of an entry promises the others, given where it is made, the whole of
`lkm_init` and `lkm_exit` promises. -/

section Promises

variable {b : Build} {o : LoadOutcomes} {s : LoadState σ} {handler : Hooked → UInt32}
  {Promise : LoadState σ → LoadState σ → Prop}

/-- Saving the entries of a table nobody else changes. -/
theorem saveEntries_keeps (quiet : ∀ here, Promise here here)
    (saves : ∀ call here, here.table = s.table →
      Promise here (withOrigin call (s.table (b.nr call)) here)) :
    (Stepwise.saveEntries b Hooked.all).Keeps performTable SameTable Promise
      (fun _ after => after.table = s.table ∧
        ∀ call, after.origin call = s.table (b.nr call)) s := by
  have looped : (Stepwise.saveEntries b Hooked.all).Keeps performTable SameTable Promise
      (fun _ after => after.table = s.table ∧
        ∀ call ∈ [] ++ Hooked.all, after.origin call = s.table (b.nr call)) s := by
    refine Script.keeps_forM (fun done (after : LoadState σ) =>
      after.table = s.table ∧ ∀ call ∈ done, after.origin call = s.table (b.nr call))
      SameTable.refl ?_ ?_ _ ⟨rfl, by simp⟩
    · rintro done s here ⟨unpatched, saved⟩ same
      exact ⟨same.1.trans unpatched, fun call member =>
        (congrFun same.2 call).trans (saved call member)⟩
    · rintro done call before ⟨unpatched, saved⟩ here ⟨sameTable, sameOrigin⟩ handler middle loaded
      obtain ⟨rfl, rfl⟩ := returns_loadEntry loaded
      have isEntry : middle.table (b.nr call) = s.table (b.nr call) := by
        rw [sameTable, unpatched]
      refine ⟨quiet middle, ?_⟩
      rintro last ⟨stillTable, stillOrigin⟩ _ after stored
      obtain rfl := returns_modify_iff.mp stored
      rw [isEntry]
      have lastTable : last.table = s.table := by rw [stillTable, sameTable, unpatched]
      refine ⟨saves call last lastTable, ?_⟩
      rintro final ⟨finalTable, finalOrigin⟩
      refine ⟨finalTable.trans lastTable, fun other member => ?_⟩
      rw [finalOrigin]
      by_cases isCall : other = call
      · subst isCall
        exact withOrigin_same
      · have earlier : other ∈ done := by simpa [isCall] using member
        refine (withOrigin_apart isCall).trans ?_
        rw [stillOrigin, sameOrigin]
        exact saved other earlier
  exact looped.imp (fun _ _ => id) fun _ after ⟨same, saved⟩ =>
    ⟨same, fun call => saved call (by simpa using call.mem_all)⟩

/-- Storing a handler into the entry of each call. -/
theorem storeEntries_keeps
    (stores : ∀ call here, here.origin = s.origin →
      Promise here (withEntry (b.nr call) (handler call) here)) :
    (Stepwise.storeEntries b handler Hooked.all).Keeps performTable SameTable Promise
      (fun _ after => after.origin = s.origin ∧ ∀ call, after.table (b.nr call) = handler call)
      s := by
  have looped : (Stepwise.storeEntries b handler Hooked.all).Keeps performTable SameTable
      Promise (fun _ after => after.origin = s.origin ∧
        ∀ call ∈ [] ++ Hooked.all, after.table (b.nr call) = handler call) s := by
    refine Script.keeps_forM (fun done (after : LoadState σ) =>
      after.origin = s.origin ∧ ∀ call ∈ done, after.table (b.nr call) = handler call)
      SameTable.refl ?_ ?_ _ ⟨rfl, by simp⟩
    · rintro done s here ⟨origins, stored⟩ same
      exact ⟨same.2.trans origins, fun call member =>
        (congrFun same.1 _).trans (stored call member)⟩
    · rintro done call before ⟨origins, stored⟩ here same _ after ran
      obtain rfl := returns_storeEntry ran
      refine ⟨stores call here (same.2.trans origins), ?_⟩
      rintro final ⟨finalTable, finalOrigin⟩
      refine ⟨finalOrigin.trans (same.2.trans origins), fun other member => ?_⟩
      rw [finalTable]
      by_cases isCall : other = call
      · subst isCall
        exact withEntry_same
      · have earlier : other ∈ done := by simpa [isCall] using member
        have apart : b.nr other ≠ b.nr call := fun equal => isCall (b.distinct equal)
        refine (withEntry_apart apart).trans ?_
        rw [same.1]
        exact stored other earlier
  exact looped.imp (fun _ _ => id) fun _ after ⟨origins, stored⟩ =>
    ⟨origins, fun call => stored call (by simpa using call.mem_all)⟩

/-- Setting CR0 back touches no entry. -/
theorem setbackCr0_keeps {Holds : LoadState σ → Prop} {origCr0 : UInt32}
    (quiet : ∀ before here : LoadState σ, SameTable before here → Promise before here)
    (stable : ∀ before here, SameTable before here → Holds before → Holds here)
    (holds : Holds s) :
    (Script.call (TableAccess.setbackCr0 origCr0) : TableScript Unit).Keeps performTable
      SameTable Promise (fun _ after => Holds after) s := by
  rintro here kept _ after ran
  obtain rfl := returns_modify_iff.mp ran
  exact ⟨quiet _ _ ⟨rfl, rfl⟩, fun final ended =>
    stable _ _ (kept.trans (.trans ⟨rfl, rfl⟩ ended)) holds⟩

/-- Patching saves every entry before it stores the first handler. -/
theorem patch_keeps
    (quiet : ∀ before here : LoadState σ, SameTable before here → Promise before here)
    (saves : ∀ call here, here.table = s.table →
      Promise here (withOrigin call (s.table (b.nr call)) here))
    (stores : ∀ call here, (∀ other, here.origin other = s.table (b.nr other)) →
      Promise here (withEntry (b.nr call) (b.modified call) here)) :
    (Stepwise.patch b).Keeps performTable SameTable Promise
      (fun _ after => (∀ call, after.origin call = s.table (b.nr call)) ∧
        ∀ call, after.table (b.nr call) = b.modified call) s := by
  refine Script.Keeps.bind SameTable.refl
    ((saveEntries_keeps (fun _ => quiet _ _ (.refl _)) saves).imp (fun _ _ => id)
      fun _ saved ⟨_, origins⟩ => ?_)
  refine Script.keeps_call fun here same origCr0 middle cleared => ?_
  have still := returns_clearAndReturnCr0 cleared
  refine ⟨quiet _ _ still, ?_⟩
  have originsHere : ∀ call, middle.origin call = s.table (b.nr call) := fun call =>
    (congrFun (same.trans still).2 call).trans (origins call)
  have stored : (Stepwise.storeEntries b b.modified Hooked.all).Keeps performTable SameTable Promise
      _ middle := storeEntries_keeps fun call later kept => stores call later fun other =>
    (congrFun kept other).trans (originsHere other)
  refine Script.Keeps.bind SameTable.refl (stored.imp (fun _ _ => id) fun _ patched stored => ?_)
  refine setbackCr0_keeps quiet ?_
    ⟨fun call => (congrFun stored.1 call).trans (originsHere call), stored.2⟩
  exact fun _ _ moved holds => ⟨fun call => (congrFun moved.2 call).trans (holds.1 call),
    fun call => (congrFun moved.1 _).trans (holds.2 call)⟩

/-- Putting the entries back. -/
theorem unpatch_keeps
    (quiet : ∀ before here : LoadState σ, SameTable before here → Promise before here)
    (stores : ∀ call here, here.origin = s.origin →
      Promise here (withEntry (b.nr call) (s.origin call) here)) :
    (Stepwise.unpatch b).Keeps performTable SameTable Promise
      (fun _ after => after.origin = s.origin ∧
        ∀ call, after.table (b.nr call) = s.origin call) s := by
  refine Script.keeps_call fun here same origCr0 middle cleared => ?_
  have still := returns_clearAndReturnCr0 cleared
  refine ⟨quiet _ _ still, Script.keeps_call fun there sameThere origin after got => ?_⟩
  obtain ⟨_, _, read, answered⟩ := returns_bind_iff.mp got
  obtain ⟨rfl, rfl⟩ := returns_get_iff.mp read
  obtain ⟨rfl, rfl⟩ := returns_pure_iff.mp answered
  have origins := ((same.trans still).trans sameThere).2
  refine ⟨quiet _ _ (.refl _), ?_⟩
  have restored : (Stepwise.storeEntries b after.origin Hooked.all).Keeps performTable SameTable
      Promise _ after := storeEntries_keeps fun call later kept => by
    rw [origins]
    exact stores call later (kept.trans origins)
  refine Script.Keeps.bind SameTable.refl (restored.imp (fun _ _ => id) fun _ restored stored => ?_)
  refine setbackCr0_keeps quiet ?_
    ⟨stored.1.trans origins, fun call => (stored.2 call).trans (congrFun origins call)⟩
  exact fun _ _ moved holds =>
    ⟨moved.2.trans holds.1, fun call => (congrFun moved.1 _).trans (holds.2 call)⟩

/-- What `lkm_init` makes of the table, by what it answers. -/
structure Loads (b : Build) (o : LoadOutcomes) (s : LoadState σ) (ret : Int32)
    (after : LoadState σ) : Prop where
  answer : ret = 0 ↔ o.getSysCallTable = true ∧ o.complete = true
  notFound : o.getSysCallTable = false → SameTable s after
  origin : o.getSysCallTable = true → ∀ call, after.origin call = s.table (b.nr call)
  table : o.getSysCallTable = true → ∀ call, after.table (b.nr call) = b.modified call

/-- What holds of each save and each store of `lkm_init` is promised by all of it, as long as
nobody else writes to the table in between. -/
theorem lkmInit_keeps
    (quiet : ∀ before here : LoadState σ, SameTable before here → Promise before here)
    (saves : ∀ call here, here.table = s.table →
      Promise here (withOrigin call (s.table (b.nr call)) here))
    (stores : ∀ call here, (∀ other, here.origin other = s.table (b.nr other)) →
      Promise here (withEntry (b.nr call) (b.modified call) here)) :
    (Stepwise.lkmInit b o).Keeps performTable SameTable Promise (Loads b o s) s := by
  refine Script.keeps_call fun here same found middle ran => ?_
  obtain ⟨rfl, still⟩ := returns_findTable ran
  have unmoved := same.trans still
  refine ⟨quiet _ _ still, ?_⟩
  cases found : o.getSysCallTable with
  | false =>
      refine Script.keeps_pure fun later moved => ?_
      exact ⟨by simp [found], fun _ => unmoved.trans moved, by simp [found], by simp [found]⟩
  | true =>
      have patches := patch_keeps (b := b) (s := middle) quiet
        (fun call here table => by
          rw [unmoved.1]
          exact saves call here (table.trans unmoved.1))
        (fun call here origins => stores call here fun other =>
          (origins other).trans (congrFun unmoved.1 _))
      refine Script.Keeps.bind SameTable.refl (patches.imp (fun _ _ => id) ?_)
      rintro _ patched ⟨origins, table⟩ before moved ret after opened
      obtain ⟨answer, kept⟩ := returns_openChannels opened
      refine ⟨quiet _ _ kept, fun final ended => ?_⟩
      have all := (moved.trans kept).trans ended
      exact ⟨by simp [answer, found], by simp [found],
        fun _ call => (congrFun all.2 call).trans ((origins call).trans (congrFun unmoved.1 _)),
        fun _ call => (congrFun all.1 _).trans (table call)⟩

/-- For `lkm_exit` it is enough to look at its stores. -/
theorem lkmExit_keeps
    (quiet : ∀ before here : LoadState σ, SameTable before here → Promise before here)
    (stores : ∀ call here, here.origin = s.origin →
      Promise here (withEntry (b.nr call) (s.origin call) here)) :
    (Stepwise.lkmExit b).Keeps performTable SameTable Promise
      (fun _ after => after.origin = s.origin ∧
        ∀ call, after.table (b.nr call) = s.origin call) s := by
  refine Script.Keeps.bind SameTable.refl
    ((unpatch_keeps quiet stores).imp (fun _ _ => id) ?_)
  rintro _ restored ⟨origins, table⟩ before moved _ after closed
  have kept := returns_closeChannels closed
  refine ⟨quiet _ _ kept, fun final ended => ?_⟩
  have all := (moved.trans kept).trans ended
  exact ⟨all.2.trans origins, fun call => (congrFun all.1 _).trans (table call)⟩

end Promises

end Load

end FsProtection
