import FsProtection.Load.Dispatch
import FsProtection.Load.Entries

/-!
# The table in every run

What holds of the table, the globals and the calls in any run of loadings, unloadings and
system calls: until a loading fails with the table patched, entries are the kernel's or lead
to hooks that can pass a call on; from then on they lead nowhere.
-/

namespace FsProtection

open Base

namespace Load

variable {σ : Type} {text : Text}

/-- What is left of `lkm_init` or `lkm_exit` keeps every kind the module's handlers are of. -/
def Phase.KeepsKinds (b : Build) (table : Nat → UInt32) (kernel : LoadState σ) :
    Phase text → Prop
  | .absent => True
  | .loading place o rest => rest.Keeps performTable SameTable
      (Load.KeepsKinds (place.build b) table)
      (fun ret after => (ret = 0 ↔ o.getSysCallTable = true ∧ o.complete = true) ∧
        (o.getSysCallTable = true → ∀ call, after.table (b.nr call) = place.modified call)) kernel
  | .live _ => True
  | .leaving place rest => rest.Keeps performTable SameTable
      (Load.KeepsKinds (place.build b) table) (fun _ _ => True) kernel

/-- While no loading has left its handlers behind. -/
def Phase.Intact (b : Build) (table : Nat → UInt32) (kernel : LoadState σ) : Phase text → Prop
  | .absent => kernel.table = table ∧ ∀ call, kernel.origin call = 0
  | .loading place o rest => Sane (place.build b) table kernel ∧
      rest.Keeps performTable SameTable (Safe (place.build b) table)
        (fun ret after => (ret = 0 ↔ o.getSysCallTable = true ∧ o.complete = true) ∧
          (o.getSysCallTable = false → after.table = table) ∧
          (o.getSysCallTable = true → Saved b table after ∧
            ∀ call, after.table (b.nr call) = place.modified call)) kernel
  | .live place => Sane (place.build b) table kernel ∧ Saved b table kernel ∧
      ∀ call, kernel.table (b.nr call) = place.modified call
  | .leaving place rest => Sane (place.build b) table kernel ∧
      rest.Keeps performTable SameTable (Safe (place.build b) table)
        (fun _ after => ∀ call, after.table (b.nr call) = table (b.nr call)) kernel

section Same

variable {b : Build} {table : Nat → UInt32} {kernel after : LoadState σ} {phase : Phase text}

/-- What is left keeps the kinds where the table is the same, -/
theorem Phase.KeepsKinds.same (keeps : phase.KeepsKinds b table kernel)
    (same : SameTable kernel after) : phase.KeepsKinds b table after := by
  cases phase with
  | absent => trivial
  | live => trivial
  | loading => exact Script.Keeps.stable keeps same SameTable.trans
  | leaving => exact Script.Keeps.stable keeps same SameTable.trans

/-- and a table that is the same is intact. -/
theorem Phase.Intact.same (intact : phase.Intact b table kernel)
    (same : SameTable kernel after) : phase.Intact b table after := by
  cases phase with
  | absent =>
      obtain ⟨untouched, clear⟩ := intact
      exact ⟨same.1.trans untouched, fun call => (congrFun same.2 call).trans (clear call)⟩
  | live place =>
      obtain ⟨sane, saved, hooked⟩ := intact
      exact ⟨sane.same same, saved.same same, fun call =>
        (congrFun same.1 _).trans (hooked call)⟩
  | loading => exact ⟨intact.1.same same, Script.Keeps.stable intact.2 same SameTable.trans⟩
  | leaving => exact ⟨intact.1.same same, Script.Keeps.stable intact.2 same SameTable.trans⟩

end Same

theorem Only.withoutGlobals {nr : Hooked → Nat} {table : Nat → UInt32}
    {Kind : Hooked → UInt32 → Prop} {s : LoadState σ} (only : Only nr table Kind s)
    (null : ∀ call, Kind call 0) : Only nr table Kind (withoutGlobals s) :=
  ⟨only.entry, null, only.others⟩

namespace Dispatch

variable {b : Build} {table : Nat → UInt32} {s next : Dispatch text σ} {kernel : LoadState σ}
  {call : Hooked} {hook handler : UInt32} {event : DispatchEvent text σ}

/-- A call that was made since the module's memory was last freed comes back to the hooks it
is in, and the last of these can pass it on. -/
def Alive (b : Build) (table : Nat → UInt32) (s : Dispatch text σ) : Caller → Prop
  | .outside => True
  | .inHook call hook outer life => life ≤ s.freed ∧ (life = s.freed →
      (∀ through ∈ hook :: outer, s.there call through = true) ∧ Saved b table s.kernel)
  | .handled call _ hooks life => life ≤ s.freed ∧ (life = s.freed →
      ∀ through ∈ hooks, s.there call through = true)

structure Sound (b : Build) (table : Nat → UInt32) (s : Dispatch text σ) : Prop where
  keeps : s.phase.KeepsKinds b table s.kernel
  honest : Only b.nr table (fun call handler => text.has handler = true →
    handler = table (b.nr call)) s.kernel
  handled : ∀ caller call handler hooks life, s.callers caller = .handled call handler hooks life →
    handler = table (b.nr call)
  intact : s.lost = false →
    s.phase.Intact b table s.kernel ∧ ∀ caller, s.Alive b table (s.callers caller)
  dead : s.lost = true → Only b.nr table (fun _ handler => text.has handler = false) s.kernel

/-- Calls see the module by where it is, what was freed, and what is saved. -/
theorem Alive.congr {caller : Caller} (alive : s.Alive b table caller)
    (freed : next.freed = s.freed) (place : next.phase.place = s.phase.place ∨
      s.phase.place = none) (saved : Saved b table s.kernel → Saved b table next.kernel) :
    next.Alive b table caller := by
  have stays : ∀ call hook, s.there call hook = true → next.there call hook = true := by
    intro call hook isThere
    obtain ⟨where_, isPlace, same⟩ := there_iff.mp isThere
    rcases place with kept | none
    · exact there_iff.mpr ⟨where_, kept.trans isPlace, same⟩
    · cases none.symm.trans isPlace
  cases caller with
  | outside => trivial
  | inHook call hook outer life =>
      obtain ⟨early, goesOn⟩ := alive
      refine ⟨freed ▸ early, fun now => ?_⟩
      obtain ⟨hooks, backed⟩ := goesOn (now.trans freed)
      exact ⟨fun through member => stays _ _ (hooks through member), saved backed⟩
  | handled call handler hooks life =>
      obtain ⟨early, goesOn⟩ := alive
      exact ⟨freed ▸ early, fun now through member =>
        stays _ _ (goesOn (now.trans freed) through member)⟩

/-- Calls made before the memory was freed are none of those made since. -/
theorem Alive.freed {caller : Caller} (alive : s.Alive b table caller)
    (freed : next.freed = s.freed + 1) : next.Alive b table caller := by
  cases caller with
  | outside => trivial
  | inHook call hook outer life =>
      have early : life ≤ s.freed := alive.1
      exact ⟨by omega, fun now => by omega⟩
  | handled call handler hooks life =>
      have early : life ≤ s.freed := alive.1
      exact ⟨by omega, fun now => by omega⟩

theorem sound_start : (start kernel : Dispatch text σ).Sound b kernel.table where
  keeps := trivial
  honest := by
    refine ⟨fun _ _ => rfl, fun call isText => ?_, fun _ _ => rfl⟩
    cases isText.symm.trans text.null
  handled _ _ _ _ _ here := by cases here
  intact _ := ⟨⟨rfl, fun _ => rfl⟩, fun _ => trivial⟩
  dead lost := by cases lost

theorem sameTable_beside (s kernel : LoadState σ) : SameTable s (besideTable s kernel) := ⟨rfl, rfl⟩

/-- Whatever the step, the table and the globals hold nothing of a new kind. -/
theorem Stepped.kinds (stepped : Stepped b s event next)
    (keeps : s.phase.KeepsKinds b table s.kernel)
    {Kind : Hooked → UInt32 → Prop}
    (hooks : ∀ (place : Place text) call, Kind call (place.modified call))
    (null : ∀ call, Kind call 0) (only : Only b.nr table Kind s.kernel) :
    Only b.nr table Kind next.kernel := by
  cases stepped with
  | idle => exact only
  | inits => exact only
  | exits => exact only
  | loads loading ran =>
      rw [loading] at keeps
      obtain ⟨kept, _⟩ := Script.Keeps.advance SameTable.refl keeps ran
      exact kept.elim (fun same => same ▸ only) fun kept => kept Kind (hooks _) only
  | leaves leaving ran =>
      rw [leaving] at keeps
      obtain ⟨kept, _⟩ := Script.Keeps.advance SameTable.refl keeps ran
      exact kept.elim (fun same => same ▸ only) fun kept => kept Kind (hooks _) only
  | loaded place o ret loading =>
      unfold loadedBy
      split
      · exact only
      · exact only.withoutGlobals null
  | left => exact only.withoutGlobals null
  | elsewhere kernel => exact only.same (sameTable_beside s.kernel kernel)
  | enters => exact only
  | forwards => exact only
  | returns => exact only

/-- What is left of `lkm_init` or `lkm_exit` after a step. -/
theorem Stepped.keepsKinds (stepped : Stepped b s event next)
    (keeps : s.phase.KeepsKinds b table s.kernel) : next.phase.KeepsKinds b table next.kernel := by
  cases stepped with
  | idle => exact keeps
  | inits place o absent =>
      exact (lkmInit_kinds (b := place.build b)).imp (fun _ _ => id)
        fun ret after loads => ⟨loads.answer, loads.table⟩
  | exits place live =>
      exact (lkmExit_kinds (b := place.build b)).imp (fun _ _ => id) fun _ _ _ => trivial
  | loads loading ran =>
      rw [loading] at keeps
      exact (Script.Keeps.advance SameTable.refl keeps ran).2
  | leaves leaving ran =>
      rw [leaving] at keeps
      exact (Script.Keeps.advance SameTable.refl keeps ran).2
  | loaded place o ret loading =>
      unfold loadedBy
      split <;> trivial
  | left => trivial
  | elsewhere kernel => exact keeps.same (sameTable_beside s.kernel kernel)
  | enters => exact keeps
  | forwards => exact keeps
  | returns => exact keeps

/-- The table is intact after a step that does not lose it. -/
theorem Stepped.intact (stepped : Stepped b s event next) (intact : s.phase.Intact b table s.kernel)
    (kept : next.lost = false) : next.phase.Intact b table next.kernel := by
  cases stepped with
  | idle => exact intact
  | inits place o absent =>
      rw [absent] at intact
      obtain ⟨untouched, clear⟩ := intact
      refine ⟨sane_of_untouched untouched clear,
        (lkmInit_safe (b := place.build b) untouched).imp (fun _ _ => id) ?_⟩
      rintro ret after ⟨answer, notFound, origin, patched⟩
      exact ⟨answer, fun missing => (notFound missing).1.trans untouched, fun found =>
        ⟨fun call => (origin found call).trans (congrFun untouched _), patched found⟩⟩
  | exits place live =>
      rw [live] at intact
      obtain ⟨sane, saved, _⟩ := intact
      refine ⟨sane, (lkmExit_safe (b := place.build b) saved).imp (fun _ _ => id) ?_⟩
      exact fun _ after ⟨_, restored⟩ call => (restored call).trans (saved call)
  | loads loading ran =>
      rw [loading] at intact
      obtain ⟨allowed, keeps⟩ := Script.Keeps.advance SameTable.refl intact.2 ran
      exact ⟨allowed.elim (fun same => same ▸ intact.1) fun safe => safe.1 intact.1, keeps⟩
  | leaves leaving ran =>
      rw [leaving] at intact
      obtain ⟨allowed, keeps⟩ := Script.Keeps.advance SameTable.refl intact.2 ran
      exact ⟨allowed.elim (fun same => same ▸ intact.1) fun safe => safe.1 intact.1, keeps⟩
  | loaded place o ret loading =>
      rw [loading] at intact
      obtain ⟨sane, keeps⟩ := intact
      obtain ⟨answer, notFound, patched⟩ := keeps s.kernel (.refl _)
      unfold loadedBy at kept ⊢
      split
      · next zero =>
          exact ⟨sane, patched (answer.mp zero).1⟩
      · next failed =>
          rw [if_neg failed] at kept
          exact ⟨notFound (Bool.or_eq_false_iff.mp kept).2, fun _ => rfl⟩
  | left place ended leaving =>
      rw [leaving] at intact
      exact ⟨intact.1.table_eq (intact.2 s.kernel (.refl _)), fun _ => rfl⟩
  | elsewhere kernel => exact intact.same (sameTable_beside s.kernel kernel)
  | enters => exact intact
  | forwards => exact intact
  | returns => exact intact

theorem Intact.sane {place : Place text} (intact : s.phase.Intact b table s.kernel)
    (isPlace : s.phase.place = some place) : Sane (place.build b) table s.kernel := by
  cases phase : s.phase with
  | absent => simp [phase, Phase.place] at isPlace
  | loading =>
      rw [phase] at intact isPlace
      cases isPlace
      exact intact.1
  | live =>
      rw [phase] at intact isPlace
      cases isPlace
      exact intact.1
  | leaving =>
      rw [phase] at intact isPlace
      cases isPlace
      exact intact.1

/-- What a step does to the module leaves calls alive. -/
theorem Stepped.stays (stepped : Stepped b s event next) (intact : s.phase.Intact b table s.kernel)
    {caller : Caller} (alive : s.Alive b table caller) : next.Alive b table caller := by
  cases stepped with
  | idle => exact alive
  | inits place o absent => exact alive.congr rfl (.inr (by rw [absent]; rfl)) id
  | exits place live => exact alive.congr rfl (.inl (by rw [live]; rfl)) id
  | loads loading ran =>
      rw [loading] at intact
      obtain ⟨allowed, _⟩ := Script.Keeps.advance SameTable.refl intact.2 ran
      refine alive.congr rfl (.inl (by rw [loading]; rfl)) ?_
      exact allowed.elim (fun same saved => same ▸ saved) fun safe => safe.2
  | leaves leaving ran =>
      rw [leaving] at intact
      obtain ⟨allowed, _⟩ := Script.Keeps.advance SameTable.refl intact.2 ran
      refine alive.congr rfl (.inl (by rw [leaving]; rfl)) ?_
      exact allowed.elim (fun same saved => same ▸ saved) fun safe => safe.2
  | loaded place o ret loading =>
      unfold loadedBy
      split
      · exact alive.congr rfl (.inl (by rw [loading]; rfl)) id
      · exact alive.freed rfl
  | left => exact alive.freed rfl
  | elsewhere kernel => exact alive.congr rfl (.inl rfl) id
  | enters => exact alive.congr rfl (.inl rfl) id
  | forwards => exact alive.congr rfl (.inl rfl) id
  | returns => exact alive.congr rfl (.inl rfl) id

/-- An entry that leads into a hook leads into one that can pass the call on. -/
theorem alive_enters (handlers : ∀ call, text.has (table (b.nr call)) = true)
    (intact : s.phase.Intact b table s.kernel) {state : Caller}
    (led : s.lead call (s.kernel.table (b.nr call)) [] s.freed = .ok state) :
    s.Alive b table state := by
  obtain ⟨isThere, rfl⟩ | ⟨_, _, rfl⟩ := lead_ok_iff.mp led
  · refine ⟨le_refl _, fun _ => ⟨by simpa using isThere, ?_⟩⟩
    obtain ⟨place, isPlace, isHook⟩ := there_iff.mp isThere
    obtain kept | ⟨_, saved⟩ := (Intact.sane intact isPlace).hooked call
    · have isText : text.has (s.kernel.table (b.nr call)) = true := kept.symm ▸ handlers call
      cases (there_of_text isText).symm.trans isThere
    · exact saved
  · exact ⟨le_refl _, fun _ _ member => by cases member⟩

/-- A call that a hook passes on stays alive. -/
theorem alive_forwards (handlers : ∀ call, text.has (table (b.nr call)) = true)
    {outer : List UInt32} {life : Nat} {state : Caller}
    (alive : s.Alive b table (.inHook call hook outer life))
    (led : s.lead call (s.kernel.origin call) (hook :: outer) life = .ok state) :
    s.Alive b table state := by
  obtain ⟨early, backed⟩ := alive
  obtain ⟨isThere, rfl⟩ | ⟨_, _, rfl⟩ := lead_ok_iff.mp led
  · refine ⟨early, fun now => ?_⟩
    have isText : text.has (s.kernel.origin call) = true := (backed now).2 call ▸ handlers call
    cases (there_of_text isText).symm.trans isThere
  · exact ⟨early, fun now => (backed now).1⟩

theorem Stepped.alive (handlers : ∀ call, text.has (table (b.nr call)) = true)
    (stepped : Stepped b s event next) (intact : s.phase.Intact b table s.kernel)
    (alive : ∀ caller, s.Alive b table (s.callers caller)) (caller : Nat) :
    next.Alive b table (next.callers caller) := by
  refine stepped.stays intact ?_
  obtain same | outside | ⟨call, state, led, here⟩ |
    ⟨call, hook, outer, life, state, before, led, here⟩ := stepped.caller caller
  · rw [same]
    exact alive caller
  · rw [outside]
    trivial
  · rw [here]
    exact alive_enters handlers intact led
  · have inHook := alive caller
    rw [before] at inHook
    rw [here]
    exact alive_forwards handlers inHook led

/-- A loading that fails behind the patch leaves nothing in the hooked entries that could
handle a call. -/
theorem Stepped.dead (stepped : Stepped b s event next) (sound : s.Sound b table)
    (lost : next.lost = true) :
    Only b.nr table (fun _ handler => text.has handler = false) next.kernel := by
  by_cases before : s.lost = true
  · exact stepped.kinds sound.keeps (fun place => place.apart) (fun _ => text.null)
      (sound.dead before)
  · cases stepped with
    | loaded place o ret loading =>
        have keeps := sound.keeps
        rw [loading] at keeps
        obtain ⟨_, patched⟩ := keeps s.kernel (.refl _)
        unfold loadedBy at lost ⊢
        split at lost
        · exact absurd lost before
        · next failed =>
            rw [if_neg failed]
            have found : o.getSysCallTable = true := by simpa [before] using lost
            refine ⟨fun call => ?_, fun _ => text.null, sound.honest.others⟩
            exact (patched found call).symm ▸ place.apart call
    | _ => exact absurd lost before

theorem Sound.step (handlers : ∀ call, text.has (table (b.nr call)) = true)
    (sound : s.Sound b table) (stepped : Stepped b s event next) : next.Sound b table where
  keeps := stepped.keepsKinds sound.keeps
  honest := by
    refine stepped.kinds sound.keeps (fun place call isText => ?_) (fun call isText => ?_)
      sound.honest
    · cases (place.apart call).symm.trans isText
    · cases text.null.symm.trans isText
  handled caller call handler hooks life now := by
    obtain before | ⟨isText, rfl | rfl⟩ := stepped.handles now
    · exact sound.handled _ _ _ _ _ before
    · exact sound.honest.entry call isText
    · exact sound.honest.origin call isText
  intact kept := by
    have before : s.lost = false := by
      rw [Bool.eq_false_iff]
      exact fun lost => Bool.false_ne_true (kept.symm.trans (stepped.lost lost))
    obtain ⟨intact, alive⟩ := sound.intact before
    exact ⟨stepped.intact intact kept, stepped.alive handlers intact alive⟩
  dead lost := stepped.dead sound lost

theorem run_sound {events : List (DispatchEvent text σ)}
    (handlers : ∀ call, text.has (kernel.table (b.nr call)) = true)
    (ran : execute (step b) (start kernel) events = .ok s) : s.Sound b kernel.table :=
  execute_history (fun _ s => s.Sound b kernel.table) sound_start
    (fun _ _ _ _ sound stepped => sound.step handlers (step_cases stepped)) ran

end Dispatch

end Load

end FsProtection
