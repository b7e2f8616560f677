import FsProtection.Load.Accesses

/-!
# System calls while the module is loaded and unloaded

The other processors go on making system calls while `lkm_init` patches the table and
`lkm_exit` puts it back. A call reads its entry, a hook it gets into reads `origin_*` later,
and the handler that is called from there returns into the hook. The kernel frees the
module's memory when `lkm_init` fails and when `lkm_exit` is done, whatever calls are in its
hooks by then, and places it anew each time it is loaded.
-/

namespace FsProtection

open Base

namespace Load

variable {σ : Type}

/-- Where the kernel has code of its own. -/
structure Text where
  has : UInt32 → Bool
  null : has 0 = false

/-- Where the handlers `modified_*` are from one loading of the module to the freeing of its
memory. -/
structure Place (text : Text) where
  modified : Hooked → UInt32
  apart : ∀ call, text.has (modified call) = false
  notNull : ∀ call, modified call ≠ 0

variable {text : Text}

/-- The build with its handlers where the module is placed. -/
def Place.build (place : Place text) (b : Build) : Build := { b with modified := place.modified }

/-- What the kernel does with the module: it is not there, `lkm_init` is at work, it is there,
or `lkm_exit` is at work. -/
inductive Phase (text : Text) where
  | absent
  | loading (place : Place text) (o : LoadOutcomes) (rest : TableScript Int32)
  | live (place : Place text)
  | leaving (place : Place text) (rest : TableScript Unit)

/-- Where the module is, as long as its memory is there. -/
def Phase.place : Phase text → Option (Place text)
  | .absent => none
  | .loading place _ _ => some place
  | .live place => some place
  | .leaving place _ => some place

/-- Where a system call is: not made, in a hook, or in a handler. It goes back through the
hooks that called; `life` is how often the module's memory had been freed when it was made. -/
inductive Caller where
  | outside
  | inHook (call : Hooked) (hook : UInt32) (outer : List UInt32) (life : Nat)
  | handled (call : Hooked) (handler : UInt32) (hooks : List UInt32) (life : Nat)
deriving DecidableEq

/-- The table and the globals, the module, whether a loading of it failed behind the patch,
how often its memory was freed, and the system calls. -/
structure Dispatch (text : Text) (σ : Type) where
  kernel : LoadState σ
  phase : Phase text
  lost : Bool
  freed : Nat
  callers : Nat → Caller

/-- `insmod` and `rmmod` call `lkm_init` and `lkm_exit`; the next access of these is made, or
they return; the rest of the kernel moves; a system call reads its entry of the table, its
hook passes it on or refuses it, or its handler returns. -/
inductive DispatchEvent (text : Text) (σ : Type) where
  | insmod (place : Place text) (o : LoadOutcomes)
  | rmmod
  | access
  | returned
  | elsewhere (kernel : LoadState σ)
  | enter (caller : Nat) (call : Hooked)
  | forward (caller : Nat)
  | refuse (caller : Nat)
  | finish (caller : Nat)

/-- The module's globals are part of its memory; the next one finds its own cleared. -/
def withoutGlobals (s : LoadState σ) : LoadState σ :=
  { s with
    syscallTable := false
    origin := fun _ => 0
    buffers := fun _ => none
    procDir := none
    procFiles := fun _ => none
    protectEnabeled := false
    nlSk := false
    rules := { s.rules with root := none } }

/-- What the rest of the kernel does leaves the table, `cr0` of the processor at work on it,
and the globals that have to do with it. -/
def besideTable (s kernel : LoadState σ) : LoadState σ :=
  { kernel with
    cr0 := s.cr0
    table := s.table
    syscallTable := s.syscallTable
    origin := s.origin }

namespace Dispatch

variable {b : Build}

def start (kernel : LoadState σ) : Dispatch text σ :=
  ⟨withoutGlobals kernel, .absent, false, 0, fun _ => .outside⟩

/-- The module is there, and its handler of the call is at this address. -/
def there (s : Dispatch text σ) (call : Hooked) (hook : UInt32) : Bool :=
  s.phase.place.any fun place => place.modified call == hook

/-- Where a call gets that jumps to a handler. Where the module was before, or at NULL, there
is nothing to run. -/
def lead (s : Dispatch text σ) (call : Hooked) (handler : UInt32) (hooks : List UInt32)
    (life : Nat) : Except Fault Caller :=
  if s.there call handler then return .inHook call handler hooks life
  else if text.has handler then return .handled call handler hooks life
  else throw .badPointer

def withCaller (s : Dispatch text σ) (caller : Nat) (next : Caller) : Dispatch text σ :=
  { s with callers := Function.update s.callers caller next }

/-- The kernel frees the memory of the module. -/
def gone (s : Dispatch text σ) : Dispatch text σ :=
  { s with kernel := withoutGlobals s.kernel, phase := .absent, freed := s.freed + 1 }

/-- What the kernel does with what `lkm_init` answered. -/
def loadedBy (place : Place text) (o : LoadOutcomes) (ret : Int32) (s : Dispatch text σ) :
    Dispatch text σ :=
  if ret = 0 then { s with phase := .live place }
  else { s.gone with lost := s.lost || o.getSysCallTable }

/-- The module is loaded when it is not there, and unloaded when it is. -/
def step (b : Build) (s : Dispatch text σ) :
    DispatchEvent text σ → Except Fault (Dispatch text σ)
  | .insmod place o =>
      match s.phase with
      | .absent =>
          return { s with phase := .loading place o (Stepwise.lkmInit (place.build b) o) }
      | _ => return s
  | .rmmod =>
      match s.phase with
      | .live place =>
          return { s with phase := .leaving place (Stepwise.lkmExit (place.build b)) }
      | _ => return s
  | .access =>
      match s.phase with
      | .loading place o rest => do
          let (rest, kernel) ← (rest.advance performTable).run s.kernel
          return { s with kernel := kernel, phase := .loading place o rest }
      | .leaving place rest => do
          let (rest, kernel) ← (rest.advance performTable).run s.kernel
          return { s with kernel := kernel, phase := .leaving place rest }
      | _ => return s
  | .returned =>
      match s.phase with
      | .loading place o (.done ret) => return s.loadedBy place o ret
      | .leaving _ (.done _) => return s.gone
      | _ => return s
  | .elsewhere kernel => return { s with kernel := besideTable s.kernel kernel }
  | .enter caller call =>
      match s.callers caller with
      | .outside => do
          let next ← s.lead call (s.kernel.table (b.nr call)) [] s.freed
          return s.withCaller caller next
      | _ => return s
  | .forward caller =>
      match s.callers caller with
      | .inHook call hook outer life =>
          if s.there call hook then do
            let next ← s.lead call (s.kernel.origin call) (hook :: outer) life
            return s.withCaller caller next
          else throw .badPointer
      | _ => return s
  | .refuse caller =>
      match s.callers caller with
      | .inHook call hook outer _ =>
          if (hook :: outer).all (s.there call) then return s.withCaller caller .outside
          else throw .badPointer
      | _ => return s
  | .finish caller =>
      match s.callers caller with
      | .handled call _ hooks _ =>
          if hooks.all (s.there call) then return s.withCaller caller .outside
          else throw .badPointer
      | _ => return s

variable {s next : Dispatch text σ} {call : Hooked} {hook handler : UInt32}
  {event : DispatchEvent text σ}

theorem there_iff : s.there call hook = true ↔
    ∃ place, s.phase.place = some place ∧ place.modified call = hook := by
  simp [there, Option.any_eq_true]

theorem lead_ok_iff {hooks : List UInt32} {life : Nat} {state : Caller} :
    s.lead call handler hooks life = .ok state ↔
      (s.there call handler = true ∧ state = .inHook call handler hooks life) ∨
        (s.there call handler = false ∧ text.has handler = true ∧
          state = .handled call handler hooks life) := by
  constructor
  · intro led
    unfold lead at led
    split at led
    · next isThere =>
        cases led
        exact .inl ⟨isThere, rfl⟩
    · next notThere =>
        split at led
        · next isText =>
            cases led
            exact .inr ⟨Bool.eq_false_iff.mpr notThere, isText, rfl⟩
        · cases led
  · rintro (⟨isThere, rfl⟩ | ⟨notThere, isText, rfl⟩)
    · rw [lead, if_pos isThere]
      rfl
    · rw [lead, if_neg (Bool.eq_false_iff.mp notThere), if_pos isText]
      rfl

theorem leads_iff {hooks : List UInt32} {life : Nat} :
    (∃ state, s.lead call handler hooks life = .ok state) ↔
      s.there call handler = true ∨ text.has handler = true := by
  simp only [lead_ok_iff]
  constructor
  · rintro ⟨_, ⟨isThere, _⟩ | ⟨_, isText, _⟩⟩
    · exact .inl isThere
    · exact .inr isText
  · intro leads
    cases isThere : s.there call handler with
    | true => exact ⟨_, .inl ⟨rfl, rfl⟩⟩
    | false => exact ⟨_, .inr ⟨rfl, leads.resolve_left (by simp [isThere]), rfl⟩⟩

/-- The module is nowhere in the kernel's code. -/
theorem there_of_text (isText : text.has handler = true) : s.there call handler = false := by
  rw [Bool.eq_false_iff]
  intro isThere
  obtain ⟨place, _, rfl⟩ := there_iff.mp isThere
  cases (place.apart call).symm.trans isText

theorem withCaller_same {caller : Nat} {state : Caller} :
    (s.withCaller caller state).callers caller = state := Function.update_self ..

theorem withCaller_other {caller other : Nat} {state : Caller} (apart : other ≠ caller) :
    (s.withCaller caller state).callers other = s.callers other := Function.update_of_ne apart ..

theorem exists_withCaller_iff {state : Except Fault Caller} {caller : Nat} :
    (∃ next, (do
      let led ← state
      return s.withCaller caller led : Except Fault (Dispatch text σ)) = .ok next) ↔
      ∃ led, state = .ok led := by
  cases state <;> simp [bind, Except.bind, pure, Except.pure]

/-- What a step can do. -/
inductive Stepped (b : Build) (s : Dispatch text σ) :
    DispatchEvent text σ → Dispatch text σ → Prop where
  | idle (event : DispatchEvent text σ) : Stepped b s event s
  | inits (place : Place text) (o : LoadOutcomes) (absent : s.phase = .absent) :
      Stepped b s (.insmod place o)
        { s with phase := .loading place o (Stepwise.lkmInit (place.build b) o) }
  | exits (place : Place text) (live : s.phase = .live place) :
      Stepped b s .rmmod { s with phase := .leaving place (Stepwise.lkmExit (place.build b)) }
  | loads {place : Place text} {o : LoadOutcomes} {rest following : TableScript Int32}
      {kernel : LoadState σ} (loading : s.phase = .loading place o rest)
      (ran : Returns (rest.advance performTable) s.kernel following kernel) :
      Stepped b s .access { s with kernel := kernel, phase := .loading place o following }
  | leaves {place : Place text} {rest following : TableScript Unit}
      {kernel : LoadState σ} (leaving : s.phase = .leaving place rest)
      (ran : Returns (rest.advance performTable) s.kernel following kernel) :
      Stepped b s .access { s with kernel := kernel, phase := .leaving place following }
  | loaded (place : Place text) (o : LoadOutcomes) (ret : Int32)
      (loading : s.phase = .loading place o (.done ret)) :
      Stepped b s .returned (s.loadedBy place o ret)
  | left (place : Place text) (ended : Unit) (leaving : s.phase = .leaving place (.done ended)) :
      Stepped b s .returned s.gone
  | elsewhere (kernel : LoadState σ) :
      Stepped b s (.elsewhere kernel) { s with kernel := besideTable s.kernel kernel }
  | enters (caller : Nat) (call : Hooked) {state : Caller}
      (led : s.lead call (s.kernel.table (b.nr call)) [] s.freed = .ok state) :
      Stepped b s (.enter caller call) (s.withCaller caller state)
  | forwards (caller : Nat) {call : Hooked} {hook : UInt32} {outer : List UInt32} {life : Nat}
      {state : Caller} (here : s.callers caller = .inHook call hook outer life)
      (led : s.lead call (s.kernel.origin call) (hook :: outer) life = .ok state) :
      Stepped b s (.forward caller) (s.withCaller caller state)
  | returns (event : DispatchEvent text σ) (caller : Nat) :
      Stepped b s event (s.withCaller caller .outside)

theorem step_cases (stepped : s.step b event = .ok next) : Stepped b s event next := by
  cases event with
  | insmod place o =>
      simp only [step] at stepped
      split at stepped <;> cases stepped
      · exact .inits place o ‹_›
      · exact .idle _
  | rmmod =>
      simp only [step] at stepped
      split at stepped <;> cases stepped
      · exact .exits _ ‹_›
      · exact .idle _
  | access =>
      simp only [step] at stepped
      split at stepped
      · obtain ⟨following, kernel, ran, answered⟩ := run_bind_eq_ok.mp stepped
        cases answered
        exact .loads ‹_› ran
      · obtain ⟨following, kernel, ran, answered⟩ := run_bind_eq_ok.mp stepped
        cases answered
        exact .leaves ‹_› ran
      · cases stepped
        exact .idle _
  | returned =>
      simp only [step] at stepped
      split at stepped <;> cases stepped
      · exact .loaded _ _ _ ‹_›
      · exact .left _ _ ‹_›
      · exact .idle _
  | elsewhere kernel =>
      cases stepped
      exact .elsewhere kernel
  | enter caller call =>
      simp only [step] at stepped
      split at stepped
      · obtain ⟨state, led, answered⟩ := bind_eq_ok_iff.mp stepped
        cases answered
        exact .enters caller call led
      · cases stepped
        exact .idle _
  | forward caller =>
      simp only [step] at stepped
      split at stepped
      · split at stepped
        · obtain ⟨state, led, answered⟩ := bind_eq_ok_iff.mp stepped
          cases answered
          exact .forwards caller ‹_› led
        · cases stepped
      · cases stepped
        exact .idle _
  | refuse caller =>
      simp only [step] at stepped
      split at stepped
      · split at stepped <;> cases stepped
        exact .returns _ caller
      · cases stepped
        exact .idle _
  | finish caller =>
      simp only [step] at stepped
      split at stepped
      · split at stepped <;> cases stepped
        exact .returns _ caller
      · cases stepped
        exact .idle _

/-- A caller after a step is where it was, went back, or followed an entry or a saved one. -/
theorem Stepped.caller (stepped : Stepped b s event next) (caller : Nat) :
    next.callers caller = s.callers caller ∨ next.callers caller = .outside ∨
      (∃ call state, s.lead call (s.kernel.table (b.nr call)) [] s.freed = .ok state ∧
        next.callers caller = state) ∨
      ∃ call hook outer life state, s.callers caller = .inHook call hook outer life ∧
        s.lead call (s.kernel.origin call) (hook :: outer) life = .ok state ∧
        next.callers caller = state := by
  have moved : ∀ other state, (s.withCaller other state).callers caller = s.callers caller ∨
      caller = other ∧ (s.withCaller other state).callers caller = state := by
    intro other state
    by_cases same : caller = other
    · subst same
      exact .inr ⟨rfl, withCaller_same⟩
    · exact .inl (withCaller_other same)
  cases stepped with
  | idle => exact .inl rfl
  | inits => exact .inl rfl
  | exits => exact .inl rfl
  | loads => exact .inl rfl
  | leaves => exact .inl rfl
  | loaded place o ret loading =>
      unfold loadedBy
      split <;> exact .inl rfl
  | left => exact .inl rfl
  | elsewhere => exact .inl rfl
  | enters other call led =>
      exact (moved other _).imp id fun here => .inr (.inl ⟨call, _, led, here.2⟩)
  | forwards other here led =>
      refine (moved other _).imp id fun moved => .inr (.inr ?_)
      obtain ⟨rfl, after⟩ := moved
      exact ⟨_, _, _, _, _, here, led, after⟩
  | returns _ other => exact (moved other _).imp id fun here => .inl here.2

/-- A call that a step brings into a handler follows what leads into the kernel. -/
theorem Stepped.handles (stepped : Stepped b s event next) {caller : Nat} {hooks : List UInt32}
    {life : Nat} (now : next.callers caller = .handled call handler hooks life) :
    s.callers caller = .handled call handler hooks life ∨ text.has handler = true ∧
      (handler = s.kernel.table (b.nr call) ∨ handler = s.kernel.origin call) := by
  obtain same | outside | ⟨other, state, led, here⟩ |
    ⟨other, hook, outer, life, state, _, led, here⟩ := stepped.caller caller
  · exact .inl (same ▸ now)
  · cases now.symm.trans outside
  · cases now.symm.trans here
    obtain ⟨_, isHook⟩ | ⟨_, isText, isHandled⟩ := lead_ok_iff.mp led
    · cases isHook
    · cases isHandled
      exact .inr ⟨isText, .inl rfl⟩
  · cases now.symm.trans here
    obtain ⟨_, isHook⟩ | ⟨_, isText, isHandled⟩ := lead_ok_iff.mp led
    · cases isHook
    · cases isHandled
      exact .inr ⟨isText, .inr rfl⟩

/-- What was lost stays lost. -/
theorem Stepped.lost (stepped : Stepped b s event next) (lost : s.lost = true) :
    next.lost = true := by
  cases stepped with
  | loaded place o ret loading =>
      unfold loadedBy
      split
      · exact lost
      · simp [lost]
  | _ => exact lost

/-- A loading that is under way was asked for. -/
theorem Stepped.asked (stepped : Stepped b s event next) {place : Place text} {o : LoadOutcomes}
    {rest : TableScript Int32} (loading : next.phase = .loading place o rest) :
    event = .insmod place o ∨ ∃ before, s.phase = .loading place o before := by
  cases stepped with
  | inits place o absent =>
      cases loading
      exact .inl rfl
  | exits place live => cases loading
  | loads before ran =>
      cases loading
      exact .inr ⟨_, before⟩
  | leaves => cases loading
  | loaded place o ret before =>
      unfold loadedBy at loading
      split at loading <;> cases loading
  | left => cases loading
  | idle => exact .inr ⟨rest, loading⟩
  | elsewhere => exact .inr ⟨rest, loading⟩
  | enters => exact .inr ⟨rest, loading⟩
  | forwards => exact .inr ⟨rest, loading⟩
  | returns => exact .inr ⟨rest, loading⟩

end Dispatch

end Load

end FsProtection
