import FsProtection.Communicate.Handlers

/-!
# Handlers one after the other

As long as no text is copied in while another call is between its copy and its act, calls of
the handlers side by side might as well run at once, one after the other.
-/

namespace FsProtection

open Base

variable {σ : Type}

namespace ProcWrite

/-- What is left of a call, access by access and at once. -/
inductive Stage :
    Option (RawScript Int) → Option (Script ProcWrite (fun _ => Int) Int) → Prop where
  | idle : Stage none none
  | begun (write : ProcWrite) : Stage (some write.script) (some write.once)
  | done (ret : Int) : Stage (some (.done ret)) (some (.done ret))

/-- Handlers access by access beside handlers at once: one call at most is between its copy and
its act, and what it did to the buffer is all that is different. -/
inductive Serial (s : Running (ProcState σ) Int RawAccess.Answer)
    (t : Running (ProcState σ) Int (fun _ : ProcWrite => Int)) : Prop where
  | apart (stages : ∀ call, Stage (s.calls call) (t.calls call)) (same : s.shared = t.shared)
  | within (call : Nat) (write : ProcWrite) (rest : RawScript Int)
      (here : s.calls call = some rest) (there : t.calls call = some write.once)
      (nonempty : write.count ≠ 0) (full : clampCount write.count ≤ write.buffer.length)
      (received : Received write t.shared s.shared rest)
      (others : ∀ other, other ≠ call → Stage (s.calls other) (t.calls other))

section Serial

open Service (step_moves step_access)

variable {k : Kernel σ} {s next : Running (ProcState σ) Int RawAccess.Answer}
  {t : Running (ProcState σ) Int (fun _ : ProcWrite => Int)} {call : Nat}

/-- No text is copied in while another call is between its copy and its act. -/
def Alone (s : Running (ProcState σ) Int RawAccess.Answer) : CallEvent ProcWrite σ → Prop
  | .access call => ∀ rest, s.calls call = some rest → RawScript.copies rest →
      ∀ other left, other ≠ call → s.calls other = some left → ¬ RawScript.receives left
  | _ => True

theorem stage_update {f : Nat → Option (RawScript Int)}
    {g : Nat → Option (Script ProcWrite (fun _ => Int) Int)} {following : RawScript Int}
    {left : Script ProcWrite (fun _ => Int) Int}
    (other : Nat) (kept : other ≠ call → Stage (f other) (g other))
    (stage : Stage (some following) (some left)) :
    Stage (Function.update f call (some following) other)
      (Function.update g call (some left) other) := by
  by_cases same : other = call
  · rw [same, Function.update_self, Function.update_self]
    exact stage
  · rw [Function.update_of_ne same, Function.update_of_ne same]
    exact kept same

theorem once_returns {write : ProcWrite} {x after : ProcState σ} {ret : Int}
    (called : write.once = Script.call write) (ran : Returns (write.handle k) x ret after) :
    Returns (write.once.advance (handle k)) x (.done ret) after := by
  rw [called, ← bind_pure (Script.call write)]
  exact Script.returns_advance_iff.mpr ⟨ret, ran, rfl⟩

theorem once_eq {write : ProcWrite} (nonempty : ¬ (write.count = 0 ∧ write.handler = .ctrl)) :
    write.once = Script.call write := if_neg nonempty

/-- The calls that began are the same. -/
theorem Serial.calls (serial : Serial s t) (call : Nat) :
    s.calls call = none ∧ t.calls call = none ∨
      (s.calls call).isSome ∧ (t.calls call).isSome := by
  have ofStage : Stage (s.calls call) (t.calls call) →
      s.calls call = none ∧ t.calls call = none ∨
        (s.calls call).isSome ∧ (t.calls call).isSome := by
    generalize s.calls call = left
    generalize t.calls call = once
    rintro (_ | _ | _) <;> simp
  cases serial with
  | apart stages same => exact ofStage (stages call)
  | within other write rest here there nonempty full received others =>
      by_cases isOther : call = other
      · subst isOther
        simp [here, there]
      · exact ofStage (others call isOther)

theorem Serial.begins (serial : Serial s t) (write : ProcWrite) (idle : s.calls call = none) :
    Serial (s.accessed call write.script s.shared) (t.accessed call write.once t.shared) := by
  cases serial with
  | apart stages same =>
      exact .apart (fun other => stage_update other (fun _ => stages other) (.begun write)) same
  | within other first rest here there nonempty full received others =>
      have apart : other ≠ call := by
        rintro rfl
        cases here.symm.trans idle
      refine .within other first rest ?_ ?_ nonempty full received fun another isOther => ?_
      · rw [Service.accessed_ne apart, here]
      · rw [Service.accessed_ne apart, there]
      · exact stage_update another (fun _ => others another isOther) (.begun write)

/-- An access at once. -/
theorem access_once {write : ProcWrite} {after : ProcState σ} {ret : Int}
    (there : t.calls call = some write.once) (called : write.once = Script.call write)
    (ran : Returns (write.handle k) t.shared ret after) :
    (atOnce k).step t (.access call) = .ok (t.accessed call (.done ret) after) :=
  (step_access there).mpr ⟨_, _, once_returns called ran, rfl⟩

/-- An access while no call is between its copy and its act. -/
theorem access_apart {rest following : RawScript Int} {shared : ProcState σ}
    (stages : ∀ call, Stage (s.calls call) (t.calls call)) (same : s.shared = t.shared)
    (here : s.calls call = some rest)
    (ran : Returns (rest.advance (RawAccess.perform k)) s.shared following shared) :
    Serial (s.accessed call following shared) t ∨
      ∃ after, (atOnce k).step t (.access call) = .ok after ∧
        Serial (s.accessed call following shared) after := by
  have stage := stages call
  rw [here] at stage
  have kept : ∀ {following}, Stage (some following) (t.calls call) →
      ∀ other, Stage ((s.accessed call following shared).calls other) (t.calls other) := by
    intro following stage other
    by_cases isCall : other = call
    · rw [isCall, Service.accessed_self]
      exact stage
    · rw [Service.accessed_ne isCall]
      exact stages other
  generalize there : t.calls call = once at stage
  cases stage with
  | done ret =>
      obtain ⟨rfl, rfl⟩ := returns_pure_iff.mp ran
      exact .inl (.apart (kept (there ▸ .done ret)) same)
  | begun write =>
      have first := first_of_advance ran
      have ends : ∀ ret, following = .done ret → write.once = Script.call write →
          ∃ after, (atOnce k).step t (.access call) = .ok after ∧
            Serial (s.accessed call following shared) after := by
        rintro ret rfl called
        refine ⟨_, access_once there called (same ▸ first.returns called), ?_⟩
        exact .apart (fun other => stage_update other (fun _ => stages other) (.done ret)) rfl
      cases first with
      | nothing empty ctrl =>
          have nothing : write.once = .done 0 := if_pos ⟨empty, ctrl⟩
          rw [nothing] at there
          exact .inl (.apart (kept (there ▸ .done 0)) same)
      | destroyed empty protect =>
          exact .inr (ends 0 rfl (once_eq fun ⟨_, ctrl⟩ => by simp [protect] at ctrl))
      | short nonempty left => exact .inr (ends _ rfl (once_eq fun ⟨empty, _⟩ => nonempty empty))
      | copied nonempty full =>
          refine .inl (.within call write write.afterCopy Service.accessed_self there nonempty full
            (.copied (by rw [same]; rfl)) fun other apart => ?_)
          rw [Service.accessed_ne apart]
          exact stages other

/-- An access of another call while one is between its copy and its act. -/
theorem access_beside {held : Nat} {first : ProcWrite} {left rest following : RawScript Int}
    {shared : ProcState σ} (here : s.calls held = some left)
    (there : t.calls held = some first.once) (nonempty : first.count ≠ 0)
    (full : clampCount first.count ≤ first.buffer.length)
    (received : Received first t.shared s.shared left)
    (others : ∀ other, other ≠ held → Stage (s.calls other) (t.calls other))
    (alone : Alone s (.access call)) (apart : call ≠ held) (isRest : s.calls call = some rest)
    (ran : Returns (rest.advance (RawAccess.perform k)) s.shared following shared) :
    Serial (s.accessed call following shared) t ∨
      ∃ after, (atOnce k).step t (.access call) = .ok after ∧
        Serial (s.accessed call following shared) after := by
  have isOpen : ∀ {following shared}, (s.accessed call following shared).calls held = some left :=
    fun {_ _} => (Service.accessed_ne (Ne.symm apart)).trans here
  have kept : ∀ {following}, Stage (some following) (t.calls call) → ∀ other, other ≠ held →
      Stage ((s.accessed call following shared).calls other) (t.calls other) := by
    intro following stage other isOther
    by_cases isCall : other = call
    · rw [isCall, Service.accessed_self]
      exact stage
    · rw [Service.accessed_ne isCall]
      exact others other isOther
  have stage := others call apart
  rw [isRest] at stage
  generalize thereCall : t.calls call = once at stage
  cases stage with
  | done ret =>
      obtain ⟨rfl, rfl⟩ := returns_pure_iff.mp ran
      exact .inl (.within held first left isOpen there nonempty full received
        (kept (thereCall ▸ .done ret)))
  | begun write =>
      have copies : write.count ≠ 0 → False := by
        intro notEmpty
        refine alone write.script isRest ?_ held left (Ne.symm apart) here received.receives
        rw [script, if_neg notEmpty]
        rfl
      cases first_of_advance ran with
      | nothing empty ctrl =>
          have nothing : write.once = .done 0 := if_pos ⟨empty, ctrl⟩
          rw [nothing] at thereCall
          exact .inl (.within held first left isOpen there nonempty full received
            (kept (thereCall ▸ .done 0)))
      | destroyed empty protect =>
          have called : write.once = Script.call write :=
            once_eq fun ⟨_, ctrl⟩ => by simp [protect] at ctrl
          have destroyed := First.returns (k := k) (s := t.shared) (.destroyed empty protect) called
          refine .inr ⟨_, access_once thereCall called destroyed, ?_⟩
          refine .within held first left isOpen ?_ nonempty full
            (received.beside (fun x => x.withRules []) (fun _ _ => rfl) fun _ => rfl)
            fun other isOther => ?_
          · exact (Service.accessed_ne (Ne.symm apart)).trans there
          · exact stage_update other (fun _ => others other isOther) (.done 0)
      | short notEmpty _ => exact (copies notEmpty).elim
      | copied notEmpty _ => exact (copies notEmpty).elim

/-- An access of the call that is between its copy and its act. -/
theorem access_within {write : ProcWrite} {rest following : RawScript Int} {shared : ProcState σ}
    (there : t.calls call = some write.once) (nonempty : write.count ≠ 0)
    (full : clampCount write.count ≤ write.buffer.length)
    (received : Received write t.shared s.shared rest)
    (others : ∀ other, other ≠ call → Stage (s.calls other) (t.calls other))
    (ran : Returns (rest.advance (RawAccess.perform k)) s.shared following shared) :
    Serial (s.accessed call following shared) t ∨
      ∃ after, (atOnce k).step t (.access call) = .ok after ∧
        Serial (s.accessed call following shared) after := by
  rcases received.advance nonempty full ran with received | ⟨rfl, handled⟩
  · refine .inl (.within call write following Service.accessed_self there nonempty full received
      fun other apart => ?_)
    rw [Service.accessed_ne apart]
    exact others other apart
  · have called : write.once = Script.call write := once_eq fun ⟨empty, _⟩ => nonempty empty
    exact .inr ⟨_, access_once there called handled,
      .apart (fun other => stage_update other (others other) (.done _)) rfl⟩

theorem Serial.step (serial : Serial s t) {event : CallEvent ProcWrite σ} (alone : Alone s event)
    (stepped : (procWrites k).step s event = .ok next) :
    (∃ call, event = .access call) ∧ Serial next t ∨
      ∃ after, (atOnce k).step t event = .ok after ∧ Serial next after := by
  cases step_moves stepped with
  | began call write idle =>
      have idleAtOnce : t.calls call = none := by simpa [idle] using serial.calls call
      refine .inr ⟨t.accessed call write.once t.shared, ?_, serial.begins write idle⟩
      simp only [Service.step, idleAtOnce]
      rfl
  | again call write rest here =>
      obtain ⟨left, there⟩ : ∃ left, t.calls call = some left := by
        simpa [here, Option.isSome_iff_exists] using serial.calls call
      refine .inr ⟨t, ?_, serial⟩
      simp only [Service.step, there]
      rfl
  | absent call idle => exact .inl ⟨⟨call, rfl⟩, serial⟩
  | accessed call rest following shared here ran =>
      have accessed : Serial (s.accessed call following shared) t ∨
          ∃ after, (atOnce k).step t (.access call) = .ok after ∧
            Serial (s.accessed call following shared) after := by
        cases serial with
        | apart stages same => exact access_apart stages same here ran
        | within first write left isLeft there nonempty full received others =>
            by_cases same : call = first
            · subst same
              obtain rfl := Option.some.inj (here.symm.trans isLeft)
              exact access_within there nonempty full received others ran
            · exact access_beside isLeft there nonempty full received others alone same here ran
      exact accessed.imp (fun serial => ⟨⟨call, rfl⟩, serial⟩) id
  | elsewhere outside =>
      refine .inr ⟨_, rfl, ?_⟩
      cases serial with
      | apart stages same => exact .apart stages (by rw [same]; rfl)
      | within call write rest here there nonempty full received others =>
          exact .within call write rest here there nonempty full
            (received.beside (fun x => { x with outside := outside }) (fun _ _ => rfl)
              fun _ => rfl) others

/-- The writes that make no access. -/
theorem script_done_iff (write : ProcWrite) (ret : Int) :
    write.script = .done ret ↔ write.once = .done ret := by
  by_cases nothing : write.count = 0 ∧ write.handler = .ctrl
  · obtain ⟨empty, ctrl⟩ := nothing
    have scriptDone : write.script = .done 0 := by
      rw [script, if_pos empty, ctrl]
      rfl
    have onceDone : write.once = .done 0 := if_pos ⟨empty, ctrl⟩
    rw [scriptDone, onceDone, Script.done.injEq, Script.done.injEq]
  · rw [once_eq nothing]
    refine iff_of_false ?_ nofun
    obtain ⟨handler, buffer, count⟩ := write
    unfold script
    split
    · next empty =>
        cases handler with
        | protect => exact nofun
        | ctrl => exact absurd ⟨empty, rfl⟩ nothing
    · exact nofun

/-- The calls that are done are the same, with the same return values. -/
theorem Serial.done_iff (serial : Serial s t) (call : Nat) (ret : Int) :
    s.calls call = some (.done ret) ↔ t.calls call = some (.done ret) := by
  have ofStage : Stage (s.calls call) (t.calls call) →
      (s.calls call = some (.done ret) ↔ t.calls call = some (.done ret)) := by
    generalize s.calls call = left
    generalize t.calls call = once
    intro stage
    cases stage with
    | idle => exact ⟨nofun, nofun⟩
    | begun write =>
        rw [Option.some.injEq, Option.some.injEq]
        exact script_done_iff write ret
    | done other => simp
  cases serial with
  | apart stages same => exact ofStage (stages call)
  | within other write rest here there nonempty full received others =>
      by_cases isOther : call = other
      · subst isOther
        rw [here, there, once_eq fun ⟨empty, _⟩ => nonempty empty]
        refine iff_of_false (fun done => ?_) nofun
        cases received <;> cases done
      · exact ofStage (others call isOther)

/-- A run of copies, NULs and acts in which no text is copied in while another call is between
its copy and its act is one of the handlers at once: they begin in the same order, those that
are done return the same, and when none is half way the globals are the same. -/
theorem alone_atomic (idle : ∀ call, s.calls call = none) {events : List (CallEvent ProcWrite σ)}
    (alone : ∀ past event before, past ++ [event] <+: events →
      execute (procWrites k).step s past = .ok before → Alone before event)
    (ran : execute (procWrites k).step s events = .ok next) :
    ∃ kept t, kept.Sublist events ∧
      kept.filter (fun event => !event.isAccess) = events.filter (fun event => !event.isAccess) ∧
      execute (atOnce k).step ⟨s.shared, fun _ => none⟩ kept = .ok t ∧
      (∀ call ret, next.calls call = some (.done ret) ↔ t.calls call = some (.done ret)) ∧
      ((∀ call rest, next.calls call = some rest → ¬ RawScript.receives rest) →
        next.shared = t.shared) := by
  have run : ∃ kept t, kept.Sublist events ∧
      kept.filter (fun event => !event.isAccess) = events.filter (fun event => !event.isAccess) ∧
      execute (atOnce k).step ⟨s.shared, fun _ => none⟩ kept = .ok t ∧ Serial next t := by
    refine execute_history_of (fun past here => ∃ kept t, kept.Sublist past ∧
      kept.filter (fun event => !event.isAccess) = past.filter (fun event => !event.isAccess) ∧
      execute (atOnce k).step ⟨s.shared, fun _ => none⟩ kept = .ok t ∧ Serial here t)
      ⟨[], _, .slnil, rfl, rfl, .apart (fun call => ?_) rfl⟩ ?_ alone ran
    · rw [idle call]
      exact .idle
    · rintro past before event after ⟨kept, t, sublist, same, executed, serial⟩ alone stepped
      rcases serial.step alone stepped with ⟨⟨call, rfl⟩, serial⟩ | ⟨t', steppedAtOnce, serial⟩
      · exact ⟨kept, t, sublist.trans (List.sublist_append_left past _),
          by simpa [CallEvent.isAccess] using same, executed, serial⟩
      · exact ⟨kept ++ [event], t', sublist.append (List.Sublist.refl _),
          by simp [same], execute_snoc.mpr ⟨t, executed, steppedAtOnce⟩, serial⟩
  obtain ⟨kept, t, sublist, same, executed, serial⟩ := run
  refine ⟨kept, t, sublist, same, executed, serial.done_iff, fun quiet => ?_⟩
  cases serial with
  | apart stages same => exact same
  | within call write rest here there nonempty full received others =>
      exact absurd received.receives (quiet call rest here)

end Serial

/-- The rules are cleared while a command is on its way. -/
def clearBeside : List (CallEvent ProcWrite Unit) :=
  [.begins 0 ⟨.ctrl, lit "enable", 6⟩, .begins 1 ⟨.protect, [], 0⟩, .access 0, .access 1,
    .access 0, .access 0]

def noCall : Running (ProcState Unit) Int RawAccess.Answer where
  shared := ⟨Globals.initial (SizedBytes.zeros _), ()⟩
  calls _ := none

theorem clearBeside_alone (past : List (CallEvent ProcWrite Unit))
    (event : CallEvent ProcWrite Unit) (before : Running (ProcState Unit) Int RawAccess.Answer)
    (early : past ++ [event] <+: clearBeside)
    (ran : execute (procWrites (Kernel.quiet oneFile)).step noCall past = .ok before) :
    Alone before event := by
  obtain ⟨later, whole⟩ := early
  have isPast : past = clearBeside.take past.length := by simp [← whole]
  have checked : (List.range clearBeside.length).all (fun count => [0, 1].all fun call =>
      (execute (procWrites (Kernel.quiet oneFile)).step noCall
        (clearBeside.take count)).toOption.all fun s => (s.calls call).all fun rest =>
          !RawScript.copies rest || [0, 1].all fun other => other == call ||
            (s.calls other).all fun left => !RawScript.receives left) = true := by
    decide +kernel
  have begun : ∀ call rest, before.calls call = some rest → call ∈ [0, 1] := by
    intro call rest here
    by_contra absent
    have idle : before.calls call = none :=
      Service.calls_unbegun ran rfl fun request member => absent ?_
    · cases here.symm.trans idle
    · have member : .begins call request ∈ clearBeside := by simp [← whole, member]
      simp only [clearBeside, List.mem_cons, CallEvent.begins.injEq, reduceCtorEq,
        List.not_mem_nil, or_false, or_self] at member
      rcases member with ⟨rfl, _⟩ | ⟨rfl, _⟩ <;> simp
  cases event with
  | begins call write => trivial
  | elsewhere outside => trivial
  | access call =>
      intro rest here copies other left apart isLeft receives
      have inside : past.length ∈ List.range clearBeside.length := by simp [← whole]
      have all := List.all_eq_true.mp (List.all_eq_true.mp checked _ inside) call
        (begun call rest here)
      rw [← isPast, ran] at all
      have others : [0, 1].all (fun other => other == call ||
          (before.calls other).all fun left => !RawScript.receives left) = true := by
        simpa [Except.toOption, here, copies] using all
      have alone := List.all_eq_true.mp others other (begun other left isLeft)
      simp [apart, isLeft, receives] at alone

theorem clearBeside_atomic : ∃ next,
    execute (procWrites (Kernel.quiet oneFile)).step noCall clearBeside = .ok next ∧
      ∃ kept t, kept.Sublist clearBeside ∧
        kept.filter (fun event => !event.isAccess) =
          clearBeside.filter (fun event => !event.isAccess) ∧
        execute (atOnce (Kernel.quiet oneFile)).step ⟨noCall.shared, fun _ => none⟩ kept = .ok t ∧
        (∀ call ret, next.calls call = some (.done ret) ↔ t.calls call = some (.done ret)) ∧
        ((∀ call rest, next.calls call = some rest → ¬ RawScript.receives rest) →
          next.shared = t.shared) := by
  have returns : (execute (procWrites (Kernel.quiet oneFile)).step noCall
      clearBeside).toOption.isSome = true := by
    decide +kernel
  cases ran : execute (procWrites (Kernel.quiet oneFile)).step noCall clearBeside with
  | error fault =>
      rw [ran] at returns
      cases returns
  | ok next => exact ⟨next, rfl, alone_atomic (fun _ => rfl) clearBeside_alone ran⟩

end ProcWrite

end FsProtection
