import FsProtection.Communicate.Ledger

/-!
# What a run of the handlers leaves allocated

The handlers with the ledger are the handlers, so a run leaves live what the ledger says: a
scratch copy for each event that was parsed.
-/

namespace FsProtection

open Base

namespace VmState

variable {σ : Type}

section Handlers

variable {k : Kernel σ}

/-- Building a list sets no global: the caller puts the root in place. -/
theorem createList_globals (top : List FileNode) (rdt : Bytes) (sz : Nat) :
    Preserves (fun s : VmState σ => s.proc.globals) (createList k top rdt sz) := by
  intro before result after ran
  obtain ⟨_, _, _, grows, _, _, rfl⟩ := createList_cases ran
  exact grows.globals

/-- `createRoot` of the handlers, with the parse as a program on the rest of the kernel. -/
theorem createRoot_eq (rdt : Bytes) : FsProtection.createRoot k rdt = (do
    let s ← get
    let outcome ← onPart ProcState.outside (fun outside s => { s with outside := outside })
      (FsProtection.createList k s.globals.fileListRoot rdt sizeofPointer)
    modify fun s => s.withRules outcome.2
    return outcome.1) := by
  refine StateT.ext fun s => ?_
  simp only [FsProtection.createRoot, onPart, StateT.run_bind, StateT.run_get, bind_assoc,
    pure_bind]
  cases ran : (FsProtection.createList k s.globals.fileListRoot rdt sizeofPointer).run s.outside
    <;> rfl

/-- Blocks aside, `create_root` does what the handler model has it do, -/
theorem createRoot_tracks (rdt : Bytes) :
    Tracks proc (createRoot k rdt) (FsProtection.createRoot k rdt) := by
  rw [createRoot_eq]
  refine (onProc_tracks get).bind fun s => ?_
  have parsed : Tracks proc (createList k s.globals.fileListRoot rdt sizeofPointer)
      (onPart ProcState.outside (fun outside s => { s with outside := outside })
        (FsProtection.createList k s.globals.fileListRoot rdt sizeofPointer)) := by
    intro before
    have run : (FsProtection.createList k s.globals.fileListRoot rdt sizeofPointer).run
          before.proc.outside =
        ((createList k s.globals.fileListRoot rdt sizeofPointer).run before).map
          fun outcome => (outcome.1, outcome.2.outside) := (createList_tracks _ _ _ before).symm
    have same := createList_globals (k := k) s.globals.fileListRoot rdt sizeofPointer before
    rw [run_onPart, run]
    cases outcome : (createList k s.globals.fileListRoot rdt sizeofPointer).run before with
    | error fault => rfl
    | ok result =>
        have kept : result.2.proc.globals = before.proc.globals :=
          same result.1 result.2 outcome
        simp only [Except.map]
        rw [← kept]
        rfl
  exact parsed.bind fun outcome => (onProc_tracks _).bind fun _ => .of_pure _

/-- and so do `destroy_root`, -/
theorem destroyRoot_tracks :
    Tracks proc (destroyRoot : VmM σ Unit) FsProtection.destroyRoot := by
  refine .beside (fun s => ⟨s, s, returns_get_iff.mpr ⟨rfl, rfl⟩, rfl⟩) fun s => ?_
  refine .beside (fun other => ⟨(), _, returns_freeNodes s.nodes other, rfl⟩) fun _ => ?_
  exact .beside (fun other => ⟨(), _, returns_modify, rfl⟩) fun _ => onProc_tracks _

/-- the commands, -/
theorem refresh_tracks : Tracks proc (refresh k) (FsProtection.refresh k) :=
  destroyRoot_tracks.bind fun _ => (onProc_tracks get).bind fun _ =>
    (createRoot_tracks _).bind fun _ => .of_pure ()

theorem clear_tracks : Tracks proc (clear k) (FsProtection.clear k) :=
  destroyRoot_tracks.bind fun _ => (onProc_tracks _).bind fun _ =>
    (onProc_tracks get).bind fun _ => (createRoot_tracks _).bind fun _ => .of_pure ()

/-- their dispatch, -/
theorem ctrlCommand_tracks : Tracks proc (ctrlCommand k) (FsProtection.ctrlCommand k) := by
  refine (onProc_tracks _).bind fun isRefresh => ?_
  split
  · exact refresh_tracks
  refine (onProc_tracks _).bind fun isClear => ?_
  split
  · exact clear_tracks
  refine (onProc_tracks _).bind fun isDisable => ?_
  split
  · exact onProc_tracks _
  refine (onProc_tracks _).bind fun isEnable => ?_
  split
  · exact onProc_tracks _
  · exact .of_pure ()

/-- the copying of a text with what follows it, -/
theorem receive_tracks {act : VmM σ Unit} {original : ProcM σ Unit}
    (acts : Tracks proc act original) (buffer : Bytes) (cnt : Nat) :
    Tracks proc (receive buffer cnt act) (FsProtection.receive buffer cnt original) := by
  refine (onProc_tracks _).bind fun left => ?_
  split
  · exact .of_pure _
  · exact (onProc_tracks _).bind fun _ => acts.bind fun _ => .of_pure _

theorem replaceRules_tracks : Tracks proc (replaceRules k) (FsProtection.replaceRules k) :=
  destroyRoot_tracks.bind fun _ => (onProc_tracks get).bind fun _ =>
    (createRoot_tracks _).bind fun _ => .of_pure ()

/-- and a whole call of either handler. -/
theorem handle_tracks (event : ProcEvent σ) : Tracks proc (handle k event) (event.handle k) := by
  cases event with
  | protect buffer count =>
      simp only [handle, ProcEvent.handle, procProtectWrite, FsProtection.procProtectWrite]
      split
      · exact destroyRoot_tracks.bind fun _ => .of_pure _
      · exact receive_tracks replaceRules_tracks _ _
  | ctrl buffer count =>
      simp only [handle, ProcEvent.handle, procCtrlWrite, FsProtection.procCtrlWrite]
      split
      · exact .of_pure _
      · exact receive_tracks ctrlCommand_tracks _ _
  | elsewhere next => exact onProc_tracks _

/-- Without the ledger the runs are those of the handlers. -/
theorem run_tracks (s : VmState σ) (events : List (ProcEvent σ)) :
    (execute (step k) s events).map proc = execute (procStep k) s.proc events := by
  induction events generalizing s with
  | nil => rfl
  | cons event rest ih =>
      have stepped : (step k s event).map proc = procStep k s.proc event := by
        rw [procStep, ← handle_tracks event s, step]
        cases (handle k event).run s <;> rfl
      rw [execute, execute, List.foldlM_cons, List.foldlM_cons, ← stepped]
      cases step k s event with
      | error fault => rfl
      | ok next => exact ih next

end Handlers

section Runs

variable {k : Kernel σ} {raw : SizedBytes bufferSize} {start : σ} {events : List (ProcEvent σ)}
  {s : VmState σ}

/-- A step that does not fault is a handler that returns. -/
theorem step_eq_ok {after : VmState σ} {event : ProcEvent σ} :
    step k s event = .ok after ↔ ∃ ret, Returns (handle k event) s ret after := by
  unfold step Returns
  cases (handle k event).run s with
  | error fault => simp [Except.map]
  | ok outcome =>
      obtain ⟨ret, next⟩ := outcome
      simp [Except.map]

/-- A run makes as many scratch copies as there are events that parse. -/
theorem run_ledger (ran : execute (step k) (initial raw start) events = .ok s) :
    s.Ledger ∧ s.uses.length = events.countP ProcEvent.parses := by
  refine execute_history (fun events (s : VmState σ) =>
    s.Ledger ∧ s.uses.length = events.countP ProcEvent.parses) ⟨.initial raw start, rfl⟩ ?_ ran
  rintro past before event after ⟨ledger, counted⟩ stepped
  obtain ⟨ret, handled⟩ := step_eq_ok.mp stepped
  have uses := handle_uses ledger handled
  refine ⟨uses.ledger, ?_⟩
  rw [uses.count, counted, List.countP_append, List.countP_singleton]

/-- After a run every `create_list` so far has left its scratch copy allocated: the pointer it
gave to `vfree` was not the one `vmalloc` returned. So what is live is the buffers and a block
for each node exactly as long as no write was parsed. -/
theorem scratch_released_iff (ran : execute (step k) (initial raw start) events = .ok s) :
    s.live.Perm (s.uses.map ScratchUse.tmpData ++ (s.nodes ++ bufferBlocks)) ∧
      s.uses.length = events.countP ProcEvent.parses ∧
      (∀ use ∈ s.uses, use.sz = sizeofPointer ∧ use.freed ≠ some ⟨use.tmpData, 0⟩) ∧
      (s.Released ↔ ∀ event ∈ events, event.parses = false) := by
  obtain ⟨ledger, counted⟩ := run_ledger ran
  refine ⟨ledger.accounted.blocks, counted, ledger.kept, ?_⟩
  have unused : s.uses = [] ↔ ∀ event ∈ events, event.parses = false := by
    rw [← List.length_eq_zero_iff, counted, List.countP_eq_zero]
    simp
  rw [← unused]
  constructor
  · intro released
    by_contra used
    obtain ⟨use, member⟩ := List.exists_mem_of_ne_nil _ used
    exact (ledger.kept use member).2 (released.freed use member)
  · intro none
    have blocks := ledger.accounted.blocks
    rw [none, List.map_nil, List.nil_append] at blocks
    exact ⟨by simp [none], by simp [none], blocks, ledger.listed⟩

/-- Runs of the handlers are runs with the ledger. -/
theorem exists_run {final : ProcState σ} (ran : procRun k raw start events = .ok final) :
    ∃ s, execute (step k) (initial raw start) events = .ok s ∧ s.proc = final := by
  have same : (execute (step k) (initial raw start) events).map proc = .ok final :=
    (run_tracks _ events).trans ran
  cases ran : execute (step k) (initial raw start) events with
  | error fault => simp [ran, Except.map] at same
  | ok s => exact ⟨s, rfl, by simpa [ran, Except.map] using same⟩

end Runs

/-- A run that sets the switch only parses nothing. -/
theorem switch_releases :
    ∃ s, execute (step (Kernel.quiet oneFile)) (initial (SizedBytes.zeros _) ())
        [.ctrl (lit "disable") 7, .ctrl (lit "enable") 6] = .ok s ∧ s.Released := by
  have admitted : ∀ event ∈ [ProcEvent.ctrl (lit "disable") 7, .ctrl (lit "enable") 6],
      Admitted (Kernel.quiet oneFile) (fun _ => oneFile) oneFile event := by
    intro event member
    simp only [List.mem_cons, List.not_mem_nil, or_false] at member
    rcases member with rfl | rfl <;> exact ⟨by decide, by decide⟩
  obtain ⟨final, returned, _⟩ :=
    procRun_inForce (Kernel.quiet_pathView oneFile) (SizedBytes.zeros _) rfl admitted
  obtain ⟨s, ran, _⟩ := exists_run returned
  exact ⟨s, ran, (scratch_released_iff ran).2.2.2.mpr (by decide)⟩

/-- After one write of one rule the scratch copy of its text is still allocated. -/
theorem one_write_leaks :
    ∃ s use, execute (step (Kernel.quiet oneFile)) (initial (SizedBytes.zeros _) ())
        [.protect (lit "/f@r\n") 5] = .ok s ∧
      use ∈ s.uses ∧ use.freed ≠ some ⟨use.tmpData, 0⟩ ∧ use.tmpData ∈ s.live ∧
      ¬ s.Released := by
  have admitted : ∀ event ∈ [ProcEvent.protect (lit "/f@r\n") 5],
      Admitted (Kernel.quiet oneFile) (fun _ => oneFile) oneFile event := by
    intro event member
    exact oneRuleSession_admitted event (List.mem_of_mem_head? (by
      rw [List.mem_singleton.mp member]
      rfl))
  obtain ⟨final, returned, _⟩ :=
    procRun_inForce (Kernel.quiet_pathView oneFile) (SizedBytes.zeros _) rfl admitted
  obtain ⟨s, ran, _⟩ := exists_run returned
  obtain ⟨ledger, counted⟩ := run_ledger ran
  have one : [ProcEvent.protect (σ := Unit) (lit "/f@r\n") 5].countP ProcEvent.parses = 1 := by
    decide
  obtain ⟨use, uses⟩ := List.length_eq_one_iff.mp (counted.trans one)
  have member : use ∈ s.uses := by
    rw [uses]
    exact List.mem_singleton_self _
  refine ⟨s, use, ran, member, (ledger.kept use member).2, ?_, fun released => ?_⟩
  · refine ledger.accounted.blocks.mem_iff.mpr (List.mem_append_left _ ?_)
    exact List.mem_map_of_mem member
  · exact (ledger.kept use member).2 (released.freed use member)

end VmState

end FsProtection
