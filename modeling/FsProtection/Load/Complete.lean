import FsProtection.Load.Parts

/-!
# Loading completely or not at all

A run of `lkm_init` that answers 0 is undone by `lkm_exit`. One that fails behind the
patching of the table undoes nothing of it.
-/

namespace FsProtection

open Base

namespace Load

variable {σ : Type}

section Init

variable {b : Build} {o : LoadOutcomes} {s : LoadState σ}

/-- Whether a buffer is held is seen in the core of the state. -/
theorem Allocated.of_core {base : Nat → Option (Node Bytes)} {held : List Buffer}
    {after : LoadState σ} (allocated : Allocated o base s held) (same : core after = core s) :
    Allocated o base after held := by
  simp only [core, Prod.mk.injEq] at same
  obtain ⟨_, _, _, _, area, buffers⟩ := same
  refine ⟨?_, ?_⟩
  · rw [area, buffers]
    exact allocated.holds
  · rw [buffers]
    exact allocated.isSome

/-- So are the patch and the rules. -/
theorem patch_of_core {after : LoadState σ} (same : core after = core s) :
    (after.table = s.table ∧ after.syscallTable = s.syscallTable ∧ after.origin = s.origin) ∧
      after.rules = s.rules := by
  simp only [core, Prod.mk.injEq] at same
  obtain ⟨table, known, origin, rules, _⟩ := same
  exact ⟨⟨table, known, origin⟩, rules⟩

/-- What is done behind the patch, given what a complete success is. -/
structure Opens (o : LoadOutcomes) (complete : Bool) (s : LoadState σ) (ret : Int32)
    (after : LoadState σ) : Prop where
  patch : after.table = s.table ∧ after.syscallTable = s.syscallTable ∧ after.origin = s.origin
  rules : after.rules = { s.rules with root := none }
  allocated : Allocated o s.area.cell after Buffer.all.reverse
  answer : ret = 0 ↔ complete = true
  early : o.buffered = false → after.procEntries = s.procEntries
  entries : ret = 0 → after.procDir = some [procDirName] ∧
    ∀ path ∈ after.procEntries, path ∈ s.procEntries ∨ path ∈ moduleEntries

theorem initCommunicate_returns :
    ∃ ret after, Returns (initCommunicate o) s ret after ∧
      Opens o (o.buffered && o.created) s ret after := by
  obtain ⟨area, buffers, ran, allocated⟩ := allocateBuffers_returns o (withNoRules s)
  cases buffered : o.buffered with
  | false =>
      have answered : Returns (initCommunicate o) s (-enomem)
          (withBuffers (withNoRules s) area buffers) := by
        refine returns_modify.bind (ran.bind ((returns_get_iff.mpr ⟨rfl, rfl⟩).bind ?_))
        rw [if_pos (allocated.missing_iff.mpr buffered)]
        exact returns_pure_iff.mpr ⟨rfl, rfl⟩
      refine ⟨_, _, answered, ⟨rfl, rfl, rfl⟩, rfl, allocated, ?_, fun _ => rfl, ?_⟩
      · simp [enomem]
      · intro zero
        cases zero
  | true =>
      obtain ⟨cleared, ranClear, held⟩ := clearBuffers_returns allocated buffered
      have answer : ∀ {ret after},
          Returns (createProc o) (withBuffers (withNoRules s) cleared buffers) ret after →
          Returns (initCommunicate o) s ret after := by
        intro ret after created
        refine returns_modify.bind (ran.bind ((returns_get_iff.mpr ⟨rfl, rfl⟩).bind ?_))
        rw [if_neg (by simp [allocated.missing_iff, buffered])]
        exact ranClear.bind created
      cases created : o.created with
      | true =>
          obtain ⟨after, ranProc, same, inDir, known⟩ := createProc_succeeds created
          obtain ⟨patch, rules⟩ := patch_of_core same
          exact ⟨0, after, answer ranProc, patch, rules, held.of_core same,
            by simp, by simp [buffered], fun _ => ⟨inDir, known⟩⟩
      | false =>
          obtain ⟨after, ranProc, same, _⟩ := createProc_fails created
          obtain ⟨patch, rules⟩ := patch_of_core same
          exact ⟨-1, after, answer ranProc, patch, rules, held.of_core same,
            by simp, by simp [buffered], fun zero => by cases zero⟩

theorem patch_returns (known : s.syscallTable = true) :
    Returns (patch b) s () { s with
      table := overlay b b.modified Hooked.all s.table
      origin := fun call => s.table (b.nr call) } := by
  have saved := @saveEntries_returns _ b Hooked.all s known
  simp only [Hooked.mem_all, if_true] at saved
  have stored : Returns (storeEntries b b.modified Hooked.all)
      (withCr0 (s.cr0 &&& 0xfffeffff) { s with origin := fun call => s.table (b.nr call) }) () _ :=
    storeEntries_returns known (cleared_writeProtect s.cr0)
  exact saved.bind (clearAndReturnCr0_returns.bind (stored.bind returns_modify))

/-- The module after the saved entries were put back. -/
def unpatched (b : Build) (s : LoadState σ) : LoadState σ :=
  { s with table := overlay b s.origin Hooked.all s.table }

/-- The saved entries are put back, whatever the hooked entries hold by then. -/
theorem unpatch_returns (known : s.syscallTable = true) :
    Returns (unpatch b) s () (unpatched b s) := by
  have stored : Returns (storeEntries b s.origin Hooked.all)
      (withCr0 (s.cr0 &&& 0xfffeffff) s) () _ :=
    storeEntries_returns known (cleared_writeProtect s.cr0)
  exact clearAndReturnCr0_returns.bind
    ((returns_get_iff.mpr ⟨rfl, rfl⟩).bind (stored.bind returns_modify))

theorem notificationInit_returns : Returns (notificationInit o) s
    (if o.netlinkKernelCreate then 0 else -1) (withSocket o s) := by
  refine returns_modify.bind ((returns_get_iff.mpr ⟨rfl, rfl⟩).bind ?_)
  cases created : o.netlinkKernelCreate with
  | true => simp [withSocket, created]
  | false => simp [withSocket, created]

theorem openChannels_returns :
    ∃ ret after, Returns (openChannels o) s ret after ∧ Opens o o.complete s ret after ∧
      (ret = 0 → after.nlSk = true ∧ after.socket = true) := by
  obtain ⟨communicate, middle, ran, opens⟩ := initCommunicate_returns (o := o) (s := s)
  by_cases failed : communicate ≠ 0
  · have incomplete : o.complete = false := by
      rw [LoadOutcomes.complete, Bool.eq_false_iff.mpr (mt opens.answer.mpr failed), Bool.false_and]
    refine ⟨-1, middle, ran.bind ?_,
      ⟨opens.patch, opens.rules, opens.allocated, ?_, opens.early, ?_⟩, ?_⟩
    · rw [if_pos failed]
      exact returns_pure_iff.mpr ⟨rfl, rfl⟩
    · simp [incomplete]
    · intro zero
      cases zero
    · intro zero
      cases zero
  · have zero : communicate = 0 := not_not.mp failed
    have answered : Returns (openChannels o) s (if o.netlinkKernelCreate then 0 else -1)
        (withSocket o middle) := by
      refine ran.bind ?_
      rw [if_neg failed]
      refine notificationInit_returns.bind ?_
      cases o.netlinkKernelCreate <;> simp
    refine ⟨_, _, answered,
      ⟨opens.patch, opens.rules, opens.allocated.of_core rfl, ?_, opens.early, ?_⟩, ?_⟩
    · rw [LoadOutcomes.complete, opens.answer.mp zero]
      cases o.netlinkKernelCreate <;> simp
    · exact fun _ => opens.entries zero
    · intro done
      cases created : o.netlinkKernelCreate with
      | true => simp [withSocket, created]
      | false => simp [created] at done

/-- The module after its handlers were put into the table. -/
def patched (b : Build) (o : LoadOutcomes) (s : LoadState σ) : LoadState σ :=
  { withTable o s with
    table := overlay b b.modified Hooked.all s.table
    origin := fun call => s.table (b.nr call) }

theorem lkmInit_returns (found : o.getSysCallTable = true) :
    ∃ ret after, Returns (lkmInit b o) s ret after ∧ Opens o o.complete (patched b o s) ret after ∧
      (ret = 0 → after.nlSk = true ∧ after.socket = true) := by
  obtain ⟨ret, after, ran, opens, socket⟩ := openChannels_returns (o := o) (s := patched b o s)
  have hooked : Returns (patch b) (withTable o s) () (patched b o s) := patch_returns found
  refine ⟨ret, after, returns_modify.bind ((returns_get_iff.mpr ⟨rfl, rfl⟩).bind ?_), opens, socket⟩
  have known : (withTable o s).syscallTable = true := found
  rw [if_pos known]
  exact hooked.bind ran

theorem lkmInit_notFound (notFound : o.getSysCallTable = false) :
    Returns (lkmInit b o) s (-1) (withTable o s) := by
  refine returns_modify.bind ((returns_get_iff.mpr ⟨rfl, rfl⟩).bind ?_)
  rw [if_neg (by simp [withTable, notFound])]
  exact returns_pure_iff.mpr ⟨rfl, rfl⟩

end Init

section Exit

variable {b : Build} {o : LoadOutcomes} {s loaded later : LoadState σ}

/-- The state later on, when the module is still loaded: what is its own is as `lkm_init`
left it, its buffers were not freed by others, and `fileList_root` is a list. The hooked
entries of the table may have been changed again. -/
structure Kept (b : Build) (loaded later : LoadState σ) : Prop where
  table : ∀ number, (∀ call, number ≠ b.nr call) → later.table number = loaded.table number
  syscallTable : later.syscallTable = loaded.syscallTable
  origin : later.origin = loaded.origin
  buffers : later.buffers = loaded.buffers
  live : ∀ which address, loaded.buffers which = some address → (later.area.cell address).isSome
  procDir : later.procDir = loaded.procDir
  socket : later.nlSk = loaded.nlSk ∧ later.socket = loaded.socket
  rules : ∃ nodes, IsList later.rules.heap later.rules.root nodes

/-- What was made since an earlier state is gone: the table is as it was then, and no
buffer and no proc entry that was not there remains. -/
structure Undone (before made after : LoadState σ) : Prop where
  table : after.table = before.table
  buffers : ∀ address, (made.area.cell address).isSome → before.area.cell address = none →
    after.area.cell address = none
  procEntries : ∀ path ∈ made.procEntries, path ∉ before.procEntries → path ∉ after.procEntries

/-- The module loads completely or not at all. -/
def LoadsCompletely (b : Build) (o : LoadOutcomes) (before : LoadState σ) : Prop :=
  ∃ ret loaded, Returns (lkmInit b o) before ret loaded ∧
    (ret = 0 → ∀ later, Kept b loaded later →
      ∃ after, Returns (lkmExit b) later () after ∧ Undone before loaded after) ∧
    (ret ≠ 0 → Undone before loaded loaded)

theorem withoutProcFiles_entries (inDir : s.procDir = some [procDirName]) {path : ProcPath}
    (own : path ∈ moduleEntries) : path ∉ (withoutProcDir (withoutProcFiles s)).procEntries := by
  intro member
  simp only [withoutProcDir, withoutProcFiles, withoutProcFile, inDir, Finset.mem_erase] at member
  simp only [moduleEntries, List.mem_cons, List.not_mem_nil, or_false] at own
  simp [procEntry] at member
  tauto

theorem cleanupCommunicate_returns {base : Nat → Option (Node Bytes)}
    (holds : Holds base s.area s.buffers Buffer.all)
    (inDir : s.procDir = some [procDirName])
    (list : ∃ nodes, IsList s.rules.heap s.rules.root nodes) :
    ∃ after, Returns cleanupCommunicate s () after ∧ after.table = s.table ∧
      after.area.cell = base ∧ (∀ path ∈ moduleEntries, path ∉ after.procEntries) ∧
      after.socket = s.socket := by
  obtain ⟨nodes, list⟩ := list
  obtain ⟨rules, destroyed, _⟩ := RuleHeap.destroy_returns list
  have emptied : Returns (onRules RuleHeap.destroy) s () { s with rules := rules } :=
    returns_onPart_iff.mpr ⟨rules, destroyed, rfl⟩
  obtain ⟨area, freed, same⟩ := freeBuffers_returns (s := { s with rules := rules }) holds
  refine ⟨withoutProcDir (withoutProcFiles (withBuffers { s with rules := rules } area s.buffers)),
    ?_, rfl, same, ?_, rfl⟩
  · exact emptied.bind (freed.bind (returns_modify.bind (returns_modify.bind
      (returns_modify.bind returns_modify))))
  · exact fun path own => withoutProcFiles_entries (by exact inDir) own

theorem notificationExit_returns (opened : s.nlSk = true → s.socket = true) :
    ∃ socket, Returns notificationExit s () { s with socket := socket } := by
  by_cases there : s.nlSk = true
  · refine ⟨false, (returns_get_iff.mpr ⟨rfl, rfl⟩).bind ?_⟩
    rw [if_pos there, if_pos (opened there)]
    exact returns_set_iff.mpr rfl
  · refine ⟨s.socket, (returns_get_iff.mpr ⟨rfl, rfl⟩).bind ?_⟩
    rw [if_neg there]
    exact returns_pure_iff.mpr ⟨rfl, rfl⟩

/-- Calls of `create_list` and `destroy_list` that do not fault keep a loaded module. -/
theorem Opens.kept {k : Kernel σ} {complete : Bool} {ret : Int32}
    {calls : List (RuleHeap.ListCall σ)} (opens : Opens o complete s ret loaded)
    (noRules : IsList s.rules.heap none [])
    (typed : ∀ past call before, past ++ [call] <+: calls →
      execute (RuleHeap.step k) loaded.rules past = .ok before → before.Typed k call) :
    ∃ rules, execute (RuleHeap.step k) loaded.rules calls = .ok rules ∧
      Kept b loaded { loaded with rules := rules } := by
  have start : IsList loaded.rules.heap loaded.rules.root [] := by
    rw [opens.rules]
    exact noRules
  obtain ⟨rules, ran, list⟩ := execute_total_of
    (fun _ (rules : RuleHeap σ) => ∃ nodes, IsList rules.heap rules.root nodes) ⟨[], start⟩
    (fun _ _ _ ⟨_, list⟩ typed => by
      obtain ⟨after, nodes, stepped, holds⟩ := RuleHeap.step_holds list typed
      exact ⟨after, stepped, nodes, holds⟩) typed
  refine ⟨rules, ran, fun _ _ => rfl, rfl, rfl, rfl, fun which address points => ?_, rfl,
    ⟨rfl, rfl⟩, list⟩
  exact (opens.allocated.holds.live which which.mem_reverse address points).2

/-- A loaded module still has its own buffers. -/
theorem Opens.holds_later {complete : Bool} {ret : Int32} (opens : Opens o complete s ret loaded)
    (kept : Kept b loaded later) : ∃ base, Holds base later.area later.buffers Buffer.all := by
  refine Holds.of_live ?_ ?_
  · intro which _ address points
    exact kept.live which address (kept.buffers ▸ points)
  · intro which _ other _ address points again
    rw [kept.buffers] at points again
    exact opens.allocated.holds.apart which which.mem_reverse other other.mem_reverse address
      points again

/-- Whatever the hooked entries hold by then, `lkm_exit` puts the first table back. -/
theorem Opens.restores {complete : Bool} {ret : Int32}
    (opens : Opens o complete (patched b o s) ret loaded) (kept : Kept b loaded later) :
    (unpatched b later).table = s.table := by
  obtain ⟨table, _, origin⟩ := opens.patch
  refine overlay_restores ?_ ?_
  · intro call
    rw [kept.origin, origin]
    rfl
  · intro number apart
    rw [kept.table number apart, table]
    exact overlay_elsewhere fun call _ => apart call

/-- `lkm_exit` undoes what a successful `lkm_init` did. -/
theorem lkmExit_undoes {complete : Bool} (opens : Opens o complete (patched b o s) 0 loaded)
    (found : o.getSysCallTable = true) (socket : loaded.nlSk = true ∧ loaded.socket = true)
    (kept : Kept b loaded later) :
    ∃ after, Returns (lkmExit b) later () after ∧ Undone s loaded after := by
  obtain ⟨_, known, _⟩ := opens.patch
  obtain ⟨inDir, entries⟩ := opens.entries rfl
  obtain ⟨base, holds⟩ := opens.holds_later kept
  have restored : Returns (unpatch b) later () (unpatched b later) :=
    unpatch_returns (kept.syscallTable.trans (known.trans found))
  obtain ⟨cleaned, ran, table, freed, removed, opened⟩ :=
    cleanupCommunicate_returns (s := unpatched b later) holds (kept.procDir.trans inDir) kept.rules
  obtain ⟨_, closed⟩ := notificationExit_returns (s := cleaned)
    fun _ => opened.trans (kept.socket.2.trans socket.2)
  refine ⟨_, restored.bind (ran.bind closed), table.trans (opens.restores kept), ?_, ?_⟩
  · intro address live made
    obtain ⟨which, _, points⟩ := opens.allocated.holds.holder live made
    rw [← kept.buffers] at points
    rw [freed]
    exact (holds.live which which.mem_all address points).1
  · intro path member new
    exact removed path ((entries path member).resolve_left new)

end Exit

section Completeness

variable {b : Build} {o : LoadOutcomes} {before loaded : LoadState σ} {ret : Int32}

/-- When the patch does not show and no buffer is allocated, nothing has to be undone. -/
theorem Opens.undone {complete : Bool} (opens : Opens o complete (patched b o before) ret loaded)
    (installed : ∀ call, before.table (b.nr call) = b.modified call)
    (noBuffer : ∀ which, o.vmalloc which = false) : Undone before loaded loaded where
  table := opens.patch.1.trans (overlay_eq_self_iff.mpr installed)
  buffers := by
    intro address live made
    obtain ⟨which, member, points⟩ := opens.allocated.holds.holder live made
    have got := opens.allocated.isSome which member
    rw [points, noBuffer] at got
    cases got
  procEntries := by
    intro path member new
    rw [opens.early (by simp [LoadOutcomes.buffered, noBuffer])] at member
    exact absurd member new

/-- When nothing is left to undo, the patch does not show and no buffer is allocated. -/
theorem Undone.untouched {complete : Bool}
    (opens : Opens o complete (patched b o before) ret loaded)
    (undone : Undone before loaded loaded) :
    (∀ call, before.table (b.nr call) = b.modified call) ∧ ∀ which, o.vmalloc which = false := by
  refine ⟨overlay_eq_self_iff.mp (opens.patch.1.symm.trans undone.table), fun which => ?_⟩
  by_contra succeeds
  have isSome := opens.allocated.isSome which which.mem_reverse
  rw [Bool.not_eq_false] at succeeds
  obtain ⟨address, points⟩ := Option.isSome_iff_exists.mp (isSome.trans succeeds)
  obtain ⟨made, live⟩ := opens.allocated.holds.live which which.mem_reverse address points
  rw [undone.buffers address live made] at live
  cases live

/-- The module loads completely or not at all exactly when nothing fails, or the system call
table is not found, or the table holds the handlers already and no buffer is allocated. -/
theorem loads_completely_iff : LoadsCompletely b o before ↔
    o.getSysCallTable = false ∨ o.complete = true ∨
      ((∀ call, before.table (b.nr call) = b.modified call) ∧
        ∀ which, o.vmalloc which = false) := by
  cases found : o.getSysCallTable with
  | false =>
      have undone : Undone before (withTable o before) (withTable o before) :=
        ⟨rfl, fun _ _ made => made, fun _ member new => absurd member new⟩
      exact ⟨fun _ => .inl rfl, fun _ => ⟨-1, withTable o before, lkmInit_notFound found,
        fun zero => absurd zero (by decide), fun _ => undone⟩⟩
  | true =>
      obtain ⟨ret, loaded, ran, opens, socket⟩ := lkmInit_returns (b := b) (s := before) found
      constructor
      · rintro ⟨_, _, again, _, failed⟩
        obtain ⟨rfl, rfl⟩ := ran.unique again
        by_cases complete : o.complete = true
        · exact .inr (.inl complete)
        · exact .inr (.inr ((failed (mt opens.answer.mp complete)).untouched opens))
      · intro holds
        refine ⟨ret, loaded, ran, ?_, ?_⟩
        · rintro rfl later kept
          exact lkmExit_undoes opens found (socket rfl) kept
        · intro failed
          rcases holds with notFound | complete | ⟨installed, noBuffer⟩
          · cases notFound
          · exact absurd (opens.answer.mpr complete) failed
          · exact opens.undone installed noBuffer

/-- The numbers of the i386 table, and handlers in the module's pages. -/
def i386 : Build where
  nr
    | .mkdir => 39
    | .chdir => 12
    | .rmdir => 40
    | .getdents64 => 220
    | .read => 3
    | .write => 4
    | .open_ => 5
    | .unlinkat => 301
    | .unlink => 10
    | .rename => 38
    | .renameat => 302
  modified
    | .mkdir => 0xf8123000
    | .chdir => 0xf8123100
    | .rmdir => 0xf8123200
    | .getdents64 => 0xf8123300
    | .read => 0xf8123400
    | .write => 0xf8123500
    | .open_ => 0xf8123600
    | .unlinkat => 0xf8123700
    | .unlink => 0xf8123800
    | .rename => 0xf8123900
    | .renameat => 0xf8123a00
  distinct first second same := by
    cases first <;> cases second <;> first | rfl | cases same

/-- A machine before the module is loaded. -/
def unloaded : LoadState Unit where
  cr0 := 0x8005003b
  table number := 0xc1000000 + UInt32.ofNat number
  area := .empty id
  procEntries := ∅
  served _ := false
  socket := false
  syscallTable := false
  origin _ := 0
  buffers _ := none
  procDir := none
  procFiles _ := none
  protectEnabeled := false
  nlSk := false
  rules := .initial id ()

/-- Only the netlink socket cannot be opened. -/
def noSocket : LoadOutcomes := ⟨true, fun _ => true, true, fun _ => true, false⟩

/-- When the socket cannot be opened `lkm_init` fails with the table patched. -/
theorem hooks_stay_after_failure : ¬ LoadsCompletely i386 noSocket unloaded := by
  rintro ⟨ret, loaded, ran, _, failed⟩
  obtain ⟨_, _, again, opens, _⟩ := lkmInit_returns (b := i386) (o := noSocket) (s := unloaded) rfl
  obtain ⟨rfl, rfl⟩ := ran.unique again
  have fails : ret ≠ 0 := mt opens.answer.mp (by decide)
  have restored := ((failed fails).untouched opens).1 .mkdir
  exact absurd restored (by decide)

end Completeness

end Load

end FsProtection
