import FsProtection.Base.Holds
import FsProtection.Load.State

/-!
# The parts of loading

What the table, the buffers and `/proc` are after each of the calls `lkm_init` and
`lkm_exit` are made of.
-/

namespace FsProtection

open Base

namespace Load

variable {σ : Type}

section Table

variable {b : Build} {handler : Hooked → UInt32} {calls : List Hooked} {call : Hooked}
  {table : Nat → UInt32} {number : Nat} {s : LoadState σ}

/-- A table with the entries of some calls replaced. -/
def overlay (b : Build) (handler : Hooked → UInt32) (calls : List Hooked)
    (table : Nat → UInt32) : Nat → UInt32 :=
  calls.foldl (fun table call => Function.update table (b.nr call) (handler call)) table

/-- Entries of other calls stay as they are. -/
theorem overlay_elsewhere (apart : ∀ call ∈ calls, number ≠ b.nr call) :
    overlay b handler calls table number = table number := by
  induction calls generalizing table with
  | nil => rfl
  | cons call rest ih =>
      refine (ih fun other member => apart other (List.mem_cons_of_mem _ member)).trans ?_
      exact Function.update_of_ne (apart call (by simp)) ..

theorem overlay_nr (member : call ∈ calls) :
    overlay b handler calls table (b.nr call) = handler call := by
  induction calls generalizing table with
  | nil => cases member
  | cons first rest ih =>
      by_cases later : call ∈ rest
      · exact ih later
      · obtain rfl := (List.mem_cons.mp member).resolve_right later
        have last : ∀ other ∈ rest, b.nr call ≠ b.nr other :=
          fun other isLater same => later (b.distinct same ▸ isLater)
        exact (overlay_elsewhere last).trans (Function.update_self ..)

/-- Entries put back into a table that is otherwise the same make it what it was. -/
theorem overlay_restores {first : Nat → UInt32} (saved : ∀ call, handler call = first (b.nr call))
    (same : ∀ number, (∀ call, number ≠ b.nr call) → table number = first number) :
    overlay b handler Hooked.all table = first := by
  funext number
  by_cases hooked : ∃ call, number = b.nr call
  · obtain ⟨call, rfl⟩ := hooked
    rw [overlay_nr call.mem_all, saved]
  · have apart : ∀ call, number ≠ b.nr call := fun call isHooked => hooked ⟨call, isHooked⟩
    rw [overlay_elsewhere fun call _ => apart call, same number apart]

/-- Patching changes nothing exactly when the handlers are in the table already. -/
theorem overlay_eq_self_iff :
    overlay b handler Hooked.all table = table ↔ ∀ call, table (b.nr call) = handler call := by
  constructor
  · intro same call
    have patched : overlay b handler Hooked.all table (b.nr call) = handler call :=
      overlay_nr call.mem_all
    rw [← patched, same]
  · intro installed
    exact overlay_restores (fun call => (installed call).symm) fun _ _ => rfl

/-- The bit that `clear_and_return_cr0` clears is the one that protects the table. -/
theorem cleared_writeProtect (cr0 : UInt32) : cr0 &&& 0xfffeffff &&& writeProtect = 0 := by
  have disjoint : (0xfffeffff : UInt32) &&& writeProtect = 0 := by decide
  rw [UInt32.and_assoc, disjoint, UInt32.and_zero]

theorem clearAndReturnCr0_returns :
    Returns clearAndReturnCr0 s s.cr0 (withCr0 (s.cr0 &&& 0xfffeffff) s) := by
  simp [clearAndReturnCr0, returns_bind_iff]

/-- The handlers of the calls are saved, -/
theorem saveEntries_returns (known : s.syscallTable = true) :
    Returns (saveEntries b calls) s () { s with
      origin := fun call => if call ∈ calls then s.table (b.nr call) else s.origin call } := by
  induction calls generalizing s with
  | nil => exact returns_pure_iff.mpr ⟨rfl, by simp⟩
  | cons call rest ih =>
      have loaded : Returns (loadEntry (b.nr call)) s (s.table (b.nr call)) s := by
        simp [loadEntry, returns_bind_iff, known]
      have saved : Returns (saveEntries b rest) _ () _ :=
        ih (s := { s with origin := Function.update s.origin call (s.table (b.nr call)) }) known
      have ran : Returns (saveEntries b (call :: rest)) s () _ :=
        (loaded.bind returns_modify).bind saved
      convert ran using 3 with other
      by_cases isCall : other = call <;> simp [isCall]

/-- and others stored over them once CR0 allows it. -/
theorem storeEntries_returns (known : s.syscallTable = true)
    (writable : s.cr0 &&& writeProtect = 0) :
    Returns (storeEntries b handler calls) s ()
      { s with table := overlay b handler calls s.table } := by
  induction calls generalizing s with
  | nil => exact returns_pure_iff.mpr ⟨rfl, rfl⟩
  | cons call rest ih =>
      have stored : Returns (storeEntry (b.nr call) (handler call)) s ()
          { s with table := Function.update s.table (b.nr call) (handler call) } := by
        simp [storeEntry, returns_bind_iff, known, writable]
      exact stored.bind (ih known writable)

end Table

section Buffers

variable {o : LoadOutcomes} {base : Nat → Option (Node Bytes)} {s : LoadState σ}
  {held : List Buffer}

/-- Only the area and the globals that point to buffers are changed. -/
def withBuffers (s : LoadState σ) (area : Heap Bytes) (buffers : Buffer → Pointer) :
    LoadState σ :=
  { s with area := area, buffers := buffers }

/-- Over what was there before, the area has the blocks of some buffers, those whose
allocation succeeded. -/
structure Allocated (o : LoadOutcomes) (base : Nat → Option (Node Bytes)) (s : LoadState σ)
    (held : List Buffer) : Prop where
  holds : Holds base s.area s.buffers held
  isSome : ∀ which ∈ held, (s.buffers which).isSome = o.vmalloc which

theorem returns_onArea {Value : Type} {program : Program (Heap Bytes) Fault Value}
    {value : Value} {area : Heap Bytes} (ran : Returns program s.area value area) :
    Returns (onArea program) s value (withBuffers s area s.buffers) :=
  returns_onPart_iff.mpr ⟨area, ran, rfl⟩

/-- A buffer that is allocated is held by its variable. -/
theorem vmalloc_returns (which : Buffer) (allocated : Allocated o base s held)
    (unheld : which ∉ held) :
    ∃ area buffers, Returns (vmalloc o which) s () (withBuffers s area buffers) ∧
      Allocated o base (withBuffers s area buffers) (which :: held) := by
  have kept : ∀ pointer, ∀ other ∈ held,
      Function.update s.buffers which pointer other = s.buffers other := by
    intro pointer other member
    have apart : other ≠ which := fun same => unheld (same ▸ member)
    exact Function.update_of_ne apart ..
  have isSome : ∀ pointer : Pointer, pointer.isSome = o.vmalloc which → ∀ other ∈ which :: held,
      (Function.update s.buffers which pointer other).isSome = o.vmalloc other := by
    intro pointer got other member
    rcases List.mem_cons.mp member with rfl | member
    · rw [Function.update_self, got]
    · rw [kept pointer other member, allocated.isSome other member]
  by_cases succeeds : o.vmalloc which = true
  · have gotBlock : Returns (onArea (Heap.malloc bufferBlock)) s s.area.fresh
        (withBuffers s (s.area.grow bufferBlock) s.buffers) :=
      returns_onArea (Heap.returns_malloc_iff.mpr ⟨rfl, rfl⟩)
    refine ⟨s.area.grow bufferBlock, Function.update s.buffers which (some s.area.fresh),
      ?_, ?_, ?_⟩
    · rw [vmalloc, if_pos succeeds]
      exact gotBlock.bind returns_modify
    · exact (allocated.holds.congr (kept _)).grow (Function.update_self ..) bufferBlock
    · exact isSome _ (by simp [succeeds])
  · refine ⟨s.area, Function.update s.buffers which none, ?_, ?_, ?_⟩
    · rw [vmalloc, if_neg succeeds]
      exact returns_modify
    · exact (Holds.cons_null_iff (Function.update_self ..)).mpr (allocated.holds.congr (kept _))
    · exact isSome _ (by simp [succeeds])

/-- After the four calls of `vmalloc` each buffer is allocated as its call succeeded. -/
theorem allocateBuffers_returns (o : LoadOutcomes) (s : LoadState σ) :
    ∃ area buffers, Returns (allocateBuffers o) s () (withBuffers s area buffers) ∧
      Allocated o s.area.cell (withBuffers s area buffers) Buffer.all.reverse := by
  have noneYet : Allocated o s.area.cell s [] := ⟨.nil, fun _ member => by cases member⟩
  obtain ⟨_, _, first, data⟩ := vmalloc_returns .data noneYet (by decide)
  obtain ⟨_, _, second, ctrlData⟩ := vmalloc_returns .ctrlData data (by decide)
  obtain ⟨_, _, third, notiData⟩ := vmalloc_returns .notiData ctrlData (by decide)
  obtain ⟨area, buffers, fourth, rawData⟩ := vmalloc_returns .rawData notiData (by decide)
  exact ⟨area, buffers, first.bind (second.bind (third.bind fourth)), rawData⟩

/-- The check of `init_communicate` finds whether the buffers it looks at are there. -/
theorem Allocated.missing_iff (allocated : Allocated o base s Buffer.all.reverse) :
    (s.buffers .data = none ∨ s.buffers .ctrlData = none ∨ s.buffers .notiData = none) ↔
      o.buffered = false := by
  have got : ∀ which, s.buffers which = none ↔ o.vmalloc which = false := by
    intro which
    rw [← allocated.isSome which which.mem_reverse, Option.isSome_eq_false_iff,
      Option.isNone_iff_eq_none]
  simp only [got, LoadOutcomes.buffered, Bool.and_eq_false_iff, or_assoc]

theorem memset_returns (which : Buffer) (allocated : Allocated o base s held)
    (member : which ∈ held) (succeeds : o.vmalloc which = true) :
    ∃ area, Returns (memset which) s () (withBuffers s area s.buffers) ∧
      Allocated o base (withBuffers s area s.buffers) held := by
  obtain ⟨address, points⟩ :=
    Option.isSome_iff_exists.mp ((allocated.isSome which member).trans succeeds)
  have live := (allocated.holds.live which member address points).2
  refine ⟨s.area.put address bufferBlock, ?_, ?_, allocated.isSome⟩
  · refine (returns_get_iff.mpr ⟨rfl, rfl⟩).bind ?_
    rw [points]
    exact returns_onArea (Heap.returns_store live)
  · exact allocated.holds.put member points bufferBlock

/-- With all its buffers there, they are cleared. -/
theorem clearBuffers_returns (allocated : Allocated o base s Buffer.all.reverse)
    (buffered : o.buffered = true) :
    ∃ area, Returns clearBuffers s () (withBuffers s area s.buffers) ∧
      Allocated o base (withBuffers s area s.buffers) Buffer.all.reverse := by
  simp only [LoadOutcomes.buffered, Bool.and_eq_true] at buffered
  obtain ⟨⟨hasData, hasCtrl⟩, hasNoti⟩ := buffered
  obtain ⟨_, first, data⟩ := memset_returns .data allocated (by decide) hasData
  obtain ⟨_, second, ctrlData⟩ := memset_returns .ctrlData data (by decide) hasCtrl
  obtain ⟨area, third, notiData⟩ := memset_returns .notiData ctrlData (by decide) hasNoti
  exact ⟨area, first.bind (second.bind third), notiData⟩

/-- A buffer that is freed is held no more. -/
theorem vfree_returns (which : Buffer) (holds : Holds base s.area s.buffers (which :: held))
    (unheld : which ∉ held) :
    ∃ area, Returns (vfree which) s () (withBuffers s area s.buffers) ∧
      Holds base area s.buffers held := by
  cases points : s.buffers which with
  | none =>
      refine ⟨s.area, ?_, (Holds.cons_null_iff points).mp holds⟩
      simp [vfree, returns_bind_iff, points, withBuffers]
  | some address =>
      have live := (holds.live which (by simp) address points).2
      refine ⟨s.area.drop address, ?_, holds.drop unheld points⟩
      refine (returns_get_iff.mpr ⟨rfl, rfl⟩).bind ?_
      rw [points]
      exact returns_onArea (Heap.returns_free live)

/-- After the four calls of `vfree` the area is as it was below the buffers. -/
theorem freeBuffers_returns (holds : Holds base s.area s.buffers Buffer.all) :
    ∃ area, Returns freeBuffers s () (withBuffers s area s.buffers) ∧ area.cell = base := by
  obtain ⟨first, ranFirst, afterData⟩ := vfree_returns .data holds (by decide)
  obtain ⟨second, ranSecond, afterCtrl⟩ :=
    vfree_returns .ctrlData (s := withBuffers s first s.buffers) afterData (by decide)
  obtain ⟨third, ranThird, afterNoti⟩ :=
    vfree_returns .notiData (s := withBuffers s second s.buffers) afterCtrl (by decide)
  obtain ⟨area, ranFourth, afterRaw⟩ :=
    vfree_returns .rawData (s := withBuffers s third s.buffers) afterNoti (by decide)
  refine ⟨area, ranFirst.bind (ranSecond.bind (ranThird.bind ranFourth)), ?_⟩
  funext address
  exact afterRaw.rest address fun _ member => by cases member

end Buffers

section Proc

variable {o : LoadOutcomes} {s : LoadState σ} {file other : ProcFile}

/-- What the proc entries have no part in. -/
def core (s : LoadState σ) :=
  (s.table, s.syscallTable, s.origin, s.rules, s.area, s.buffers)

/-- The entries of the module. -/
def moduleEntries : List ProcPath :=
  [[procDirName], [procDirName, ProcFile.protect.name], [procDirName, ProcFile.ctrl.name],
    [procDirName, ProcFile.noti.name]]

/-- The state after the three calls of `create_proc_entry`. -/
def withProcFiles (o : LoadOutcomes) (s : LoadState σ) : LoadState σ :=
  withProcFile o .noti (withProcFile o .ctrl (withProcFile o .protect s))

/-- The state after the three calls of `remove_proc_entry`. -/
def withoutProcFiles (s : LoadState σ) : LoadState σ :=
  withoutProcFile .noti (withoutProcFile .ctrl (withoutProcFile .protect s))

theorem withProcFile_eq_none_iff :
    (withProcFile o file s).procFiles file = none ↔ o.createProcEntry file = false := by
  unfold withProcFile
  split <;> simp_all

theorem withProcFile_ne (apart : other ≠ file) :
    (withProcFile o file s).procFiles other = s.procFiles other := by
  unfold withProcFile
  split <;> exact Function.update_of_ne apart ..

@[simp] theorem withProcFile_procDir : (withProcFile o file s).procDir = s.procDir := by
  unfold withProcFile
  split <;> rfl

@[simp] theorem withProcFile_core : core (withProcFile o file s) = core s := by
  unfold withProcFile
  split <;> rfl

/-- A file is missing exactly when it could not be created. -/
theorem withProcFiles_eq_none_iff :
    (withProcFiles o s).procFiles file = none ↔ o.createProcEntry file = false := by
  cases file with
  | protect =>
      rw [withProcFiles, withProcFile_ne (by decide), withProcFile_ne (by decide),
        withProcFile_eq_none_iff]
  | ctrl => rw [withProcFiles, withProcFile_ne (by decide), withProcFile_eq_none_iff]
  | noti => exact withProcFile_eq_none_iff

/-- A new entry in the directory is one of the module's. -/
theorem withProcFile_procEntries (inDir : s.procDir = some [procDirName])
    {before : Finset ProcPath}
    (known : ∀ path ∈ s.procEntries, path ∈ before ∨ path ∈ moduleEntries) :
    ∀ path ∈ (withProcFile o file s).procEntries, path ∈ before ∨ path ∈ moduleEntries := by
  intro path member
  unfold withProcFile at member
  split at member
  · rcases Finset.mem_insert.mp member with rfl | old
    · rw [inDir]
      cases file <;> exact .inr (by simp [procEntry, moduleEntries])
    · exact known path old
  · exact known path member

theorem serve_returns (there : s.procFiles file ≠ none) :
    Returns (serve file) s () { s with served := Function.update s.served file true } := by
  simp [serve, returns_bind_iff, Option.isSome_iff_ne_none, there]

/-- When an entry is missing the module's files are removed, and nothing else is. -/
theorem serveProcFiles_fails (missing : s.procFiles file = none) :
    Returns serveProcFiles s (-1) (withoutProcFiles s) := by
  have fails : s.procFiles .protect = none ∨ s.procFiles .ctrl = none ∨
      s.procFiles .noti = none := by
    cases file with
    | protect => exact .inl missing
    | ctrl => exact .inr (.inl missing)
    | noti => exact .inr (.inr missing)
  refine (returns_get_iff.mpr ⟨rfl, rfl⟩).bind ?_
  rw [if_pos fails]
  exact returns_modify.bind (returns_modify.bind (returns_modify.bind
    (returns_pure_iff.mpr ⟨rfl, rfl⟩)))

/-- Files that are there are served. -/
theorem serveProcFiles_serves (there : ∀ file, s.procFiles file ≠ none) :
    ∃ served, Returns serveProcFiles s 0 { s with served := served, protectEnabeled := true } := by
  have first : Returns (serve .protect) s () _ := serve_returns (there .protect)
  have second : Returns (serve .ctrl)
      { s with served := Function.update s.served .protect true } () _ :=
    serve_returns (there .ctrl)
  refine ⟨Function.update (Function.update s.served .protect true) .ctrl true,
    (returns_get_iff.mpr ⟨rfl, rfl⟩).bind ?_⟩
  rw [if_neg (by simp [there])]
  exact first.bind (second.bind (returns_modify.bind (returns_pure_iff.mpr ⟨rfl, rfl⟩)))

theorem withProcDir_made (mkdir : o.procMkdir = true) : withProcDir o s =
    { s with
      procEntries := insert [procDirName] s.procEntries
      procDir := some [procDirName] } :=
  if_pos mkdir

theorem withProcDir_core : core (withProcDir o s) = core s := by
  unfold withProcDir
  split <;> rfl

theorem withProcFiles_core : core (withProcFiles o s) = core s := by
  simp [withProcFiles]

/-- With the directory made, the rest is the files and the check of them. -/
theorem createProc_returns (mkdir : o.procMkdir = true) {ret : Int32} {after : LoadState σ}
    (ran : Returns serveProcFiles (withProcFiles o (withProcDir o s)) ret after) :
    Returns (createProc o) s ret after := by
  refine returns_modify.bind ((returns_get_iff.mpr ⟨rfl, rfl⟩).bind ?_)
  rw [if_neg (by simp [withProcDir_made mkdir])]
  exact returns_modify.bind (returns_modify.bind (returns_modify.bind ran))

/-- The rest of `init_communicate` succeeds when all entries are created. -/
theorem createProc_succeeds (created : o.created = true) :
    ∃ after, Returns (createProc o) s 0 after ∧ core after = core s ∧
      after.procDir = some [procDirName] ∧
      ∀ path ∈ after.procEntries, path ∈ s.procEntries ∨ path ∈ moduleEntries := by
  simp only [LoadOutcomes.created, Bool.and_eq_true] at created
  obtain ⟨mkdir, ⟨protect, ctrl⟩, noti⟩ := created
  have there : ∀ file, (withProcFiles o (withProcDir o s)).procFiles file ≠ none := by
    intro file missing
    have failed := withProcFiles_eq_none_iff.mp missing
    cases file <;> simp_all
  have inDir : (withProcDir o s).procDir = some [procDirName] := by
    rw [withProcDir_made mkdir]
  have known : ∀ path ∈ (withProcDir o s).procEntries,
      path ∈ s.procEntries ∨ path ∈ moduleEntries := by
    intro path member
    rw [withProcDir_made mkdir] at member
    rcases Finset.mem_insert.mp member with rfl | old
    · exact .inr (by simp [moduleEntries])
    · exact .inl old
  obtain ⟨served, ran⟩ := serveProcFiles_serves there
  refine ⟨_, createProc_returns mkdir ran, withProcFiles_core.trans withProcDir_core, ?_, ?_⟩
  · simp [withProcFiles, inDir]
  · exact withProcFile_procEntries (by simp [inDir])
      (withProcFile_procEntries (by simp [inDir]) (withProcFile_procEntries inDir known))

/-- The error path of the files does not remove the directory they are in. -/
theorem withoutProcFiles_dir (mkdir : o.procMkdir = true) : [procDirName] ∈
    (withoutProcFiles (withProcFiles o (withProcDir o s))).procEntries := by
  have inDir : (withProcDir o s).procDir = some [procDirName] := by
    rw [withProcDir_made mkdir]
  have kept : ∀ file (before : LoadState σ), [procDirName] ∈ before.procEntries →
      [procDirName] ∈ (withProcFile o file before).procEntries := by
    intro file before there
    unfold withProcFile
    split
    · exact Finset.mem_insert_of_mem there
    · exact there
  have made : [procDirName] ∈ (withProcFiles o (withProcDir o s)).procEntries := by
    refine kept _ _ (kept _ _ (kept _ _ ?_))
    rw [withProcDir_made mkdir]
    exact Finset.mem_insert_self _ _
  simpa [withoutProcFiles, withoutProcFile, procEntry, withProcFiles, inDir] using made

/-- It fails when one is not, and leaves the directory if it made it. -/
theorem createProc_fails (missing : o.created = false) :
    ∃ after, Returns (createProc o) s (-1) after ∧ core after = core s ∧
      (o.procMkdir = true → [procDirName] ∈ after.procEntries) := by
  by_cases mkdir : o.procMkdir = true
  · have absent : ∃ file, o.createProcEntry file = false := by
      by_contra all
      simp only [not_exists, Bool.not_eq_false] at all
      simp [LoadOutcomes.created, mkdir, all] at missing
    obtain ⟨file, failed⟩ := absent
    have notServed : Returns serveProcFiles (withProcFiles o (withProcDir o s)) (-1) _ :=
      serveProcFiles_fails (withProcFiles_eq_none_iff.mpr failed)
    exact ⟨_, createProc_returns mkdir notServed,
      withProcFiles_core.trans withProcDir_core, withoutProcFiles_dir⟩
  · have notMade : (withProcDir o s).procDir = none := by
      rw [withProcDir, if_neg mkdir]
    have ran : Returns (createProc o) s (-1) (withoutProcDir (withProcDir o s)) := by
      refine returns_modify.bind ((returns_get_iff.mpr ⟨rfl, rfl⟩).bind ?_)
      rw [if_pos notMade]
      exact returns_modify.bind (returns_pure_iff.mpr ⟨rfl, rfl⟩)
    exact ⟨_, ran, withProcDir_core, fun made => absurd made mkdir⟩

end Proc

end Load

end FsProtection
