import FsProtection.Communicate.Accounting

/-!
# The ledger of the handlers

Every scratch copy ever made is still live after each handler, and each node has a block.
-/

namespace FsProtection

open Base

namespace VmState

variable {σ : Type}

section Ledger

variable {k : Kernel σ} {s after : VmState σ} {scratch : List Nat}

/-- Every block is accounted for: the scratch copies are all still live, each node has a
block, and no scratch copy, for each of which the size of a pointer was asked, was given
back. -/
structure Ledger (s : VmState σ) : Prop where
  accounted : s.Accounted (s.uses.map ScratchUse.tmpData)
  listed : s.nodes.length = s.proc.globals.fileListRoot.length
  kept : ∀ use ∈ s.uses, use.sz = sizeofPointer ∧ use.freed ≠ some ⟨use.tmpData, 0⟩

theorem Ledger.initial (raw : SizedBytes bufferSize) (outside : σ) :
    (initial raw outside).Ledger :=
  ⟨.initial raw outside, rfl, fun _ member => absurd member List.not_mem_nil⟩

/-- From one state to the other the ledger was kept, and some scratch copies were made. -/
structure Uses (s : VmState σ) (count : Nat) (after : VmState σ) : Prop where
  ledger : after.Ledger
  count : after.uses.length = s.uses.length + count

theorem Uses.trans {middle : VmState σ} {first second : Nat} (uses : Uses s first middle)
    (goesOn : Uses middle second after) : Uses s (first + second) after :=
  ⟨goesOn.ledger, by rw [goesOn.count, uses.count, Nat.add_assoc]⟩

/-- What a handler does beside the list uses nothing. -/
theorem Ledger.withProc (ledger : s.Ledger) {proc : ProcState σ}
    (same : proc.globals.fileListRoot = s.proc.globals.fileListRoot) :
    Uses s 0 { s with proc := proc } :=
  ⟨⟨⟨ledger.accounted.blocks, ledger.accounted.fresh, ledger.accounted.distinct⟩,
    same ▸ ledger.listed, ledger.kept⟩, rfl⟩

/-- `destroy_list` gives the blocks of the nodes back. -/
theorem destroyRoot_uses (ledger : s.Ledger) (ran : Returns destroyRoot s () after) :
    Uses s 0 after ∧ after.proc = s.proc.withRules [] := by
  have got : Returns (get : VmM σ (VmState σ)) s s s := returns_get_iff.mpr ⟨rfl, rfl⟩
  rw [destroyRoot, returns_bind_of_returns got,
    returns_bind_of_returns (returns_freeNodes s.nodes s)] at ran
  simp only [onProc, returns_bind_iff, returns_modify_iff, returns_onPart_iff,
    returns_destroyRoot_iff] at ran
  obtain ⟨_, _, rfl, _, rfl, rfl⟩ := ran
  have less := erased_sublist s.nodes s.live
  refine ⟨⟨⟨⟨freed_perm ledger.accounted.blocks, fun block member => ?_, ?_⟩, rfl, ledger.kept⟩,
    rfl⟩, rfl⟩
  · exact ledger.accounted.fresh block (less.subset member)
  · exact less.nodup ledger.accounted.distinct

theorem Accounted.congr {other : List Nat} (accounted : s.Accounted scratch)
    (same : scratch.Perm other) : s.Accounted other :=
  ⟨accounted.blocks.trans (same.append_right _), accounted.fresh, accounted.distinct⟩

/-- `create_list` keeps one more block than its nodes. -/
theorem createRoot_uses (ledger : s.Ledger) {rdt : Bytes} {cnt : Nat}
    (ran : Returns (createRoot k rdt) s cnt after) : Uses s 1 after := by
  rw [createRoot, returns_bind_of_returns (returns_onProc_get s)] at ran
  obtain ⟨result, middle, created, ends⟩ := returns_bind_iff.mp ran
  obtain ⟨use, uses, inside, accounted, nodes, globals⟩ :=
    createList_grows created ledger.accounted
  simp only [onProc, returns_bind_iff, returns_onPart_iff, returns_modify_iff,
    returns_pure_iff] at ends
  obtain ⟨_, _, ⟨_, rfl, rfl⟩, _, rfl⟩ := ends
  have listed := ledger.listed
  refine ⟨⟨?_, ?_, ?_⟩, ?_⟩
  · have last : (use.tmpData :: s.uses.map ScratchUse.tmpData).Perm
        (middle.uses.map ScratchUse.tmpData) := by
      rw [uses, List.map_append]
      exact (List.perm_append_singleton _ _).symm
    have same := accounted.congr last
    exact ⟨same.blocks, same.fresh, same.distinct⟩
  · show middle.nodes.length = result.2.length
    omega
  · intro other member
    have member : other ∈ s.uses ++ [use] := uses ▸ member
    rcases List.mem_append.mp member with earlier | last
    · exact ledger.kept other earlier
    · rw [List.mem_singleton.mp last]
      exact inside
  · show middle.uses.length = s.uses.length + 1
    rw [uses, List.length_append, List.length_singleton]

/-- Destroying the list, and parsing a text into the empty one. -/
theorem replace_uses (ledger : s.Ledger) {rdt : ProcState σ → Bytes}
    (ran : Returns (do
      destroyRoot
      let s ← onProc get
      let _ ← createRoot k (rdt s)) s () after) : Uses s 1 after := by
  obtain ⟨_, middle, destroyed, rests⟩ := returns_bind_iff.mp ran
  obtain ⟨freed, _⟩ := destroyRoot_uses ledger destroyed
  rw [returns_bind_of_returns (returns_onProc_get middle)] at rests
  obtain ⟨cnt, last, created, ends⟩ := returns_bind_iff.mp rests
  obtain ⟨_, rfl⟩ := returns_pure_iff.mp ends
  exact freed.trans (createRoot_uses freed.ledger created)

theorem clear_uses (ledger : s.Ledger) (ran : Returns (clear k) s () after) : Uses s 1 after := by
  obtain ⟨_, middle, destroyed, rests⟩ := returns_bind_iff.mp ran
  obtain ⟨freed, _⟩ := destroyRoot_uses ledger destroyed
  obtain ⟨_, cleared, wiped, rests⟩ := returns_bind_iff.mp rests
  simp only [onProc, returns_onPart_iff, returns_modify_iff] at wiped
  obtain ⟨_, rfl, rfl⟩ := wiped
  have moved : Uses middle 0 { middle with proc := { middle.proc with globals :=
      { middle.proc.globals with dataBuf :=
        middle.proc.globals.dataBuf.overwrite (List.replicate sizeofPointer 0) } } } :=
    freed.ledger.withProc rfl
  rw [returns_bind_of_returns (returns_onProc_get _)] at rests
  obtain ⟨cnt, last, created, ends⟩ := returns_bind_iff.mp rests
  obtain ⟨_, rfl⟩ := returns_pure_iff.mp ends
  exact (freed.trans moved).trans (createRoot_uses moved.ledger created)

theorem returns_onProc_startsWith (terminated : Terminated s.proc.globals.rawDataBuff.1)
    {name : String} (clean : (0 : Byte) ∉ lit name) :
    Returns (onProc (rawStartsWith name)) s
      (decide (lit name <+: cstr s.proc.globals.rawDataBuff.1)) s :=
  returns_onPart_iff.mpr ⟨s.proc, returns_rawStartsWith terminated clean, rfl⟩

/-- A command parses a text when it is `refresh` or `clear`. -/
theorem ctrlCommand_uses (ledger : s.Ledger) (terminated : Terminated s.proc.globals.rawDataBuff.1)
    (ran : Returns (ctrlCommand k) s () after) :
    Uses s (if parsesData (commandOf (cstr s.proc.globals.rawDataBuff.1)) then 1 else 0)
      after := by
  have switched : ∀ {enabled : Bool}, after = { s with proc := { s.proc with
      globals := { s.proc.globals with protectEnabeled := enabled } } } → Uses s 0 after := by
    rintro enabled rfl
    exact ledger.withProc rfl
  unfold ctrlCommand at ran
  unfold commandOf
  rw [returns_bind_of_returns (returns_onProc_startsWith terminated (by decide))] at ran
  by_cases isRefresh : lit "refresh" <+: cstr s.proc.globals.rawDataBuff.1
  · rw [if_pos (by simpa using isRefresh)] at ran
    simpa [parsesData, isRefresh] using replace_uses ledger ran
  rw [if_neg (by simpa using isRefresh),
    returns_bind_of_returns (returns_onProc_startsWith terminated (by decide))] at ran
  by_cases isClear : lit "clear" <+: cstr s.proc.globals.rawDataBuff.1
  · rw [if_pos (by simpa using isClear)] at ran
    simpa [parsesData, isRefresh, isClear] using clear_uses ledger ran
  rw [if_neg (by simpa using isClear),
    returns_bind_of_returns (returns_onProc_startsWith terminated (by decide))] at ran
  by_cases isDisable : lit "disable" <+: cstr s.proc.globals.rawDataBuff.1
  · rw [if_pos (by simpa using isDisable)] at ran
    simp only [onProc, disable, returns_onPart_iff, returns_modify_iff] at ran
    obtain ⟨_, rfl, same⟩ := ran
    simpa [parsesData, isRefresh, isClear, isDisable] using switched same
  rw [if_neg (by simpa using isDisable),
    returns_bind_of_returns (returns_onProc_startsWith terminated (by decide))] at ran
  by_cases isEnable : lit "enable" <+: cstr s.proc.globals.rawDataBuff.1
  · rw [if_pos (by simpa using isEnable)] at ran
    simp only [onProc, enable, returns_onPart_iff, returns_modify_iff] at ran
    obtain ⟨_, rfl, same⟩ := ran
    simpa [parsesData, isRefresh, isClear, isDisable, isEnable] using switched same
  · rw [if_neg (by simpa using isEnable), returns_pure_iff] at ran
    obtain ⟨_, rfl⟩ := ran
    have still : Uses after 0 after := ledger.withProc rfl
    simpa [parsesData, isRefresh, isClear, isDisable, isEnable] using still

/-- A handler that gets to the text acts on it in the state the copy left. -/
theorem receive_uses (ledger : s.Ledger) {buffer : Bytes} {count : Nat} {act : VmM σ Unit}
    {ret : Int} (ran : Returns (receive buffer (clampCount count) act) s ret after) :
    (written buffer count = none ∧ Uses s 0 after) ∨
    ∃ text raw, written buffer count = some text ∧ Terminated raw.1 ∧ cstr raw.1 = text ∧
      Uses s 0 { s with proc := s.proc.withRaw raw } ∧
      Returns act { s with proc := s.proc.withRaw raw } () after := by
  obtain ⟨left, middle, copied, continued⟩ := returns_bind_iff.mp ran
  obtain ⟨proc, copy, rfl⟩ := returns_onPart_iff.mp copied
  by_cases short : left ≠ 0
  · rw [if_pos short, returns_pure_iff] at continued
    obtain ⟨rfl, rfl⟩ := continued
    have refused : Returns (FsProtection.receive buffer (clampCount count) (pure ())) s.proc
        (-efault) proc :=
      copy.bind (by rw [if_pos short]; exact returns_pure_iff.mpr ⟨rfl, rfl⟩)
    rcases receive_cases refused with ⟨missed, _, raw, rfl⟩ | ⟨_, _, _, other, _⟩
    · exact .inl ⟨missed, ledger.withProc rfl⟩
    · simp only [efault] at other
      omega
  · rw [if_neg short] at continued
    obtain ⟨_, ended, terminates, acts⟩ := returns_bind_iff.mp continued
    obtain ⟨raw, stored, rfl⟩ := returns_onPart_iff.mp terminates
    obtain ⟨_, last, acted, ends⟩ := returns_bind_iff.mp acts
    obtain ⟨rfl, rfl⟩ := returns_pure_iff.mp ends
    have received : Returns (FsProtection.receive buffer (clampCount count) (pure ())) s.proc
        (clampCount count : Int) raw :=
      copy.bind (by
        rw [if_neg short]
        exact stored.bind ((returns_pure_iff.mpr ⟨rfl, rfl⟩).bind
          (returns_pure_iff.mpr ⟨rfl, rfl⟩)))
    rcases receive_cases received with
      ⟨_, other, _⟩ | ⟨text, raw, delivered, _, full, content, same⟩
    · simp only [efault] at other
      omega
    · obtain ⟨_, rfl⟩ := returns_pure_iff.mp same
      exact .inr ⟨text, raw, delivered, full, content, ledger.withProc rfl, acted⟩

/-- An event makes one scratch copy when it makes its handler parse, and none else. -/
theorem handle_uses (ledger : s.Ledger) {event : ProcEvent σ} {ret : Int}
    (ran : Returns (handle k event) s ret after) :
    Uses s (if event.parses then 1 else 0) after := by
  cases event with
  | protect buffer count =>
      by_cases empty : count = 0
      · simp only [handle, procProtectWrite, if_pos empty] at ran
        obtain ⟨_, middle, destroyed, ends⟩ := returns_bind_iff.mp ran
        obtain ⟨_, rfl⟩ := returns_pure_iff.mp ends
        simpa [ProcEvent.parses, empty] using (destroyRoot_uses ledger destroyed).1
      simp only [handle, procProtectWrite, if_neg empty] at ran
      rcases receive_uses ledger ran with ⟨missed, uses⟩ | ⟨text, raw, delivered, _, _, uses, acted⟩
      · simpa [ProcEvent.parses, missed] using uses
      · simpa [ProcEvent.parses, delivered, empty] using
          uses.trans (replace_uses uses.ledger acted)
  | ctrl buffer count =>
      by_cases empty : count = 0
      · simp only [handle, procCtrlWrite, if_pos empty] at ran
        obtain ⟨_, rfl⟩ := returns_pure_iff.mp ran
        have still : Uses after 0 after := ledger.withProc rfl
        have silent : ProcEvent.command buffer 0 = none := rfl
        simpa [ProcEvent.parses, empty, silent, parsesData] using still
      simp only [handle, procCtrlWrite, if_neg empty] at ran
      rcases receive_uses ledger ran with
        ⟨missed, uses⟩ | ⟨text, raw, delivered, terminated, rfl, uses, acted⟩
      · simpa [ProcEvent.parses, ProcEvent.command, missed, parsesData] using uses
      · have obeyed := uses.trans (ctrlCommand_uses uses.ledger terminated acted)
        rw [Nat.zero_add] at obeyed
        rw [ProcEvent.parses, ProcEvent.command, delivered, Option.bind_some]
        exact obeyed
  | elsewhere next =>
      simp only [handle] at ran
      obtain ⟨proc, moved, rfl⟩ := returns_onPart_iff.mp ran
      simp only [returns_bind_iff, returns_modify_iff, returns_pure_iff] at moved
      obtain ⟨_, _, rfl, _, rfl⟩ := moved
      have still : Uses s 0 { s with proc := { s.proc with outside := next } } :=
        ledger.withProc rfl
      simpa [ProcEvent.parses] using still

end Ledger

end VmState

end FsProtection
