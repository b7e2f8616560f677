import FsProtection.Communicate.Serial

/-!
# What handlers side by side act on

However calls of the write handlers overlap, a call acts on the text that was copied last, cut
where a NUL was put since. A board keeps what is known of the buffer, and says where it is known
what a call does.
-/

namespace FsProtection

open Base

variable {σ : Type}

/-- What is known of the string in the buffer: what it begins with, or all of it. -/
inductive Posted where
  | begins (bytes : Bytes)
  | whole (text : Bytes)
deriving DecidableEq

namespace Posted

/-- A copy of `cnt` bytes, with zeros for those that could not be read. -/
def copied (buffer : Bytes) (cnt : Nat) : Posted :=
  let bytes := (buffer.take cnt ++ List.replicate (cnt - buffer.length) 0).take bufferSize
  if 0 ∈ bytes then .whole (cstr bytes) else .begins bytes

/-- A NUL at `cnt`. -/
def terminated (posted : Posted) (cnt : Nat) : Posted :=
  match posted with
  | .begins bytes => if cnt ≤ bytes.length then .whole (bytes.take cnt) else .begins bytes
  | .whole text => .whole (text.take cnt)

/-- The buffer is as is known. -/
def Holds (raw : SizedBytes bufferSize) : Posted → Prop
  | .begins bytes => 0 ∉ bytes ∧ bytes <+: raw.1
  | .whole text => 0 ∉ text ∧ text ++ [0] <+: raw.1

variable {raw : SizedBytes bufferSize} {text : Bytes}

theorem Holds.reads (holds : Holds raw (.whole text)) :
    Terminated raw.1 ∧ cstr raw.1 = text := by
  obtain ⟨clean, rest, isRaw⟩ := holds
  rw [← isRaw, List.append_assoc]
  exact ⟨by simp [Terminated], cstr_append_zero clean rest⟩

theorem holds_copied (raw : SizedBytes bufferSize) (buffer : Bytes) (cnt : Nat) :
    Holds (copiedRaw raw buffer cnt) (copied buffer cnt) := by
  unfold copied copiedRaw SizedBytes.overwrite
  dsimp only
  generalize (buffer.take cnt ++ List.replicate (cnt - buffer.length) 0) = bytes
  split
  · next ended =>
      obtain ⟨rest, split⟩ := terminated_split ended
      have starts : cstr (bytes.take bufferSize) ++ [0] <+: bytes.take bufferSize :=
        ⟨rest, by rw [List.append_assoc, List.singleton_append, ← split]⟩
      exact ⟨zero_notMem_cstr, starts.trans (List.prefix_append _ _)⟩
  · next clean => exact ⟨clean, List.prefix_append _ _⟩

theorem Holds.terminated {posted : Posted} {cnt : Nat} (holds : Holds raw posted)
    (inside : cnt < bufferSize) :
    Holds (raw.setByte ⟨cnt, inside⟩ 0) (posted.terminated cnt) := by
  have length : cnt < raw.1.length := by simpa using inside
  have cut : raw.1.set cnt 0 = raw.1.take cnt ++ 0 :: raw.1.drop (cnt + 1) :=
    by rw [List.set_eq_take_append_cons_drop, if_pos length]
  have early : ∀ {bytes : Bytes}, bytes <+: raw.1 → cnt ≤ bytes.length →
      bytes.take cnt ++ [0] <+: raw.1.set cnt 0 := by
    rintro bytes ⟨rest, isRaw⟩ short
    have same : raw.1.take cnt = bytes.take cnt := by
      rw [← isRaw, List.take_append_of_le_length short]
    rw [cut, same]
    exact ⟨raw.1.drop (cnt + 1), by simp⟩
  have late : ∀ {bytes : Bytes}, bytes <+: raw.1 → bytes.length ≤ cnt →
      bytes <+: raw.1.set cnt 0 := by
    rintro bytes ⟨rest, isRaw⟩ long
    rw [← isRaw, List.set_append_right _ _ long]
    exact List.prefix_append _ _
  cases posted with
  | begins bytes =>
      obtain ⟨clean, isBytes⟩ := holds
      by_cases short : cnt ≤ bytes.length
      · rw [Posted.terminated, if_pos short]
        exact ⟨fun member => clean (List.mem_of_mem_take member), early isBytes short⟩
      · rw [Posted.terminated, if_neg short]
        exact ⟨clean, late isBytes (by omega)⟩
  | whole text =>
      obtain ⟨clean, isText⟩ := holds
      refine ⟨fun member => clean (List.mem_of_mem_take member), ?_⟩
      rcases Nat.lt_or_ge text.length cnt with long | short
      · rw [List.take_of_length_le (by omega)]
        exact late isText (by simpa [Nat.add_one_le_iff] using long)
      · exact early ((List.prefix_append _ _).trans isText) short

theorem whole_terminated {nul : Nat} (long : text.length ≤ nul) :
    (whole text).terminated nul = whole text := by
  rw [terminated, List.take_of_length_le long]

/-- NULs that come to stand in no known byte. -/
theorem foldl_terminated {nuls : List Nat} (outside : ∀ nul ∈ nuls, text.length ≤ nul) :
    nuls.foldl terminated (whole text) = whole text ∧
      nuls.foldl terminated (begins text) =
        if text.length ∈ nuls then whole text else begins text := by
  induction nuls with
  | nil => exact ⟨rfl, rfl⟩
  | cons nul rest ih =>
      have long := outside nul List.mem_cons_self
      obtain ⟨whole, begins⟩ := ih fun other member => outside other (List.mem_cons_of_mem _ member)
      rw [List.foldl_cons, List.foldl_cons, whole_terminated long, terminated]
      refine ⟨whole, ?_⟩
      by_cases same : nul = text.length
      · rw [if_pos (by omega), same, List.take_length, whole, if_pos List.mem_cons_self]
      · rw [if_neg (by omega), begins]
        simp [Ne.symm same]

/-- A call acts on its own text when it is the last to copy and no NUL comes to stand in its
text. -/
theorem own_text {buffer : Bytes} {cnt : Nat} {nuls : List Nat} (full : cnt ≤ buffer.length)
    (inside : cnt < bufferSize) (own : cnt ∈ nuls)
    (outside : ∀ nul ∈ nuls, (cstr (buffer.take cnt)).length ≤ nul) :
    nuls.foldl terminated (copied buffer cnt) = whole (cstr (buffer.take cnt)) := by
  have taken : (buffer.take cnt).length = cnt := by simp [full]
  have copiedText : (buffer.take cnt ++ List.replicate (cnt - buffer.length) 0).take bufferSize =
      buffer.take cnt := by
    rw [Nat.sub_eq_zero_of_le full, List.replicate_zero, List.append_nil,
      List.take_of_length_le (by omega)]
  unfold copied
  rw [copiedText]
  dsimp only
  split
  · exact (foldl_terminated outside).1
  · next clean =>
      rw [cstr_of_clean clean] at outside ⊢
      rw [(foldl_terminated outside).2, if_pos (by rwa [taken])]

end Posted

/-- The handlers as a board: what is on it, the rules and the switch. -/
structure Board where
  posted : Posted
  rules : List FileNode
  enabled : Bool
deriving DecidableEq

namespace Board

/-- What a command leaves. -/
def obey (board : Board) : Option Command → Board
  | none => board
  | some .refresh | some .clear => { board with rules := [] }
  | some .disable => { board with enabled := false }
  | some .enable => { board with enabled := true }

/-- An access, where it is known what it does: a NUL goes into the buffer, the text acted on is
there to its end, and one of rules parses and fits the scratch copy. -/
def perform (k : Kernel σ) (paths : Bytes → Option InodeAddr) :
    (access : RawAccess) → Program Board Unit access.Answer
  | .copyToRaw buffer cnt => do
      modify fun board => { board with posted := .copied buffer cnt }
      return cnt - buffer.length
  | .terminateRaw cnt =>
      if cnt < bufferSize then
        modify fun board => { board with posted := board.posted.terminated cnt }
      else
        throw ()
  | .act handler => do
      let board ← get
      match board.posted, handler with
      | .begins _, _ => throw ()
      | .whole text, .protect =>
          if text.length < k.vmallocRoom sizeofPointer ∧ Parses paths (textLines text) then
            set { board with rules := parseLines paths (textLines text) }
          else
            throw ()
      | .whole text, .ctrl => set (board.obey (commandOf text))
  | .destroyRoot => modify fun board => { board with rules := [] }

/-- The same handlers, over the board. -/
def writes (k : Kernel σ) (paths : Bytes → Option InodeAddr) :
    Service ProcWrite σ Board Unit Int RawAccess.Answer where
  script := ProcWrite.script
  perform := perform k paths
  elsewhere _ board := board

/-- The board shows the globals. -/
structure Shows (opens : σ → Bytes → Option InodeAddr) (paths : Bytes → Option InodeAddr)
    (s : ProcState σ) (board : Board) : Prop where
  posted : board.posted.Holds s.globals.rawDataBuff
  rules : s.globals.fileListRoot = board.rules
  enabled : s.globals.protectEnabeled = board.enabled
  cleared : s.globals.dataBuf = SizedBytes.zeros bufferSize
  paths : opens s.outside = paths

section Simulation

variable {k : Kernel σ} {opens : σ → Bytes → Option InodeAddr}
  {paths : Bytes → Option InodeAddr} {s : ProcState σ} {board later : Board}

theorem Shows.obey (shows : Shows opens paths s board) (command : Option Command) :
    Shows opens paths (s.obey command) (board.obey command) := by
  obtain ⟨posted, rules, enabled, cleared, sees⟩ := shows
  rcases command with _ | _ | _ | _ | _
  · exact ⟨posted, rules, enabled, cleared, sees⟩
  · exact ⟨posted, rfl, enabled, cleared, sees⟩
  · exact ⟨posted, rfl, enabled, cleared, sees⟩
  · exact ⟨posted, rules, rfl, cleared, sees⟩
  · exact ⟨posted, rules, rfl, cleared, sees⟩

/-- A call that acts on a text that is known. -/
theorem Shows.act (shows : Shows opens paths s board) (view : PathView k opens)
    {handler : ProcHandler} {answer : Unit}
    (ran : Returns (perform k paths (.act handler)) board answer later) :
    ∃ after, Returns (RawAccess.perform k (.act handler)) s answer after ∧
      Shows opens paths after later := by
  rw [perform, returns_bind_of_returns (returns_get_iff.mpr ⟨rfl, rfl⟩)] at ran
  cases known : board.posted with
  | begins bytes => simp [known] at ran
  | whole text =>
      have holds := shows.posted
      rw [known] at holds ran
      obtain ⟨terminated, isText⟩ := holds.reads
      cases handler with
      | protect =>
          dsimp only at ran
          split at ran
          · next fits =>
              obtain ⟨room, parses⟩ := fits
              obtain rfl := returns_set_iff.mp ran
              rw [← isText, ← shows.paths] at parses
              rw [← isText] at room
              obtain ⟨outside, parsed, kept⟩ :=
                createList_returns view [] sizeofPointer terminated room parses
              rw [List.nil_append, shows.paths, isText] at parsed
              refine ⟨_, returns_replaceRules_iff.mpr ⟨_, _, outside, parsed, rfl⟩, ?_⟩
              exact ⟨known ▸ holds, rfl, shows.enabled, shows.cleared, kept.trans shows.paths⟩
          · exact absurd ran returns_throw_iff.mp
      | ctrl =>
          obtain rfl := returns_set_iff.mp ran
          have obeyed := returns_ctrlCommand (k := k) shows.cleared terminated
          rw [isText] at obeyed
          exact ⟨_, obeyed, shows.obey _⟩

theorem Shows.access (shows : Shows opens paths s board) (view : PathView k opens)
    {access : RawAccess} {answer : access.Answer}
    (ran : Returns (perform k paths access) board answer later) :
    ∃ after, Returns (RawAccess.perform k access) s answer after ∧
      Shows opens paths after later := by
  cases access with
  | copyToRaw buffer cnt =>
      obtain ⟨_, _, copied, answered⟩ := returns_bind_iff.mp ran
      obtain rfl := returns_modify_iff.mp copied
      obtain ⟨rfl, rfl⟩ := returns_pure_iff.mp answered
      refine ⟨s.withRaw (copiedRaw s.globals.rawDataBuff buffer cnt), ?_, ?_⟩
      · simp [RawAccess.perform, FsProtection.copyToRaw, ProcState.withRaw, copiedRaw]
      · exact ⟨Posted.holds_copied _ buffer cnt, shows.rules, shows.enabled, shows.cleared,
          shows.paths⟩
  | terminateRaw cnt =>
      rw [perform] at ran
      split at ran
      · next inside =>
          obtain rfl := returns_modify_iff.mp ran
          refine ⟨s.withRaw (s.globals.rawDataBuff.setByte ⟨cnt, inside⟩ 0), ?_, ?_⟩
          · simp [RawAccess.perform, FsProtection.terminateRaw, inside, ProcState.withRaw]
          · exact ⟨shows.posted.terminated inside, shows.rules, shows.enabled, shows.cleared,
              shows.paths⟩
      · exact absurd ran returns_throw_iff.mp
  | act handler => exact shows.act view ran
  | destroyRoot =>
      obtain rfl := returns_modify_iff.mp ran
      exact ⟨s.withRules [], returns_destroyRoot_iff.mpr rfl, shows.posted, rfl, shows.enabled,
        shows.cleared, shows.paths⟩

theorem simulates (view : PathView k opens) :
    (procWrites k).Simulates (writes k paths) (Shows opens paths) where
  script _ := rfl
  access shows ran := shows.access view ran

/-- However the accesses of write handlers are ordered, the globals are as the board says and
the calls have come as far and returned the same, as long as no call acts while the text copied
last has no NUL yet, and texts fit the buffers and parse. -/
theorem handlers_follow_board (view : PathView k opens) {calls : Nat → Option (RawScript Int)}
    (cleared : s.globals.dataBuf = SizedBytes.zeros bufferSize)
    {events : List (CallEvent ProcWrite σ)}
    (sees : ∀ outside, .elsewhere outside ∈ events → opens outside = opens s.outside)
    {told : Running Board Int RawAccess.Answer}
    (ran : execute (writes k (opens s.outside)).step
      ⟨⟨.begins [], s.globals.fileListRoot, s.globals.protectEnabeled⟩, calls⟩ events = .ok told) :
    ∃ after, execute (procWrites k).step ⟨s, calls⟩ events = .ok ⟨after, told.calls⟩ ∧
      told.shared.posted.Holds after.globals.rawDataBuff ∧
      after.globals.fileListRoot = told.shared.rules ∧
      after.globals.protectEnabeled = told.shared.enabled := by
  have start : Shows opens (opens s.outside) s
      ⟨.begins [], s.globals.fileListRoot, s.globals.protectEnabeled⟩ :=
    ⟨⟨List.not_mem_nil, List.nil_prefix⟩, rfl, rfl, cleared, rfl⟩
  obtain ⟨after, executed, shows⟩ := (simulates view).run start (fun outside member s board shows =>
    ⟨shows.posted, shows.rules, shows.enabled, shows.cleared, sees outside member⟩) ran
  exact ⟨after, executed, shows.posted, shows.rules, shows.enabled⟩

end Simulation

/-- Two texts of which the second comes to stand over the first. -/
def twoTexts : List (CallEvent ProcWrite Unit) :=
  [.begins 0 ⟨.protect, lit "/f@r", 4⟩, .begins 1 ⟨.protect, lit "/f@w", 4⟩, .access 0, .access 1,
    .access 0, .access 1, .access 0]

/-- The call that wrote the first installs the second. -/
theorem twoTexts_swapped : ∃ (told : Running Board Int RawAccess.Answer) (after : ProcState Unit),
    execute (procWrites (Kernel.quiet oneFile)).step
      ⟨⟨Globals.initial (SizedBytes.zeros _), ()⟩, fun _ => none⟩ twoTexts =
        .ok ⟨after, told.calls⟩ ∧
      told.shared.posted.Holds after.globals.rawDataBuff ∧
      after.globals.fileListRoot = told.shared.rules ∧
      after.globals.protectEnabeled = told.shared.enabled ∧
      told.shared.rules = [.make (lit "/f") 7 .write] := by
  have installed : (execute (writes (Kernel.quiet oneFile) oneFile).step
      ⟨⟨.begins [], [], true⟩, fun _ => none⟩ twoTexts).toOption.map (fun told =>
        told.shared.rules) = some [.make (lit "/f") 7 .write] := by
    decide +kernel
  cases ran : execute (writes (Kernel.quiet oneFile) oneFile).step
      ⟨⟨.begins [], [], true⟩, fun _ => none⟩ twoTexts with
  | error fault =>
      rw [ran] at installed
      cases installed
  | ok told =>
      rw [ran] at installed
      obtain ⟨after, executed, posted, rules, enabled⟩ := handlers_follow_board
        (k := Kernel.quiet oneFile) (s := ⟨Globals.initial (SizedBytes.zeros _), ()⟩)
        (Kernel.quiet_pathView oneFile) rfl (by simp [twoTexts]) ran
      exact ⟨told, after, executed, posted, rules, enabled, Option.some.inj installed⟩

end Board

end FsProtection
