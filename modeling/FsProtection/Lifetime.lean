import Mathlib.Data.List.Forall2
import FsProtection.Communicate.Proc
import FsProtection.Hooks.Table
import FsProtection.Kernel.Inodes

/-!
# What the rules refer to

A node keeps the address of an inode whose file was closed when the node was made. In a
`Session` the turns of the loop of `create_list` are steps of their own, so anything else
may happen between them; writes to the proc files wait until a text is parsed. The
session records for each node which inode `filp_open` returned, and the rules go on
referring to those exactly as long as none of them is evicted.
-/

namespace FsProtection

open Base

/-- A `create_list` between two turns of its loop: `tmp_data`, and the count so far. -/
structure Parsing where
  tmpData : Bytes
  cnt : Nat

/-- The module and the inodes, with a rule text being parsed or not. `made` is a record
only: for each node the inode `filp_open` returned when the node was made. -/
structure Session where
  proc : ProcState Inodes
  parsing : Option Parsing
  made : List (Option Nat)

/-- What may happen: a write to a proc file, a turn of the parser, a hooked call, and
elsewhere in the kernel the close of a file, a deletion or an eviction. -/
inductive Activity where
  | protect (buffer : Bytes) (count : Nat)
  | turn
  | ctrl (buffer : Bytes) (count : Nat)
  | hook (call : Syscall) (userBuf : Bytes)
  | close (file : File)
  | delete (path : Bytes)
  | evict (address : InodeAddr)

/-- `proc_protect_write` up to the loop of `create_list`. -/
def startWrite (buffer : Bytes) (count : Nat) : ProcM Inodes Int := do
  if count = 0 then
    destroyRoot
    return 0
  else
    receive buffer (clampCount count) destroyRoot

namespace Session

def rules (s : Session) : List FileNode := s.proc.globals.fileListRoot

def inodes (s : Session) : Inodes := s.proc.outside

def withInodes (s : Session) (inodes : Inodes) : Session :=
  { s with proc := { s.proc with outside := inodes } }

/-- The session after a handler, which keeps the nodes or destroys them. -/
def withProc (s : Session) (proc : ProcState Inodes) : Session :=
  { s with proc := proc, made := s.made.take proc.globals.fileListRoot.length }

/-- The session after a turn on a line: `state` is the list, `rest` what is left of the
text. -/
def turned (k : Kernel Inodes) (s : Session) (line : Bytes) (state : ListState)
    (rest : Option Bytes) (inodes : Inodes) : Session where
  proc := { s.proc.withRules state.top with outside := inodes }
  parsing := rest.map fun text => ⟨text, state.cnt⟩
  made := s.made ++ (state.top.drop s.rules.length).map fun node =>
    (k.filpOpen (line.takeWhile (· != atSign)) s.inodes).2.serialAt node.inode

/-- `create_list` up to its loop, on the text the write delivered. -/
def startParsing (k : Kernel Inodes) (s : Session) (proc : ProcState Inodes) :
    Except Fault Session :=
  if Terminated proc.globals.rawDataBuff.1 ∧
      (cstr proc.globals.rawDataBuff.1).length < k.vmallocRoom sizeofPointer then
    .ok { s.withProc proc with parsing := some ⟨cstr proc.globals.rawDataBuff.1, 0⟩ }
  else
    .error .overrun

def step (k : Kernel Inodes) (s : Session) : Activity → Except Fault Session
  | .protect buffer count =>
      if s.parsing.isSome then return s
      else do
        let outcome ← (startWrite buffer count).run s.proc
        if outcome.1 ≤ 0 then return s.withProc outcome.2
        else s.startParsing k outcome.2
  | .turn =>
      match s.parsing with
      | none => return s
      | some parsing => do
          let line := parsing.tmpData.takeWhile (· != newline)
          let outcome ← (createListLine k line ⟨s.rules, parsing.cnt⟩).run s.inodes
          let rest := if outcome.1.2.isSome then (strsep (some parsing.tmpData) newline).2 else none
          return s.turned k line outcome.1.1 rest outcome.2
  | .ctrl buffer count =>
      if s.parsing.isSome then return s
      else do
        let outcome ← (procCtrlWrite k buffer count).run s.proc
        return s.withProc outcome.2
  | .hook call userBuf => do
      let outcome ← (modified k s.proc.globals call).run (Machine.start s.inodes userBuf)
      return s.withInodes outcome.2.outside
  | .close file => return s.withInodes (s.inodes.filpClose file)
  | .delete path => return s.withInodes (s.inodes.delete path)
  | .evict address => return s.withInodes (s.inodes.evict address)

/-- The session `init_communicate` leaves. -/
def initial (raw : SizedBytes bufferSize) (inodes : Inodes) : Session where
  proc := ⟨Globals.initial raw, inodes⟩
  parsing := none
  made := []

/-- Every node has the address of an inode in memory, the one `filp_open` returned when
the node was made. -/
def Refers (s : Session) : Prop :=
  List.Forall₂ (fun (node : FileNode) made =>
    ∃ serial, made = some serial ∧ s.inodes.serialAt node.inode = some serial) s.rules s.made

end Session

/-- A run of activities from the state `init_communicate` leaves. -/
def sessionRun (k : Kernel Inodes) (raw : SizedBytes bufferSize) (inodes : Inodes)
    (activities : List Activity) : Except Fault Session :=
  execute (Session.step k) (Session.initial raw inodes) activities

section Steps

variable {k : Kernel Inodes} {s next : Session}

/-- The start of a write touches no inode, and keeps the nodes or destroys them. -/
theorem startWrite_returned {buffer : Bytes} {count : Nat} {before after : ProcState Inodes}
    {ret : Int} (ran : Returns (startWrite buffer count) before ret after) :
    after.outside = before.outside ∧ after.globals.dataBuf = before.globals.dataBuf ∧
      (after.globals.fileListRoot = before.globals.fileListRoot ∨
        after.globals.fileListRoot = []) := by
  unfold startWrite at ran
  by_cases empty : count = 0
  · simp only [if_pos empty, returns_bind_iff, returns_destroyRoot_iff, returns_pure_iff] at ran
    obtain ⟨_, _, rfl, _, rfl⟩ := ran
    exact ⟨rfl, rfl, .inr rfl⟩
  · rw [if_neg empty] at ran
    rcases receive_cases ran with ⟨_, _, raw, rfl⟩ | ⟨text, raw, _, _, _, _, destroyed⟩
    · exact ⟨rfl, rfl, .inl rfl⟩
    · obtain rfl := returns_destroyRoot_iff.mp destroyed
      exact ⟨rfl, rfl, .inr rfl⟩

/-- So does a ctrl write: what `clear` and `refresh` parse is empty. -/
theorem procCtrlWrite_returned {buffer : Bytes} {count : Nat} {before after : ProcState Inodes}
    {ret : Int} (cleared : before.globals.dataBuf = SizedBytes.zeros bufferSize)
    (ran : Returns (procCtrlWrite k buffer count) before ret after) :
    after.outside = before.outside ∧ after.globals.dataBuf = before.globals.dataBuf ∧
      (after.globals.fileListRoot = before.globals.fileListRoot ∨
        after.globals.fileListRoot = []) := by
  rcases procCtrlWrite_cases cleared ran with ⟨_, _, rfl⟩ | ⟨_, _, _, raw, rfl⟩ |
    ⟨_, text, raw, _, _, rfl⟩
  · exact ⟨rfl, rfl, .inl rfl⟩
  · exact ⟨rfl, rfl, .inl rfl⟩
  · rcases commandOf text with _ | command
    · exact ⟨rfl, rfl, .inl rfl⟩
    · cases command with
      | refresh => exact ⟨rfl, rfl, .inr rfl⟩
      | clear => exact ⟨rfl, rfl, .inr rfl⟩
      | disable => exact ⟨rfl, rfl, .inl rfl⟩
      | enable => exact ⟨rfl, rfl, .inl rfl⟩

namespace Session

/-- What holds of every session reached while no node's inode is evicted. -/
structure Holds (s : Session) : Prop where
  cleared : s.proc.globals.dataBuf = SizedBytes.zeros bufferSize
  refers : s.Refers

theorem Refers.length {s : Session} (refers : s.Refers) : s.rules.length = s.made.length :=
  List.Forall₂.length_eq refers

theorem Refers.live {s : Session} (refers : s.Refers) :
    ∀ node ∈ s.rules, ∃ serial, s.inodes.serialAt node.inode = some serial := by
  have split : List.Forall₂ (fun (node : FileNode) (_ : Option Nat) =>
      (∃ serial, s.inodes.serialAt node.inode = some serial) ∧ True) s.rules s.made :=
    refers.imp fun _ _ ⟨serial, _, live⟩ => ⟨⟨serial, live⟩, trivial⟩
  exact ((List.forall₂_and_left _ _).mp split).1

/-- Inodes may come, and those no node has may go. -/
theorem Holds.withInodes {inodes : Inodes} (holds : s.Holds)
    (kept : ∀ node ∈ s.rules, ∀ serial, s.inodes.serialAt node.inode = some serial →
      inodes.serialAt node.inode = some serial) : (s.withInodes inodes).Holds where
  cleared := holds.cleared
  refers := by
    refine ((List.forall₂_and_left _ _).mpr ⟨kept, holds.refers⟩).imp ?_
    rintro node _ ⟨keeps, serial, isMade, live⟩
    exact ⟨serial, isMade, keeps serial live⟩

/-- A handler that touches no inode keeps the nodes' inodes. -/
theorem Holds.withProc {proc : ProcState Inodes} (holds : s.Holds)
    (sameInodes : proc.outside = s.inodes)
    (sameBuf : proc.globals.dataBuf = s.proc.globals.dataBuf)
    (nodes : proc.globals.fileListRoot = s.rules ∨ proc.globals.fileListRoot = []) :
    (s.withProc proc).Holds where
  cleared := sameBuf.trans holds.cleared
  refers := by
    have refers := holds.refers
    unfold Refers Session.withProc Session.rules Session.inodes
    simp only
    rw [sameInodes]
    rcases nodes with same | empty
    · rw [same, refers.length, List.take_length]
      exact refers
    · rw [empty]
      exact .nil

/-- A turn keeps the inodes, and the node it may make has the inode that was opened. -/
theorem Holds.turned (world : InodeKernel k) (holds : s.Holds) {line : Bytes} {cnt : Nat}
    {state : ListState} {pStr1 rest : Option Bytes} {inodes : Inodes}
    (ran : Returns (createListLine k line ⟨s.rules, cnt⟩) s.inodes (state, pStr1) inodes) :
    (s.turned k line state rest inodes).Holds where
  cleared := holds.cleared
  refers := by
    have old : ∀ {next : Inodes}, s.inodes.KeptBy next → List.Forall₂ (fun (node : FileNode) made =>
        ∃ serial, made = some serial ∧ next.serialAt node.inode = some serial) s.rules s.made :=
      fun kept => (holds.withInodes fun node _ serial live => kept _ _ live).refers
    show List.Forall₂ (fun (node : FileNode) made =>
        ∃ serial, made = some serial ∧ inodes.serialAt node.inode = some serial) state.top
      (s.made ++ (state.top.drop s.rules.length).map fun node =>
        (k.filpOpen (line.takeWhile (· != atSign)) s.inodes).2.serialAt node.inode)
    rcases createListLine_cases ran with ⟨rfl, unopened⟩ | ⟨file, type, opened, rfl, rfl⟩
    · have kept : s.inodes.KeptBy inodes := by
        rcases unopened with rfl | rfl
        · exact fun _ _ live => live
        · rw [world.opens]
          exact kept_filpOpen _
      simpa using old kept
    · rw [world.opens] at opened
      obtain ⟨serial, live⟩ := filpOpen_live opened
      rw [world.opens, world.closes]
      have closed : Inodes.KeptBy _ (Inodes.filpClose file
          (Inodes.filpOpen (line.takeWhile (· != atSign)) s.inodes).2) := kept_filpClose file
      refine List.rel_append (old ((kept_filpOpen _).trans closed)) ?_
      rw [ListState.append, List.drop_left]
      exact .cons ⟨serial, live, closed _ _ live⟩ .nil

/-- The activity evicts the inode of a node. -/
def Evicts (s : Session) (activity : Activity) : Prop :=
  ∃ node ∈ s.rules, activity = .evict node.inode ∧ s.inodes.cache.Evictable node.inode

theorem Holds.protect (holds : s.Holds) {buffer : Bytes} {count : Nat}
    (stepped : s.step k (.protect buffer count) = .ok next) : next.Holds := by
  rw [Session.step] at stepped
  by_cases busy : s.parsing.isSome
  · rw [if_pos busy] at stepped
    cases stepped
    exact holds
  rw [if_neg busy] at stepped
  obtain ⟨ret, proc, ran, finished⟩ := run_bind_eq_ok.mp stepped
  obtain ⟨sameInodes, sameBuf, nodes⟩ := startWrite_returned ran
  have kept := holds.withProc sameInodes sameBuf nodes
  simp only at finished
  split at finished
  · cases finished
    exact kept
  unfold Session.startParsing at finished
  split at finished
  · cases finished
    exact ⟨kept.cleared, kept.refers⟩
  · cases finished

theorem Holds.ctrl (holds : s.Holds) {buffer : Bytes} {count : Nat}
    (stepped : s.step k (.ctrl buffer count) = .ok next) : next.Holds := by
  rw [Session.step] at stepped
  by_cases busy : s.parsing.isSome
  · rw [if_pos busy] at stepped
    cases stepped
    exact holds
  rw [if_neg busy] at stepped
  obtain ⟨ret, proc, ran, finished⟩ := run_bind_eq_ok.mp stepped
  obtain ⟨sameInodes, sameBuf, nodes⟩ := procCtrlWrite_returned holds.cleared ran
  cases finished
  exact holds.withProc sameInodes sameBuf nodes

theorem Holds.turn (world : InodeKernel k) (holds : s.Holds)
    (stepped : s.step k .turn = .ok next) : next.Holds := by
  rw [Session.step] at stepped
  cases busy : s.parsing with
  | none =>
      simp only [busy] at stepped
      cases stepped
      exact holds
  | some parsing =>
      simp only [busy] at stepped
      obtain ⟨⟨state, pStr1⟩, inodes, ran, finished⟩ := run_bind_eq_ok.mp stepped
      cases finished
      exact holds.turned world ran

theorem Holds.evict (holds : s.Holds) {address : InodeAddr} (spares : ¬ s.Evicts (.evict address)) :
    (s.withInodes (s.inodes.evict address)).Holds := by
  refine holds.withInodes fun node member serial live => ?_
  by_cases evictable : s.inodes.cache.Evictable address
  · have apart : node.inode ≠ address := by
      rintro rfl
      exact spares ⟨node, member, rfl, evictable⟩
    exact (Cache.serialAt_evict apart).trans live
  · rw [Inodes.evict, Cache.evict_eq_self evictable]
    exact live

/-- A step that evicts no node's inode keeps what holds. -/
theorem Holds.step (world : InodeKernel k) (holds : s.Holds) {activity : Activity}
    (stepped : s.step k activity = .ok next) (spares : ¬ s.Evicts activity) : next.Holds := by
  cases activity with
  | protect buffer count => exact holds.protect stepped
  | turn => exact holds.turn world stepped
  | ctrl buffer count => exact holds.ctrl stepped
  | hook call userBuf =>
      obtain ⟨ret, m, ran, finished⟩ := run_bind_eq_ok.mp stepped
      cases finished
      refine holds.withInodes fun node _ serial live => ?_
      rcases modified_follows call ran with same | same
      · simpa [same, Machine.start] using live
      · rw [same, Machine.answered, world.origins]
        exact kept_after call _ _ live
  | close file =>
      cases stepped
      exact holds.withInodes fun _ _ serial live => kept_filpClose file _ _ live
  | delete path =>
      cases stepped
      exact holds.withInodes fun _ _ serial live => live
  | evict address =>
      cases stepped
      exact holds.evict spares

/-- Evicting a node's inode leaves the node with an address nothing is at. -/
theorem not_refers_of_evicts {activity : Activity} (stepped : s.step k activity = .ok next)
    (evicts : s.Evicts activity) : ¬ next.Refers := by
  obtain ⟨node, member, rfl, evictable⟩ := evicts
  cases stepped
  intro refers
  obtain ⟨serial, live⟩ := refers.live node member
  have gone : (s.inodes.evict node.inode).serialAt node.inode = none :=
    Cache.serialAt_evicted evictable
  exact absurd (gone.symm.trans live) (by simp)

end Session

end Steps

section Writes

variable {k : Kernel Inodes} {s : Session} {buffer : Bytes} {count : Nat}

theorem step_turn {text : Bytes} {cnt : Nat} (busy : s.parsing = some ⟨text, cnt⟩)
    {state : ListState} {pStr1 : Option Bytes} {inodes : Inodes}
    (ran : Returns (createListLine k (text.takeWhile (· != newline)) ⟨s.rules, cnt⟩) s.inodes
      (state, pStr1) inodes) :
    s.step k .turn = .ok (s.turned k (text.takeWhile (· != newline)) state
      (if pStr1.isSome then (strsep (some text) newline).2 else none) inodes) := by
  rw [Session.step, busy]
  exact run_bind_eq_ok.mpr ⟨_, _, ran, rfl⟩

/-- The turns of the loop, one after the other, are the loop. -/
theorem loop_by_turns {text : Bytes} {cnt : Nat} (busy : s.parsing = some ⟨text, cnt⟩)
    {state : ListState} {rest : Option Bytes} {inodes : Inodes}
    (ran : Returns (createListLoop k (some text) ⟨s.rules, cnt⟩) s.inodes (state, rest) inodes) :
    ∃ turns made, execute (Session.step k) s (List.replicate turns .turn) =
      .ok ⟨{ s.proc.withRules state.top with outside := inodes }, none, made⟩ := by
  refine @createListLoop_induct _ k (fun text state before final _ after => ∀ s : Session,
    s.parsing = some ⟨text, state.cnt⟩ → s.rules = state.top → s.inodes = before →
      ∃ turns made, execute (Session.step k) s (List.replicate turns .turn) =
        .ok ⟨{ s.proc.withRules final.top with outside := after }, none, made⟩)
    ?_ ?_ _ _ _ _ _ _ ran s busy rfl rfl
  · rintro text ⟨_, _⟩ _ final pStr1 after line ends s busy rfl rfl
    have stepped := step_turn busy line
    rw [ends] at stepped
    exact ⟨1, _, execute_cons.mpr ⟨_, stepped, rfl⟩⟩
  · rintro text ⟨_, _⟩ _ next str middle remaining final _ after line cut ih s busy rfl rfl
    have stepped := step_turn busy line
    simp only [cut, Option.isSome_some, if_true] at stepped
    obtain ⟨turns, made, executed⟩ :=
      ih (s.turned k (text.takeWhile (· != newline)) next (some remaining) middle) rfl rfl rfl
    exact ⟨turns + 1, made, execute_cons.mpr ⟨_, stepped, executed⟩⟩

/-- A write that delivers a text is at the first turn of the loop afterwards. -/
theorem step_protect (idle : s.parsing = none) (inside : count < bufferSize) (positive : count ≠ 0)
    {text : Bytes} (delivered : written buffer count = some text)
    (room : text.length < k.vmallocRoom sizeofPointer) :
    s.step k (.protect buffer count) = .ok
      ⟨(s.proc.withRaw
          (receivedRaw s.proc.globals.rawDataBuff buffer ⟨count, inside⟩)).withRules [],
        some ⟨text, 0⟩, []⟩ := by
  have full : count ≤ buffer.length := by
    by_contra short
    simp [written, short] at delivered
  have content : cstr (buffer.take count) = text := by simpa [written, full] using delivered
  obtain ⟨terminated, same⟩ := receivedRaw_text s.proc.globals.rawDataBuff ⟨count, inside⟩ full
  have unclamped : clampCount count = count := by simp [clampCount, Nat.le_of_lt inside]
  have started : Returns (startWrite buffer count) s.proc count
      ((s.proc.withRaw (receivedRaw s.proc.globals.rawDataBuff buffer ⟨count, inside⟩)).withRules
        []) := by
    rw [startWrite, if_neg positive, unclamped]
    exact returns_receive_iff.mpr (.inr ⟨full, inside, rfl, returns_destroyRoot_iff.mpr rfl⟩)
  have fits : Terminated (receivedRaw s.proc.globals.rawDataBuff buffer ⟨count, inside⟩).1 ∧
      (cstr (receivedRaw s.proc.globals.rawDataBuff buffer ⟨count, inside⟩).1).length <
        k.vmallocRoom sizeofPointer := by
    rw [same, content]
    exact ⟨terminated, room⟩
  have delivers : ¬ (count : Int) ≤ 0 := by omega
  rw [Session.step, idle]
  refine run_bind_eq_ok.mpr ⟨_, _, started, ?_⟩
  rw [if_neg delivers, Session.startParsing, if_pos (by exact fits)]
  simp [Session.withProc, same, content]

/-- A start of a write that delivers no text is the whole write. -/
theorem step_protect_done (idle : s.parsing = none) {ret : Int} {proc : ProcState Inodes}
    (started : Returns (startWrite buffer count) s.proc ret proc) (done : ret ≤ 0) :
    ∃ made, s.step k (.protect buffer count) = .ok ⟨proc, none, made⟩ := by
  refine ⟨s.made.take proc.globals.fileListRoot.length, ?_⟩
  rw [Session.step, idle]
  refine run_bind_eq_ok.mpr ⟨_, _, started, ?_⟩
  simp only [if_pos done, Session.withProc, idle]
  rfl

/-- `proc_protect_write` is its start and the turns of its loop. -/
theorem write_by_turns (idle : s.parsing = none) {ret : Int} {proc : ProcState Inodes}
    (ran : Returns (procProtectWrite k buffer count) s.proc ret proc) :
    ∃ turns made, execute (Session.step k) s
      (.protect buffer count :: List.replicate turns .turn) = .ok ⟨proc, none, made⟩ := by
  unfold procProtectWrite at ran
  by_cases empty : count = 0
  · rw [if_pos empty] at ran
    have started : Returns (startWrite buffer count) s.proc ret proc := by
      rwa [startWrite, if_pos empty]
    obtain ⟨_, _, _, answered⟩ := returns_bind_iff.mp ran
    obtain ⟨made, stepped⟩ := step_protect_done (k := k) idle started
      (returns_pure_iff.mp answered).1.le
    exact ⟨0, made, execute_cons.mpr ⟨_, stepped, rfl⟩⟩
  rw [if_neg empty] at ran
  rcases returns_receive_iff.mp ran with ⟨short, rfl, rfl⟩ | ⟨full, inside, _, acted⟩
  · have started : Returns (startWrite buffer count) s.proc (-efault)
        (s.proc.withRaw (copiedRaw s.proc.globals.rawDataBuff buffer (clampCount count))) := by
      rw [startWrite, if_neg empty]
      exact returns_receive_iff.mpr (.inl ⟨short, rfl, rfl⟩)
    obtain ⟨made, stepped⟩ := step_protect_done (k := k) idle started (by decide)
    exact ⟨0, made, execute_cons.mpr ⟨_, stepped, rfl⟩⟩
  · have unclamped : clampCount count = count := by
      unfold clampCount at inside ⊢
      split at inside <;> simp_all
    simp only [unclamped] at full inside acted
    obtain ⟨terminated, same⟩ := receivedRaw_text s.proc.globals.rawDataBuff ⟨count, inside⟩ full
    obtain ⟨cnt, top, inodes, parsed, rfl⟩ := returns_replaceRules_iff.mp acted
    rw [withRaw_rawDataBuff, createList] at parsed
    split at parsed
    · next fits =>
        obtain ⟨⟨state, rest⟩, middle, looped, answered⟩ := returns_bind_iff.mp parsed
        obtain ⟨same', rfl⟩ := returns_pure_iff.mp answered
        rw [same] at fits looped
        have stepped := step_protect (k := k) idle inside empty (if_pos full) fits.2
        have busy : (⟨(s.proc.withRaw (receivedRaw s.proc.globals.rawDataBuff buffer
            ⟨count, inside⟩)).withRules [], some ⟨cstr (buffer.take count), 0⟩, []⟩ :
              Session).parsing = some ⟨cstr (buffer.take count), 0⟩ := rfl
        obtain ⟨turns, made, executed⟩ := loop_by_turns busy looped
        obtain ⟨_, rfl⟩ := Prod.mk.inj same'
        exact ⟨turns, made, execute_cons.mpr ⟨_, stepped, executed⟩⟩
    · simp at parsed

end Writes

section Runs

variable {k : Kernel Inodes} {raw : SizedBytes bufferSize} {inodes : Inodes}

/-- The rules refer to the inodes they were made for in every session a run reaches
exactly when no step of it evicts the inode of a node. -/
theorem rules_refer_iff (world : InodeKernel k) (activities : List Activity) :
    (∀ past s, past <+: activities → sessionRun k raw inodes past = .ok s → s.Refers) ↔
      ∀ past activity s, past ++ [activity] <+: activities →
        sessionRun k raw inodes past = .ok s → ¬ s.Evicts activity := by
  constructor
  · intro refers past activity s first ran evicts
    obtain ⟨node, member, rfl, evictable⟩ := evicts
    have stepped : s.step k (.evict node.inode) =
        .ok (s.withInodes (s.inodes.evict node.inode)) := rfl
    exact Session.not_refers_of_evicts stepped ⟨node, member, rfl, evictable⟩
      (refers _ _ first (execute_snoc.mpr ⟨s, ran, stepped⟩))
  · intro spares past s first ran
    have reached := execute_history
      (fun past s => sessionRun k raw inodes past = .ok s ∧ (past <+: activities → s.Holds))
      ⟨rfl, fun _ => ⟨rfl, .nil⟩⟩ (fun past before activity after held stepped => ?_) ran
    · exact (reached.2 first).refers
    · refine ⟨execute_snoc.mpr ⟨before, held.1, stepped⟩, fun here => ?_⟩
      have earlier : past <+: activities := (List.prefix_append past [activity]).trans here
      exact (held.2 earlier).step world stepped (spares past activity before here held.1)

end Runs

section Reuse

/-- Two files, and an allocator that uses one address over and over. -/
def twoFiles : Inodes where
  names path := if path = lit "/f" then some 0 else if path = lit "/g" then some 1 else none
  created := 2
  cache := ⟨[], 0, fun _ => 7⟩

/-- A rule that hides the first file is made. -/
def hideFirst : List Activity := [.protect (lit "/f@h\n") 5, .turn, .turn]

theorem hideFirst_run : ∃ raw,
    sessionRun Kernel.storing (SizedBytes.zeros _) twoFiles hideFirst = .ok
      ⟨⟨⟨[.make (lit "/f") 7 .hide], true, SizedBytes.zeros _, raw⟩,
        { twoFiles with cache := ⟨[⟨7, 0, 0, 0⟩], 1, fun _ => 7⟩ }⟩, none, [some 0]⟩ := by
  have written := step_protect (k := Kernel.storing)
    (s := Session.initial (SizedBytes.zeros _) twoFiles) rfl (by decide : 5 < bufferSize)
    (by decide) (rfl : written (lit "/f@h\n") 5 = some (lit "/f@h\n")) (by decide)
  exact ⟨_, execute_cons.mpr ⟨_, written,
    execute_cons.mpr ⟨_, rfl, execute_cons.mpr ⟨_, rfl, rfl⟩⟩⟩⟩

/-- The rule refers to its file while another address is evicted. -/
theorem hideFirst_refers :
    ∃ s, sessionRun Kernel.storing (SizedBytes.zeros _) twoFiles (hideFirst ++ [.evict 8]) = .ok s ∧
      s.Refers := by
  obtain ⟨raw, ran⟩ := hideFirst_run
  refine ⟨_, execute_snoc.mpr ⟨_, ran, rfl⟩, ?_⟩
  refine (rules_refer_iff Kernel.storing_inodes (hideFirst ++ [.evict 8])).mpr ?_ _ _
    (List.prefix_refl _) (execute_snoc.mpr ⟨_, ran, rfl⟩)
  rintro past _ s ⟨behind, whole⟩ earlier ⟨node, member, rfl, _⟩
  rcases past with _ | ⟨first, _ | ⟨second, _ | ⟨third, _ | ⟨fourth, more⟩⟩⟩⟩
  · simp [hideFirst] at whole
  · simp [hideFirst] at whole
  · simp [hideFirst] at whole
  · obtain ⟨rfl, rfl, rfl, place, _⟩ : first = .protect (lit "/f@h\n") 5 ∧ second = .turn ∧
        third = .turn ∧ node.inode = 8 ∧ behind = [] := by
      simpa [hideFirst] using whole
    obtain rfl := Except.ok.inj (earlier.symm.trans ran)
    obtain rfl := List.mem_singleton.mp member
    exact absurd place (by decide)
  · simp [hideFirst] at whole

/-- After the inode is evicted and its address used for the second file, the rule refers
to that. -/
theorem evicted_rule_misleads :
    ∃ s, sessionRun Kernel.storing (SizedBytes.zeros _) twoFiles
        (hideFirst ++ [.evict 7, .hook (.open_ (lit "/g") 0 0) []]) = .ok s ∧
      s.rules = [.make (lit "/f") 7 .hide] ∧ s.made = [some 0] ∧
      s.inodes.serialAt 7 = some 1 ∧ ¬ s.Refers := by
  obtain ⟨raw, ran⟩ := hideFirst_run
  have evicted := execute_snoc.mpr ⟨_, ran, (rfl : Session.step Kernel.storing _ (.evict 7) = _)⟩
  refine ⟨_, (List.append_assoc hideFirst [.evict 7] [.hook (.open_ (lit "/g") 0 0) []]) ▸
    execute_snoc.mpr ⟨_, evicted, rfl⟩, rfl, rfl, rfl, ?_⟩
  intro refers
  cases refers with
  | cons here _ =>
      obtain ⟨serial, made, live⟩ := here
      cases made
      have reused : some 0 = some 1 := live.symm.trans rfl
      exact absurd reused (by decide)

end Reuse

end FsProtection
