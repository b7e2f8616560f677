import FsProtection.Client.Commands

/-!
# Client sessions at one module

Every client starts with an empty list, never reads back what is in force, and sends its
whole list with every addition and removal. `Sent` is what such sessions mean together:
in force is the list that was sent last.
-/

namespace FsProtection

open Base

/-- What the sessions do. Listing sends nothing, and neither does quitting. -/
inductive SessionEvent (ι : Type) where
  | start (session : ι) (place : Nat → Nat)
  | command (session : ι) (command : ListCommand)
  | quit (session : ι)

/-- The clients that run, and the module they write to. -/
structure Sessions (ι σ : Type) where
  clients : ι → Option ClientList
  proc : ProcState σ

/-- What the sessions mean: the list of each one that runs, and the list sent last. -/
structure Sent (ι : Type) where
  lists : ι → Option (List ClientEntry)
  last : Option (List ClientEntry)

/-- The protect writes of what a client sends, each delivered whole. -/
def deliver {σ : Type} (k : Kernel σ) :
    List (Except Fault (Bytes × Nat)) → ProcState σ → Except Fault (ProcState σ)
  | [], proc => .ok proc
  | sent :: rest, proc => do
      let write ← sent
      let outcome ← (procProtectWrite k write.1 write.2).run proc
      deliver k rest outcome.2

section Model

variable {ι σ : Type} [DecidableEq ι] (k : Kernel σ)

def Sessions.initial (proc : ProcState σ) : Sessions ι σ := ⟨fun _ => none, proc⟩

def Sessions.withClient (s : Sessions ι σ) (session : ι) (client : Option ClientList) :
    Sessions ι σ :=
  { s with clients := fun other => if other = session then client else s.clients other }

/-- A command at a session that does not run is none. -/
def Sessions.step (s : Sessions ι σ) : SessionEvent ι → Except Fault (Sessions ι σ)
  | .start session place => return s.withClient session (some (.initial place))
  | .command session command =>
      match s.clients session with
      | none => return s
      | some client => do
          let after ← client.step command
          let proc ← deliver k (after.sent.drop client.sent.length) s.proc
          return { s.withClient session (some after) with proc := proc }
  | .quit session => return s.withClient session none

def Sent.initial : Sent ι := ⟨fun _ => none, none⟩

def Sent.withList (a : Sent ι) (session : ι) (list : Option (List ClientEntry)) : Sent ι :=
  { a with lists := fun other => if other = session then list else a.lists other }

/-- A command changes the list of its session, and what is sent is that list. -/
def Sent.step (a : Sent ι) : SessionEvent ι → Sent ι
  | .start session _ => a.withList session (some [])
  | .command session command =>
      match a.lists session with
      | none => a
      | some entries =>
          { a.withList session (some (command.apply entries)) with
            last := if command.sends entries then some (command.apply entries) else a.last }
  | .quit session => a.withList session none

/-- What some events mean. -/
def Sent.after (events : List (SessionEvent ι)) : Sent ι := events.foldl Sent.step Sent.initial

theorem Sent.after_snoc (past : List (SessionEvent ι)) (event : SessionEvent ι) :
    Sent.after (past ++ [event]) = (Sent.after past).step event := by
  simp [Sent.after]

end Model

namespace Sessions

/-- A running client holds the list its session has. -/
def Holds (client : Option ClientList) (list : Option (List ClientEntry)) : Prop :=
  match client, list with
  | none, none => True
  | some client, some entries => ∃ commands, client.Reached commands ∧ commanded commands = entries
  | _, _ => False

theorem Holds.cases {client : ClientList} {list : Option (List ClientEntry)}
    (holds : Holds (some client) list) :
    ∃ commands, client.Reached commands ∧ list = some (commanded commands) := by
  cases list with
  | none => exact holds.elim
  | some entries =>
      obtain ⟨commands, reached, same⟩ := holds
      exact ⟨commands, reached, by rw [same]⟩

theorem Holds.none_iff {client : Option ClientList} {list : Option (List ClientEntry)}
    (holds : Holds client list) : client = none ↔ list = none := by
  cases client with
  | none =>
      cases list with
      | none => simp
      | some entries => exact holds.elim
  | some client =>
      obtain ⟨commands, _, rfl⟩ := Holds.cases holds
      simp

/-- The sessions and the module do what `Sent` says: in force are the entries sent last
whose path opens. -/
structure Refines {ι σ : Type} (opens : σ → Bytes → Option InodeAddr) (start : ProcState σ)
    (a : Sent ι) (s : Sessions ι σ) : Prop where
  holds : ∀ session, Holds (s.clients session) (a.lists session)
  kept : opens s.proc.outside = opens start.outside
  unsent : a.last = none → s.proc.globals.fileListRoot = start.globals.fileListRoot
  inForce : ∀ entries, a.last = some entries → (∀ entry ∈ entries, entry.Encodable) →
    s.proc.globals.fileListRoot = entries.filterMap (ClientEntry.node (opens start.outside))

theorem Refines.initial {ι σ : Type} (opens : σ → Bytes → Option InodeAddr)
    (start : ProcState σ) : Refines opens start (Sent.initial : Sent ι) (initial start) where
  holds _ := trivial
  kept := rfl
  unsent _ := rfl
  inForce _ last := nomatch last

section Steps

variable {ι σ : Type} [DecidableEq ι] {k : Kernel σ} {opens : σ → Bytes → Option InodeAddr}
  {start : ProcState σ} {a : Sent ι} {s after : Sessions ι σ}

theorem Refines.withHolds (refines : Refines opens start a s) (session : ι)
    {client : Option ClientList} {list : Option (List ClientEntry)} (holds : Holds client list)
    (other : ι) :
    Holds ((s.withClient session client).clients other)
      ((a.withList session list).lists other) := by
  by_cases same : other = session
  · simpa [Sent.withList, withClient, same] using holds
  · simpa [Sent.withList, withClient, same] using refines.holds other

/-- A session that starts or ends changes nothing at the module. -/
theorem Refines.withClient (refines : Refines opens start a s) (session : ι)
    {client : Option ClientList} {list : Option (List ClientEntry)} (holds : Holds client list) :
    Refines opens start (a.withList session list) (s.withClient session client) where
  holds := refines.withHolds session holds
  kept := refines.kept
  unsent := refines.unsent
  inForce := refines.inForce

theorem deliver_nil_iff {proc last : ProcState σ} : deliver k [] proc = .ok last ↔ proc = last := by
  simp [deliver]

theorem deliver_singleton_iff {sent : Except Fault (Bytes × Nat)} {proc last : ProcState σ} :
    deliver k [sent] proc = .ok last ↔ ∃ write ret, sent = .ok write ∧
      Returns (procProtectWrite k write.1 write.2) proc ret last := by
  constructor
  · intro delivered
    obtain ⟨write, wrote, delivered⟩ := bind_eq_ok_iff.mp delivered
    obtain ⟨⟨ret, middle⟩, ran, delivered⟩ := bind_eq_ok_iff.mp delivered
    obtain rfl := deliver_nil_iff.mp delivered
    exact ⟨write, ret, wrote, ran⟩
  · rintro ⟨write, ret, wrote, ran⟩
    exact bind_eq_ok_iff.mpr ⟨write, wrote, bind_eq_ok_iff.mpr ⟨(ret, last), ran, rfl⟩⟩

/-- A protect write leaves alone which paths open. -/
theorem procProtectWrite_kept (view : PathView k opens) {buffer : Bytes} {count : Nat}
    {proc last : ProcState σ} {ret : Int}
    (ran : Returns (procProtectWrite k buffer count) proc ret last) :
    opens last.outside = opens proc.outside := by
  rcases procProtectWrite_cases view ran with
    ⟨_, _, rfl⟩ | ⟨_, _, _, _, rfl⟩ | ⟨_, _, _, _, _, _, kept, rfl⟩
  · rfl
  · rfl
  · exact kept

/-- A command at a running session: what its client sends is its new list, if it sends. -/
theorem Refines.command (view : PathView k opens) (refines : Refines opens start a s)
    {session : ι} {command : ListCommand} {client : ClientList}
    (running : s.clients session = some client)
    (stepped : s.step k (.command session command) = .ok after) :
    Refines opens start (a.step (.command session command)) after := by
  obtain ⟨commands, reached, list⟩ := Holds.cases (running ▸ refines.holds session)
  simp only [step, running] at stepped
  obtain ⟨next, moved, stepped⟩ := bind_eq_ok_iff.mp stepped
  obtain ⟨proc, delivered, stepped⟩ := bind_eq_ok_iff.mp stepped
  cases stepped
  obtain ⟨_, again, reachedNext, sent⟩ := reached.stepped (ClientList.indexes_of_step moved)
  cases again.symm.trans moved
  rw [sent, List.drop_left] at delivered
  have holds : Holds (some next) (some (command.apply (commanded commands))) :=
    ⟨_, reachedNext, commanded_snoc commands command⟩
  simp only [Sent.step, list]
  by_cases sends : command.sends (commanded commands)
  · rw [if_pos sends] at delivered ⊢
    obtain ⟨write, ret, wrote, ran⟩ := deliver_singleton_iff.mp delivered
    rw [commanded_snoc] at wrote
    refine ⟨refines.withHolds session holds, ?_, (fun unsent => nomatch unsent), ?_⟩
    · exact (procProtectWrite_kept view ran).trans refines.kept
    · intro entries last encodable
      obtain rfl := Option.some.inj last
      exact (refreshFileList_installed view encodable wrote ran).1.trans (by rw [refines.kept])
  · rw [if_neg sends] at delivered ⊢
    obtain rfl := deliver_nil_iff.mp delivered
    exact refines.withClient session holds

/-- Every step of the sessions is one of `Sent`. -/
theorem Refines.step (view : PathView k opens) (refines : Refines opens start a s)
    {event : SessionEvent ι} (stepped : s.step k event = .ok after) :
    Refines opens start (a.step event) after := by
  cases event with
  | start session place =>
      cases stepped
      exact refines.withClient session ⟨[], .initial place, rfl⟩
  | quit session =>
      cases stepped
      exact refines.withClient session trivial
  | command session command =>
      cases running : s.clients session with
      | none =>
          have idle := (refines.holds session).none_iff.mp running
          simp only [Sessions.step, running] at stepped
          cases stepped
          simpa only [Sent.step, idle] using refines
      | some client => exact refines.command view running stepped

theorem run_refines (view : PathView k opens) {events : List (SessionEvent ι)}
    (ran : execute (Sessions.step k) (initial start) events = .ok s) :
    Refines opens start (Sent.after events) s := by
  refine execute_history (fun past (s : Sessions ι σ) => Refines opens start (Sent.after past) s)
    (.initial opens start) ?_ ran
  intro past before event after refines stepped
  rw [Sent.after_snoc]
  exact refines.step view stepped

/-- Every line typed in is right for the wire format, and the list it is added to still fits
the buffers on both sides. -/
def Carries (k : Kernel σ) (events : List (SessionEvent ι)) : Prop :=
  ∀ past session command, past ++ [.command session command] <+: events →
    ∀ entries, (Sent.after past).lists session = some entries →
      command.Carries entries ∧
        (serialize (command.apply entries)).length < k.vmallocRoom sizeofPointer

omit [DecidableEq ι] in
theorem prefix_of_snoc {past events : List (SessionEvent ι)} {event last : SessionEvent ι}
    (first : past ++ [event] <+: events ++ [last]) :
    past = events ∧ event = last ∨ past ++ [event] <+: events := by
  rcases List.prefix_concat_iff.mp first with same | earlier
  · obtain ⟨rfl, rest⟩ := List.append_inj' same rfl
    exact .inl ⟨rfl, List.singleton_inj.mp rest⟩
  · exact .inr earlier

theorem Carries.snoc {events : List (SessionEvent ι)} (carries : Carries k events)
    {event : SessionEvent ι}
    (next : ∀ session command, event = .command session command →
      ∀ entries, (Sent.after events).lists session = some entries →
        command.Carries entries ∧
          (serialize (command.apply entries)).length < k.vmallocRoom sizeofPointer) :
    Carries k (events ++ [event]) := by
  intro past session command first
  rcases prefix_of_snoc first with ⟨rfl, same⟩ | earlier
  · exact next session command same.symm
  · exact carries past session command earlier

/-- Every list can be sent. -/
structure AllSendable (a : Sent ι) : Prop where
  lists : ∀ session entries, a.lists session = some entries → Sendable entries
  last : ∀ entries, a.last = some entries → Sendable entries

theorem AllSendable.withList (sendable : AllSendable a) (session : ι)
    {list : Option (List ClientEntry)} (own : ∀ entries, list = some entries → Sendable entries) :
    AllSendable (a.withList session list) where
  lists other entries isList := by
    by_cases same : other = session
    · exact own entries (by simpa [Sent.withList, same] using isList)
    · exact sendable.lists other entries (by simpa [Sent.withList, same] using isList)
  last := sendable.last

/-- When the list a command leaves can be sent, all lists still can. -/
theorem AllSendable.command (sendable : AllSendable a) {session : ι} {command : ListCommand}
    {entries : List ClientEntry} (list : a.lists session = some entries)
    (next : Sendable (command.apply entries)) :
    AllSendable (a.step (.command session command)) := by
  have changed := sendable.withList session fun entries same => Option.some.inj same ▸ next
  simp only [Sent.step, list]
  refine ⟨changed.lists, fun entries last => ?_⟩
  split at last
  · exact Option.some.inj last ▸ next
  · exact sendable.last entries last

/-- The module receives what a command sends, if it sends. -/
theorem exists_deliver (view : PathView k opens) {entries : List ClientEntry}
    (sendable : Sendable entries) (room : (serialize entries).length < k.vmallocRoom sizeofPointer)
    (sends : Bool) (proc : ProcState σ) :
    ∃ last, deliver k (if sends then [refreshFileList entries] else []) proc = .ok last := by
  cases sends with
  | false => exact ⟨proc, rfl⟩
  | true =>
      obtain ⟨write, ret, last, wrote, ran⟩ :=
        refreshFileList_received view sendable.1 sendable.2 room proc
      exact ⟨last, deliver_singleton_iff.mpr ⟨write, ret, wrote, ran⟩⟩

/-- A command that carries returns, and is received by the module. -/
theorem Refines.command_returns (view : PathView k opens) (refines : Refines opens start a s)
    (sendable : AllSendable a) {session : ι} {command : ListCommand}
    (carries : ∀ entries, a.lists session = some entries → command.Carries entries ∧
      (serialize (command.apply entries)).length < k.vmallocRoom sizeofPointer) :
    (∃ after, s.step k (.command session command) = .ok after) ∧
      AllSendable (a.step (.command session command)) := by
  cases running : s.clients session with
  | none =>
      have idle := (refines.holds session).none_iff.mp running
      refine ⟨⟨s, by simp [Sessions.step, running, pure, Except.pure]⟩, ?_⟩
      simpa only [Sent.step, idle] using sendable
  | some client =>
      obtain ⟨commands, reached, list⟩ := Holds.cases (running ▸ refines.holds session)
      obtain ⟨carried, room⟩ := carries _ list
      obtain ⟨indexes, next⟩ := (carries_iff (sendable.lists session _ list) command).mpr carried
      refine ⟨?_, sendable.command list next⟩
      obtain ⟨client', moved, _, sent⟩ := reached.stepped indexes
      rw [commanded_snoc] at sent
      have delivered : ∃ proc, deliver k (client'.sent.drop client.sent.length) s.proc =
          .ok proc := by
        rw [sent, List.drop_left]
        exact exists_deliver view next room _ s.proc
      obtain ⟨proc, delivered⟩ := delivered
      simp only [Sessions.step, running]
      exact ⟨_, bind_eq_ok_iff.mpr ⟨client', moved, bind_eq_ok_iff.mpr ⟨proc, delivered, rfl⟩⟩⟩

/-- Sessions whose commands carry return, and hold what can be sent. -/
theorem run_returns (view : PathView k opens) {events : List (SessionEvent ι)}
    (carries : Carries k events) :
    (∃ s, execute (Sessions.step k) (initial start) events = .ok s) ∧
      AllSendable (Sent.after events) := by
  induction events using List.reverseRecOn with
  | nil => exact ⟨⟨_, rfl⟩, ⟨(fun _ _ list => nomatch list), fun _ last => nomatch last⟩⟩
  | append_singleton past event ih =>
      obtain ⟨⟨s, ran⟩, sendable⟩ := ih fun earlier session command first =>
        carries earlier session command (first.trans (List.prefix_append past [event]))
      rw [Sent.after_snoc]
      cases event with
      | start session place =>
          refine ⟨⟨_, execute_snoc.mpr ⟨s, ran, rfl⟩⟩, sendable.withList session ?_⟩
          rintro entries same
          obtain rfl := Option.some.inj same
          exact ⟨fun _ member => absurd member List.not_mem_nil, by decide⟩
      | quit session =>
          exact ⟨⟨_, execute_snoc.mpr ⟨s, ran, rfl⟩⟩,
            sendable.withList session fun _ same => nomatch same⟩
      | command session command =>
          obtain ⟨⟨after, stepped⟩, next⟩ := (run_refines view ran).command_returns view sendable
            (carries past session command (List.prefix_refl _))
          exact ⟨⟨after, execute_snoc.mpr ⟨s, ran, stepped⟩⟩, next⟩

/-- Whatever the order of the messages of all sessions is, the rules in force are those of
the list that was sent last, of the entries whose path opens. Sessions whose lines are
right for the wire format always get that far. -/
theorem last_list_in_force (view : PathView k opens) (start : ProcState σ)
    (events : List (SessionEvent ι)) :
    (∀ s, execute (Sessions.step k) (initial start) events = .ok s →
      ((Sent.after events).last = none →
        s.proc.globals.fileListRoot = start.globals.fileListRoot) ∧
      ∀ entries, (Sent.after events).last = some entries →
        (∀ entry ∈ entries, entry.Encodable) →
        s.proc.globals.fileListRoot =
          entries.filterMap (ClientEntry.node (opens start.outside))) ∧
    (Carries k events →
      (∃ s, execute (Sessions.step k) (initial start) events = .ok s) ∧
      ∀ entries, (Sent.after events).last = some entries →
        ∀ entry ∈ entries, entry.Encodable) := by
  constructor
  · intro s ran
    have refines := run_refines view ran
    exact ⟨refines.unsent, refines.inForce⟩
  · intro carries
    obtain ⟨returns, sendable⟩ := run_returns view carries
    exact ⟨returns, fun entries last => (sendable.last entries last).1⟩

end Steps

section Examples

/-- A session adds a file. -/
def addOne : List (SessionEvent Bool) :=
  [.start false id, .start true id, .command false (.add (some (lit "/f")) 114)]

/-- Another session adds its own. -/
def addBoth : List (SessionEvent Bool) :=
  addOne ++ [.command true (.add (some (lit "/g")) 119)]

/-- The module before any write. -/
def quietProc : ProcState Unit := ⟨Globals.initial (SizedBytes.zeros _), ()⟩

theorem addOne_carries : Carries (Kernel.quiet oneFile) addOne := by
  have none : Carries (Kernel.quiet oneFile) ([] : List (SessionEvent Bool)) :=
    fun past _ _ first => absurd (List.prefix_nil.mp first) (by simp)
  have started : Carries (Kernel.quiet oneFile) [.start false id] :=
    none.snoc fun _ _ same => nomatch same
  have both : Carries (Kernel.quiet oneFile) [.start false id, .start true id] :=
    started.snoc fun _ _ same => nomatch same
  refine both.snoc fun session command same entries list => ?_
  obtain ⟨rfl, rfl⟩ := SessionEvent.command.inj same
  obtain rfl := Option.some.inj list
  exact ⟨⟨_, rfl, ⟨by decide, by decide, by decide, by decide, by decide⟩, by decide, by decide⟩,
    by decide⟩

theorem addBoth_carries : Carries (Kernel.quiet oneFile) addBoth := by
  refine addOne_carries.snoc fun session command same entries list => ?_
  obtain ⟨rfl, rfl⟩ := SessionEvent.command.inj same
  obtain rfl := Option.some.inj list
  exact ⟨⟨_, rfl, ⟨by decide, by decide, by decide, by decide, by decide⟩, by decide, by decide⟩,
    by decide⟩

/-- While only one session sends, what it added is in force. -/
theorem addOne_in_force :
    ∃ s, execute (Sessions.step (Kernel.quiet oneFile)) (initial quietProc) addOne = .ok s ∧
      s.proc.globals.fileListRoot = [.make (lit "/f") 7 .read] := by
  obtain ⟨inForce, returns⟩ :=
    last_list_in_force (Kernel.quiet_pathView oneFile) quietProc addOne
  obtain ⟨⟨s, ran⟩, encodable⟩ := returns addOne_carries
  exact ⟨s, ran, (inForce s ran).2 [⟨pathField (lit "/f"), 114⟩] rfl (encodable _ rfl)⟩

/-- The addition of the second session takes the rule of the first one out. -/
theorem addBoth_loses :
    ∃ middle s,
      execute (Sessions.step (Kernel.quiet oneFile)) (initial quietProc) addOne = .ok middle ∧
      middle.proc.globals.fileListRoot = [.make (lit "/f") 7 .read] ∧
      execute (Sessions.step (Kernel.quiet oneFile)) (initial quietProc) addBoth = .ok s ∧
      s.proc.globals.fileListRoot = [] := by
  have view := Kernel.quiet_pathView oneFile
  obtain ⟨⟨middle, ranOne⟩, sendableOne⟩ : (∃ middle, execute _ (initial quietProc) addOne =
    .ok middle) ∧ _ := run_returns view addOne_carries
  obtain ⟨⟨s, ran⟩, sendable⟩ : (∃ s, execute _ (initial quietProc) addBoth = .ok s) ∧ _ :=
    run_returns view addBoth_carries
  refine ⟨middle, s, ranOne, ?_, ran, ?_⟩
  · exact (run_refines view ranOne).inForce [⟨pathField (lit "/f"), 114⟩] rfl
      (sendableOne.last _ rfl).1
  · exact (run_refines view ran).inForce [⟨pathField (lit "/g"), 119⟩] rfl (sendable.last _ rfl).1

end Examples

end Sessions

end FsProtection
