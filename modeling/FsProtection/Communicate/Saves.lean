import FsProtection.Communicate.Keeping

/-!
# Saves that overlap

Calls of `create_list` that all found the list empty make their accesses in any order. Each
links its nodes into a chain of its own, and sets the root to the first of them. So what the
root leads to is the chain of one of them: the rules of no two texts mix, and those of all
texts but one are lost.
-/

namespace FsProtection

open Base

variable {σ : Type}

/-- An event of calls of `create_list` that find no list, while the paths open as they do. -/
def WriterEvent.Saves (opens : σ → Bytes → Option InodeAddr) (paths : Bytes → Option InodeAddr)
    (s : Writers σ) : WriterEvent σ → Prop
  | .begins _ write => ∃ text, write = .createList text
  | .access call => ∀ rest : RuleHeap.RuleScript Unit, s.calls call = some rest →
      rest.readsRoot → s.shared.root = none
  | .elsewhere outside => opens outside = paths

/-- The text a call begins with. -/
def WriterEvent.savedBy (call : Nat) : WriterEvent σ → Option Bytes
  | .begins other (.createList text) => if other = call then some text else none
  | _ => none

/-- The text each call began with. -/
def savedTexts (events : List (WriterEvent σ)) (call : Nat) : Option Bytes :=
  events.findSome? (WriterEvent.savedBy call)

namespace Saves

open RuleHeap (Access RuleScript)

open Running (accessed)

open Service (accessed_ne step_moves update_eq_some)

section Run

variable {k : Kernel σ} {opens : σ → Bytes → Option InodeAddr} {paths : Bytes → Option InodeAddr}
  {call : Nat} {s next last : Writers σ} {owner : Nat → Option Nat}
  {texts : Nat → Option Bytes} {rest following : RuleScript Unit} {here after : RuleHeap σ}

/-- A call that ended shows all its rules. -/
def Ended (opens : σ → Bytes → Option InodeAddr) (paths : Bytes → Option InodeAddr) (call : Nat)
    (rules : List FileNode) (s : Owned σ) : Prop :=
  ∃ nodes, Mine opens paths call rules nodes none s ∧ nodes.map Prod.snd = rules

/-- Calls of `create_list` side by side, by the texts they began with and the nodes that are
theirs. -/
structure Saving (k : Kernel σ) (opens : σ → Bytes → Option InodeAddr)
    (paths : Bytes → Option InodeAddr) (texts : Nat → Option Bytes) (s : Writers σ)
    (owner : Nat → Option Nat) : Prop where
  sane : Owned.Sane ⟨s.shared, owner⟩
  sees : opens s.shared.outside = paths
  begun : ∀ call, (s.calls call).isSome ↔ (texts call).isSome
  owners : ∀ address call, owner address = some call → (texts call).isSome
  chains : ∀ call, (texts call).isSome →
    ∃ nodes, Chain call (textRules paths (texts call)) nodes ⟨s.shared, owner⟩
  abide : Script.Abide (performFor k) (Rely opens)
    (fun call => Promised opens call (textRules paths (texts call)))
    (fun call _ => Ended opens paths call (textRules paths (texts call))) s.calls ⟨s.shared, owner⟩

/-- An access that finds no root does what it does for its call. -/
theorem performFor_of (call : Nat) {request : Access} {answer : request.Answer}
    (ran : Returns (RuleHeap.perform k request) here answer after)
    (unread : request = .top → here.root = none) (owner : Nat → Option Nat) :
    ∃ owner', Returns (performFor k call request) ⟨here, owner⟩ answer ⟨after, owner'⟩ := by
  have plain : Returns (onHere (RuleHeap.perform k request)) ⟨here, owner⟩ answer
      ⟨after, owner⟩ := returns_onPart_iff.mpr ⟨after, ran, rfl⟩
  cases request with
  | top =>
      refine ⟨owner, (returns_get_iff.mpr ⟨rfl, rfl⟩).bind ?_⟩
      rw [if_pos (unread rfl)]
      exact plain
  | vmalloc =>
      exact ⟨_, plain.bind (returns_modify.bind (returns_pure_iff.mpr ⟨rfl, rfl⟩))⟩
  | _ => exact ⟨owner, plain⟩

theorem advance_owned (call : Nat)
    (ran : Returns (rest.advance (RuleHeap.perform k)) here following after)
    (unread : rest.readsRoot → here.root = none) (owner : Nat → Option Nat) :
    ∃ owner', Returns (rest.advance (performFor k call)) ⟨here, owner⟩ following
      ⟨after, owner'⟩ := by
  cases rest with
  | done value =>
      obtain ⟨rfl, rfl⟩ := returns_pure_iff.mp ran
      exact ⟨owner, returns_pure_iff.mpr ⟨rfl, rfl⟩⟩
  | access request continued =>
      obtain ⟨answer, _, answered, ended⟩ := returns_bind_iff.mp ran
      obtain ⟨rfl, rfl⟩ := returns_pure_iff.mp ended
      obtain ⟨owner', answered⟩ := performFor_of call answered
        (fun isTop => unread (by subst isTop; rfl)) owner
      exact ⟨owner', answered.bind (returns_pure_iff.mpr ⟨rfl, rfl⟩)⟩

theorem saving_start (empty : s.shared.root = none) (idle : ∀ call, s.calls call = none)
    (sees : opens s.shared.outside = paths) :
    Saving k opens paths (fun _ => none) s fun _ => none where
  sane := ⟨fun _ owned => absurd rfl owned, fun address root => by simp [empty] at root⟩
  sees := sees
  begun call := by simp [idle call]
  owners _ _ := nofun
  chains _ := nofun
  abide call rest here := by simp [idle call] at here

/-- A call begins. -/
theorem Saving.begins (saving : Saving k opens paths texts s owner) (view : PathView k opens)
    (text : Bytes) {begun : Nat → Option Bytes} (idle : s.calls call = none)
    (new : begun call = some text) (others : ∀ other, other ≠ call → begun other = texts other) :
    Saving k opens paths begun (s.accessed call (ListWrite.createList text).script s.shared)
      owner := by
  have owns : ∀ {address other}, owner address = some other → other ≠ call := by
    rintro address _ owned rfl
    have isBegun := (saving.begun _).mpr (saving.owners address _ owned)
    rw [idle] at isBegun
    cases isBegun
  have chain : Chain call (parseLines paths (textLines text)) [] ⟨s.shared, owner⟩ :=
    ⟨rfl, List.nodup_nil, nofun, fun _ _ owned => absurd rfl (owns owned), nofun,
      List.nil_prefix⟩
  have mine : Mine opens paths call (parseLines paths (textLines text)) [] none
      ⟨s.shared, owner⟩ := ⟨saving.sane, chain, nofun, saving.sees⟩
  refine ⟨saving.sane, saving.sees, fun other => ?_, fun address other owned => ?_,
    fun other isBegun => ?_, fun other rest found => ?_⟩
  · by_cases same : other = call
    · subst same
      simp [accessed, new]
    · rw [others other same, accessed_ne same]
      exact saving.begun other
  · rw [others other (owns owned)]
    exact saving.owners address other owned
  · by_cases same : other = call
    · subst same
      rw [new]
      exact ⟨[], chain⟩
    · rw [others other same] at isBegun ⊢
      exact saving.chains other isBegun
  · dsimp only
    obtain ⟨rfl, rfl⟩ | ⟨apart, found⟩ := update_eq_some.mp found
    · rw [new]
      exact createList_keeps view mine
    · rw [others other apart]
      exact saving.abide other rest found

/-- A call makes an access. -/
theorem Saving.access (saving : Saving k opens paths texts s owner)
    (here : s.calls call = some rest)
    (ran : Returns (rest.advance (RuleHeap.perform k)) s.shared following after)
    (unread : rest.readsRoot → s.shared.root = none) :
    ∃ owner, Saving k opens paths texts (s.accessed call following after) owner := by
  obtain ⟨owner', owned⟩ := advance_owned call ran unread owner
  obtain ⟨moved, abide⟩ := saving.abide.advance here (fun _ => Rely.refl) (fun _ => Rely.trans)
    (fun other apart promised => promised.rely apart) owned
  have begun : ∀ other, ((s.accessed call following after).calls other).isSome ↔
      (texts other).isSome := by
    intro other
    rw [← saving.begun other]
    by_cases same : other = call
    · subst same
      simp [accessed, here]
    · rw [accessed_ne same]
  rcases moved with same | promised
  · obtain ⟨rfl, rfl⟩ := Owned.mk.inj same
    exact ⟨owner', saving.sane, saving.sees, begun, saving.owners, saving.chains, abide⟩
  · refine ⟨owner', promised.sane, promised.paths.trans saving.sees, begun, ?_, ?_, abide⟩
    · intro address other isOwned
      by_cases same : other = call
      · subst same
        rw [← saving.begun other, here]
        rfl
      · exact saving.owners address other ((promised.owners address other same).mp isOwned)
    · intro other isBegun
      by_cases same : other = call
      · subst same
        exact promised.chain
      · obtain ⟨nodes, chain⟩ := saving.chains other isBegun
        exact ⟨nodes, chain.stable (promised.rely same saving.sane)⟩

theorem Saving.elsewhere (saving : Saving k opens paths texts s owner) {outside : σ}
    (sees : opens outside = paths) :
    Saving k opens paths texts { s with shared := { s.shared with outside := outside } } owner := by
  have sane : Owned.Sane ⟨{ s.shared with outside := outside }, owner⟩ :=
    ⟨saving.sane.live, saving.sane.root⟩
  have relied : ∀ call, Rely opens call ⟨s.shared, owner⟩
      ⟨{ s.shared with outside := outside }, owner⟩ := fun call _ =>
    ⟨sane, fun _ => Iff.rfl, fun _ _ => rfl, fun _ root _ => root, id,
      sees.trans saving.sees.symm⟩
  refine ⟨sane, sees, saving.begun, saving.owners, fun call begun => ?_,
    saving.abide.stable relied fun _ => Rely.trans⟩
  obtain ⟨nodes, chain⟩ := saving.chains call begun
  exact ⟨nodes, chain.stable (relied call saving.sane)⟩

theorem Saving.step (saving : Saving k opens paths texts s owner) (view : PathView k opens)
    {event : WriterEvent σ} (saves : event.Saves opens paths s)
    (stepped : (listWrites k).step s event = .ok next) :
    ∃ owner, Saving k opens paths
      (fun call => (texts call).or (WriterEvent.savedBy call event)) next owner := by
  cases step_moves stepped with
  | began call write idle =>
      obtain ⟨text, rfl⟩ := saves
      have noText : texts call = none := by simpa [idle] using saving.begun call
      refine ⟨owner, saving.begins view text idle ?_ fun other apart => ?_⟩
      · simp [WriterEvent.savedBy, noText]
      · simp [WriterEvent.savedBy, Ne.symm apart]
  | again call write rest here =>
      have same : (fun other => (texts other).or
          (WriterEvent.savedBy (σ := σ) other (.begins call write))) = texts := by
        funext other
        by_cases isCall : other = call
        · obtain ⟨first, isFirst⟩ : ∃ first, texts call = some first :=
            Option.isSome_iff_exists.mp ((saving.begun call).mp (by simp [here]))
          rw [isCall, isFirst, Option.some_or]
        · cases write <;> simp [WriterEvent.savedBy, Ne.symm isCall]
      rw [same]
      exact ⟨owner, saving⟩
  | absent call idle => exact ⟨owner, by simpa [WriterEvent.savedBy] using saving⟩
  | accessed call rest following nodes here ran =>
      obtain ⟨owner, saving⟩ := saving.access here ran (saves rest here)
      exact ⟨owner, by simpa [WriterEvent.savedBy] using saving⟩
  | elsewhere outside =>
      exact ⟨owner, by simpa [WriterEvent.savedBy, listWrites] using saving.elsewhere saves⟩

/-- What calls of `create_list` that found no list have come to. -/
structure Saved (paths : Bytes → Option InodeAddr) (texts : Nat → Option Bytes) (s : Writers σ) :
    Prop where
  /-- The root leads to the rules of one text, and to all of them once its call is done. -/
  one : ∀ address, s.shared.root = some address → ∃ call text nodes, texts call = some text ∧
    s.shared.Listed nodes ∧ nodes ≠ [] ∧ nodes.map Prod.snd <+: parseLines paths (textLines text) ∧
      (s.calls call = some (.done ()) → nodes.map Prod.snd = parseLines paths (textLines text))
  /-- It leads to none only where no call that is done had a rule. -/
  none : s.shared.root = none → ∀ call text, texts call = some text →
    s.calls call = some (.done ()) → parseLines paths (textLines text) = []

/-- A call that is done shows all its rules. -/
theorem Saving.ended (saving : Saving k opens paths texts s owner)
    (done : s.calls call = some (.done ())) :
    Ended opens paths call (textRules paths (texts call)) ⟨s.shared, owner⟩ :=
  saving.abide call _ done _ (Rely.refl _)

theorem Saving.saved (saving : Saving k opens paths texts s owner) : Saved paths texts s where
  one address root := by
    obtain ⟨call, owned⟩ := Option.ne_none_iff_exists'.mp (saving.sane.root address root)
    have begun := saving.owners address call owned
    obtain ⟨text, isText⟩ := Option.isSome_iff_exists.mp begun
    obtain ⟨nodes, chain⟩ := saving.chains call begun
    rw [isText] at chain
    have first := chain.first address root owned
    have listed : s.shared.Listed nodes := by
      rw [RuleHeap.Listed, root, ← first]
      exact chain.chain
    refine ⟨call, text, nodes, isText, listed, ?_, chain.part, fun done => ?_⟩
    · rintro rfl
      cases first
    · obtain ⟨all, mine, shown⟩ := saving.ended done
      rw [isText] at mine shown
      have listedAll : s.shared.Listed all := by
        rw [RuleHeap.Listed, root, ← mine.chain.first address root owned]
        exact mine.chain.chain
      rw [listed.unique listedAll, shown]
      rfl
  none root call text isText done := by
    obtain ⟨nodes, mine, shown⟩ := saving.ended done
    rw [isText] at mine shown
    have empty : nodes = [] := by
      by_contra some
      exact mine.chain.linked some root
    rw [empty] at shown
    exact shown.symm

/-- However the accesses of calls of `create_list` that found no list are ordered, the list is
at every moment the first rules of one of their texts, and all rules of that one once its call
is done: the rules of two texts never mix, and those of all other texts are lost. -/
theorem one_save_wins (view : PathView k opens) (empty : s.shared.root = none)
    (idle : ∀ call, s.calls call = none) {events : List (WriterEvent σ)}
    (saves : ∀ past event before, past ++ [event] <+: events →
      execute (listWrites k).step s past = .ok before →
        WriterEvent.Saves opens (opens s.shared.outside) before event)
    (ran : execute (listWrites k).step s events = .ok next) :
    Saved (opens s.shared.outside) (savedTexts events) next := by
  have run : ∃ owner, Saving k opens (opens s.shared.outside) (savedTexts events) next owner := by
    refine execute_history_of (fun past here =>
      ∃ owner, Saving k opens (opens s.shared.outside) (savedTexts past) here owner)
      ⟨_, saving_start empty idle rfl⟩ ?_ saves ran
    rintro past before event after ⟨owner, saving⟩ admitted stepped
    have texts : savedTexts (past ++ [event]) =
        fun call => (savedTexts past call).or (WriterEvent.savedBy call event) := by
      funext call
      simp [savedTexts, List.findSome?_append]
    rw [texts]
    exact saving.step view admitted stepped
  obtain ⟨owner, saving⟩ := run
  exact saving.saved

end Run

def noNode : Writers Unit where
  shared := ⟨Heap.empty id, none, ()⟩
  calls _ := none

/-- Two calls read the root before either of them sets it. -/
def twoSaves : List (WriterEvent Unit) :=
  [.begins 0 (.createList (lit "/f@r")), .begins 1 (.createList (lit "/f@w")), .access 0,
    .access 1] ++ List.replicate 6 (.access 0) ++ List.replicate 6 (.access 1)

theorem twoSaves_saves (past : List (WriterEvent Unit)) (event : WriterEvent Unit)
    (before : Writers Unit) (early : past ++ [event] <+: twoSaves)
    (ran : execute (listWrites (Kernel.quiet oneFile)).step noNode past = .ok before) :
    WriterEvent.Saves (fun _ => oneFile) oneFile before event := by
  obtain ⟨later, whole⟩ := early
  have isPast : past = twoSaves.take past.length := by simp [← whole]
  have isEvent : twoSaves[past.length]? = some event := by simp [← whole]
  have checked : (List.range twoSaves.length).all (fun count => [0, 1].all fun call =>
      (execute (listWrites (Kernel.quiet oneFile)).step noNode (twoSaves.take count)).toOption.all
        fun s => (s.calls call).all fun rest =>
          !RuleScript.readsRoot rest || s.shared.root.isNone) = true := by
    decide +kernel
  have member : event ∈ twoSaves := List.mem_of_getElem? isEvent
  cases event with
  | begins call write =>
      simp only [twoSaves, List.mem_append, List.mem_cons, List.mem_replicate,
        CallEvent.begins.injEq, reduceCtorEq, List.not_mem_nil, or_false, and_false] at member
      rcases member with ⟨_, rfl⟩ | ⟨_, rfl⟩ <;> exact ⟨_, rfl⟩
  | access call =>
      have isCall : call ∈ [0, 1] := by
        simp only [twoSaves, List.mem_append, List.mem_cons, List.mem_replicate,
          CallEvent.access.injEq, reduceCtorEq, List.not_mem_nil, or_false, false_or] at member
        rcases member with ((rfl | rfl) | ⟨_, rfl⟩) | ⟨_, rfl⟩ <;> simp
      have inside : past.length ∈ List.range twoSaves.length := by simp [← whole]
      have here := List.all_eq_true.mp (List.all_eq_true.mp checked _ inside) call isCall
      rw [← isPast, ran] at here
      intro rest isRest reads
      simpa [Except.toOption, isRest, reads] using here
  | elsewhere outside => rfl

/-- Behind them the list is the one rule of the second text. -/
theorem twoSaves_lose : ∃ next : Writers Unit,
    execute (listWrites (Kernel.quiet oneFile)).step noNode twoSaves = .ok next ∧
      (next.shared.root.bind next.shared.heap.cell).map (fun node => (node.value, node.next)) =
        some (.make (lit "/f") 7 .write, none) ∧
      Saved oneFile (savedTexts twoSaves) next := by
  have shown : (execute (listWrites (Kernel.quiet oneFile)).step noNode twoSaves).toOption.bind
      (fun next => (next.shared.root.bind next.shared.heap.cell).map fun node =>
        (node.value, node.next)) = some (.make (lit "/f") 7 .write, none) := by
    decide +kernel
  cases ran : execute (listWrites (Kernel.quiet oneFile)).step noNode twoSaves with
  | error fault =>
      rw [ran] at shown
      cases shown
  | ok next =>
      rw [ran] at shown
      exact ⟨next, rfl, shown, one_save_wins (Kernel.quiet_pathView oneFile) rfl (fun _ => rfl)
        twoSaves_saves ran⟩

end Saves

end FsProtection
