import Mathlib.Data.List.Find
import FsProtection.Communicate.Walks

/-!
# A lookup at one moment

A lookup that meets no destruction answers as if it had been made at one moment since it
began, whatever is created meanwhile. What it compares has to stay: a path and an inode do,
and an inode number does as long as the inode is not evicted.
-/

namespace FsProtection

open Base

variable {σ : Type}

namespace Walks

/-- The event neither begins a destruction nor makes the reader begin again. -/
def Quiet (reader : Nat) : WalkEvent σ → Prop
  | .write .destroyList => False
  | .lookup other _ => other ≠ reader
  | _ => True

/-- The event is a step of the reader's walk. -/
def moves (reader : Nat) : WalkEvent σ → Bool
  | .walk other => other = reader
  | _ => false

/-- A moment of a run, and the list there is at that moment. -/
structure Moment (k : Kernel σ) (first : Walks σ) (events : List (WalkEvent σ)) (here : Walks σ)
    (nodes : List (Nat × FileNode)) : Prop where
  reached : ∃ part, part <+: events ∧ execute (step k) first part = .ok here
  listed : here.nodes.Listed nodes

/-- The rules of the list at some moment of a run. -/
def InForce (k : Kernel σ) (first : Walks σ) (events : List (WalkEvent σ))
    (rules : List FileNode) : Prop :=
  ∃ here nodes, Moment k first events here nodes ∧ nodes.map Prod.snd = rules

/-- At every moment of a run the rules that are listed compare as the verdict says. -/
def ComparesAs (k : Kernel σ) (query : Query) (verdict : FileNode → Bool) (first : Walks σ)
    (events : List (WalkEvent σ)) : Prop :=
  ∀ here nodes, Moment k first events here nodes → ∀ node ∈ nodes,
    query.passes k here.nodes.outside node.2 = verdict node.2

/-- In a run a rule compares alike whenever it is listed. -/
def Settled (k : Kernel σ) (query : Query) (first : Walks σ) (events : List (WalkEvent σ)) : Prop :=
  ∃ verdict, ComparesAs k query verdict first events

/-- A reader's walk since it began, with no destruction meanwhile. -/
structure Underway (k : Kernel σ) (first : Walks σ) (reader : Nat) (query : Query)
    (verdict : FileNode → Bool) (past : List (WalkEvent σ)) (s : Walks σ) : Prop where
  ran : execute (step k) first past = .ok s
  sound : s.Sound k
  creating : ¬ s.Destroying
  fits : ∃ nodes walk, s.nodes.Listed nodes ∧ s.walks reader = some (query, walk) ∧
    walk.Fits id verdict (InForce k first past) nodes (past.countP (moves reader))

section Lookups

variable {k : Kernel σ} {first s next last : Walks σ} {reader : Nat} {query : Query}
  {verdict : FileNode → Bool} {past during : List (WalkEvent σ)} {event : WalkEvent σ}

/-- A path is compared with what the node itself holds, -/
theorem settled_path (text : Bytes) (ptype : ProtectType) (first : Walks σ)
    (events : List (WalkEvent σ)) : Settled k (.path text ptype) first events :=
  ⟨fun p => Query.passes k first.nodes.outside (.path text ptype) p, fun _ _ _ _ _ => rfl⟩

/-- an inode with the pointer, -/
theorem settled_inode (address : InodeAddr) (ptype : ProtectType) (first : Walks σ)
    (events : List (WalkEvent σ)) : Settled k (.inode address ptype) first events :=
  ⟨fun p => Query.passes k first.nodes.outside (.inode address ptype) p, fun _ _ _ _ _ => rfl⟩

/-- and an inode number with what the kernel keeps behind it. -/
theorem settled_ino (number : InodeAddr → UInt32) (ino : UInt32) (ptype : ProtectType)
    (kept : ∀ here nodes, Moment k first during here nodes → ∀ node ∈ nodes,
      k.iIno node.2.inode here.nodes.outside = number node.2.inode) :
    Settled k (.ino ino ptype) first during := by
  refine ⟨fun p => number p.inode = ino ∧ p.type = ptype, fun here nodes moment node member => ?_⟩
  simp only [Query.passes, Kernel.inoMatches, kept here nodes moment node member]

theorem Moment.later {here : Walks σ} {nodes : List (Nat × FileNode)} (begins : past <+: during)
    (moment : Moment k first past here nodes) : Moment k first during here nodes := by
  obtain ⟨part, before, ran⟩ := moment.reached
  exact ⟨⟨part, before.trans begins, ran⟩, moment.listed⟩

theorem InForce.later {rules : List FileNode} (inForce : InForce k first past rules) :
    InForce k first (past ++ [event]) rules := by
  obtain ⟨here, nodes, moment, same⟩ := inForce
  exact ⟨here, nodes, moment.later (List.prefix_append _ _), same⟩

theorem underway_start (sound : s.Sound k) (creating : ¬ s.Destroying)
    (begun : s.step k (.lookup reader query) = .ok first) :
    Underway k first reader query verdict [] first := by
  cases begun
  obtain ⟨nodes, listed⟩ := sound.exists_listed creating
  refine ⟨rfl, ⟨sound.keeps, sound.listed⟩, creating, nodes, .testing s.nodes.root, listed,
    Function.update_self .., ?_⟩
  exact Walk.fits_begin listed ⟨_, nodes, ⟨⟨[], List.prefix_refl _, rfl⟩, listed⟩, rfl⟩

/-- A quiet event begins no destruction. -/
theorem creating_step (creating : ¬ s.Destroying) (quiet : Quiet reader event)
    (stepped : s.step k event = .ok next) : ¬ next.Destroying := by
  cases event with
  | write call =>
      simp only [step] at stepped
      split at stepped
      · cases stepped
        cases call with
        | createList text => exact fun destroying => by cases destroying.1
        | destroyList => exact quiet.elim
      · cases stepped
        exact creating
  | access =>
      obtain ⟨rest, nodes, ran, answered⟩ := run_bind_eq_ok.mp stepped
      cases answered
      rintro ⟨destroys, running⟩
      cases left : s.rest with
      | done ended =>
          rw [left] at ran
          exact running ended (returns_pure_iff.mp ran).1
      | access request continued => exact creating ⟨destroys, by simp [left]⟩
  | elsewhere outside =>
      cases stepped
      exact creating
  | lookup reader query =>
      cases stepped
      exact creating
  | walk other =>
      rcases walk_step_ok stepped with ⟨_, rfl⟩ | ⟨_, _, _, _, _, rfl⟩
      · exact creating
      · exact creating

/-- An event that is no step of the reader's walk leaves the walk where it is. -/
theorem walks_other (quiet : Quiet reader event) (other : moves reader event = false)
    (stepped : s.step k event = .ok next) : next.walks reader = s.walks reader := by
  cases event with
  | write call =>
      simp only [step] at stepped
      split at stepped <;> cases stepped <;> rfl
  | access =>
      obtain ⟨rest, nodes, ran, answered⟩ := run_bind_eq_ok.mp stepped
      cases answered
      rfl
  | elsewhere outside =>
      cases stepped
      rfl
  | lookup begun query =>
      cases stepped
      exact Function.update_of_ne (Ne.symm quiet) ..
  | walk moved =>
      have apart : reader ≠ moved := by
        rintro rfl
        simp [moves] at other
      rcases walk_step_ok stepped with ⟨_, rfl⟩ | ⟨_, _, _, _, _, rfl⟩
      · rfl
      · exact Function.update_of_ne apart ..

theorem Underway.step (compares : ComparesAs k query verdict first past)
    (underway : Underway k first reader query verdict past s) (quiet : Quiet reader event)
    (stepped : s.step k event = .ok next) :
    Underway k first reader query verdict (past ++ [event]) next := by
  obtain ⟨sound, grows⟩ := underway.sound.step (step_moves stepped)
  have ran := execute_snoc.mpr ⟨s, underway.ran, stepped⟩
  refine ⟨ran, sound, creating_step underway.creating quiet stepped, ?_⟩
  obtain ⟨nodes, walk, listed, here, fits⟩ := underway.fits
  obtain ⟨more, now⟩ := grows underway.creating nodes listed
  cases moved : moves reader event with
  | false =>
      refine ⟨nodes ++ more, walk, now, (walks_other quiet moved stepped).trans here, ?_⟩
      rw [List.countP_append, List.countP_singleton, moved]
      exact fits.grow fun _ => InForce.later
  | true =>
      cases event with
      | walk other =>
          obtain rfl : other = reader := by simpa [moves] using moved
          obtain ⟨absent, _⟩ | ⟨query', walk', following, here', walked, rfl⟩ :=
            walk_step_ok stepped
          · rw [here] at absent
            cases absent
          · rw [here] at here'
            cases here'
            have now : Moment k first past s nodes :=
              ⟨⟨past, List.prefix_refl _, underway.ran⟩, listed⟩
            have further := fits.step (listed.leads id) ⟨s, nodes, now, rfl⟩
              (fun node member value same => by
                rw [show value = node.2 from same]
                exact compares s nodes now node member) walked
            refine ⟨nodes, following, listed, Function.update_self .., ?_⟩
            rw [List.countP_append, List.countP_singleton, moved]
            have stays : following.Fits id verdict (InForce k first (past ++ [.walk other]))
                (nodes ++ []) (past.countP (moves other) + 1) :=
              further.grow fun _ => InForce.later
            rw [List.append_nil] at stays
            exact stays
      | write call => cases moved
      | access => cases moved
      | elsewhere outside => cases moved
      | lookup reader query => cases moved

theorem run_underway (compares : ComparesAs k query verdict first during)
    (underway : Underway k first reader query verdict [] first)
    (quiet : ∀ event ∈ during, Quiet reader event)
    (ran : execute (step k) first during = .ok last) :
    Underway k first reader query verdict during last := by
  have holds := execute_history
    (fun past s => past <+: during → Underway k first reader query verdict past s)
    (fun _ => underway) (fun past before event after holds stepped begins => by
      have earlier : past <+: during := (List.prefix_append _ _).trans begins
      exact (holds earlier).step
        (fun here nodes moment => compares here nodes (moment.later earlier))
        (quiet event (begins.subset (by simp))) stepped) ran
  exact holds (List.prefix_refl _)

/-- Whatever calls change the list, one after the other, and whatever walks are made, a
lookup that begins when no destruction is at work, and meets none while it goes on, does
not fault on a list it can compare. It has its answer when it has taken two steps for each
node and one more. As long as a rule compares alike whenever it is listed, the answer is
what a lookup at one moment since it began would have found. -/
theorem lookup_linearizes {place : Nat → Nat} {outside : σ}
    (settled : Settled k query first during)
    (reached : execute (step k) (start place outside) past = .ok s) (creating : ¬ s.Destroying)
    (begun : s.step k (.lookup reader query) = .ok first)
    (quiet : ∀ event ∈ during, Quiet reader event)
    (ran : execute (step k) first during = .ok last) :
    ∃ nodes walk, last.nodes.Listed nodes ∧ last.walks reader = some (query, walk) ∧
      ((∀ node ∈ nodes, query.readable node.2) → ∃ next, last.step k (.walk reader) = .ok next) ∧
      (2 * nodes.length < during.countP (moves reader) → ∃ found, walk = .answered found) ∧
      ∀ found, walk = .answered found → ∃ here atOnce, Moment k first during here atOnce ∧
        (atOnce.map Prod.snd).find? (query.passes k here.nodes.outside) = found := by
  obtain ⟨verdict, compares⟩ := settled
  have underway :=
    run_underway compares (underway_start (run_sound reached) creating begun) quiet ran
  obtain ⟨nodes, walk, listed, here, fits⟩ := underway.fits
  refine ⟨nodes, walk, listed, here, fun readable => ?_, fits.ends, ?_⟩
  · cases walked : walk.step Fault.badPointer query.readable
      (query.passes k last.nodes.outside) last.nodes.heap.cell with
    | ok following =>
        obtain ⟨next, stepped, _⟩ := step_walk here walked
        exact ⟨next, stepped⟩
    | error fault =>
        obtain ⟨node, member, unreadable⟩ := fits.faults listed walked
        rw [readable node member] at unreadable
        cases unreadable
  · rintro found rfl
    obtain ⟨_, ⟨there, atOnce, moment, rfl⟩, answer⟩ := fits
    have alike : (atOnce.map Prod.snd).find? (query.passes k there.nodes.outside) =
        (atOnce.map Prod.snd).find? verdict := by
      refine List.find?_congr fun value member => ?_
      obtain ⟨node, isNode, rfl⟩ := List.mem_map.mp member
      exact compares there atOnce moment node isNode
    refine ⟨there, atOnce, moment, ?_⟩
    rw [alike]
    simpa using answer

end Lookups

/-- A lookup between whose steps a call adds to the list finds the rule. -/
theorem halfText_lookup : ∃ (accesses : Nat) (during : List (WalkEvent Unit))
      (first last here : Walks Unit) (nodes : List (Nat × FileNode)),
    during = .walk 0 :: .write (.createList RuleHeap.halfText) ::
      (List.replicate accesses .access ++ [.walk 0]) ∧
    execute (step (Kernel.quiet oneFile)) first during = .ok last ∧
    last.walks 0 = some (halfQuery, .answered (some halfRule)) ∧
    Moment (Kernel.quiet oneFile) first during here nodes ∧
    (nodes.map Prod.snd).find? (halfQuery.passes (Kernel.quiet oneFile) here.nodes.outside) =
      some halfRule := by
  obtain ⟨past, s, node, reached, idle, _, list, isRule⟩ := halfText_created
  have creating : ¬ s.Destroying := fun destroying => destroying.2 () idle
  obtain ⟨first, begun⟩ : ∃ first,
      s.step (Kernel.quiet oneFile) (.lookup 0 halfQuery) = .ok first := ⟨_, rfl⟩
  obtain ⟨tested, walked, sameNodes, sameRest, _, atNode⟩ := halfRule_tested list isRule begun
  rw [← sameNodes] at list
  obtain ⟨after, added, created, listed, _⟩ :=
    RuleHeap.createNodes_returns list RuleHeap.halfText_parses
  obtain ⟨accesses, executed⟩ := createList_alone (sameRest.trans idle) created
  have front : IsList after.heap after.root ([] ++ (node.1, node.2) :: added) := listed
  obtain ⟨last, reported, _, _, _, answered⟩ := step_walk (k := Kernel.quiet oneFile)
    (s := { tested with
      writing := .createList RuleHeap.halfText, rest := .done (), nodes := after })
    atNode (Walk.step_report front.cell_eq)
  rw [isRule] at answered
  obtain ⟨during, isDuring⟩ : ∃ during : List (WalkEvent Unit), during =
      .walk 0 :: .write (.createList RuleHeap.halfText) ::
        (List.replicate accesses .access ++ [.walk 0]) := ⟨_, rfl⟩
  have ran : execute (step (Kernel.quiet oneFile)) first during = .ok last := by
    rw [isDuring]
    exact execute_cons.mpr ⟨_, walked, execute_append.mpr
      ⟨_, executed, execute_cons.mpr ⟨_, reported, rfl⟩⟩⟩
  have quiet : ∀ event ∈ during, Quiet 0 event := by
    intro event member
    simp only [isDuring, List.mem_cons, List.mem_append, List.mem_replicate, List.not_mem_nil,
      or_false] at member
    rcases member with rfl | rfl | ⟨_, rfl⟩ | rfl <;> trivial
  obtain ⟨nodes, walk, _, here, _, _, atOnce⟩ :=
    lookup_linearizes (settled_path _ _ _ _) reached creating begun quiet ran
  obtain ⟨_, isWalk⟩ := Prod.mk.inj (Option.some.inj (here.symm.trans answered))
  obtain ⟨there, others, moment, found⟩ := atOnce _ isWalk
  exact ⟨accesses, during, first, last, there, others, isDuring, ran, answered, moment, found⟩

end Walks

end FsProtection
