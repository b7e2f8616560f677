import FsProtection.Communicate.Ownership

/-!
# `create_list` among others

The accesses of one call, from the text it begins with to the chain of all its rules, while the
other calls leave its nodes alone.
-/

namespace FsProtection

open Base

variable {σ : Type}

namespace Saves

open RuleHeap (Access Cursor RuleScript freshNode)

section Scripts

variable {k : Kernel σ} {opens : σ → Bytes → Option InodeAddr}
  {paths : Bytes → Option InodeAddr} {call : Nat} {rules : List FileNode}
  {nodes : List (Nat × FileNode)} {new : Option (Nat × Node FileNode)} {s here after : Owned σ}
  {Value : Type} {post : Value → Owned σ → Prop} {address : Nat}

/-- A part of a call while the others rely on their promises. -/
abbrev Keeping (k : Kernel σ) (opens : σ → Bytes → Option InodeAddr) (call : Nat)
    (rules : List FileNode) {Value : Type} (post : Value → Owned σ → Prop)
    (script : RuleScript Value) (s : Owned σ) : Prop :=
  script.Keeps (performFor k call) (Rely opens call) (Promised opens call rules) post s

/-- An access, by what it does wherever the call finds its nodes. -/
theorem Mine.keeps_call {request : Access} {continued : request.Answer → RuleScript Value}
    (mine : Mine opens paths call rules nodes new s)
    (kept : ∀ here answer after, Mine opens paths call rules nodes new here →
      Returns (performFor k call request) here answer after →
        Promised opens call rules here after ∧
          Keeping k opens call rules post (continued answer) after) :
    Keeping k opens call rules post (Script.call request >>= continued) s :=
  Script.keeps_call fun here relied answer after => kept here answer after (mine.stable relied)

theorem Mine.keeps_pure {value : Value} (mine : Mine opens paths call rules nodes new s)
    (holds : ∀ here, Mine opens paths call rules nodes new here → post value here) :
    Keeping k opens call rules post (pure value) s :=
  Script.keeps_pure fun here relied => holds here (mine.stable relied)

/-- An access to the heap of one call is one to the heap that all share. -/
theorem returns_onHeap_iff {program : Program (Heap FileNode) Fault Value} {answer : Value} :
    Returns (onHere (RuleHeap.onHeap program)) here answer after ↔
      ∃ heap, Returns program here.here.heap answer heap ∧
        after = { here with here := { here.here with heap := heap } } := by
  rw [onHere, returns_onPart_iff]
  constructor
  · rintro ⟨_, ran, rfl⟩
    obtain ⟨heap, ranHeap, rfl⟩ := returns_onPart_iff.mp ran
    exact ⟨heap, ranHeap, rfl⟩
  · rintro ⟨heap, ran, rfl⟩
    exact ⟨_, returns_onPart_iff.mpr ⟨heap, ran, rfl⟩, rfl⟩

/-- So is one to the rest of the kernel. -/
theorem returns_onOutside_iff {program : Program σ Fault Value} {answer : Value} :
    Returns (onHere (RuleHeap.onOutside program)) here answer after ↔
      ∃ outside, Returns program here.here.outside answer outside ∧
        after = { here with here := { here.here with outside := outside } } := by
  rw [onHere, returns_onPart_iff]
  constructor
  · rintro ⟨_, ran, rfl⟩
    obtain ⟨outside, ranOutside, rfl⟩ := returns_onPart_iff.mp ran
    exact ⟨outside, ranOutside, rfl⟩
  · rintro ⟨outside, ran, rfl⟩
    exact ⟨_, returns_onPart_iff.mpr ⟨outside, ran, rfl⟩, rfl⟩

/-- The lookup of the root for a new list finds none, as the call starts one of its own. -/
theorem returns_top {answer : Nat × Pointer}
    (ran : Returns (performFor k call .top) here answer after) :
    answer.2 = none ∧ after = here := by
  change Returns (do
    let s ← get
    if s.here.root = none then onHere (RuleHeap.perform k .top) else throw .badPointer) here answer
      after at ran
  obtain ⟨_, _, got, read⟩ := returns_bind_iff.mp ran
  obtain ⟨rfl, rfl⟩ := returns_get_iff.mp got
  split at read
  · next empty =>
      rw [onHere, returns_onPart_iff] at read
      obtain ⟨_, read, rfl⟩ := read
      simp only [RuleHeap.perform, returns_bind_iff, returns_get_iff, returns_pure_iff] at read
      obtain ⟨_, _, ⟨rfl, rfl⟩, rfl, rfl⟩ := read
      exact ⟨empty, rfl⟩
  · exact absurd read (returns_throw_iff.mp)

/-- The root of a call's own list is set in its own variable. -/
theorem returns_setTop {p : Pointer} {answer : Unit}
    (ran : Returns (performFor k call (.setTop p)) here answer after) :
    after = { here with here := { here.here with root := p } } := by
  change Returns (onHere (modify fun s => { s with root := p })) here answer after at ran
  rw [onHere, returns_onPart_iff] at ran
  obtain ⟨_, set, rfl⟩ := ran
  rw [returns_modify_iff.mp set]

/-- A load of a node of the list answers what the list says is there. -/
theorem Mine.keeps_load {node : Node FileNode} {continued : Node FileNode → RuleScript Value}
    (mine : Mine opens paths call rules nodes new s)
    (live : ∀ here, Mine opens paths call rules nodes new here →
      here.here.heap.cell address = some node)
    (goesOn : ∀ here, Mine opens paths call rules nodes new here →
      Keeping k opens call rules post (continued node) here) :
    Keeping k opens call rules post
      (RuleHeap.Stepwise.load (some address) >>= continued) s := by
  refine mine.keeps_call fun here answer after mine ran => ?_
  obtain ⟨heap, loaded, rfl⟩ := returns_onHeap_iff.mp ran
  obtain ⟨found, rfl⟩ := Heap.returns_load_iff.mp loaded
  obtain rfl := Option.some.inj (found.symm.trans (live here mine))
  exact ⟨(mine.still ⟨rfl, rfl⟩ rfl rfl).1, goesOn here mine⟩

/-- A store goes on from the changed heap, if it keeps what the others rely on. -/
theorem Mine.keeps_store {node : Node FileNode} {continued : Unit → RuleScript Value}
    (mine : Mine opens paths call rules nodes new s)
    (goesOn : ∀ here, Mine opens paths call rules nodes new here →
      Promised opens call rules here (here.put address node) ∧
        Keeping k opens call rules post (continued ()) (here.put address node)) :
    Keeping k opens call rules post
      (RuleHeap.Stepwise.store (some address) node >>= continued) s := by
  refine mine.keeps_call fun here answer after mine ran => ?_
  obtain ⟨heap, stored, rfl⟩ := returns_onHeap_iff.mp ran
  obtain ⟨_, rfl⟩ := Heap.returns_store_iff.mp stored
  exact goesOn here mine

/-- A path opens what it opened for the others, which is what the rules are made of. -/
theorem Mine.keeps_open (view : PathView k opens) {path : Bytes}
    {continued : Option File → RuleScript Value}
    (mine : Mine opens paths call rules nodes new s)
    (goesOn : ∀ fs here, Mine opens paths call rules nodes new here →
      fs.map File.inode = paths path → Keeping k opens call rules post (continued fs) here) :
    Keeping k opens call rules post (Script.call (Access.filpOpen path) >>= continued) s := by
  refine mine.keeps_call fun here answer after mine ran => ?_
  obtain ⟨outside, opened, rfl⟩ := returns_onOutside_iff.mp ran
  have isOpened : k.filpOpen path here.here.outside = (answer, outside) := by
    simpa [filpOpen, returns_bind_iff, Prod.ext_iff, eq_comm, and_comm] using opened
  have kept := view.openKeeps path here.here.outside
  have shown := view.opened path here.here.outside
  rw [isOpened] at kept shown
  obtain ⟨promised, mine⟩ := mine.still (t := { here with here := { here.here with
    outside := outside } }) ⟨rfl, rfl⟩ rfl kept
  exact ⟨promised, goesOn answer _ mine (shown.trans (congrFun (kept.symm.trans mine.paths) path))⟩

/-- Closing changes nothing that anybody relies on. -/
theorem Mine.keeps_close (view : PathView k opens) {file : File}
    {continued : Unit → RuleScript Value}
    (mine : Mine opens paths call rules nodes new s)
    (goesOn : ∀ here, Mine opens paths call rules nodes new here →
      Keeping k opens call rules post (continued ()) here) :
    Keeping k opens call rules post (Script.call (Access.filpClose file) >>= continued) s := by
  refine mine.keeps_call fun here answer after mine ran => ?_
  obtain ⟨_, closed, rfl⟩ := returns_onOutside_iff.mp ran
  obtain rfl := returns_modify_iff.mp closed
  obtain ⟨promised, mine⟩ := mine.still (t := { here with here := { here.here with
    outside := k.filpClose file here.here.outside } }) ⟨rfl, rfl⟩ rfl (view.closeKeeps _ _)
  exact ⟨promised, goesOn _ mine⟩

/-- A node that `vmalloc` answers is nobody else's. -/
theorem Mine.keeps_malloc {continued : Nat → RuleScript Value}
    (mine : Mine opens paths call rules nodes new s)
    (goesOn : ∀ address here, Mine opens paths call rules nodes (some (address, freshNode)) here →
      Keeping k opens call rules post (continued address) here) :
    Keeping k opens call rules post (Script.call Access.vmalloc >>= continued) s := by
  refine mine.keeps_call fun here answer after mine ran => ?_
  obtain ⟨promised, grown⟩ := mine.grown
  obtain ⟨rfl, rfl⟩ : answer = here.here.heap.fresh ∧ after = here.grown call := by
    change Returns (do
      let address ← onHere (RuleHeap.onHeap (Heap.malloc freshNode))
      modify fun s => { s with owner := Function.update s.owner address (some call) }
      return address) here answer after at ran
    simp only [returns_bind_iff, returns_onHeap_iff, Heap.returns_malloc_iff, returns_modify_iff,
      returns_pure_iff] at ran
    obtain ⟨_, _, ⟨_, ⟨rfl, rfl⟩, rfl⟩, _, _, rfl, rfl, rfl⟩ := ran
    exact ⟨rfl, rfl⟩
  exact ⟨promised, goesOn _ _ grown⟩

/-- A type letter is read where no other call looks. -/
theorem Mine.keeps_type {str : Option Bytes} {continued : ProtectType → RuleScript Value}
    (mine : Mine opens paths call rules nodes new s)
    (goesOn : ∀ type here, Mine opens paths call rules nodes new here →
      protectTypeFromStr str = .ok type → Keeping k opens call rules post (continued type) here) :
    Keeping k opens call rules post (Script.call (Access.typeFromStr str) >>= continued) s := by
  refine mine.keeps_call fun here answer after mine ran => ?_
  change Returns (onHere (liftM (protectTypeFromStr str : Except Fault ProtectType))) here answer
    after at ran
  rw [onHere, returns_onPart_iff] at ran
  obtain ⟨_, typed, rfl⟩ := ran
  obtain ⟨isType, rfl⟩ := returns_lift_iff.mp typed
  exact ⟨(mine.still ⟨rfl, rfl⟩ rfl rfl).1, goesOn answer here mine isType⟩

/-- Linking in the node that is filled in. -/
theorem linkNode_keeps {value : FileNode} {lastvalidFl : Pointer}
    (mine : Mine opens paths call rules nodes (some (address, ⟨value, none⟩)) s)
    (isLast : lastvalidFl = nodes.getLast?.map Prod.fst)
    (part : (nodes ++ [(address, value)]).map Prod.snd <+: rules) :
    Keeping k opens call rules
      (fun _ after => Mine opens paths call rules (nodes ++ [(address, value)]) none after)
      (RuleHeap.Stepwise.linkNode address lastvalidFl) s := by
  rcases List.eq_nil_or_concat' nodes with rfl | ⟨front, ⟨last, before⟩, whole⟩
  · obtain rfl := isLast
    change Keeping k opens call rules _ (Script.call (Access.setTop (some address))) s
    rw [← bind_pure (Script.call _)]
    refine mine.keeps_call fun here answer after mine ran => ?_
    obtain rfl := returns_setTop ran
    obtain ⟨promised, linked⟩ := mine.rooted part
    exact ⟨promised, linked.keeps_pure fun _ => id⟩
  · obtain rfl : lastvalidFl = some last := by simp [isLast, whole]
    have atLast : ∀ here, Mine opens paths call rules nodes (some (address, ⟨value, none⟩)) here →
        here.here.heap.cell last = some ⟨before, none⟩ := by
      intro here mine
      have chain := mine.chain.chain
      rw [whole] at chain
      obtain ⟨_, _, rfl, _, live, rfl⟩ := Segment.append_iff.mp chain
      exact live
    unfold RuleHeap.Stepwise.linkNode
    dsimp only
    refine mine.keeps_load atLast fun here mine => ?_
    refine mine.keeps_load (fun here mine => (mine.new _ _ rfl).2.1) fun here mine => ?_
    refine mine.keeps_store fun here mine => ?_
    obtain ⟨promised, mine⟩ := mine.filled ⟨value, none⟩
    refine ⟨promised, ?_⟩
    rw [← bind_pure (RuleHeap.Stepwise.store (some last) _)]
    refine mine.keeps_store fun here mine => ?_
    obtain ⟨promised, linked⟩ := mine.linked whole part
    exact ⟨promised, linked.keeps_pure fun _ => id⟩

/-- What a line adds. -/
def lineRules (paths : Bytes → Option InodeAddr) (line : Bytes) : List FileNode :=
  if atSign ∈ line then ((RuleLine.ofLine line).install paths).toList else []

/-- A line whose path does not open is no rule, -/
theorem lineRules_eq_nil {line : Bytes}
    (closed : pathOpens paths (line.takeWhile (· != atSign)) = none) :
    lineRules paths line = [] := by
  simp [lineRules, RuleLine.install, RuleLine.ofLine, closed]

/-- and one whose path opens is one, if its type is known. -/
theorem lineRules_eq {line : Bytes} {inode : InodeAddr} {type : ProtectType}
    (opened : pathOpens paths (line.takeWhile (· != atSign)) = some inode)
    (typed : protectTypeFromStr (strsep (some line) atSign).2 = .ok type) :
    lineRules paths line = [.make (line.takeWhile (· != atSign)) inode type] := by
  by_cases marked : atSign ∈ line
  · rw [strsep_of_mem marked] at typed
    cases typed
    simp [lineRules, marked, RuleLine.install, RuleLine.ofLine, opened]
  · rw [strsep_of_absent marked] at typed
    cases typed

/-- The chain of a call shows some rules, and ends where its cursor is. -/
def Shows (opens : σ → Bytes → Option InodeAddr) (paths : Bytes → Option InodeAddr) (call : Nat)
    (rules shown : List FileNode) (cursor : Cursor) (s : Owned σ) : Prop :=
  ∃ nodes, Mine opens paths call rules nodes none s ∧
    cursor.lastvalidFl = nodes.getLast?.map Prod.fst ∧ nodes.map Prod.snd = shown

/-- A turn of the loop. -/
theorem createLine_keeps (view : PathView k opens) {shown : List FileNode} {cursor : Cursor}
    (shows : Shows opens paths call rules shown cursor s) (line : Bytes)
    (part : shown ++ lineRules paths line <+: rules) :
    Keeping k opens call rules
      (fun outcome after => outcome.2 = (strsep (some line) atSign).2 ∧
        Shows opens paths call rules (shown ++ lineRules paths line) outcome.1 after)
      (RuleHeap.Stepwise.createLine line cursor) s := by
  obtain ⟨nodes, mine, isLast, isShown⟩ := shows
  obtain ⟨path, isPath⟩ : ∃ path, line.takeWhile (· != atSign) = path := ⟨_, rfl⟩
  obtain ⟨pStr1, isRest⟩ : ∃ pStr1, (strsep (some line) atSign).2 = pStr1 := ⟨_, rfl⟩
  have cut : strsep (some line) atSign = (some path, pStr1) := by rw [← isPath, ← isRest]; rfl
  have noRule : ∀ s : Owned σ, Mine opens paths call rules nodes none s →
      pathOpens paths path = none → Keeping k opens call rules
        (fun outcome after => outcome.2 = pStr1 ∧
          Shows opens paths call rules (shown ++ lineRules paths line) outcome.1 after)
        (pure (cursor, pStr1)) s := by
    intro s mine closed
    refine mine.keeps_pure fun here mine => ⟨rfl, nodes, mine, isLast, ?_⟩
    rw [lineRules_eq_nil (isPath ▸ closed), List.append_nil, isShown]
  unfold RuleHeap.Stepwise.createLine
  rw [cut]
  dsimp only
  by_cases empty : path = []
  · rw [if_pos empty, pure_bind]
    exact noRule s mine (by simp [pathOpens, empty])
  rw [if_neg empty]
  refine mine.keeps_open view fun fs here mine opened => ?_
  cases fs with
  | none => exact noRule here mine (by simp [pathOpens, empty, ← opened])
  | some file =>
      refine mine.keeps_malloc fun address here mine => ?_
      refine mine.keeps_type fun type here mine typed => ?_
      refine mine.keeps_store fun here mine => ?_
      obtain ⟨promised, mine⟩ := mine.filled ⟨.make path file.inode type, none⟩
      refine ⟨promised, ?_⟩
      have isRule : lineRules paths line = [.make path file.inode type] := by
        have opensTo : pathOpens paths path = some file.inode := by
          rw [pathOpens, if_neg empty, ← opened]
          rfl
        rw [← isPath] at opensTo ⊢
        exact lineRules_eq opensTo (isRest ▸ typed)
      rw [isRule] at part ⊢
      refine Script.Keeps.bind (Rely.refl) ((linkNode_keeps mine isLast ?_).imp
        (fun _ _ => id) fun _ after mine => ?_)
      · simpa [isShown] using part
      refine mine.keeps_close view fun here mine => ?_
      refine mine.keeps_pure fun here mine => ⟨rfl, _, mine, by simp, by simp [isShown]⟩

/-- The rules of a text, if there is one. -/
def textRules (paths : Bytes → Option InodeAddr) : Option Bytes → List FileNode
  | none => []
  | some text => parseLines paths (textLines text)

/-- The rules of a text are those of its first line and of what is behind it. -/
theorem textRules_eq (text : Bytes) :
    textRules paths (some text) = lineRules paths (text.takeWhile (· != newline)) ++
      if atSign ∈ text.takeWhile (· != newline)
      then textRules paths (strsep (some text) newline).2 else [] := by
  rw [textRules, textLines_eq]
  by_cases marked : atSign ∈ text.takeWhile (· != newline)
  · rw [parseLines_typed marked, lineRules, if_pos marked, if_pos marked]
    cases (strsep (some text) newline).2 <;> rfl
  · rw [parseLines_bare marked, lineRules, if_neg marked, if_neg marked, List.append_nil]

/-- Turn by turn the list shows the rules of the lines before it. -/
theorem createLoop_keeps (view : PathView k opens) (tmpData : Option Bytes) {cursor : Cursor}
    {shown : List FileNode} (shows : Shows opens paths call rules shown cursor s)
    (all : rules = shown ++ textRules paths tmpData) :
    Keeping k opens call rules
      (fun outcome after => Shows opens paths call rules rules outcome.1 after)
      (RuleHeap.Stepwise.createLoop tmpData cursor) s := by
  induction tmpData, cursor using RuleHeap.Stepwise.createLoop.induct generalizing s shown with
  | case1 cursor =>
      obtain rfl : rules = shown := by simpa [textRules] using all
      rw [RuleHeap.Stepwise.createLoop]
      obtain ⟨nodes, mine, isLast, isShown⟩ := shows
      exact mine.keeps_pure fun here mine => ⟨nodes, mine, isLast, isShown⟩
  | case2 cursor text ih =>
      rw [RuleHeap.Stepwise.createLoop]
      rw [textRules_eq, ← List.append_assoc] at all
      refine Script.Keeps.bind Rely.refl
        ((createLine_keeps view shows _ ⟨_, all.symm⟩).imp (fun _ _ => id) ?_)
      rintro ⟨next, pStr1⟩ after ⟨isRest, shows⟩
      dsimp only at isRest shows ⊢
      subst isRest
      by_cases marked : atSign ∈ text.takeWhile (· != newline)
      · rw [if_pos marked] at all
        rw [strsep_of_mem marked]
        exact ih next shows all
      · rw [if_neg marked, List.append_nil] at all
        rw [strsep_of_absent marked]
        rw [← all] at shows
        obtain ⟨nodes, mine, isLast, isShown⟩ := shows
        exact mine.keeps_pure fun here mine => ⟨nodes, mine, isLast, isShown⟩

theorem lastValid_none (turns : Nat) : RuleHeap.Stepwise.lastValid turns none = pure none := by
  cases turns <;> rfl

/-- `create_list` on an empty list, however many others do the same. -/
theorem createList_keeps (view : PathView k opens) {text : Bytes}
    (mine : Mine opens paths call (parseLines paths (textLines text)) [] none s) :
    Keeping k opens call (parseLines paths (textLines text))
      (fun _ after => ∃ nodes,
        Mine opens paths call (parseLines paths (textLines text)) nodes none after ∧
          nodes.map Prod.snd = parseLines paths (textLines text))
      (ListWrite.createList text).script s := by
  change Keeping k opens call _ _ (Script.call Access.top >>= fun top => do
    let _ ← (do
      let lastvalidFl ← RuleHeap.Stepwise.lastValid top.1 top.2
      let outcome ← RuleHeap.Stepwise.createLoop (some text) ⟨lastvalidFl, 0⟩
      return outcome.1.cnt)) s
  refine mine.keeps_call fun here answer after mine ran => ?_
  obtain ⟨bound, top⟩ := answer
  obtain ⟨empty, rfl⟩ := returns_top ran
  obtain rfl : top = none := empty
  refine ⟨(mine.still ⟨rfl, rfl⟩ rfl rfl).1, ?_⟩
  dsimp only
  rw [lastValid_none, pure_bind]
  have shows : Shows opens paths call (parseLines paths (textLines text)) [] ⟨none, 0⟩ after :=
    ⟨[], mine, rfl, rfl⟩
  refine Script.Keeps.bind Rely.refl (Script.Keeps.bind Rely.refl
    ((createLoop_keeps view (some text) shows rfl).imp (fun _ _ => id) ?_))
  rintro ⟨cursor, _⟩ after ⟨nodes, mine, _, isShown⟩
  exact mine.keeps_pure fun here mine => mine.keeps_pure fun here mine => ⟨nodes, mine, isShown⟩

end Scripts

end Saves

end FsProtection
