import FsProtection.Communicate.Lookup
import FsProtection.Communicate.Promises

/-!
# Lookups beside a write

The lists of the lookups and the write handlers have no lock. Any number of lookups walk
the nodes while one write after the other creates and destroys them, each an access at a
time and in any order.
-/

namespace FsProtection

open Base

variable {σ : Type}

/-- What a lookup compares the rules with: the path, the inode of the open file, or the
number of a directory record. -/
inductive Query where
  | path (text : Bytes) (ptype : ProtectType)
  | inode (address : InodeAddr) (ptype : ProtectType)
  | ino (number : UInt32) (ptype : ProtectType)

namespace Query

/-- The comparison stays inside the node: `strcmp` ends in `filePath`, and `p->inode` is
not NULL where `i_ino` is read through it. -/
def readable : Query → FileNode → Bool
  | .path _ _, p => Terminated p.filePath.1
  | .inode _ _, _ => true
  | .ino _ _, p => p.inode ≠ 0

def passes (k : Kernel σ) (outside : σ) : Query → FileNode → Bool
  | .path text ptype, p => cstr p.filePath.1 = text ∧ p.type = ptype
  | .inode address ptype, p => inodeMatches address ptype p
  | .ino number ptype, p => k.inoMatches outside number ptype p

end Query

/-- A call that changes the list. -/
inductive ListWrite where
  | createList (text : Bytes)
  | destroyList

def ListWrite.script : ListWrite → RuleHeap.RuleScript Unit
  | .createList text => do
      let _ ← RuleHeap.Stepwise.createNodes text
  | .destroyList => RuleHeap.Stepwise.destroy

/-- The nodes, what is left of the call that changes them, and where the lookups are. -/
structure Walks (σ : Type) where
  nodes : RuleHeap σ
  writing : ListWrite
  rest : RuleHeap.RuleScript Unit
  walks : Nat → Option (Query × Walk FileNode)

/-- A call that changes the list begins or makes its next access, anything happens
elsewhere, or a lookup begins or makes its next access. -/
inductive WalkEvent (σ : Type) where
  | write (call : ListWrite)
  | access
  | elsewhere (outside : σ)
  | lookup (reader : Nat) (query : Query)
  | walk (reader : Nat)

namespace Walks

def start (place : Nat → Nat) (outside : σ) : Walks σ where
  nodes := .initial place outside
  writing := .createList []
  rest := .done ()
  walks _ := none

/-- A call that changes the list begins when the one before it is done. -/
def step (k : Kernel σ) (s : Walks σ) : WalkEvent σ → Except Fault (Walks σ)
  | .write call =>
      match s.rest with
      | .done _ => return { s with writing := call, rest := call.script }
      | .access _ _ => return s
  | .access => do
      let (rest, nodes) ← (s.rest.advance (RuleHeap.perform k)).run s.nodes
      return { s with rest := rest, nodes := nodes }
  | .elsewhere outside => return { s with nodes := { s.nodes with outside := outside } }
  | .lookup reader query =>
      return { s with
        walks := Function.update s.walks reader (some (query, .testing s.nodes.root)) }
  | .walk reader =>
      match s.walks reader with
      | none => return s
      | some (query, walk) => do
          let next ← walk.step .badPointer query.readable (query.passes k s.nodes.outside)
            s.nodes.heap.cell
          return { s with walks := Function.update s.walks reader (some (query, next)) }

/-- `destroy_list` is not done yet. -/
def Destroying (s : Walks σ) : Prop :=
  s.writing = .destroyList ∧ ∀ ended, s.rest ≠ .done ended

/-- What a call that changes the list promises the lookups. -/
def promised : ListWrite → RuleHeap σ → RuleHeap σ → Prop
  | .createList _ => RuleHeap.Grows
  | .destroyList => fun _ _ => True

/-- What is left of a call keeps its promise and leaves a list, and while it creates one
there is a list. -/
structure Sound (k : Kernel σ) (s : Walks σ) : Prop where
  keeps : RuleHeap.Promises k (promised s.writing)
    (fun _ after => ∃ nodes, IsList after.heap after.root nodes) s.rest s.nodes
  listed : (∀ ended, s.rest ≠ .done ended) → s.writing ≠ .destroyList →
    ∃ nodes, s.nodes.Listed nodes

section Invariant

variable {k : Kernel σ} {s next : Walks σ}

theorem Sound.isList (sound : s.Sound k) {ended : Unit} (idle : s.rest = .done ended) :
    ∃ nodes, IsList s.nodes.heap s.nodes.root nodes := by
  have keeps := sound.keeps
  rw [idle] at keeps
  exact keeps s.nodes (.refl _)

/-- There is a list unless `destroy_list` is at work. -/
theorem Sound.exists_listed (sound : s.Sound k) (creating : ¬ s.Destroying) :
    ∃ nodes, s.nodes.Listed nodes := by
  cases rest : s.rest with
  | done ended =>
      obtain ⟨nodes, list⟩ := sound.isList rest
      exact ⟨nodes, list.chain⟩
  | access request continued =>
      have running : ∀ ended, s.rest ≠ .done ended := by simp [rest]
      exact sound.listed running fun destroys => creating ⟨destroys, running⟩

theorem script_keeps {call : ListWrite} {here : RuleHeap σ} {nodes : List (Nat × FileNode)}
    (list : IsList here.heap here.root nodes) :
    RuleHeap.Promises k (promised call)
      (fun _ after => ∃ nodes, IsList after.heap after.root nodes) call.script here := by
  cases call with
  | createList text =>
      refine Script.Keeps.bind RuleHeap.SameNodes.refl
        ((RuleHeap.createNodes_promises list text).imp (fun _ _ => id) ?_)
      rintro _ after ⟨nodes, created⟩
      exact Script.keeps_pure fun last same => ⟨nodes, same.1 ▸ same.2 ▸ created⟩
  | destroyList =>
      refine (RuleHeap.destroy_promises list).imp (fun _ _ _ => trivial) ?_
      rintro _ after ⟨root, gone⟩
      exact ⟨[], root ▸ gone⟩

theorem sound_start (place : Nat → Nat) (outside : σ) : (start place outside).Sound k where
  keeps := by
    rintro here ⟨heap, root⟩
    exact ⟨[], by rw [heap, root]; exact IsList.empty place⟩
  listed running := absurd rfl (running ())

/-- What an event does to the nodes and to the call that changes them. -/
inductive Moves (k : Kernel σ) (s next : Walks σ) : Prop where
  | began (call : ListWrite) {ended : Unit} (idle : s.rest = .done ended)
      (nodes : next.nodes = s.nodes) (writing : next.writing = call)
      (rest : next.rest = call.script)
  | accessed (ran : Returns (s.rest.advance (RuleHeap.perform k)) s.nodes next.rest next.nodes)
      (writing : next.writing = s.writing)
  | still (same : RuleHeap.SameNodes s.nodes next.nodes) (writing : next.writing = s.writing)
      (rest : next.rest = s.rest)

theorem walk_step_ok {reader : Nat} (stepped : s.step k (.walk reader) = .ok next) :
    (s.walks reader = none ∧ next = s) ∨
    ∃ query walk following, s.walks reader = some (query, walk) ∧
      walk.step Fault.badPointer query.readable (query.passes k s.nodes.outside)
        s.nodes.heap.cell = .ok following ∧
      next = { s with walks := Function.update s.walks reader (some (query, following)) } := by
  simp only [step] at stepped
  split at stepped
  · next absent =>
      cases stepped
      exact .inl ⟨absent, rfl⟩
  · next query walk here =>
      obtain ⟨following, walked, answered⟩ := bind_eq_ok_iff.mp stepped
      cases answered
      exact .inr ⟨query, walk, following, here, walked, rfl⟩

/-- A step of a walk that does not fault. -/
theorem step_walk {reader : Nat} {query : Query} {walk following : Walk FileNode}
    (here : s.walks reader = some (query, walk))
    (walked : walk.step Fault.badPointer query.readable (query.passes k s.nodes.outside)
      s.nodes.heap.cell = .ok following) :
    ∃ next, s.step k (.walk reader) = .ok next ∧ next.nodes = s.nodes ∧ next.rest = s.rest ∧
      next.writing = s.writing ∧ next.walks reader = some (query, following) := by
  refine ⟨{ s with walks := Function.update s.walks reader (some (query, following)) }, ?_, rfl,
    rfl, rfl, by simp⟩
  simp only [step, here]
  exact bind_eq_ok_iff.mpr ⟨following, walked, rfl⟩

theorem step_moves {event : WalkEvent σ} (stepped : s.step k event = .ok next) :
    s.Moves k next := by
  cases event with
  | write call =>
      simp only [step] at stepped
      split at stepped
      · next idle =>
          cases stepped
          exact .began call idle rfl rfl rfl
      · cases stepped
        exact .still (.refl _) rfl rfl
  | access =>
      obtain ⟨rest, nodes, ran, answered⟩ := run_bind_eq_ok.mp stepped
      cases answered
      exact .accessed ran rfl
  | elsewhere outside =>
      cases stepped
      exact .still ⟨rfl, rfl⟩ rfl rfl
  | lookup reader query =>
      cases stepped
      exact .still (.refl _) rfl rfl
  | walk reader =>
      rcases walk_step_ok stepped with ⟨_, rfl⟩ | ⟨_, _, _, _, _, rfl⟩
      · exact .still (.refl _) rfl rfl
      · exact .still (.refl _) rfl rfl

/-- While a list is created, or nothing is at work, the list is there, as it was or with
nodes behind it. -/
theorem Sound.step (sound : s.Sound k) (moves : s.Moves k next) :
    next.Sound k ∧ (¬ s.Destroying → RuleHeap.Grows s.nodes next.nodes) := by
  cases moves with
  | began call idle nodes writing rest =>
      obtain ⟨listed, list⟩ := sound.isList idle
      refine ⟨⟨?_, fun _ _ => ?_⟩, fun _ => RuleHeap.grows_same (nodes ▸ .refl _)⟩
      · rw [writing, rest, nodes]
        exact script_keeps list
      · exact ⟨listed, by rw [nodes]; exact list.chain⟩
  | accessed ran writing =>
      obtain ⟨allowed, keeps⟩ := sound.keeps.advance RuleHeap.SameNodes.refl ran
      have grows : ¬ s.Destroying → RuleHeap.Grows s.nodes next.nodes := by
        intro creating
        rcases allowed with same | allowed
        · exact RuleHeap.grows_same (same ▸ .refl _)
        · cases call : s.writing with
          | createList text => exact (call ▸ allowed : promised (.createList text) _ _)
          | destroyList =>
              cases rest : s.rest with
              | done ended =>
                  rw [rest] at ran
                  obtain ⟨_, same⟩ := returns_pure_iff.mp ran
                  exact RuleHeap.grows_same (same ▸ .refl _)
              | access request continued => exact absurd ⟨call, by simp [rest]⟩ creating
      refine ⟨⟨by rw [writing]; exact keeps, fun running creates => ?_⟩, grows⟩
      rw [writing] at creates
      have creating : ¬ s.Destroying := fun destroying => creates destroying.1
      obtain ⟨nodes, listed⟩ := sound.exists_listed creating
      obtain ⟨more, now⟩ := grows creating nodes listed
      exact ⟨_, now⟩
  | still same writing rest =>
      have grows := RuleHeap.grows_same same
      refine ⟨⟨?_, fun running creates => ?_⟩, fun _ => grows⟩
      · rw [writing, rest]
        exact sound.keeps.stable same RuleHeap.SameNodes.trans
      · rw [rest] at running
        rw [writing] at creates
        obtain ⟨nodes, listed⟩ := sound.listed running creates
        obtain ⟨more, now⟩ := grows nodes listed
        exact ⟨_, now⟩

theorem run_sound {place : Nat → Nat} {outside : σ} {events : List (WalkEvent σ)}
    (ran : execute (step k) (start place outside) events = .ok s) : s.Sound k :=
  execute_history (fun _ s => s.Sound k) (sound_start place outside)
    (fun _ _ _ _ sound stepped => (sound.step (step_moves stepped)).1) ran

end Invariant

section Alone

variable {k : Kernel σ} {s : Walks σ}

theorem write_begins {ended : Unit} (idle : s.rest = .done ended) (call : ListWrite) :
    s.step k (.write call) = .ok { s with writing := call, rest := call.script } := by
  simp only [step, idle]
  rfl

/-- The accesses of a call, with nothing between them, are the call. -/
theorem accesses_alone {value : Unit} {after : RuleHeap σ}
    (ran : Returns (s.rest.whole (RuleHeap.perform k)) s.nodes value after) :
    ∃ accesses, execute (step k) s (List.replicate accesses .access) =
      .ok { s with rest := .done value, nodes := after } := by
  obtain ⟨nodes, writing, rest, walks⟩ := s
  induction rest generalizing nodes with
  | done ended =>
      obtain ⟨rfl, rfl⟩ := returns_pure_iff.mp ran
      exact ⟨0, rfl⟩
  | access request continued ih =>
      obtain ⟨answer, middle, answered, goesOn⟩ := returns_bind_iff.mp ran
      obtain ⟨accesses, executed⟩ := ih answer middle goesOn
      have advanced : Returns (Script.advance (RuleHeap.perform k) (.access request continued))
          nodes (continued answer) middle := answered.bind (returns_pure_iff.mpr ⟨rfl, rfl⟩)
      have stepped : step k ⟨nodes, writing, .access request continued, walks⟩ .access =
          .ok ⟨middle, writing, continued answer, walks⟩ :=
        run_bind_eq_ok.mpr ⟨_, _, advanced, rfl⟩
      exact ⟨accesses + 1, execute_cons.mpr ⟨_, stepped, executed⟩⟩

/-- So is `create_list`. -/
theorem createList_alone {ended : Unit} (idle : s.rest = .done ended) {text : Bytes} {cnt : Nat}
    {after : RuleHeap σ} (ran : Returns (RuleHeap.createNodes k text) s.nodes cnt after) :
    ∃ accesses, execute (step k) s (.write (.createList text) :: List.replicate accesses .access) =
      .ok { s with writing := .createList text, rest := .done (), nodes := after } := by
  have whole : Returns ((ListWrite.createList text).script.whole (RuleHeap.perform k)) s.nodes ()
      after := by
    rw [ListWrite.script, Script.whole_bind, RuleHeap.whole_createNodes]
    exact ran.bind (returns_pure_iff.mpr ⟨rfl, rfl⟩)
  obtain ⟨accesses, executed⟩ := accesses_alone
    (s := { s with writing := .createList text, rest := (ListWrite.createList text).script }) whole
  exact ⟨accesses, execute_cons.mpr ⟨_, write_begins idle _, executed⟩⟩

/-- And `destroy_list`. -/
theorem destroyList_alone {ended : Unit} (idle : s.rest = .done ended) {after : RuleHeap σ}
    (ran : Returns RuleHeap.destroy s.nodes () after) :
    ∃ accesses, execute (step k) s (.write .destroyList :: List.replicate accesses .access) =
      .ok { s with writing := .destroyList, rest := .done (), nodes := after } := by
  have whole : Returns (ListWrite.destroyList.script.whole (RuleHeap.perform k)) s.nodes ()
      after := by
    rw [ListWrite.script, RuleHeap.whole_destroy]
    exact ran
  obtain ⟨accesses, executed⟩ := accesses_alone
    (s := { s with writing := .destroyList, rest := ListWrite.destroyList.script }) whole
  exact ⟨accesses, execute_cons.mpr ⟨_, write_begins idle _, executed⟩⟩

end Alone

section Created

open RuleHeap (halfText halfText_parses)

/-- The rule of the text whose path opens. -/
def halfRule : FileNode := .make (lit "/f") 7 .read

/-- `create_list` on the text, one access at a time and with nothing between. -/
theorem halfText_created : ∃ past s node,
    execute (step (Kernel.quiet oneFile)) (start (fun _ => 7) ()) past = .ok s ∧
      s.rest = .done () ∧ s.writing = .createList halfText ∧
      IsList s.nodes.heap s.nodes.root [node] ∧ node.2 = halfRule := by
  obtain ⟨after, added, ran, list, parsed, _⟩ :=
    RuleHeap.createNodes_returns (s := .initial (fun _ => 7) ()) (IsList.empty _) halfText_parses
  have lines : textLines halfText = [lit "/f@r", lit "/g@w", []] := by decide
  rw [((Kernel.quiet_pathView oneFile).lines _ ()).2.1, lines] at parsed
  have single : added.map Prod.snd = [halfRule] := parsed.trans rfl
  obtain ⟨node, rfl, isRule⟩ := List.map_eq_singleton_iff.mp single
  obtain ⟨accesses, executed⟩ := createList_alone (s := start (fun _ => 7) ()) rfl ran
  exact ⟨_, _, node, executed, rfl, rfl, list, isRule⟩

theorem halfRule_terminated : Terminated halfRule.filePath.1 := by
  have short : (lit "/f").length < filepathSize := by decide
  exact strncpy_terminated short

/-- What is looked up there. -/
def halfQuery : Query := .path (lit "/f") .read

theorem halfRule_passes : halfQuery.passes (Kernel.quiet oneFile) () halfRule = true := by decide

/-- On a list of that rule a lookup that begins has it tested after one step. -/
theorem halfRule_tested {s first : Walks Unit} {node : Nat × FileNode}
    (list : IsList s.nodes.heap s.nodes.root [node]) (isRule : node.2 = halfRule)
    (begun : s.step (Kernel.quiet oneFile) (.lookup 0 halfQuery) = .ok first) :
    ∃ tested, first.step (Kernel.quiet oneFile) (.walk 0) = .ok tested ∧
      tested.nodes = s.nodes ∧ tested.rest = s.rest ∧ tested.writing = s.writing ∧
      tested.walks 0 = some (halfQuery, .reporting node.1) := by
  cases begun
  have front : IsList s.nodes.heap s.nodes.root ([] ++ (node.1, node.2) :: []) := list
  have root : s.nodes.root = some node.1 := list.root_eq
  have readable : halfQuery.readable node.2 = true := by
    rw [isRule]
    exact decide_eq_true halfRule_terminated
  have passes : halfQuery.passes (Kernel.quiet oneFile) s.nodes.outside node.2 = true := by
    rw [isRule]
    exact halfRule_passes
  have walked : (Walk.testing s.nodes.root).step Fault.badPointer halfQuery.readable
      (halfQuery.passes (Kernel.quiet oneFile) s.nodes.outside) s.nodes.heap.cell =
        .ok (.reporting node.1) := by
    rw [root]
    exact Walk.step_hit front.cell_eq readable passes
  exact step_walk (by simp) walked

end Created

section Answers

variable {k : Kernel σ} {m : Machine σ} {globals : Globals} {ptype : ProtectType}

/-- What a walk by path finds is what `is_path_protected` answers and sends. -/
theorem isPathProtected_found {block : Block} (ended : Terminated block.bytes)
    (readable : ∀ p ∈ globals.fileListRoot, Terminated p.filePath.1) :
    Returns (isPathProtected k globals (some block) ptype) m
      (globals.fileListRoot.find?
        (Query.passes k m.outside (.path (cstr block.bytes) ptype))).isSome
      { m with messages := m.messages ++ (globals.fileListRoot.find?
        (Query.passes k m.outside (.path (cstr block.bytes) ptype))).toList.flatMap k.notice } := by
  rw [List.isSome_find?]
  refine returns_firstMatch _ (fun p member other _ => ?_) rfl
  have compared : strcmp block.bytes (k.filePathRegion p) =
      some (decide (cstr block.bytes = k.pathOf p)) :=
    strcmp_eq (filePathRegion_terminated p) (.inl ended)
  simp [strcmpPath, compared, Query.passes, pathOf_eq (readable p member), eq_comm]

/-- What a walk by inode number finds is what `is_ino_protected` answers and sends. -/
theorem isInoProtected_found (number : UInt32) :
    Returns (isInoProtected k globals number ptype) m
      (globals.fileListRoot.find? (Query.passes k m.outside (.ino number ptype))).isSome
      { m with messages := m.messages ++ (globals.fileListRoot.find?
        (Query.passes k m.outside (.ino number ptype))).toList.flatMap k.notice } := by
  rw [List.isSome_find?]
  exact returns_isInoProtected number

/-- What a walk by inode finds is what `is_fd_protected` answers and sends. -/
theorem isFdProtected_found (enabled : globals.protectEnabeled = true) {fd : UInt32} {file : File}
    (opened : k.fget fd m.outside = some file) :
    Returns (isFdProtected k globals fd ptype) m
      (globals.fileListRoot.find? (Query.passes k m.outside (.inode file.inode ptype))).isSome
      { m with messages := m.messages ++ (globals.fileListRoot.find?
        (Query.passes k m.outside (.inode file.inode ptype))).toList.flatMap k.notice } := by
  rw [List.isSome_find?]
  exact returns_isFdProtected_open enabled opened

end Answers

end Walks

end FsProtection
