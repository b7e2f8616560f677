import FsProtection.Kernel.Interface

/-!
# The three lookups

`is_fd_protected`, `is_ino_protected` and `is_path_protected` walk the rule list,
notify at the first rule with their key and type, and stop. Only the first one looks
at `protect_enabeled`.
-/

namespace FsProtection

open Base

variable {σ : Type} (k : Kernel σ)

/-- `messageWithStr`. -/
def messageWithStr (str : Bytes) : HookM σ Unit :=
  modify fun m => { m with messages := m.messages ++ [str] }

/-- The verb line `sendProtectNotiMsg` appends for a type. -/
def ProtectType.verb : ProtectType → Option Bytes
  | .none => Option.none
  | .read => some (lit "\nRead")
  | .write => some (lit "\nWrite")
  | .hide => some (lit "\nHide")
  | .open_ => some (lit "\nOpen")
  | .del => some (lit "\nDelete")
  | .rename => some (lit "\nRename")
  | .mkdir => some (lit "\nMkdir")

/-- `sendProtectNotiMsg`. The region is what `vmalloc (260)` makes usable; the bytes
behind the ones cleared are never read before they are written. -/
def sendProtectNotiMsg (thisFile : FileNode) : HookM σ Unit := do
  let str := List.replicate (k.vmallocRoom 260) 0
  let str ← strcatRegion str (lit "Protected:")
  let str ← strcatRegion str (k.pathOf thisFile)
  match thisFile.type.verb with
  | none => return
  | some verb =>
      let str ← strcatRegion str verb
      messageWithStr (cstr str)

/-- The loop the lookups share: notify at the first node that passes the test. -/
def firstMatch (test : FileNode → HookM σ Bool) : List FileNode → HookM σ Bool
  | [] => return false
  | p :: rest => do
      if ← test p then
        sendProtectNotiMsg k p
        return true
      else
        firstMatch test rest

/-- `this_file->f_dentry->d_inode`. -/
def inodeOf : Option File → HookM σ InodeAddr
  | none => throw .badPointer
  | some file => return file.inode

def isFdProtected (globals : Globals) (fd : UInt32) (ptype : ProtectType) : HookM σ Bool := do
  if globals.protectEnabeled then
    let thisFile ← fget k fd
    let hit ← firstMatch k (fun p => do
      let inode ← inodeOf thisFile
      return p.inode = inode ∧ p.type = ptype) globals.fileListRoot
    fput thisFile
    return hit
  else
    return false

def isInoProtected (globals : Globals) (ino : UInt32) (ptype : ProtectType) : HookM σ Bool :=
  firstMatch k (fun p => do
    let m ← get
    return k.iIno p.inode m.outside = ino ∧ p.type = ptype) globals.fileListRoot

/-- `strcmp (path, p->filePath) == 0`. -/
def strcmpPath (path : Option Block) (p : FileNode) : HookM σ Bool :=
  match path with
  | none => throw .badPointer
  | some block =>
      match strcmp block.bytes (k.filePathRegion p) with
      | none => throw .overrun
      | some equal => return equal

def isPathProtected (globals : Globals) (path : Option Block) (ptype : ProtectType) :
    HookM σ Bool :=
  firstMatch k (fun p => do
    let equal ← strcmpPath k path p
    return equal ∧ p.type = ptype) globals.fileListRoot

/-- The message a rule sends, if its type has a verb. -/
def Kernel.notice (node : FileNode) : List Bytes :=
  node.type.verb.toList.map fun verb => lit "Protected:" ++ k.pathOf node ++ verb

/-- The messages a lookup sends: those of the first rule that matches. -/
def Kernel.firstNotice (matched : FileNode → Bool) (rules : List FileNode) : List Bytes :=
  (rules.find? matched).toList.flatMap k.notice

/-- A rule whose inode is the one an open file has. -/
def inodeMatches (inode : InodeAddr) (ptype : ProtectType) (p : FileNode) : Bool :=
  p.inode = inode ∧ p.type = ptype

/-- A rule whose inode has the number of a directory record. -/
def Kernel.inoMatches (outside : σ) (ino : UInt32) (ptype : ProtectType) (p : FileNode) : Bool :=
  k.iIno p.inode outside = ino ∧ p.type = ptype

/-- A rule whose path is the string looked up. -/
def Kernel.pathMatches (path : Bytes) (ptype : ProtectType) (p : FileNode) : Bool :=
  path = k.pathOf p ∧ p.type = ptype

section Spec

variable {k} {m : Machine σ} {outside : σ}

theorem verb_length_le {type : ProtectType} {verb : Bytes} (found : type.verb = some verb) :
    verb.length ≤ 7 ∧ (0 : Byte) ∉ verb := by
  cases type <;> cases found <;> decide

theorem verb_eq_none_iff {type : ProtectType} : type.verb = none ↔ type = .none := by
  cases type <;> simp [ProtectType.verb]

/-- `sendProtectNotiMsg` stays in its pages and sends the rule's message. -/
theorem returns_sendProtectNotiMsg (node : FileNode) :
    Returns (sendProtectNotiMsg k node) m ()
      { m with messages := m.messages ++ k.notice node } := by
  have pages := k.vmallocPages 260 (by decide)
  have pathLength := pathOf_length_le (k := k) node
  have headBytes : (lit "Protected:").length = 10 := rfl
  simp only [pageSize, filepathSize] at pages pathLength
  have emptyLength : (List.replicate (k.vmallocRoom 260) (0 : Byte)).length = k.vmallocRoom 260 :=
    List.length_replicate
  have empty : cstr (List.replicate (k.vmallocRoom 260) 0) = [] := cstr_replicate_zero _
  have emptyTerminated : Terminated (List.replicate (k.vmallocRoom 260) 0) := by
    simp [Terminated]
    omega
  obtain ⟨head, headAppended, headLength, headTerminated, headContent⟩ :=
    strcat_fits (by decide : (0 : Byte) ∉ lit "Protected:") emptyTerminated (by
      rw [empty, emptyLength, headBytes]
      simp only [List.length_nil]
      omega)
  rw [emptyLength] at headLength
  rw [empty, List.nil_append] at headContent
  obtain ⟨body, bodyAppended, bodyLength, bodyTerminated, bodyContent⟩ :=
    strcat_fits (pathOf_clean (k := k) node) headTerminated (by
      rw [headContent, headLength, headBytes]
      omega)
  unfold sendProtectNotiMsg
  simp only [returns_bind_iff, returns_strcatRegion_iff]
  refine ⟨head, m, ⟨headAppended, rfl⟩, body, m, ⟨bodyAppended, rfl⟩, ?_⟩
  cases verbOf : node.type.verb with
  | none => simp [Kernel.notice, verbOf]
  | some verb =>
      obtain ⟨verbLength, verbClean⟩ := verb_length_le verbOf
      obtain ⟨whole, wholeAppended, _, _, wholeContent⟩ :=
        strcat_fits verbClean bodyTerminated (by
          rw [bodyContent, bodyLength, headContent, headLength, List.length_append, headBytes]
          omega)
      simp [returns_bind_iff, wholeAppended, messageWithStr, Kernel.notice, verbOf, wholeContent,
        bodyContent, headContent]

/-- A lookup whose test only reads answers whether a rule passes it, and sends the
message of the first one that does. -/
theorem returns_firstMatch {test : FileNode → HookM σ Bool} {rules : List FileNode}
    (matched : FileNode → Bool)
    (reads : ∀ p ∈ rules, ∀ m : Machine σ, m.outside = outside →
      Returns (test p) m (matched p) m) (here : m.outside = outside) :
    Returns (firstMatch k test rules) m (rules.any matched)
      { m with messages := m.messages ++ k.firstNotice matched rules } := by
  induction rules with
  | nil => simp [firstMatch, Kernel.firstNotice]
  | cons p rest ih =>
      have tested := reads p List.mem_cons_self m here
      have restReads := ih fun other member => reads other (List.mem_cons_of_mem _ member)
      rw [firstMatch, returns_bind_of_returns tested]
      cases passes : matched p with
      | true =>
          rw [if_pos rfl, returns_bind_of_returns (returns_sendProtectNotiMsg p)]
          simp [Kernel.firstNotice, passes]
      | false => simpa [Kernel.firstNotice, passes] using restReads

/-- A lookup that misses sends nothing. -/
theorem firstNotice_eq_nil {rules : List FileNode} {matched : FileNode → Bool}
    (missed : rules.any matched = false) : k.firstNotice matched rules = [] := by
  have unmatched : rules.find? matched = none := by simpa using missed
  simp [Kernel.firstNotice, unmatched]

/-- A lookup for a type with a verb sends something when it hits. -/
theorem firstNotice_ne_nil {rules : List FileNode} {matched : FileNode → Bool}
    (spoken : ∀ p, matched p = true → p.type.verb ≠ none) (hit : rules.any matched = true) :
    k.firstNotice matched rules ≠ [] := by
  obtain ⟨p, member, passes⟩ := List.any_eq_true.mp hit
  obtain ⟨first, found⟩ := Option.isSome_iff_exists.mp (List.find?_isSome.mpr ⟨p, member, passes⟩)
  obtain ⟨verb, isVerb⟩ := Option.ne_none_iff_exists'.mp (spoken first (List.find?_some found))
  simp [Kernel.firstNotice, found, Kernel.notice, isVerb]

variable {globals : Globals} {ptype : ProtectType}

theorem returns_isFdProtected_disabled (disabled : globals.protectEnabeled = false) (fd : UInt32) :
    Returns (isFdProtected k globals fd ptype) m false m := by
  simp [isFdProtected, disabled]

/-- On an open descriptor the reference taken is given back. -/
theorem returns_isFdProtected_open (enabled : globals.protectEnabeled = true) {fd : UInt32}
    {file : File} (found : k.fget fd m.outside = some file) :
    Returns (isFdProtected k globals fd ptype) m
      (globals.fileListRoot.any (inodeMatches file.inode ptype))
      { m with messages := m.messages ++
          k.firstNotice (inodeMatches file.inode ptype) globals.fileListRoot } := by
  have walked := returns_firstMatch (k := k) (m := { m with held := .file file.id :: m.held })
    (inodeMatches file.inode ptype)
    (fun p (_ : p ∈ globals.fileListRoot) other _ =>
      show Returns (do
        let inode ← inodeOf (some file)
        return decide (p.inode = inode ∧ p.type = ptype)) other _ other by
      simp [inodeOf, inodeMatches]) rfl
  rw [isFdProtected, if_pos enabled, returns_bind_of_returns (returns_fget_some found),
    returns_bind_of_returns walked]
  simp

/-- On a descriptor that is not open `fput` is reached with NULL, if the walk did
not fault before. -/
theorem isFdProtected_closed (enabled : globals.protectEnabeled = true) {fd : UInt32}
    (closed : k.fget fd m.outside = none) {hit : Bool} {after : Machine σ} :
    ¬ Returns (isFdProtected k globals fd ptype) m hit after := by
  rw [isFdProtected, if_pos enabled, returns_bind_of_returns (returns_fget_none closed)]
  simp [returns_bind_iff]

theorem returns_isInoProtected (ino : UInt32) :
    Returns (isInoProtected k globals ino ptype) m
      (globals.fileListRoot.any (k.inoMatches m.outside ino ptype))
      { m with messages := m.messages ++
          k.firstNotice (k.inoMatches m.outside ino ptype) globals.fileListRoot } := by
  refine returns_firstMatch _ (fun p _ other here => ?_) rfl
  simp [Kernel.inoMatches, here]

/-- A path block that holds a string, or is longer than any rule path, is compared
with every rule by its string. -/
theorem returns_isPathProtected {block : Block}
    (covered : Terminated block.bytes ∨ filepathSize + 9 < block.bytes.length) :
    Returns (isPathProtected k globals (some block) ptype) m
      (globals.fileListRoot.any (k.pathMatches (cstr block.bytes) ptype))
      { m with messages := m.messages ++
          k.firstNotice (k.pathMatches (cstr block.bytes) ptype) globals.fileListRoot } := by
  refine returns_firstMatch _ (fun p _ other _ => ?_) rfl
  have compared : strcmp block.bytes (k.filePathRegion p) =
      some (decide (cstr block.bytes = k.pathOf p)) := by
    apply strcmp_eq (filePathRegion_terminated p)
    rcases covered with terminated | long
    · exact .inl terminated
    · exact .inr (lt_of_le_of_lt (pathOf_length_le p) long)
  simp [strcmpPath, compared, Kernel.pathMatches]

/-- A NULL path is harmless only while there is no rule to compare it with. -/
theorem returns_isPathProtected_null {hit : Bool} {after : Machine σ} :
    Returns (isPathProtected k globals none ptype) m hit after ↔
      globals.fileListRoot = [] ∧ hit = false ∧ after = m := by
  unfold isPathProtected
  cases globals.fileListRoot <;> simp [firstMatch, returns_bind_iff, strcmpPath]

end Spec

/-- A view of the machine that leaves the messages sent out. -/
def Muted {Observed : Type} (observe : Machine σ → Observed) : Prop :=
  ∀ m messages, observe { m with messages := messages } = observe m

section Frame

variable {k} {Observed : Type} {observe : Machine σ → Observed} (muted : Muted observe)
  {globals : Globals} {ptype : ProtectType}

include muted

theorem firstMatch_preserves {test : FileNode → HookM σ Bool}
    (reads : ∀ p, Preserves observe (test p)) (rules : List FileNode) :
    Preserves observe (firstMatch k test rules) := by
  induction rules with
  | nil => exact preserves_pure _
  | cons p rest ih =>
      refine (reads p).bind fun hit => ?_
      cases hit with
      | false => exact ih
      | true =>
          have sends : Preserves observe (sendProtectNotiMsg k p) := by
            intro before value after ran
            obtain ⟨_, rfl⟩ := ran.unique (returns_sendProtectNotiMsg p)
            exact muted before _
          exact sends.bind fun _ => preserves_pure _

theorem isInoProtected_preserves (ino : UInt32) :
    Preserves observe (isInoProtected k globals ino ptype) :=
  firstMatch_preserves muted (fun _ => preserves_get.bind fun _ => preserves_pure _) _

theorem isPathProtected_preserves (path : Option Block) :
    Preserves observe (isPathProtected k globals path ptype) := by
  refine firstMatch_preserves muted (fun p => ?_) _
  have compares : Preserves observe (strcmpPath k path p) := by
    unfold strcmpPath
    cases path with
    | none => exact preserves_throw _
    | some block =>
        dsimp only
        cases strcmp block.bytes (k.filePathRegion p) with
        | none => exact preserves_throw _
        | some equal => exact preserves_pure _
  exact compares.bind fun _ => preserves_pure _

end Frame

end FsProtection
