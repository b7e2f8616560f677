import FsProtection.Hooks.Transparency

/-!
# Protection by the name of an object

A path hook compares the paths of the rules with the working directory and the pathname
of its caller glued together. The kernel resolves the pathname component by component.
`PathCall.target` is the object so resolved, and `PathCall.Plain` says of which pathnames
the glued string is its absolute path.
-/

namespace FsProtection

open Base

/-- The calls whose hooks look a path up. -/
inductive PathCall where
  | unlink (pathname : Bytes)
  | unlinkat (dirfd : Int32) (pathname : Bytes) (flags : Int32)
  | rename (old new : Bytes)
  | mkdir (path : Bytes) (mode : UInt32)
  | chdir (path : Bytes)
deriving DecidableEq

namespace PathCall

def syscall : PathCall → Syscall
  | .unlink pathname => .unlink pathname
  | .unlinkat dirfd pathname flags => .unlinkat dirfd pathname flags
  | .rename old new => .rename old new
  | .mkdir path mode => .mkdir path mode
  | .chdir path => .chdir path

/-- The type of the rules that protect against a call. -/
def ptype : PathCall → ProtectType
  | .unlink _ => .del
  | .unlinkat _ _ _ => .del
  | .rename _ _ => .rename
  | .mkdir _ _ => .mkdir
  | .chdir _ => .hide

/-- The string a hook looks up when its buffers start empty. -/
def looked (cwd : Bytes) : PathCall → Bytes
  | .unlink pathname => cwd ++ slash :: cstr pathname
  | .unlinkat _ pathname _ => cwd ++ slash :: cstr pathname
  | .rename old _ => cwd ++ slash :: cstr old
  | .mkdir path _ => parentDir (cwd ++ slash :: cstr path)
  | .chdir path => cstr path

/-- What a hook assembles fits its buffers. -/
def Fits (cwd : Bytes) : PathCall → Prop
  | .unlink pathname => cwd.length + 1 + (cstr pathname).length < pathMax
  | .unlinkat _ pathname _ => cwd.length + 1 + (cstr pathname).length < pathMax
  | .rename old new =>
      cwd.length + 1 + (cstr old).length < pathMax ∧ cwd.length + 1 + (cstr new).length < pathMax
  | .mkdir path _ => cwd.length + 1 + (cstr path).length < pathMax
  | .chdir path => (cstr path).length < pathMax

variable (cwd : Directory) (dirs : Int32 → Option Directory)

/-- Where the kernel begins to resolve a relative pathname: in the working directory, or
in the directory a descriptor is open on. -/
def start : PathCall → Option Directory
  | .unlinkat dirfd _ _ => if dirfd = atFdcwd then some cwd else dirs dirfd
  | _ => some cwd

/-- The object the kernel resolves a call to; for `mkdir` the directory that would
receive the entry. -/
def target : PathCall → Option Directory
  | .unlink pathname => lookup (some cwd) (cstr pathname)
  | .unlinkat dirfd pathname flags =>
      lookup (start cwd dirs (.unlinkat dirfd pathname flags)) (cstr pathname)
  | .rename old _ => lookup (some cwd) (cstr old)
  | .mkdir path _ => cwd.receiving (cstr path)
  | .chdir path => lookup (some cwd) (cstr path)

/-- The spellings of a pathname the hooks understand: it consists of names, and the working
directory is not the root. `mkdir` allows a slash at the end, and in the root a single
name; `chdir` understands absolute paths in their shortest spelling. -/
def Plain (call : PathCall) : Prop :=
  match call with
  | .unlink pathname => cwd ≠ [] ∧ OnlyNames (cstr pathname)
  | .unlinkat _ pathname _ =>
      call.start cwd dirs = some cwd ∧ cwd ≠ [] ∧ OnlyNames (cstr pathname)
  | .rename old _ => cwd ≠ [] ∧ OnlyNames (cstr old)
  | .mkdir path _ =>
      OnlyNames (trimmed (cstr path)) ∧ (cwd = [] → slash ∉ trimmed (cstr path))
  | .chdir path => ∃ directory : Directory, cstr path = directory.render

end PathCall

section Spelling

variable {cwd : Directory}

/-- `mkdir` looks up the receiving directory exactly when its pathname is plain. -/
theorem receiving_eq_parentDir_iff {pathname : Bytes} (cleanCwd : (0 : Byte) ∉ cwd.render)
    (clean : (0 : Byte) ∉ pathname) :
    (cwd.receiving pathname).map Directory.render =
        some (parentDir (cwd.render ++ slash :: pathname)) ↔
      OnlyNames (trimmed pathname) ∧ (cwd = [] → slash ∉ trimmed pathname) := by
  by_cases empty : pathname = []
  · subst empty
    have improper : ¬ OnlyNames (trimmed []) := by
      intro names
      exact (names [] (by decide)).1 rfl
    exact iff_of_false (by simp [Directory.receiving, entries, components])
      fun plain => improper plain.1
  · by_cases single : slash ∉ trimmed pathname
    · rw [parentDir_trimmed cleanCwd single empty rfl, receiving_single_iff single,
        OnlyNames, components_of_absent single, List.forall_mem_singleton]
      exact (and_iff_left fun _ => single).symm
    · obtain ⟨front, back, split, last⟩ := exists_last_slash (not_not.mp single)
      have cleanTrimmed : (0 : Byte) ∉ trimmed pathname := fun zero =>
        clean (mem_of_mem_trimmed zero)
      have cleanFront : (0 : Byte) ∉ cwd.render ++ slash :: front := by
        rw [split] at cleanTrimmed
        have notSlash : (0 : Byte) ≠ slash := by decide
        simp_all
      have cut : cwd.render ++ slash :: trimmed pathname =
          (cwd.render ++ slash :: front) ++ slash :: back := by simp [split]
      rw [parentDir_trimmed cleanFront last empty cut, receiving_deeper_iff split last, and_comm]
      exact and_congr_right fun _ => by simp [not_not.mp single]

/-- The string a hook looks up is the absolute path of the object exactly for the plain
spellings. -/
theorem PathCall.target_eq_looked_iff (dirs : Int32 → Option Directory) (call : PathCall)
    (clean : (0 : Byte) ∉ cwd.render) :
    (call.target cwd dirs).map Directory.render = some (call.looked cwd.render) ↔
      call.Plain cwd dirs := by
  cases call with
  | unlink pathname => exact lookup_render_iff.trans (and_iff_right rfl)
  | unlinkat dirfd pathname flags => exact lookup_render_iff
  | rename old new => exact lookup_render_iff.trans (and_iff_right rfl)
  | mkdir path mode => exact receiving_eq_parentDir_iff clean zero_notMem_cstr
  | chdir path => exact lookup_render_self_iff

end Spelling

section Deciding

variable {σ : Type} {k : Kernel σ} {globals : Globals} {m : Machine σ}

/-- Every block for a path is there and starts empty. -/
def Cleared (k : Kernel σ) (m : Machine σ) : Prop :=
  ∀ index, ∃ old, k.kmalloc m.outside index pathMax = some old ∧ cstr old = []

theorem Cleared.fits_iff (cleared : Cleared k m) (index : Nat) (cwd pathname : Bytes) :
    (k.pathBuffers m.outside index).Fits cwd pathname ↔
      cwd.length + 1 + pathname.length < pathMax := by
  obtain ⟨copy, copied, _⟩ := cleared index
  obtain ⟨old, allocated, empty⟩ := cleared (index + 1)
  obtain ⟨scratch, second, _⟩ := cleared (index + 2)
  have terminated : Terminated old := by
    by_contra unterminated
    have size := k.kmallocLength allocated
    rw [← cstr_eq_self_of_not_terminated unterminated, empty] at size
    exact absurd size (by decide)
  simp [PathBuffers.Fits, Kernel.pathBuffers, copied, allocated, second, terminated, empty]
  omega

theorem Cleared.lookedUp (cleared : Cleared k m) (index : Nat) (cwd pathname : Bytes) :
    (k.pathBuffers m.outside index).lookedUp cwd pathname = some (cwd ++ slash :: pathname) := by
  obtain ⟨old, allocated, empty⟩ := cleared (index + 1)
  obtain ⟨scratch, second, _⟩ := cleared (index + 2)
  simp [PathBuffers.lookedUp, Kernel.pathBuffers, allocated, second, empty]

theorem Cleared.ended (cleared : Cleared k m) (index : Nat) :
    (k.pathBuffers m.outside index).Ended := by
  obtain ⟨scratch, second, _⟩ := cleared (index + 2)
  exact fun _ _ => .inl (by rw [Kernel.pathBuffers, second]; rfl)

theorem Cleared.fullpath (cleared : Cleared k m) (index : Nat) :
    (k.pathBuffers m.outside index).fullpath ≠ none := by
  obtain ⟨old, allocated, _⟩ := cleared (index + 1)
  simp [Kernel.pathBuffers, allocated]

/-- With buffers that start empty a path hook returns when what it assembles fits, and
refuses a call when a rule of its type has the string. -/
theorem PathCall.decides (call : PathCall) (cleared : Cleared k m) :
    Decides k (modified k globals call.syscall) m call.syscall
      (call.Fits (k.dPath m.outside))
      (HasPathRule k globals (call.looked (k.dPath m.outside)) call.ptype) := by
  have fits := cleared.fits_iff m.kmallocs (k.dPath m.outside)
  have found := cleared.lookedUp m.kmallocs (k.dPath m.outside)
  have there := cleared.fullpath m.kmallocs
  cases call with
  | unlink pathname =>
      refine (guardUnlink_guards k globals m pathname (.unlink pathname)).decides.congr
        ?_ fun _ => ?_
      · simp [fits, there, Fits]
      · simp [found, looked, HasPathRule, ptype]
  | unlinkat dirfd pathname flags =>
      refine (guardUnlink_guards k globals m pathname
        (.unlinkat dirfd pathname flags)).decides.congr ?_ fun _ => ?_
      · simp [fits, there, Fits]
      · simp [found, looked, HasPathRule, ptype]
  | rename old new =>
      refine (modifiedRename_guards k globals m old new).decides.congr ?_ fun _ => ?_
      · simp [fits, there, Fits, Kernel.laterBuffers, cleared.fits_iff, cleared.ended]
      · simp [found, looked, HasPathRule, ptype]
  | mkdir path mode =>
      refine (modifiedMkdir_guards k globals m path mode).decides.congr ?_ fun _ => ?_
      · simp [fits, found, cleared.ended, Fits]
      · simp [found, looked, HasPathRule, ptype]
  | chdir path =>
      obtain ⟨old, allocated, _⟩ := cleared m.kmallocs
      refine (modifiedChdir_guards k globals m path).decides.congr ?_ fun _ => ?_
      · simp [allocated, Fits]
      · simp [allocated, looked, HasPathRule, ptype]

variable (k) (m) (cwd : Directory) (dirs : Int32 → Option Directory)

/-- All rules are made for absolute paths. -/
def AbsoluteRules (globals : Globals) : Prop :=
  ∀ node ∈ globals.fileListRoot, IsAbsolute (k.pathOf node)

/-- Some rule of a type can be made for an absolute path. -/
def Rulable (ptype : ProtectType) (path : Bytes) : Prop :=
  IsAbsolute path ∧ ∃ node : FileNode, node.type = ptype ∧ k.pathOf node = path

/-- The hook of a call returns, and refuses the call exactly when a rule of its type has
the path of the object the call is resolved to. -/
def PathCall.Protects (globals : Globals) (call : PathCall) : Prop :=
  ∃ ret after, Returns (modified k globals call.syscall) m ret after ∧
    (Refused m ret after ↔
      ∃ object ∈ call.target cwd dirs, HasPathRule k globals object.render call.ptype)

variable {k} {cwd}

theorem AbsoluteRules.rulable (absolute : AbsoluteRules k globals) {path : Bytes}
    {ptype : ProtectType} (found : HasPathRule k globals path ptype) : Rulable k ptype path := by
  obtain ⟨node, member, same⟩ := List.any_eq_true.mp found
  obtain ⟨rfl, rfl⟩ := of_decide_eq_true same
  exact ⟨absolute node member, node, rfl, rfl⟩

/-- The globals of a list with one rule. -/
def onlyRule (node : FileNode) : Globals where
  fileListRoot := [node]
  protectEnabeled := true
  dataBuf := SizedBytes.zeros _
  rawDataBuff := SizedBytes.zeros _

theorem onlyRule_hasPathRule {node : FileNode} {path : Bytes} {ptype : ProtectType}
    (typed : node.type = ptype) :
    HasPathRule k (onlyRule node) path ptype ↔ path = k.pathOf node := by
  simp [HasPathRule, onlyRule, Kernel.pathMatches, typed]

theorem onlyRule_absolute {node : FileNode} (absolute : IsAbsolute (k.pathOf node)) :
    AbsoluteRules k (onlyRule node) := by
  intro other member
  rw [List.mem_singleton.mp member]
  exact absolute

/-- Whatever the absolute rules are, a path hook protects by the object exactly when what
it assembles fits, and the pathname is plain or no rule can be made for the string looked
up, nor for the path of the object. -/
theorem protects_object_iff (call : PathCall) (inCwd : k.dPath m.outside = cwd.render)
    (cleared : Cleared k m) :
    (∀ globals, AbsoluteRules k globals → call.Protects k m cwd dirs globals) ↔
      call.Fits cwd.render ∧
        (call.Plain cwd dirs ∨ ¬ Rulable k call.ptype (call.looked cwd.render) ∧
          ∀ object ∈ call.target cwd dirs, ¬ Rulable k call.ptype object.render) := by
  have decided : ∀ globals, call.Protects k m cwd dirs globals ↔
      call.Fits cwd.render ∧ (HasPathRule k globals (call.looked cwd.render) call.ptype ↔
        ∃ object ∈ call.target cwd dirs, HasPathRule k globals object.render call.ptype) := by
    intro globals
    rw [← inCwd]
    exact (call.decides cleared).refused_iff
  have clean : (0 : Byte) ∉ cwd.render := inCwd ▸ k.dPathClean m.outside
  have spelled := call.target_eq_looked_iff dirs clean
  simp only [decided]
  constructor
  · intro protects
    have noRules : AbsoluteRules k (Globals.initial (SizedBytes.zeros _)) :=
      fun _ member => absurd member List.not_mem_nil
    refine ⟨(protects _ noRules).1, or_iff_not_imp_left.mpr fun unplain => ?_⟩
    have different : ∀ object ∈ call.target cwd dirs, object.render ≠ call.looked cwd.render :=
      fun object isObject same =>
        unplain (spelled.mp (Option.map_eq_some_iff.mpr ⟨object, isObject, same⟩))
    constructor
    · rintro ⟨absolute, node, typed, path⟩
      have right := (protects _ (onlyRule_absolute (by rwa [path]))).2
      simp only [onlyRule_hasPathRule typed] at right
      obtain ⟨object, isObject, same⟩ := right.mp path.symm
      exact different object isObject (same.trans path)
    · rintro object isObject ⟨absolute, node, typed, path⟩
      have right := (protects _ (onlyRule_absolute (by rwa [path]))).2
      simp only [onlyRule_hasPathRule typed] at right
      have found := right.mpr ⟨object, isObject, path.symm⟩
      exact different object isObject (path.symm.trans found.symm)
  · rintro ⟨fits, plain | ⟨unlooked, unnamed⟩⟩ globals absolute
    · obtain ⟨object, isObject, rendered⟩ := Option.map_eq_some_iff.mp (spelled.mpr plain)
      exact ⟨fits, by simp [isObject, rendered]⟩
    · refine ⟨fits, iff_of_false (fun found => unlooked (absolute.rulable found)) ?_⟩
      rintro ⟨object, isObject, found⟩
      exact unnamed object isObject (absolute.rulable found)

end Deciding

section Examples

theorem Kernel.quiet_cleared (opens : Bytes → Option InodeAddr) (userBuf : Bytes) :
    Cleared (Kernel.quiet opens) (Machine.start () userBuf) :=
  fun _ => ⟨List.replicate pathMax 0, rfl, cstr_replicate_zero _⟩

/-- The directory `/home`. -/
def homeDirectory : Directory := [⟨lit "home", by decide⟩]

/-- The rule that protects a file against deletion. -/
def keepFile : FileNode := .make (lit "/home/f") 7 .del

theorem keepFile_path : (Kernel.quiet homeFile).pathOf keepFile = lit "/home/f" :=
  pathOf_make (by decide) (by decide) 7 .del

theorem keepFile_hasPathRule :
    HasPathRule (Kernel.quiet homeFile) (onlyRule keepFile) (lit "/home/f") .del :=
  (onlyRule_hasPathRule rfl).mpr keepFile_path.symm

theorem keepFile_absolute : AbsoluteRules (Kernel.quiet homeFile) (onlyRule keepFile) :=
  onlyRule_absolute (by rw [keepFile_path]; decide)

/-- The rule protects the file under its name in the working directory. -/
theorem keepFile_protects_name :
    PathCall.Protects (Kernel.quiet homeFile) (Machine.start () []) homeDirectory (fun _ => none)
      (onlyRule keepFile) (.unlink (lit "f")) :=
  (protects_object_iff (Machine.start () []) (fun _ => none) (.unlink (lit "f"))
    (rfl : _ = homeDirectory.render) (Kernel.quiet_cleared homeFile [])).mpr
    ⟨(by decide : homeDirectory.render.length + 1 + (cstr (lit "f")).length < pathMax),
      .inl ⟨by decide, by decide⟩⟩ (onlyRule keepFile) keepFile_absolute

/-- An unlink of the file by its absolute path is passed on. -/
theorem absolute_unlink_passes :
    (Kernel.quiet homeFile).dPath () = homeDirectory.render ∧
      Cleared (Kernel.quiet homeFile) (Machine.start () []) ∧
      AbsoluteRules (Kernel.quiet homeFile) (onlyRule keepFile) ∧
      (∃ object ∈ PathCall.target homeDirectory (fun _ => none) (.unlink (lit "/home/f")),
        HasPathRule (Kernel.quiet homeFile) (onlyRule keepFile) object.render .del) ∧
      PassesOn (Kernel.quiet homeFile)
        (modified (Kernel.quiet homeFile) (onlyRule keepFile) (.unlink (lit "/home/f")))
        (Machine.start () []) (.unlink (lit "/home/f")) := by
  have absolute : lit "/home/f" =
      Directory.render [⟨lit "home", by decide⟩, ⟨lit "f", by decide⟩] := by decide
  have isDel : keepFile.type = .del := rfl
  refine ⟨rfl, Kernel.quiet_cleared _ _, keepFile_absolute, ?_, ?_⟩
  · obtain ⟨object, isObject, rendered⟩ := Option.map_eq_some_iff.mp
      (lookup_render_self_iff.mpr ⟨_, absolute⟩ :
        (lookup (some homeDirectory) (lit "/home/f")).map _ = _)
    exact ⟨object, isObject, by rw [onlyRule_hasPathRule isDel, keepFile_path, rendered]⟩
  · refine ((PathCall.unlink (lit "/home/f")).decides
      (Kernel.quiet_cleared homeFile [])).passesOn_iff.mpr ⟨?_, ?_⟩
    · exact (by decide : 5 + 1 + (cstr (lit "/home/f")).length < pathMax)
    · refine mt (onlyRule_hasPathRule isDel).mp ?_
      rw [keepFile_path]
      exact (by decide : ¬ homeDirectory.render ++ slash :: cstr (lit "/home/f") = lit "/home/f")

end Examples

end FsProtection
