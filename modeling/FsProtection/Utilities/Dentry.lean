import FsProtection.Base.Loop
import FsProtection.Kernel.Quiet
import FsProtection.Utilities.Path

/-!
# Paths from dentries

`getPathFromFd` of `utilities.c` climbs from the dentry of an open file to the root of its
tree, spelling the path backwards in two buffers by turns.
-/

namespace FsProtection

open Base

/-- What the kernel keeps about dentries, by address. -/
structure DentryCache (Dentry : Type) where
  fDentry : File → Dentry
  /-- The string at `d_name.name`. -/
  name : Dentry → Bytes
  /-- The bytes of `d_iname`. -/
  iname : Dentry → Bytes
  parent : Dentry → Dentry
  /-- `d_sb->s_root`. -/
  sRoot : Dentry → Dentry
  nameClean : ∀ dentry, (0 : Byte) ∉ name dentry

section Model

variable {σ Dentry : Type} (k : Kernel σ) (cache : DentryCache Dentry)

/-- `sprintf` of a text to a pointer, and `strcpy`. -/
def sprintf (dst : Option Block) (text : Bytes) : HookM σ (Option Block) :=
  match dst with
  | none => throw .badPointer
  | some block => do
      let bytes ← (storeAt block.bytes 0 (text ++ [0]) : Except Fault Bytes)
      return some { block with bytes := bytes }

/-- `strcpy (root_path, d_iname)`. -/
def strcpyInline (dst : Option Block) (dentry : Dentry) : HookM σ (Option Block) :=
  if Terminated (cache.iname dentry) then sprintf dst (cstr (cache.iname dentry))
  else throw .overrun

/-- A turn of the loop of `getPathFromFd`: `path`, `temp_path` and `p_dentry`. -/
def climb (rootPath : Option Block) :
    Option Block × Option Block × Dentry →
      HookM σ (Turn (Option Block × Option Block × Dentry) (Option Block × Option Block))
  | (path, tempPath, pDentry) => do
      let root ← readString rootPath
      if cache.name pDentry = root then
        return .left (path, tempPath)
      else
        let text ← readString path
        let tempPath ← sprintf tempPath (cache.name pDentry ++ slash :: text)
        let text ← readString tempPath
        let path ← sprintf path text
        return .again (path, tempPath, cache.parent pDentry)

/-- What `getPathFromFd` does behind the loop with `path` and `temp_path`. -/
def finishPath (rootPath path tempPath : Option Block) :
    HookM σ (Option Block × Option Block) := do
  let root ← readString rootPath
  let text ← readString path
  let tempPath ← sprintf tempPath
    (if root.length = 1 then slash :: text else root ++ slash :: text)
  let text ← readString tempPath
  let path ← sprintf path text
  return (path, tempPath)

/-- `getPathFromFd`: what it returns, and `path`. Nothing when it is still climbing. -/
def getPathFromFd (fuel : Nat) (fd : UInt32) (path : Option Block) :
    HookM σ (Option (Int × Option Block)) := do
  let rootPath ← kmalloc k pathMax
  let tempPath ← kmalloc k pathMax
  match ← fget k fd with
  | none =>
      fput none
      return some (-1, path)
  | some file =>
      let pDentry := cache.fDentry file
      let rootPath ← strcpyInline cache rootPath (cache.sRoot pDentry)
      let path ← sprintf path (cache.name pDentry)
      match ← loop (climb cache rootPath) fuel (path, tempPath, cache.parent pDentry) with
      | none => return none
      | some (path, tempPath) =>
          let spelled ← finishPath rootPath path tempPath
          fput (some file)
          kfree rootPath
          kfree spelled.2
          return some (0, spelled.1)

end Model

namespace DentryCache

variable {Dentry : Type} (cache : DentryCache Dentry)

/-- A tree of dentries: the root is its own parent and the only one named by a slash, and
short enough a name to be held in `d_iname` too. -/
structure IsTree (root : Dentry) : Prop where
  ownParent : cache.parent root = root
  superblock : ∀ dentry, cache.sRoot dentry = root
  inline : Terminated (cache.iname root) ∧ cstr (cache.iname root) = cache.name root
  named : ∀ dentry, cache.name dentry = [slash] ↔ dentry = root

/-- The dentry is that many parents below the root. -/
structure AtDepth (root dentry : Dentry) (depth : Nat) : Prop where
  reaches : cache.parent^[depth] dentry = root
  first : ∀ steps < depth, cache.parent^[steps] dentry ≠ root

/-- The names of a dentry and of those above it, `count` in all, from the top down. -/
def lineage (dentry : Dentry) : Nat → List Bytes
  | 0 => []
  | count + 1 => cache.name (cache.parent^[count] dentry) :: lineage dentry count

/-- A slash, and the names from below the root joined by slashes. -/
def path (dentry : Dentry) (depth : Nat) : Bytes :=
  slash :: [slash].intercalate (cache.lineage dentry depth)

end DentryCache

section Spelling

variable {Dentry : Type} (cache : DentryCache Dentry) (dentry : Dentry) {count : Nat}

theorem intercalate_lineage_succ (positive : 0 < count) :
    [slash].intercalate (cache.lineage dentry (count + 1)) =
      cache.name (cache.parent^[count] dentry) ++
        slash :: [slash].intercalate (cache.lineage dentry count) := by
  obtain ⟨others, rfl⟩ := Nat.exists_eq_succ_of_ne_zero positive.ne'
  simp [DentryCache.lineage, List.intercalate]

theorem intercalate_lineage_one :
    [slash].intercalate (cache.lineage dentry 1) = cache.name dentry := by
  simp [DentryCache.lineage, List.intercalate]

theorem lineage_clean (count : Nat) :
    (0 : Byte) ∉ [slash].intercalate (cache.lineage dentry count) := by
  have notSlash : (0 : Byte) ≠ slash := by decide
  rcases Nat.eq_zero_or_pos count with rfl | positive
  · simp [DentryCache.lineage, List.intercalate]
  induction count, positive using Nat.le_induction with
  | base => simpa [DentryCache.lineage, List.intercalate] using cache.nameClean dentry
  | succ count positive ih =>
      rw [intercalate_lineage_succ cache dentry positive]
      simp [cache.nameClean, notSlash, ih]

/-- The names from further up make the text longer. -/
theorem lineage_length_le {more : Nat} (positive : 0 < count) (further : count ≤ more) :
    ([slash].intercalate (cache.lineage dentry count)).length ≤
      ([slash].intercalate (cache.lineage dentry more)).length := by
  induction more, further using Nat.le_induction with
  | base => exact Nat.le_refl _
  | succ more further ih =>
      rw [intercalate_lineage_succ cache dentry (positive.trans_le further), List.length_append,
        List.length_cons]
      omega

end Spelling

section Spec

variable {σ Dentry : Type} {k : Kernel σ} {cache : DentryCache Dentry} {m after : Machine σ}
  {root dentry : Dentry} {depth : Nat} {text : Bytes}

/-- A pointer to a block of `PATH_MAX` bytes. -/
def HasRoom (pointer : Option Block) : Prop :=
  ∃ block, pointer = some block ∧ block.bytes.length = pathMax

/-- A pointer to a block of `PATH_MAX` bytes that holds a string. -/
def PointsTo (pointer : Option Block) (text : Bytes) : Prop :=
  ∃ block, pointer = some block ∧ Spells block.bytes pathMax text

theorem PointsTo.hasRoom {pointer : Option Block} (points : PointsTo pointer text) :
    HasRoom pointer := by
  obtain ⟨block, rfl, spells⟩ := points
  exact ⟨block, rfl, spells.length⟩

theorem PointsTo.readString {pointer : Option Block} (points : PointsTo pointer text) :
    Returns (readString pointer) m text m := by
  obtain ⟨block, rfl, spells⟩ := points
  exact returns_readString_some_iff.mpr ⟨spells.terminated, spells.content.symm, rfl⟩

/-- A text that fits is printed to any block with room. -/
theorem HasRoom.sprintf {pointer : Option Block} (room : HasRoom pointer)
    (clean : (0 : Byte) ∉ text) (fits : text.length < pathMax) :
    ∃ printed, Returns (sprintf pointer text) m printed m ∧ PointsTo printed text := by
  obtain ⟨block, rfl, size⟩ := room
  obtain ⟨out, stored, spells⟩ := store_spells size clean fits
  exact ⟨some ⟨block.id, out⟩, (returns_lift_iff.mpr ⟨storeAt_eq_ok.mpr stored, rfl⟩).bind
    (returns_pure_iff.mpr ⟨rfl, rfl⟩), _, rfl, spells⟩

@[simp] theorem returns_sprintf_none_iff {printed : Option Block} :
    Returns (sprintf none text) m printed after ↔ False :=
  returns_throw_iff

variable {rootPath path tempPath : Option Block} {count fuel : Nat}

/-- A turn at the root leaves the loop. -/
theorem climb_left (rooted : PointsTo rootPath (cache.name dentry)) :
    Returns (climb cache rootPath (path, tempPath, dentry)) m (.left (path, tempPath)) m := by
  refine rooted.readString.bind ?_
  rw [if_pos rfl]
  exact returns_pure_iff.mpr ⟨rfl, rfl⟩

/-- A turn below the root puts the name of the dentry in front of the path. -/
theorem climb_again (rooted : PointsTo rootPath [slash]) (below : cache.name dentry ≠ [slash])
    (points : PointsTo path text) (room : HasRoom tempPath) (clean : (0 : Byte) ∉ text)
    (fits : (cache.name dentry ++ slash :: text).length < pathMax) :
    ∃ longer moved, Returns (climb cache rootPath (path, tempPath, dentry)) m
        (.again (longer, moved, cache.parent dentry)) m ∧
      PointsTo longer (cache.name dentry ++ slash :: text) ∧ HasRoom moved := by
  have notSlash : (0 : Byte) ≠ slash := by decide
  have cleanAll : (0 : Byte) ∉ cache.name dentry ++ slash :: text := by
    simp [cache.nameClean, notSlash, clean]
  obtain ⟨moved, printed, holds⟩ := room.sprintf (m := m) cleanAll fits
  obtain ⟨longer, copied, spelled⟩ := points.hasRoom.sprintf (m := m) cleanAll fits
  refine ⟨longer, moved, rooted.readString.bind ?_, spelled, holds.hasRoom⟩
  rw [if_neg below]
  exact points.readString.bind (printed.bind (holds.readString.bind (copied.bind
    (returns_pure_iff.mpr ⟨rfl, rfl⟩))))

/-- From any dentry on the way the loop climbs to the root and leaves the names below it;
the invariant is that `path` has the names climbed past. -/
theorem climb_returns (tree : cache.IsTree root) (placed : cache.AtDepth root dentry depth)
    (rooted : PointsTo rootPath [slash]) (fits : (cache.path dentry depth).length < pathMax)
    (positive : 0 < count) (within : count ≤ depth) (enough : depth < count + fuel)
    (points : PointsTo path ([slash].intercalate (cache.lineage dentry count)))
    (room : HasRoom tempPath) :
    ∃ longer moved, Returns
        (loop (climb cache rootPath) fuel (path, tempPath, cache.parent^[count] dentry)) m
        (some (longer, moved)) m ∧
      PointsTo longer ([slash].intercalate (cache.lineage dentry depth)) ∧ HasRoom moved := by
  induction fuel generalizing count path tempPath with
  | zero => omega
  | succ fuel ih =>
      by_cases top : count = depth
      · subst top
        have name : cache.name (cache.parent^[count] dentry) = [slash] :=
          (tree.named _).mpr placed.reaches
        exact ⟨path, tempPath, loop_left (climb_left (name ▸ rooted)), points, room⟩
      · have under : count < depth := Nat.lt_of_le_of_ne within top
        have below : cache.name (cache.parent^[count] dentry) ≠ [slash] :=
          mt (tree.named _).mp (placed.first count under)
        have step := intercalate_lineage_succ cache dentry positive
        have shorter := lineage_length_le cache dentry (Nat.succ_pos count) under
        rw [step] at shorter
        rw [DentryCache.path, List.length_cons] at fits
        obtain ⟨longer, moved, turned, spelled, still⟩ := climb_again (m := m) rooted below points
          room (lineage_clean cache dentry count) (by omega)
        rw [← step] at spelled
        rw [← Function.iterate_succ_apply' cache.parent count dentry] at turned
        obtain ⟨final, last, ran, holds⟩ := ih (Nat.succ_pos count) under (by omega) spelled still
        exact ⟨final, last, (loop_again_iff turned).mpr ran, holds⟩

/-- Without a second buffer the loop is only left at once. -/
theorem climb_without {outcome : Option (Option Block × Option Block)}
    (ran : Returns (loop (climb cache rootPath) fuel (path, none, dentry)) m outcome after) :
    ∀ buffers ∈ outcome, buffers.2 = none := by
  cases fuel with
  | zero =>
      obtain ⟨rfl, _⟩ := returns_pure_iff.mp ran
      exact nofun
  | succ fuel =>
      obtain ⟨turned, middle, turn, rest⟩ := returns_bind_iff.mp ran
      obtain ⟨name, _, _, turn⟩ := returns_bind_iff.mp turn
      split at turn
      · obtain ⟨rfl, _⟩ := returns_pure_iff.mp turn
        obtain ⟨rfl, _⟩ := returns_pure_iff.mp rest
        intro buffers isBuffers
        cases isBuffers
        rfl
      · obtain ⟨_, _, _, turn⟩ := returns_bind_iff.mp turn
        obtain ⟨_, _, impossible, _⟩ := returns_bind_iff.mp turn
        exact (returns_sprintf_none_iff.mp impossible).elim

theorem finishPath_returns (rooted : PointsTo rootPath [slash]) (points : PointsTo path text)
    (room : HasRoom tempPath) (clean : (0 : Byte) ∉ text)
    (fits : (slash :: text).length < pathMax) :
    ∃ spelled, Returns (finishPath rootPath path tempPath) m spelled m ∧
      PointsTo spelled.1 (slash :: text) := by
  have cleanAll : (0 : Byte) ∉ slash :: text := by
    simp [clean, show (0 : Byte) ≠ slash by decide]
  obtain ⟨temp, printed, holds⟩ := room.sprintf (m := m) cleanAll fits
  obtain ⟨final, copied, spelled⟩ := points.hasRoom.sprintf (m := m) cleanAll fits
  refine ⟨(final, temp), rooted.readString.bind (points.readString.bind ?_), spelled⟩
  rw [if_pos (List.length_singleton)]
  exact printed.bind (holds.readString.bind (copied.bind (returns_pure_iff.mpr ⟨rfl, rfl⟩)))

theorem finishPath_without {spelled : Option Block × Option Block} :
    ¬ Returns (finishPath rootPath path none) m spelled after := by
  intro ran
  obtain ⟨name, _, _, ran⟩ := returns_bind_iff.mp ran
  obtain ⟨_, _, _, ran⟩ := returns_bind_iff.mp ran
  obtain ⟨_, _, impossible, _⟩ := returns_bind_iff.mp ran
  exact returns_sprintf_none_iff.mp impossible

theorem strcpyInline_eq (tree : cache.IsTree root) (dst : Option Block) (dentry : Dentry) :
    (strcpyInline cache dst (cache.sRoot dentry) : HookM σ (Option Block)) =
      sprintf dst [slash] := by
  rw [strcpyInline, tree.superblock, if_pos tree.inline.1, tree.inline.2, (tree.named root).mpr rfl]

theorem kfree_returns (pointer : Option Block) (m : Machine σ) :
    ∃ after, Returns (kfree pointer) m () after := by
  cases pointer with
  | none => exact ⟨m, returns_kfree_none_iff.mpr rfl⟩
  | some block => exact ⟨_, returns_kfree_some_iff.mpr rfl⟩

/-- What `kmalloc` answers for a buffer. -/
theorem kmalloc_answers (k : Kernel σ) (m : Machine σ) :
    ∃ pointer after, Returns (kmalloc k pathMax) m pointer after ∧
      after.outside = m.outside ∧ after.kmallocs = m.kmallocs + 1 ∧
      (pointer = none ∨ HasRoom pointer) ∧
      (pointer.isSome ↔ (k.kmalloc m.outside m.kmallocs pathMax).isSome) := by
  cases allocated : k.kmalloc m.outside m.kmallocs pathMax with
  | none => exact ⟨none, _, returns_kmalloc_none allocated, rfl, rfl, .inl rfl, Iff.rfl⟩
  | some bytes =>
      exact ⟨_, _, returns_kmalloc_some allocated, rfl, rfl,
        .inr ⟨_, rfl, k.kmallocLength allocated⟩, iff_of_true rfl rfl⟩

section Opened

variable {first second third : Machine σ} {fd : UInt32} {file : File} {block : Block}
  (tree : cache.IsTree root) (allocatedRoot : Returns (kmalloc k pathMax) m rootPath first)
  (allocatedTemp : Returns (kmalloc k pathMax) first tempPath second)
  (opened : Returns (fget k fd) second (some file) third)

include tree allocatedRoot allocatedTemp opened

/-- With an open file `getPathFromFd` writes through both of its buffers before it returns. -/
theorem getPathFromFd_needs {spelled : Option Block}
    (ran : Returns (getPathFromFd k cache fuel fd path) m (some (0, spelled)) after) :
    rootPath.isSome ∧ tempPath.isSome := by
  rw [getPathFromFd, returns_bind_of_returns allocatedRoot,
    returns_bind_of_returns allocatedTemp, returns_bind_of_returns opened] at ran
  obtain ⟨rootName, _, copied, ran⟩ := returns_bind_iff.mp ran
  obtain ⟨path, _, printed, ran⟩ := returns_bind_iff.mp ran
  obtain ⟨outcome, _, climbed, ran⟩ := returns_bind_iff.mp ran
  constructor
  · cases rootPath with
    | none =>
        rw [strcpyInline_eq tree] at copied
        exact (returns_sprintf_none_iff.mp copied).elim
    | some _ => rfl
  · cases tempPath with
    | none =>
        cases outcome with
        | none => cases (returns_pure_iff.mp ran).1
        | some buffers =>
            obtain ⟨longer, moved⟩ := buffers
            obtain rfl : moved = none := climb_without climbed _ rfl
            obtain ⟨_, _, finished, _⟩ := returns_bind_iff.mp ran
            exact (finishPath_without finished).elim
    | some _ => rfl

/-- With both buffers, and a path that fits, `getPathFromFd` spells the path. -/
theorem getPathFromFd_reaches (placed : cache.AtDepth root (cache.fDentry file) depth)
    (below : 0 < depth) (fits : (cache.path (cache.fDentry file) depth).length < pathMax)
    (size : block.bytes.length = pathMax) (enough : depth ≤ fuel)
    (rootRoom : HasRoom rootPath) (tempRoom : HasRoom tempPath) :
    ∃ spelled after, Returns (getPathFromFd k cache fuel fd (some block)) m
        (some (0, spelled)) after ∧ PointsTo spelled (cache.path (cache.fDentry file) depth) := by
  have shorter := lineage_length_le cache (cache.fDentry file) Nat.one_pos below
  have whole := fits
  rw [DentryCache.path, List.length_cons] at whole
  rw [intercalate_lineage_one] at shorter
  have turns : depth < 1 + fuel := by omega
  have slashClean : (0 : Byte) ∉ [slash] := by decide
  obtain ⟨rootName, copied, rooted⟩ := rootRoom.sprintf slashClean (by decide)
  rw [← strcpyInline_eq tree] at copied
  obtain ⟨path, printed, points⟩ := HasRoom.sprintf ⟨block, rfl, size⟩
    (cache.nameClean (cache.fDentry file)) (by omega)
  rw [← intercalate_lineage_one cache] at points
  obtain ⟨longer, moved, climbed, spelled, room⟩ :=
    climb_returns tree placed rooted fits Nat.one_pos below turns points tempRoom
  obtain ⟨final, finished, holds⟩ := finishPath_returns rooted spelled room
    (lineage_clean cache _ depth) fits
  obtain ⟨fourth, put⟩ : ∃ after, Returns (fput (some file)) third () after :=
    ⟨_, returns_fput_some_iff.mpr rfl⟩
  obtain ⟨fifth, freedRoot⟩ := kfree_returns rootName fourth
  obtain ⟨sixth, freedTemp⟩ := kfree_returns final.2 fifth
  refine ⟨final.1, sixth, ?_, holds⟩
  rw [getPathFromFd, returns_bind_of_returns allocatedRoot,
    returns_bind_of_returns allocatedTemp, returns_bind_of_returns opened]
  exact copied.bind (printed.bind (climbed.bind (finished.bind (put.bind (freedRoot.bind
    (freedTemp.bind (returns_pure_iff.mpr ⟨rfl, rfl⟩)))))))

end Opened

/-- From an open file below the root, with a path that fits, `getPathFromFd` returns zero
and leaves the path exactly when both of its buffers were allocated. -/
theorem getPathFromFd_spells_iff (tree : cache.IsTree root) {fd : UInt32} {file : File}
    (found : k.fget fd m.outside = some file)
    (placed : cache.AtDepth root (cache.fDentry file) depth) (below : 0 < depth)
    (fits : (cache.path (cache.fDentry file) depth).length < pathMax) {block : Block}
    (size : block.bytes.length = pathMax) (enough : depth ≤ fuel) :
    (∃ spelled after, Returns (getPathFromFd k cache fuel fd (some block)) m
        (some (0, spelled)) after ∧ PointsTo spelled (cache.path (cache.fDentry file) depth)) ↔
      (k.kmalloc m.outside m.kmallocs pathMax).isSome ∧
        (k.kmalloc m.outside (m.kmallocs + 1) pathMax).isSome := by
  obtain ⟨rootPath, first, allocatedRoot, outside, count, rootRoom, rootGiven⟩ :=
    kmalloc_answers k m
  obtain ⟨tempPath, second, allocatedTemp, outsideTemp, _, tempRoom, tempGiven⟩ :=
    kmalloc_answers k first
  rw [outside, count] at tempGiven
  rw [← outside, ← outsideTemp] at found
  rw [← rootGiven, ← tempGiven]
  obtain ⟨third, opened⟩ : ∃ after, Returns (fget k fd) second (some file) after :=
    ⟨_, returns_fget_some found⟩
  constructor
  · rintro ⟨spelled, after, ran, _⟩
    exact getPathFromFd_needs tree allocatedRoot allocatedTemp opened ran
  · rintro ⟨isRoot, isTemp⟩
    have isRootRoom := rootRoom.resolve_left fun null => by simp [null] at isRoot
    have isTempRoom := tempRoom.resolve_left fun null => by simp [null] at isTemp
    exact getPathFromFd_reaches tree allocatedRoot allocatedTemp opened placed below fits size
      enough isRootRoom isTempRoom

/-- A file two levels below the root, `/home/f`. -/
def homeDentries : DentryCache Nat where
  fDentry _ := 2
  name
    | 0 => lit "/"
    | 1 => lit "home"
    | _ => lit "f"
  iname
    | 0 => lit "/" ++ [0]
    | _ => []
  parent := Nat.pred
  sRoot _ := 0
  nameClean
    | 0 => by decide
    | 1 => by decide
    | _ + 2 => by
        show (0 : Byte) ∉ lit "f"
        decide

theorem homeDentries_isTree : homeDentries.IsTree 0 where
  ownParent := rfl
  superblock _ := rfl
  inline := by decide
  named
    | 0 => iff_of_true rfl rfl
    | 1 => iff_of_false (by decide) (by decide)
    | _ + 2 => iff_of_false (show lit "f" ≠ [slash] by decide) (by simp)

theorem homeDentries_atDepth : homeDentries.AtDepth 0 2 2 where
  reaches := rfl
  first := by decide

/-- The file two levels below the root is spelled with both names. -/
theorem home_file_spelled :
    ∃ spelled after, Returns (getPathFromFd (Kernel.quiet oneFile) homeDentries 2 3
        (some ⟨9, List.replicate pathMax 1⟩)) (Machine.start () []) (some (0, spelled)) after ∧
      PointsTo spelled (homeDentries.path 2 2) :=
  (getPathFromFd_spells_iff homeDentries_isTree rfl homeDentries_atDepth (by decide) (by decide)
    List.length_replicate (Nat.le_refl _)).mpr ⟨rfl, rfl⟩

/-- Where the first buffer is refused NULL is written to. -/
theorem refused_root_path_faults :
    Faults (getPathFromFd (Kernel.refusing (· = 0) oneFile) homeDentries 2 3
      (some ⟨9, List.replicate pathMax 1⟩)) (Machine.start () []) .badPointer := by
  obtain ⟨rootPath, first, refused, _, _, _, given⟩ :=
    kmalloc_answers (Kernel.refusing (· = 0) oneFile) (Machine.start () [])
  obtain rfl : rootPath = none := Option.not_isSome_iff_eq_none.mp (mt given.mp nofun)
  obtain ⟨tempPath, second, allocated, _⟩ :=
    kmalloc_answers (Kernel.refusing (· = 0) oneFile) first
  have opened : Returns (fget (Kernel.refusing (· = 0) oneFile) 3) second (some ⟨3, 3⟩) _ :=
    returns_fget_some rfl
  rw [getPathFromFd, faults_bind_of_returns refused, faults_bind_of_returns allocated,
    faults_bind_of_returns opened]
  refine faults_bind_iff.mpr (.inl ?_)
  rw [strcpyInline_eq homeDentries_isTree]
  exact faults_throw_iff.mpr rfl

end Spec

end FsProtection
