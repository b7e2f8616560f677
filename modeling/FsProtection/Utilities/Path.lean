import FsProtection.Base.Pathname
import FsProtection.Kernel.Interface

/-!
# Path assembly

The functions of `utilities.c` the path hooks use. A function that returns a pointer
through its last argument answers its return value and that pointer, which no hook
checks.
-/

namespace FsProtection

open Base

/-- The loop of `getstringfromuser` over the bytes that can be read from its source. A
byte that cannot be read arrives as zero. -/
def getstringLoop (kernelstring : Bytes) (tar : Nat) : Bytes → Except Fault Bytes
  | [] => storeAt kernelstring tar [0]
  | byte :: src => do
      let kernelstring ← storeAt kernelstring tar [byte]
      if byte = 0 then return kernelstring else getstringLoop kernelstring (tar + 1) src

def getstringfromuser (userstring kernelstring : Bytes) : Except Fault Bytes :=
  getstringLoop kernelstring 0 userstring

section Model

variable {σ : Type} (k : Kernel σ)

def copyStringFromUser (userstring : Bytes) : HookM σ (Int × Option Block) := do
  match ← kmalloc k pathMax with
  | none => return (-1, none)
  | some kernelstring =>
      let bytes ← (getstringfromuser userstring kernelstring.bytes : Except Fault Bytes)
      return (0, some { kernelstring with bytes := bytes })

/-- `d_path` in a buffer of `PATH_MAX` bytes. A path that does not fit is answered with
an error pointer, which the caller reads as a string. -/
def dPath : HookM σ Bytes := do
  let m ← get
  if (k.dPath m.outside).length < pathMax then
    return k.dPath m.outside
  else
    throw .badPointer

/-- `getfullPath`: whether it returned its argument rather than NULL, and what it left
in it. The reference to the working directory is not given back. -/
def getfullPath (pathname : Option Block) (fullpath : Block) : HookM σ (Bool × Block) := do
  match ← kmalloc k pathMax with
  | none => return (false, fullpath)
  | some path =>
      pathGet
      let start ← dPath k
      let bytes ← strcatRegion fullpath.bytes start
      let bytes ← strcatRegion bytes [slash]
      let pathname ← readString pathname
      let bytes ← strcatRegion bytes pathname
      kfree (some path)
      return (true, { fullpath with bytes := bytes })

def getNewFullPath (pathname : Option Block) : HookM σ (Int × Option Block) := do
  match ← kmalloc k pathMax with
  | none => return (-1, none)
  | some fullpath =>
      let temp ← getfullPath k pathname fullpath
      return (if temp.1 then 0 else -1, some temp.2)

end Model

/-- The loop of `getParentDirFromFullPath`, `i` counting the positions still to look at:
the slash that brings `slashCount` to zero becomes a NUL. -/
def parentLoop (path : Bytes) : (i slashCount : Nat) → Bytes
  | 0, _ => path
  | i + 1, slashCount =>
      if path[i]? = some slash then
        if slashCount = 1 then path.set i 0 else parentLoop path i (slashCount - 1)
      else parentLoop path i slashCount

/-- How many slashes the loop counts down, from the end of a non-empty string. -/
def initialSlashCount (text : Bytes) : Nat :=
  if text[text.length - 1]? = some slash then 2 else 1

/-- `getParentDirFromFullPath`. On an empty string it reads the byte before it. -/
def getParentDirFromFullPath {σ : Type} (path : Option Block) : HookM σ (Option Block) := do
  let text ← readString path
  if text = [] then
    throw .overrun
  else
    return path.map fun block =>
      { block with bytes := parentLoop block.bytes text.length (initialSlashCount text) }

/-- `getstringfromuser` stores the string of its source with its NUL. -/
theorem getstringfromuser_eq (userstring kernelstring : Bytes) :
    getstringfromuser userstring kernelstring =
      storeAt kernelstring 0 (cstr userstring ++ [0]) := by
  unfold getstringfromuser
  generalize 0 = tar
  induction userstring generalizing kernelstring tar with
  | nil => rfl
  | cons byte src ih =>
      by_cases last : byte = 0
      · subst last
        rw [getstringLoop, cstr_cons_zero, List.nil_append]
        cases storeAt kernelstring tar [0] <;> rfl
      · rw [getstringLoop, cstr_cons last, List.cons_append]
        conv_rhs => rw [storeAt, store_cons]
        unfold storeAt
        cases store kernelstring tar [byte] with
        | none => rfl
        | some out => simpa [last, bind, Except.bind, storeAt] using ih out (tar + 1)

theorem parentLoop_length (path : Bytes) (i slashCount : Nat) :
    (parentLoop path i slashCount).length = path.length := by
  induction i generalizing slashCount with
  | zero => rfl
  | succ i ih =>
      rw [parentLoop]
      split
      · split
        · simp
        · exact ih _
      · exact ih _

/-- The loop looks at the leading `i` bytes only. -/
theorem parentLoop_append {path : Bytes} {i : Nat} (within : i ≤ path.length) (rest : Bytes)
    (slashCount : Nat) :
    parentLoop (path ++ rest) i slashCount = parentLoop path i slashCount ++ rest := by
  induction i generalizing slashCount with
  | zero => rfl
  | succ i ih =>
      have inside : (path ++ rest)[i]? = path[i]? := List.getElem?_append_left (by omega)
      rw [parentLoop, parentLoop, inside]
      split
      · split
        · rw [List.set_append_left _ _ (by omega)]
        · exact ih (by omega) _
      · exact ih (by omega) _

/-- Bytes behind the last slash are passed over. -/
theorem parentLoop_behind {front back : Bytes} (noSlash : slash ∉ back) (slashCount : Nat) :
    parentLoop (front ++ back) (front.length + back.length) slashCount =
      parentLoop (front ++ back) front.length slashCount := by
  induction back using List.reverseRecOn with
  | nil => rfl
  | append_singleton back last ih =>
      have notSlash : ¬ (some last = some slash) := by
        rintro same
        simp [Option.some.inj same] at noSlash
      have absent : slash ∉ back := fun member => noSlash (by simp [member])
      have here : (front ++ (back ++ [last]))[front.length + back.length]? = some last := by
        simp [← List.append_assoc]
      have inside : front.length + back.length ≤ (front ++ back).length := by simp
      rw [List.length_append, List.length_singleton, ← Nat.add_assoc, parentLoop, here,
        if_neg notSlash, ← List.append_assoc, parentLoop_append inside, ih absent,
        ← parentLoop_append (by simp)]

/-- With one slash to go the last slash becomes a NUL. -/
theorem parentLoop_one {front back : Bytes} (noSlash : slash ∉ back) :
    parentLoop (front ++ slash :: back) (front ++ slash :: back).length 1 =
      front ++ 0 :: back := by
  have split : front ++ slash :: back = (front ++ [slash]) ++ back := by simp
  rw [split, List.length_append, parentLoop_behind noSlash, List.length_append,
    List.length_singleton, parentLoop]
  simp

/-- With two slashes to go the last slash is passed over. -/
theorem parentLoop_two {front back : Bytes} (noSlash : slash ∉ back) :
    parentLoop (front ++ slash :: back) (front ++ slash :: back).length 2 =
      parentLoop front front.length 1 ++ slash :: back := by
  have split : front ++ slash :: back = (front ++ [slash]) ++ back := by simp
  rw [split, List.length_append, parentLoop_behind noSlash, List.length_append,
    List.length_singleton, parentLoop]
  simp [parentLoop_append]

/-- The string `getParentDirFromFullPath` leaves of a string. -/
def parentDir (text : Bytes) : Bytes :=
  cstr (parentLoop text text.length (initialSlashCount text))

theorem initialSlashCount_eq (text : Bytes) :
    initialSlashCount text = if text.getLast? = some slash then 2 else 1 := by
  rw [initialSlashCount, List.getLast?_eq_getElem?]

/-- The last component is cut off, -/
theorem parentDir_entry {front back : Bytes} (clean : (0 : Byte) ∉ front) (noSlash : slash ∉ back)
    (nonempty : back ≠ []) : parentDir (front ++ slash :: back) = front := by
  have last : (front ++ slash :: back).getLast? ≠ some slash := by
    obtain ⟨first, rest, rfl⟩ := List.exists_cons_of_ne_nil nonempty
    intro ended
    rw [List.getLast?_append_cons, List.getLast?_cons_cons] at ended
    exact noSlash (List.mem_of_getLast? ended)
  rw [parentDir, initialSlashCount_eq, if_neg last, parentLoop_one noSlash, cstr_append_zero clean]

/-- also in front of a slash at the end. -/
theorem parentDir_entry_slash {front back : Bytes} (clean : (0 : Byte) ∉ front)
    (noSlash : slash ∉ back) : parentDir (front ++ slash :: back ++ [slash]) = front := by
  have emptyEnd : slash ∉ ([] : Bytes) := List.not_mem_nil
  rw [parentDir, initialSlashCount_eq, if_pos List.getLast?_concat, parentLoop_two emptyEnd,
    parentLoop_one noSlash, List.append_assoc, List.cons_append, cstr_append_zero clean]

/-- What is left of a pathname glued to a start: all in front of the last slash, one slash
at the end aside. -/
theorem parentDir_trimmed {start front back pathname : Bytes} (clean : (0 : Byte) ∉ front)
    (noSlash : slash ∉ back) (nonempty : pathname ≠ [])
    (split : start ++ slash :: trimmed pathname = front ++ slash :: back) :
    parentDir (start ++ slash :: pathname) = front := by
  obtain ⟨same, last⟩ | ended := trimmed_cases pathname
  · rw [same] at split
    rw [split]
    refine parentDir_entry clean noSlash ?_
    rintro rfl
    obtain ⟨first, rest, rfl⟩ := List.exists_cons_of_ne_nil nonempty
    have ends := congrArg List.getLast? split
    rw [List.getLast?_append_cons, List.getLast?_append_cons, List.getLast?_cons_cons] at ends
    exact last ends
  · rw [ended, ← List.cons_append, ← List.append_assoc, split]
    exact parentDir_entry_slash clean noSlash

section Spec

variable {σ : Type} {k : Kernel σ} {m after : Machine σ}

theorem returns_copyStringFromUser_null {userstring : Bytes}
    (refused : k.kmalloc m.outside m.kmallocs pathMax = none) :
    Returns (copyStringFromUser k userstring) m (-1, none)
      { m with kmallocs := m.kmallocs + 1 } := by
  simp [copyStringFromUser, returns_bind_of_returns (returns_kmalloc_none refused)]

/-- A copy into a block returns exactly when the string fits `PATH_MAX`. -/
theorem returns_copyStringFromUser_iff {userstring old : Bytes} {answer : Int × Option Block}
    (allocated : k.kmalloc m.outside m.kmallocs pathMax = some old) :
    Returns (copyStringFromUser k userstring) m answer after ↔
      (cstr userstring).length < pathMax ∧
      answer = (0, some ⟨m.kmallocs,
        cstr userstring ++ 0 :: old.drop ((cstr userstring).length + 1)⟩) ∧
      after = { m with kmallocs := m.kmallocs + 1, held := .block m.kmallocs :: m.held } := by
  have size := k.kmallocLength allocated
  rw [copyStringFromUser, returns_bind_of_returns (returns_kmalloc_some allocated)]
  simp only [returns_bind_iff, returns_lift_iff, returns_pure_iff, getstringfromuser_eq,
    storeAt_eq_ok]
  by_cases fits : (cstr userstring).length < pathMax
  · have stored : store old 0 (cstr userstring ++ [0]) =
        some (cstr userstring ++ 0 :: old.drop ((cstr userstring).length + 1)) := by
      simp [store, size, Nat.succ_le_of_lt fits]
    simp [stored, fits]
  · have overruns : store old 0 (cstr userstring ++ [0]) = none := by
      simp [store, size]
      omega
    simp [overruns, fits]

/-- What a string append that returns needed and left. -/
theorem strcatRegion_returned {dst text out : Bytes} (clean : (0 : Byte) ∉ text)
    (ran : Returns (strcatRegion dst text) m out after) :
    after = m ∧ Terminated dst ∧ (cstr dst).length + text.length < dst.length ∧
      out.length = dst.length ∧ cstr out = cstr dst ++ text := by
  obtain ⟨appended, same⟩ := returns_strcatRegion_iff.mp ran
  obtain ⟨terminated, fits⟩ := strcat_isSome_iff.mp (by rw [appended]; rfl)
  obtain ⟨length, _, content⟩ := strcat_spec clean appended
  exact ⟨same, terminated, fits, length, content⟩

/-- The room `getfullPath` needs behind the string already in its argument. -/
def Kernel.PathRoom (k : Kernel σ) (outside : σ) (pathname old : Bytes) : Prop :=
  Terminated old ∧
    (cstr old).length + (k.dPath outside).length + 1 + pathname.length < pathMax

/-- `getfullPath` appends the working directory, a slash and the pathname to the string
in its argument, when they fit. -/
theorem getfullPath_returns {scratch : Bytes} {name fullpath : Block}
    (allocated : k.kmalloc m.outside m.kmallocs pathMax = some scratch)
    (size : fullpath.bytes.length = pathMax) (named : Terminated name.bytes)
    (room : k.PathRoom m.outside (cstr name.bytes) fullpath.bytes) :
    ∃ bytes, Returns (getfullPath k (some name) fullpath) m (true, ⟨fullpath.id, bytes⟩)
        { m with kmallocs := m.kmallocs + 1, held := .pwd :: m.held } ∧
      bytes.length = pathMax ∧ Terminated bytes ∧
      cstr bytes = cstr fullpath.bytes ++ k.dPath m.outside ++ slash :: cstr name.bytes := by
  obtain ⟨terminated, fits⟩ := room
  have slashClean : (0 : Byte) ∉ [slash] := by decide
  obtain ⟨first, appendedFirst, firstSize, firstTerminated, firstContent⟩ :=
    strcat_fits (k.dPathClean m.outside) terminated (by omega)
  obtain ⟨second, appendedSecond, secondSize, secondTerminated, secondContent⟩ :=
    strcat_fits slashClean firstTerminated (by
      rw [firstContent, firstSize, List.length_append, List.length_singleton]
      omega)
  obtain ⟨third, appendedThird, thirdSize, thirdTerminated, thirdContent⟩ :=
    strcat_fits (zero_notMem_cstr : (0 : Byte) ∉ cstr name.bytes) secondTerminated (by
      rw [secondContent, secondSize, firstContent, firstSize, List.length_append,
        List.length_append, List.length_singleton]
      omega)
  have spelled : (k.dPath m.outside).length < pathMax := by omega
  refine ⟨third, ?_, by omega, thirdTerminated, ?_⟩
  · rw [getfullPath, returns_bind_of_returns (returns_kmalloc_some allocated)]
    simp [returns_bind_iff, pathGet, dPath, spelled, appendedFirst, appendedSecond, named,
      appendedThird]
  · rw [thirdContent, secondContent, firstContent]
    simp

/-- A `getfullPath` that returns after its allocation had a pathname and the room. -/
theorem getfullPath_returned {scratch : Bytes} {pathname : Option Block} {fullpath : Block}
    {answer : Bool × Block}
    (allocated : k.kmalloc m.outside m.kmallocs pathMax = some scratch)
    (size : fullpath.bytes.length = pathMax)
    (ran : Returns (getfullPath k pathname fullpath) m answer after) :
    ∃ name, pathname = some name ∧ Terminated name.bytes ∧
      k.PathRoom m.outside (cstr name.bytes) fullpath.bytes := by
  rw [getfullPath, returns_bind_of_returns (returns_kmalloc_some allocated)] at ran
  simp only [returns_bind_iff] at ran
  obtain ⟨_, afterGet, got, start, afterPath, spelled, first, _, ranFirst, second, _, ranSecond,
    text, _, read, third, _, ranThird, _⟩ := ran
  have outside : afterGet.outside = m.outside := by
    simp only [pathGet, returns_modify_iff] at got
    rw [got]
  have clean : start = k.dPath m.outside ∧ afterPath = afterGet := by
    simp only [dPath, returns_bind_iff, returns_get_iff] at spelled
    obtain ⟨_, _, ⟨rfl, rfl⟩, answered⟩ := spelled
    split at answered
    · simpa [outside] using answered
    · simp at answered
  obtain ⟨rfl, rfl⟩ := clean
  cases pathname with
  | none => simp at read
  | some name =>
      obtain ⟨named, rfl, rfl⟩ := returns_readString_some_iff.mp read
      obtain ⟨rfl, terminated, fitsFirst, firstSize, firstContent⟩ :=
        strcatRegion_returned (k.dPathClean m.outside) ranFirst
      obtain ⟨rfl, _, fitsSecond, secondSize, secondContent⟩ :=
        strcatRegion_returned (by decide) ranSecond
      obtain ⟨rfl, _, fitsThird, _, _⟩ := strcatRegion_returned zero_notMem_cstr ranThird
      refine ⟨name, rfl, named, terminated, ?_⟩
      rw [secondContent, firstContent, secondSize, firstSize, size] at fitsThird
      simp only [List.length_append, List.length_singleton] at fitsThird
      exact fitsThird

theorem returns_getfullPath_null {pathname : Option Block} {fullpath : Block}
    (refused : k.kmalloc m.outside m.kmallocs pathMax = none) :
    Returns (getfullPath k pathname fullpath) m (false, fullpath)
      { m with kmallocs := m.kmallocs + 1 } := by
  simp [getfullPath, returns_bind_of_returns (returns_kmalloc_none refused)]

/-- On a non-empty string that ends in its block the directory is left there. -/
theorem getParentDirFromFullPath_returns {block : Block} (terminated : Terminated block.bytes)
    (nonempty : cstr block.bytes ≠ []) :
    ∃ bytes, Returns (getParentDirFromFullPath (some block)) m (some ⟨block.id, bytes⟩) m ∧
      bytes.length = block.bytes.length ∧ cstr bytes = parentDir (cstr block.bytes) := by
  have read : Returns (readString (some block)) m (cstr block.bytes) m :=
    returns_readString_some_iff.mpr ⟨terminated, rfl, rfl⟩
  obtain ⟨rest, split⟩ := terminated_split terminated
  refine ⟨parentLoop block.bytes (cstr block.bytes).length (initialSlashCount (cstr block.bytes)),
    returns_bind_iff.mpr ⟨_, _, read, ?_⟩, parentLoop_length _ _ _, ?_⟩
  · rw [if_neg nonempty]
    exact returns_pure_iff.mpr ⟨rfl, rfl⟩
  · generalize cstr block.bytes = text at split
    rw [split, parentLoop_append (Nat.le_refl _), cstr_append_nul]
    rfl

end Spec

end FsProtection
