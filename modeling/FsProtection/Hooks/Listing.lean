import FsProtection.Hooks.Getdents
import FsProtection.Kernel.Quiet

/-!
# Reading a directory through the hook

A reader calls `getdents64` until it answers zero and follows `d_reclen` in what each
call left. The hook answers zero for a chunk all of whose records are hidden, and the
reader takes that for the end of the directory.
-/

namespace FsProtection

open Base

section Listing

variable {σ : Type} (k : Kernel σ) (globals : Globals) (fd count : UInt32)

/-- From a state the original hands a chunk of records to each call, whatever is in the
caller's buffer, and answers zero after the last. The allocation and the user copies of
the hook go through, and the rules go on hiding the same records. -/
def Kernel.Serves : List (List Dirent) → σ → Prop
  | [], state => ∀ userBuf, (k.origin (.getdents64 fd count) state userBuf).1 = 0
  | chunk :: rest, state =>
      (chunk ≠ [] ∧ totalSize chunk < 65536 ∧ totalSize chunk ≤ count.toNat ∧
        ∀ d ∈ chunk, Terminated d.name) ∧
      ∀ userBuf, count.toNat ≤ userBuf.length → ∃ next,
        k.origin (.getdents64 fd count) state userBuf = (.ofNat (totalSize chunk), next,
          direntBytes chunk ++ userBuf.drop (totalSize chunk)) ∧
        ((∀ index, (k.kmalloc next index (totalSize chunk)).isSome) ∧
          totalSize chunk ≤ k.readable next ∧ totalSize chunk ≤ k.writable next) ∧
        k.hides globals next = k.hides globals state ∧ Kernel.Serves rest next

/-- A reader started in a state sees some entries, and makes the call that answers zero
in some state. -/
inductive Reads : Machine σ → List DirentView → Machine σ → Prop where
  | last {m after : Machine σ} :
      Returns (modifiedGetdents64 k globals fd count) m 0 after → Reads m [] m
  | more {m after final : Machine σ} {ret : Int32} {here behind : List DirentView} :
      Returns (modifiedGetdents64 k globals fd count) m ret after → 0 < ret.toInt →
      readDirents (after.userBuf.take ret.toUInt32.toNat) = some here →
      Reads after behind final → Reads m (here ++ behind) final

/-- The reader sees the entries and stops where the original is at the end. -/
def SeesExactly (m : Machine σ) (entries : List DirentView) : Prop :=
  ∃ final, Reads k globals fd count m entries final ∧
    (k.origin (.getdents64 fd count) final.outside final.userBuf).1 = 0

/-- What a reader is to see of some records. -/
def visible (hidden : Dirent → Bool) (records : List Dirent) : List DirentView :=
  (records.filter fun d => !hidden d).map Dirent.view

variable {k globals fd count} {m : Machine σ}

theorem Reads.unique {first second : List DirentView} {final other : Machine σ}
    (reads : Reads k globals fd count m first final)
    (again : Reads k globals fd count m second other) : first = second ∧ final = other := by
  induction reads generalizing second other with
  | last ran =>
      cases again with
      | last _ => exact ⟨rfl, rfl⟩
      | more ranAgain positive _ _ =>
          obtain ⟨rfl, _⟩ := ran.unique ranAgain
          exact absurd positive (by decide)
  | more ran positive seen _ ih =>
      cases again with
      | last ranAgain =>
          obtain ⟨rfl, _⟩ := ran.unique ranAgain
          exact absurd positive (by decide)
      | more ranAgain _ seenAgain continued =>
          obtain ⟨rfl, rfl⟩ := ran.unique ranAgain
          obtain ⟨rfl, rfl⟩ := ih continued
          exact ⟨by rw [Option.some.inj (seen.symm.trans seenAgain)], rfl⟩

/-- A call that is handed a chunk leaves its filtered bytes at the start of the caller's
buffer, and answers their number. -/
theorem Kernel.Serves.step {chunk : List Dirent} {rest : List (List Dirent)}
    (serves : k.Serves globals fd count (chunk :: rest) m.outside)
    (room : count.toNat ≤ m.userBuf.length) :
    ∃ ret after, Returns (modifiedGetdents64 k globals fd count) m ret after ∧
      ret.toUInt32.toNat = (filteredBytes (k.hides globals m.outside) chunk).length ∧
      after.userBuf.take ret.toUInt32.toNat = filteredBytes (k.hides globals m.outside) chunk ∧
      count.toNat ≤ after.userBuf.length ∧
      k.hides globals after.outside = k.hides globals m.outside ∧
      k.Serves globals fd count rest after.outside := by
  obtain ⟨⟨_, small, fits, _⟩, serve⟩ := serves
  obtain ⟨next, answered, ⟨allocates, readable, writable⟩, sameRules, onward⟩ :=
    serve m.userBuf room
  have delivered : k.Delivers m fd count chunk (m.userBuf.drop (totalSize chunk)) := by
    refine ⟨by rw [Machine.answered, answered], ?_⟩
    rw [answered]
    exact Int32.toInt_ofNat_of_lt (by omega)
  have outside : (m.answered k (.getdents64 fd count)).outside = next := by
    rw [Machine.answered, answered]
  have length : (m.answered k (.getdents64 fd count)).userBuf.length = m.userBuf.length := by
    rw [delivered.buffer, List.length_append, direntBytes_length, List.length_drop]
    omega
  have copies : k.Copies (m.answered k (.getdents64 fd count)) (totalSize chunk) := by
    refine ⟨by rw [outside]; exact allocates _, ?_⟩
    rw [outside, length]
    omega
  obtain ⟨ret, after, ran, size, left, kept, unmoved⟩ :=
    delivered.filtered globals copies (by rwa [outside])
  rw [outside] at size left unmoved
  rw [← sameRules]
  refine ⟨ret, after, ran, size, left, ?_, by rw [unmoved], by rwa [unmoved]⟩
  rw [kept, length]
  exact room

/-- What a reader sees in front of the rest is what one call showed it. -/
theorem seesExactly_append_iff {after : Machine σ} {ret : Int32} {here behind : List DirentView}
    (ran : Returns (modifiedGetdents64 k globals fd count) m ret after) (positive : 0 < ret.toInt)
    (seen : readDirents (after.userBuf.take ret.toUInt32.toNat) = some here) :
    SeesExactly k globals fd count m (here ++ behind) ↔
      SeesExactly k globals fd count after behind := by
  constructor
  · rintro ⟨final, reads, ended⟩
    generalize whole : here ++ behind = entries at reads
    cases reads with
    | last ranAgain =>
        obtain ⟨rfl, _⟩ := ran.unique ranAgain
        exact absurd positive (by decide)
    | more ranAgain _ seenAgain continued =>
        obtain ⟨rfl, rfl⟩ := ran.unique ranAgain
        obtain rfl := Option.some.inj (seen.symm.trans seenAgain)
        obtain rfl := List.append_cancel_left whole
        exact ⟨final, continued, ended⟩
  · rintro ⟨final, reads, ended⟩
    exact ⟨final, .more ran positive seen reads, ended⟩

/-- A chunk that is hidden as a whole stops the reader before the end. -/
theorem not_seesExactly_of_all_hidden {chunk : List Dirent} {rest : List (List Dirent)}
    (serves : k.Serves globals fd count (chunk :: rest) m.outside)
    (room : count.toNat ≤ m.userBuf.length)
    (hidden : ∀ d ∈ chunk, k.hides globals m.outside d = true) (entries : List DirentView) :
    ¬ SeesExactly k globals fd count m entries := by
  obtain ⟨ret, after, ran, size, _⟩ := serves.step room
  obtain ⟨⟨nonempty, small, _, _⟩, serve⟩ := serves
  rw [filteredBytes_eq_nil_iff.mpr hidden, List.length_nil] at size
  have signed := toInt_of_toNat_toUInt32 (by rw [size]; decide : ret.toUInt32.toNat < 65536)
  have zero : ret = 0 := Int32.toInt_inj.mp (by rw [signed, size]; rfl)
  rw [zero] at ran
  rintro ⟨final, reads, ended⟩
  obtain ⟨_, rfl⟩ := reads.unique (.last ran)
  obtain ⟨next, answered, _⟩ := serve final.userBuf room
  rw [answered] at ended
  have total : totalSize chunk = 0 := by
    have value := congrArg Int32.toInt ended
    rw [Int32.toInt_ofNat_of_lt (by omega)] at value
    exact Int.natCast_inj.mp value
  exact nonempty (eq_nil_of_totalSize total)

/-- A chunk with a shown record is read, and the reader goes on behind it. -/
theorem seesExactly_cons_iff {chunk : List Dirent} {rest : List (List Dirent)}
    (serves : k.Serves globals fd count (chunk :: rest) m.outside)
    (room : count.toNat ≤ m.userBuf.length)
    (shows : ∃ d ∈ chunk, k.hides globals m.outside d = false) :
    ∃ after : Machine σ, k.Serves globals fd count rest after.outside ∧
      count.toNat ≤ after.userBuf.length ∧
      k.hides globals after.outside = k.hides globals m.outside ∧
      ∀ behind,
        SeesExactly k globals fd count m (visible (k.hides globals m.outside) chunk ++ behind) ↔
        SeesExactly k globals fd count after behind := by
  obtain ⟨ret, after, ran, size, left, roomAfter, sameRules, onward⟩ := serves.step room
  obtain ⟨⟨_, small, _⟩, _⟩ := serves
  have nonempty : filteredBytes (k.hides globals m.outside) chunk ≠ [] := by
    obtain ⟨d, member, shown⟩ := shows
    intro empty
    rw [filteredBytes_eq_nil_iff.mp empty d member] at shown
    exact Bool.false_ne_true shown.symm
  have positive : 0 < ret.toInt := by
    have length := List.length_pos_iff.mpr nonempty
    have bounded : (filteredBytes (k.hides globals m.outside) chunk).length ≤ totalSize chunk :=
      filteredBytes_length_le chunk
    have signed := toInt_of_toNat_toUInt32 (by omega : ret.toUInt32.toNat < 65536)
    omega
  have seen : readDirents (filteredBytes (k.hides globals m.outside) chunk) = _ :=
    readDirents_filteredBytes small
  rw [← left] at seen
  exact ⟨after, onward, roomAfter, sameRules, fun _ => seesExactly_append_iff ran positive seen⟩

/-- A reader sees exactly the entries of all chunks that are not hidden, and stops at
the end of the directory, when no chunk is hidden as a whole; otherwise it does not. -/
theorem seesExactly_iff {chunks : List (List Dirent)}
    (serves : k.Serves globals fd count chunks m.outside)
    (room : count.toNat ≤ m.userBuf.length) :
    SeesExactly k globals fd count m (visible (k.hides globals m.outside) chunks.flatten) ↔
      ∀ chunk ∈ chunks, ∃ d ∈ chunk, k.hides globals m.outside d = false := by
  induction chunks generalizing m with
  | nil =>
      have ended : (k.origin (.getdents64 fd count) m.outside m.userBuf).1 = 0 := serves m.userBuf
      have ran : Returns (modifiedGetdents64 k globals fd count) m 0
          (m.answered k (.getdents64 fd count)) := by
        rw [returns_modifiedGetdents64_iff, ended]
        exact returns_pure_iff.mpr ⟨rfl, rfl⟩
      exact iff_of_true ⟨m, .last ran, ended⟩ (by simp)
  | cons chunk rest ih =>
      by_cases shows : ∃ d ∈ chunk, k.hides globals m.outside d = false
      · obtain ⟨after, onward, roomAfter, sameRules, continues⟩ :=
          seesExactly_cons_iff serves room shows
        have split : visible (k.hides globals m.outside) (chunk :: rest).flatten =
            visible (k.hides globals m.outside) chunk ++
              visible (k.hides globals m.outside) rest.flatten := by
          simp [visible]
        have behind := ih onward roomAfter
        rw [sameRules] at behind
        rw [split, continues, behind, List.forall_mem_cons]
        exact (and_iff_right shows).symm
      · have hidden : ∀ d ∈ chunk, k.hides globals m.outside d = true := by
          simpa using shows
        exact iff_of_false (not_seesExactly_of_all_hidden serves room hidden _)
          fun all => shows (all chunk List.mem_cons_self)

end Listing

section Shelf

/-- A kernel whose directory is its state: the chunks still to hand out. -/
def Kernel.shelf : Kernel (List (List Dirent)) :=
  { Kernel.resting (List (List Dirent)) oneFile with
    origin := fun
      | .getdents64 _ _, chunk :: rest, userBuf =>
          (.ofNat (totalSize chunk), rest, direntBytes chunk ++ userBuf.drop (totalSize chunk))
      | _, chunks, userBuf => (0, chunks, userBuf) }

theorem Kernel.shelf_serves (globals : Globals) (fd : UInt32) {count : UInt32}
    {chunks : List (List Dirent)} (small : count.toNat < 65536)
    (sized : ∀ chunk ∈ chunks, chunk ≠ [] ∧ totalSize chunk ≤ count.toNat ∧
      ∀ d ∈ chunk, Terminated d.name) :
    Kernel.shelf.Serves globals fd count chunks chunks := by
  induction chunks with
  | nil => exact fun _ => rfl
  | cons chunk rest ih =>
      obtain ⟨⟨nonempty, fits, named⟩, others⟩ := List.forall_mem_cons.mp sized
      refine ⟨⟨nonempty, by omega, fits, named⟩, fun userBuf _ => ⟨rest, rfl, ⟨?_, ?_, ?_⟩, rfl,
        ih others⟩⟩
      · intro index
        have within : ¬ kmallocMaxSize < totalSize chunk := by
          unfold kmallocMaxSize
          omega
        simp [Kernel.shelf, Kernel.resting, within]
      · exact Nat.le_of_lt (Nat.lt_of_le_of_lt fits small)
      · exact Nat.le_of_lt (Nat.lt_of_le_of_lt fits small)

/-- A record of an inode named by one letter. -/
def letterDirent (ino : UInt64) (letter : Byte) : Dirent where
  ino := ino
  off := ino
  type := 8
  name := [letter, 0]
  fits := by simp [direntHeader]

/-- The rule that hides the file of `oneFile`. -/
def hideRule : Globals where
  fileListRoot := [.make (lit "/f") 7 .hide]
  protectEnabeled := true
  dataBuf := SizedBytes.zeros _
  rawDataBuff := SizedBytes.zeros _

/-- A hidden record beside a shown one is all the reader misses. -/
theorem seesExactly_beside :
    SeesExactly Kernel.shelf hideRule 3 64
      (Machine.start [[letterDirent 7 102, letterDirent 8 103]] (List.replicate 64 0))
      [(letterDirent 8 103).view] :=
  (seesExactly_iff (Kernel.shelf_serves hideRule 3 (by decide) (by decide)) (by decide)).mpr
    (by decide)

/-- A hidden record that is a chunk of its own hides the rest of the directory. -/
theorem not_seesExactly_alone :
    ¬ SeesExactly Kernel.shelf hideRule 3 64
      (Machine.start [[letterDirent 7 102], [letterDirent 8 103]] (List.replicate 64 0))
      [(letterDirent 8 103).view] :=
  not_seesExactly_of_all_hidden (Kernel.shelf_serves hideRule 3 (by decide) (by decide))
    (by decide) (by decide) _

end Shelf

end FsProtection
