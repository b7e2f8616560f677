import FsProtection.Base.Pattern
import FsProtection.Load.Complete

/-!
# `get_sys_call_table`

The table is looked for in the code of the handler of `int 0x80`: the gate of the interrupt
descriptor table leads to it, and the operand of its first `call *table(,%eax,4)` is taken
for the table. The memory and the base that `sidt` stores are parameters; a byte that is not
mapped cannot be read.
-/

namespace FsProtection

open Base

namespace Load

abbrev Memory := UInt32 → Option Byte

/-- `idt`, an entry of the interrupt descriptor table. -/
structure Gate where
  off1 : UInt16
  sel : UInt16
  none : Byte
  flags : Byte
  off2 : UInt16
deriving DecidableEq

def Gate.bytes (gate : Gate) : Bytes :=
  leBytes 2 gate.off1.toNat ++ (leBytes 2 gate.sel.toNat ++ ([gate.none, gate.flags] ++
    leBytes 2 gate.off2.toNat))

/-- The fields of the eight bytes `memcpy` copies into `idt`. -/
def Gate.ofBytes (bytes : Bytes) : Gate where
  off1 := (leNat (bytes.take 2)).toUInt16
  sel := (leNat ((bytes.drop 2).take 2)).toUInt16
  none := (bytes.drop 4).headD 0
  flags := (bytes.drop 5).headD 0
  off2 := (leNat ((bytes.drop 6).take 2)).toUInt16

/-- `sys_call_off`. -/
def Gate.sysCallOff (gate : Gate) : UInt32 := gate.off2.toUInt32 <<< 16 ||| gate.off1.toUInt32

/-- `0xff 0x14 0x85`, the code of `call *table(,%eax,4)` up to its operand. -/
def callTable : Bytes := [0xff, 0x14, 0x85]

def readByte (memory : Memory) (address : UInt32) : Except Fault Byte :=
  match memory address with
  | none => throw .badPointer
  | some byte => return byte

def readBytes (memory : Memory) : Nat → UInt32 → Except Fault Bytes
  | 0, _ => return []
  | count + 1, address => do
      let byte ← readByte memory address
      let rest ← readBytes memory count (address + 1)
      return byte :: rest

/-- `p[i] == '\xff' && p[i+1] == '\x14' && p[i+2] == '\x85'`: nothing is read behind a byte
that differs. -/
def comparesAt (memory : Memory) : Bytes → UInt32 → Except Fault Bool
  | [], _ => return true
  | expected :: rest, address => do
      let byte ← readByte memory address
      if byte = expected then comparesAt memory rest (address + 1) else return false

/-- The loop over the code, with the turns left. -/
def searchFrom (memory : Memory) : Nat → UInt32 → Except Fault UInt32
  | 0, _ => return 0
  | turns + 1, p => do
      if ← comparesAt memory callTable p then
        let operand ← readBytes memory 4 (p + 3)
        return (leNat operand).toUInt32
      else
        searchFrom memory turns (p + 1)

/-- `get_sys_call_table` where `sidt` stores that base. -/
def getSysCallTable (memory : Memory) (base : UInt32) : Except Fault UInt32 := do
  let idt ← readBytes memory 8 (base + 8 * 0x80)
  searchFrom memory 100 (Gate.ofBytes idt).sysCallOff

/-- The bytes are mapped from an address on. -/
def Maps (memory : Memory) (address : UInt32) : Bytes → Prop
  | [] => True
  | byte :: rest => memory address = some byte ∧ Maps memory (address + 1) rest

instance Maps.decidable (memory : Memory) : (address : UInt32) → (bytes : Bytes) →
    Decidable (Maps memory address bytes)
  | _, [] => isTrue trivial
  | address, byte :: rest =>
      have := Maps.decidable memory (address + 1) rest
      inferInstanceAs (Decidable (memory address = some byte ∧ Maps memory (address + 1) rest))

/-- What a search of some turns answers on a code: the operand of the first match, or 0. -/
def operandOf (code : Bytes) (turns : Nat) : UInt32 :=
  match firstOffset callTable code turns with
  | none => 0
  | some offset => (leNat ((code.drop (offset + 3)).take 4)).toUInt32

/-- The code reaches as far as the search reads: over the operand of the first match, or
over the last comparison. -/
def Reaches (code : Bytes) (turns : Nat) : Prop :=
  match firstOffset callTable code turns with
  | none => turns + 2 ≤ code.length
  | some offset => offset + 7 ≤ code.length

section Spec

variable {memory : Memory} {address base : UInt32} {bytes front back code : Bytes} {gate : Gate}

theorem Gate.ofBytes_bytes (gate : Gate) : Gate.ofBytes gate.bytes = gate := by
  obtain ⟨off1, sel, none, flags, off2⟩ := gate
  have field : ∀ half : UInt16, (leNat (leBytes 2 half.toNat)).toUInt16 = half := by
    intro half
    have small : half.toNat % 256 ^ 2 = half.toNat := Nat.mod_eq_of_lt half.toNat_lt
    rw [leNat_leBytes, small]
    exact UInt16.ofNat_toNat
  simp only [Gate.ofBytes, Gate.bytes, Gate.mk.injEq]
  refine ⟨?_, ?_, rfl, rfl, ?_⟩
  · exact field off1
  · exact field sel
  · exact field off2

/-- The gate of a handler leads to it. -/
theorem Gate.sysCallOff_of (handler : UInt32) {gate : Gate} (low : gate.off1 = handler.toUInt16)
    (high : gate.off2 = (handler >>> 16).toUInt16) : gate.sysCallOff = handler := by
  apply UInt32.toNat_inj.mp
  have bound := handler.toNat_lt
  rw [Gate.sysCallOff, low, high]
  simp only [UInt32.toNat_or, UInt32.toNat_shiftLeft, UInt16.toNat_toUInt32, UInt32.toNat_toUInt16,
    UInt32.toNat_shiftRight, UInt32.reduceToNat, Nat.reduceMod]
  have fits : (handler.toNat >>> 16 % 2 ^ 16) <<< 16 % 2 ^ 32 = handler.toNat >>> 16 <<< 16 := by
    simp only [Nat.shiftLeft_eq, Nat.shiftRight_eq_div_pow]
    omega
  rw [fits, ← Nat.shiftLeft_add_eq_or_of_lt (Nat.mod_lt _ (by decide)), Nat.shiftLeft_eq,
    Nat.shiftRight_eq_div_pow]
  omega

theorem Maps.drop (maps : Maps memory address (front ++ back)) :
    Maps memory (address + UInt32.ofNat front.length) back := by
  induction front generalizing address with
  | nil => simpa using maps
  | cons byte rest ih =>
      have next := ih maps.2
      have position : address + 1 + UInt32.ofNat rest.length =
          address + UInt32.ofNat (byte :: rest).length := by
        rw [List.length_cons, UInt32.ofNat_add, UInt32.add_assoc, UInt32.add_comm 1]
        rfl
      rwa [position] at next

theorem Maps.left (maps : Maps memory address (front ++ back)) : Maps memory address front := by
  induction front generalizing address with
  | nil => trivial
  | cons byte rest ih => exact ⟨maps.1, ih maps.2⟩

theorem readBytes_mapped (maps : Maps memory address bytes) :
    readBytes memory bytes.length address = .ok bytes := by
  induction bytes generalizing address with
  | nil => rfl
  | cons byte rest ih =>
      obtain ⟨here, behind⟩ := maps
      simp only [List.length_cons, readBytes, readByte, here, ih behind]
      rfl

/-- Comparing with what is mapped tells whether the pattern begins it, if it is as long as
the pattern. -/
theorem comparesAt_mapped {pattern : Bytes} (maps : Maps memory address bytes)
    (long : pattern.length ≤ bytes.length) :
    comparesAt memory pattern address = .ok (decide (pattern <+: bytes)) := by
  induction pattern generalizing address bytes with
  | nil => simp [comparesAt, pure, Except.pure]
  | cons expected rest ih =>
      cases bytes with
      | nil => simp at long
      | cons byte behind =>
          obtain ⟨here, maps⟩ := maps
          simp only [comparesAt, readByte, here]
          by_cases same : byte = expected
          · subst same
            simpa [bind, Except.bind, pure, Except.pure] using ih maps (by simpa using long)
          · have differs : ¬ expected = byte := fun equal => same equal.symm
            simp [bind, Except.bind, pure, Except.pure, same, differs]

theorem operandOf_begins (behind : Bytes) (turns : Nat) :
    operandOf (callTable ++ behind) (turns + 1) = (leNat (behind.take 4)).toUInt32 := by
  rw [operandOf, firstOffset_prefix (List.prefix_append _ _)]
  rfl

theorem operandOf_behind {byte : Byte} {rest : Bytes} {turns : Nat}
    (differs : ¬ callTable <+: byte :: rest) :
    operandOf (byte :: rest) (turns + 1) = operandOf rest turns ∧
      (Reaches (byte :: rest) (turns + 1) → Reaches rest turns) := by
  rw [operandOf, operandOf, Reaches, Reaches, firstOffset_cons differs]
  cases firstOffset callTable rest turns with
  | none =>
      simp only [Option.map_none, List.length_cons]
      exact ⟨trivial, fun reaches => by omega⟩
  | some offset =>
      simp only [Option.map_some, List.length_cons]
      refine ⟨?_, fun reaches => by omega⟩
      rw [Nat.add_right_comm, List.drop_succ_cons]

/-- The search finds the operand of the first match. -/
theorem searchFrom_mapped {turns : Nat} (maps : Maps memory address code)
    (reaches : Reaches code turns) :
    searchFrom memory turns address = .ok (operandOf code turns) := by
  induction turns generalizing address code with
  | zero => rfl
  | succ turns ih =>
      have long : callTable.length ≤ code.length := by
        have three : callTable.length = 3 := rfl
        unfold Reaches at reaches
        split at reaches <;> omega
      rw [searchFrom, comparesAt_mapped maps long]
      cases code with
      | nil => simp [callTable] at long
      | cons byte rest =>
          by_cases begins : callTable <+: byte :: rest
          · obtain ⟨behind, whole⟩ := begins
            rw [← whole] at maps reaches ⊢
            have operand : (behind.take 4).length = 4 := by
              rw [Reaches, firstOffset_prefix (List.prefix_append _ _)] at reaches
              have whole : (callTable ++ behind).length = 3 + behind.length := List.length_append
              rw [List.length_take]
              omega
            have mapped : Maps memory (address + 3) behind := maps.drop
            rw [← List.take_append_drop 4 behind] at mapped
            have read := readBytes_mapped mapped.left
            rw [operand] at read
            rw [operandOf_begins, decide_eq_true (List.prefix_append _ _)]
            simp only [bind, Except.bind, if_true, read]
            rfl
          · obtain ⟨same, goesOn⟩ := operandOf_behind begins
            rw [same, decide_eq_false begins]
            exact ih maps.2 (goesOn reaches)

theorem getSysCallTable_mapped {handler : UInt32} (gated : Maps memory (base + 8 * 0x80) gate.bytes)
    (leads : gate.sysCallOff = handler) (maps : Maps memory handler code)
    (reaches : Reaches code 100) : getSysCallTable memory base = .ok (operandOf code 100) := by
  have copied : readBytes memory 8 (base + 8 * 0x80) = .ok gate.bytes := readBytes_mapped gated
  rw [getSysCallTable, copied]
  change searchFrom memory 100 (Gate.ofBytes gate.bytes).sysCallOff = _
  rw [Gate.ofBytes_bytes, leads]
  exact searchFrom_mapped maps reaches

theorem callTable_unbordered : Unbordered callTable := by
  intro shift begins
  by_cases inner : shift = 0 ∨ callTable.length ≤ shift
  · exact inner
  · have bound : shift = 1 ∨ shift = 2 := by
      have three : callTable.length = 3 := rfl
      omega
    rcases bound with rfl | rfl
    · exact absurd begins (by decide)
    · exact absurd begins (by decide)

/-- The table that the handler of `int 0x80` calls through is found, when its call is the
first one and begins within a hundred bytes. Nothing behind the operand has to be mapped. -/
theorem sysCallTable_found {handler table : UInt32}
    (gated : Maps memory (base + 8 * 0x80) gate.bytes) (low : gate.off1 = handler.toUInt16)
    (high : gate.off2 = (handler >>> 16).toUInt16)
    (maps : Maps memory handler (front ++ (callTable ++ leBytes 4 table.toNat)))
    (near : front.length < 100) (first : ¬ callTable <:+: front) :
    getSysCallTable memory base = .ok table := by
  have found := firstOffset_append callTable_unbordered near first (leBytes 4 table.toNat)
  have small : table.toNat % 256 ^ 4 = table.toNat := Nat.mod_eq_of_lt table.toNat_lt
  have operand : operandOf (front ++ (callTable ++ leBytes 4 table.toNat)) 100 = table := by
    have behind : (front ++ (callTable ++ leBytes 4 table.toNat)).drop (front.length + 3) =
        leBytes 4 table.toNat := by
      rw [← List.drop_drop, List.drop_left]
      rfl
    have whole : (leBytes 4 table.toNat).take 4 = leBytes 4 table.toNat :=
      List.take_of_length_le (by simp)
    simp only [operandOf, found, behind, whole, leNat_leBytes, small]
    exact UInt32.ofNat_toNat
  have reaches : Reaches (front ++ (callTable ++ leBytes 4 table.toNat)) 100 := by
    rw [Reaches, found]
    simp [callTable]
  rw [getSysCallTable_mapped gated (Gate.sysCallOff_of handler low high) maps reaches, operand]

/-- The gate of a handler at `0xc0103d30`. -/
def int80 : Gate := ⟨0x3d30, 0x60, 0, 0xef, 0xc010⟩

/-- `push %eax`, `cld`, and the call through a table at `0xc0589150`. -/
def int80Code : Bytes := [0x50, 0xfc, 0xff, 0x14, 0x85, 0x50, 0x91, 0x58, 0xc0]

/-- The same through a table at 0. -/
def int80Blank : Bytes := [0x50, 0xfc, 0xff, 0x14, 0x85, 0, 0, 0, 0]

/-- A memory with a descriptor table at `0xc0700000` and the code of the handler. -/
def handlerMemory (code : Bytes) : Memory := fun address =>
  (int80.bytes[(address - 0xc0700400).toNat]?).or (code[(address - 0xc0103d30).toNat]?)

def int80Memory : Memory := handlerMemory int80Code

theorem int80_gated : Maps int80Memory (0xc0700000 + 8 * 0x80) int80.bytes := by decide

theorem int80_mapped : Maps int80Memory 0xc0103d30
    ([0x50, 0xfc] ++ (callTable ++ leBytes 4 (0xc0589150 : UInt32).toNat)) := by decide

/-- The search finds the operand of the call. -/
theorem int80_found : getSysCallTable int80Memory 0xc0700000 = .ok 0xc0589150 :=
  sysCallTable_found int80_gated (by decide) (by decide) int80_mapped (by decide) (by decide)

/-- The outcomes of a load whose search for the table runs in a memory. The table that stands
at the address found is the one of the load's state. -/
def searched (o : LoadOutcomes) (memory : Memory) (base : UInt32) : LoadOutcomes :=
  { o with getSysCallTable := match getSysCallTable memory base with
      | .ok table => table ≠ 0
      | .error _ => false }

/-- `lkm_init` patches the table exactly when the handler of `int 0x80` has the call within
a hundred bytes, with an operand other than 0. Otherwise it fails with -1 and changes
nothing but `syscall_table`. -/
theorem lkmInit_searched {σ : Type} {b : Build} {o : LoadOutcomes} {s : LoadState σ}
    {handler : UInt32} (gated : Maps memory (base + 8 * 0x80) gate.bytes)
    (leads : gate.sysCallOff = handler) (maps : Maps memory handler code)
    (reaches : Reaches code 100) :
    (operandOf code 100 ≠ 0 → ∃ ret after,
      Returns (lkmInit b (searched o memory base)) s ret after ∧
      after.table = overlay b b.modified Hooked.all s.table ∧
      (∀ call, after.origin call = s.table (b.nr call)) ∧ (ret = 0 ↔ o.complete = true)) ∧
    (operandOf code 100 = 0 → Returns (lkmInit b (searched o memory base)) s (-1)
      { s with syscallTable := false }) := by
  have outcome : (searched o memory base).getSysCallTable = decide (operandOf code 100 ≠ 0) := by
    simp only [searched, getSysCallTable_mapped gated leads maps reaches]
  refine ⟨fun found => ?_, fun missing => ?_⟩
  · rw [decide_eq_true found] at outcome
    obtain ⟨ret, after, ran, opens, _⟩ := lkmInit_returns (b := b) (s := s) outcome
    obtain ⟨table, _, origin⟩ := opens.patch
    exact ⟨ret, after, ran, table, fun call => congrFun origin call, opens.answer⟩
  · rw [missing, decide_eq_false (by simp)] at outcome
    have failed := lkmInit_notFound (b := b) (s := s) outcome
    rwa [withTable, outcome] at failed

/-- The module is loaded over the table that was found, and not over one at 0. -/
theorem int80_patched :
    (∃ ret after,
      Returns (lkmInit i386 (searched noSocket int80Memory 0xc0700000)) unloaded ret after ∧
        after.table = overlay i386 i386.modified Hooked.all unloaded.table) ∧
    Returns (lkmInit i386 (searched noSocket (handlerMemory int80Blank) 0xc0700000)) unloaded (-1)
      { unloaded with syscallTable := false } := by
  have leads : int80.sysCallOff = 0xc0103d30 := by decide
  constructor
  · have found : firstOffset callTable int80Code 100 = some 2 := by decide
    have reaches : Reaches int80Code 100 := by
      rw [Reaches, found]
      decide
    obtain ⟨patches, _⟩ := @lkmInit_searched _ _ _ _ _ i386 noSocket unloaded _ int80_gated leads
      int80_mapped reaches
    obtain ⟨ret, after, ran, table, _⟩ := patches (by decide)
    exact ⟨ret, after, ran, table⟩
  · have found : firstOffset callTable int80Blank 100 = some 2 := by decide
    have reaches : Reaches int80Blank 100 := by
      rw [Reaches, found]
      decide
    have gated : Maps (handlerMemory int80Blank) (0xc0700000 + 8 * 0x80) int80.bytes := by decide
    have mapped : Maps (handlerMemory int80Blank) 0xc0103d30 int80Blank := by decide
    exact (@lkmInit_searched _ _ _ _ _ i386 noSocket unloaded _ gated leads mapped reaches).2
      (by decide)

end Spec

end Load

end FsProtection
