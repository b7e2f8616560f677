import FsProtection.Communicate.Scratch

/-!
# The blocks of one `create_list`

Every live block is a scratch copy, a node or a buffer. A `create_list` adds its scratch copy
and a node for each rule; what it gives to `vfree` is not the start of the copy.
-/

namespace FsProtection

open Base

namespace VmState

variable {σ : Type}

/-- The live blocks are scratch copies, nodes and buffers, each once. -/
structure Accounted (s : VmState σ) (scratch : List Nat) : Prop where
  blocks : s.live.Perm (scratch ++ (s.nodes ++ bufferBlocks))
  fresh : ∀ block ∈ s.live, block < s.allocated
  distinct : s.live.Nodup

section Blocks

variable {k : Kernel σ} {s after : VmState σ} {scratch : List Nat}

/-- Before any write nothing is allocated. -/
theorem Accounted.initial (raw : SizedBytes bufferSize) (outside : σ) :
    (initial raw outside).Accounted [] where
  blocks := .refl _
  fresh := (by decide : ∀ block ∈ bufferBlocks, block < bufferBlocks.length)
  distinct := (by decide : bufferBlocks.Nodup)

/-- A new block is live, and was not before. -/
theorem Accounted.grow (accounted : s.Accounted scratch) :
    (∀ block ∈ s.allocated :: s.live, block < s.allocated + 1) ∧
      (s.allocated :: s.live).Nodup := by
  constructor
  · intro block member
    rcases List.mem_cons.mp member with rfl | earlier
    · exact Nat.lt_succ_self _
    · exact (accounted.fresh block earlier).trans (Nat.lt_succ_self _)
  · refine List.nodup_cons.mpr ⟨fun member => ?_, accounted.distinct⟩
    exact Nat.lt_irrefl _ (accounted.fresh _ member)

/-- A scratch copy is live and accounted for as such, -/
theorem Accounted.vmalloc (accounted : s.Accounted scratch) :
    Accounted { s with live := s.allocated :: s.live, allocated := s.allocated + 1 }
      (s.allocated :: scratch) where
  blocks := accounted.blocks.cons _
  fresh := accounted.grow.1
  distinct := accounted.grow.2

/-- and a node as one of the list. -/
theorem Accounted.takeNode (accounted : s.Accounted scratch) :
    Accounted { s with
      live := s.allocated :: s.live
      allocated := s.allocated + 1
      nodes := s.nodes ++ [s.allocated] } scratch where
  blocks := by
    have front := accounted.blocks.cons s.allocated
    rw [← List.append_assoc] at front
    simpa using front.trans List.perm_middle.symm
  fresh := accounted.grow.1
  distinct := accounted.grow.2

/-- What a part of the parse of a text does to the ledger: each new node has a block, and
nothing is freed. -/
structure Grows (state : ListState) (s : VmState σ) (next : ListState) (after : VmState σ) :
    Prop where
  globals : after.proc.globals = s.proc.globals
  uses : after.uses = s.uses
  nodes : after.nodes.length + state.top.length = s.nodes.length + next.top.length
  accounted : ∀ scratch, s.Accounted scratch → after.Accounted scratch

theorem Grows.refl (state : ListState) (s : VmState σ) : Grows state s state s :=
  ⟨rfl, rfl, rfl, fun _ accounted => accounted⟩

/-- Lines one after the other add up what they allocate. -/
theorem Grows.trans {first second third : ListState} {middle : VmState σ}
    (grows : Grows first s second middle) (goesOn : Grows second middle third after) :
    Grows first s third after where
  globals := goesOn.globals.trans grows.globals
  uses := goesOn.uses.trans grows.uses
  nodes := by
    have one := grows.nodes
    have two := goesOn.nodes
    omega
  accounted scratch accounted := goesOn.accounted scratch (grows.accounted scratch accounted)

/-- A line allocates a node at most, which the list then has, -/
theorem createLine_grows {line : Bytes} {state next : ListState} {pStr1 : Option Bytes}
    (ran : Returns (createLine k line state) s (next, pStr1) after) :
    Grows state s next after := by
  obtain ⟨⟨turned, rest⟩, middle, parsed, taken⟩ := returns_bind_iff.mp ran
  obtain ⟨outside, line, rfl⟩ := returns_onPart_iff.mp parsed
  have moved : Grows state s state { s with proc := { s.proc with outside := outside } } :=
    ⟨rfl, rfl, rfl, fun _ accounted => ⟨accounted.blocks, accounted.fresh, accounted.distinct⟩⟩
  refine moved.trans ?_
  rcases createListLine_cases line with ⟨rfl, _⟩ | ⟨file, type, _, rfl, _⟩
  · rw [if_neg (Nat.lt_irrefl _)] at taken
    obtain ⟨same, rfl⟩ := returns_pure_iff.mp taken
    obtain ⟨rfl, rfl⟩ := Prod.mk.inj same
    exact .refl _ _
  · rw [if_pos (by simp [ListState.append]), returns_bind_of_returns (returns_takeNode _)] at taken
    obtain ⟨same, rfl⟩ := returns_pure_iff.mp taken
    obtain ⟨rfl, rfl⟩ := Prod.mk.inj same
    refine ⟨rfl, rfl, ?_, fun _ accounted => accounted.takeNode⟩
    simp only [ListState.append, List.length_append, List.length_cons, List.length_nil]
    omega

/-- and so all the lines allocate the nodes the list has more. -/
theorem createLoop_grows {text : Bytes} {state final : ListState} {rest : Option Bytes}
    (ran : Returns (createLoop k (some text) state) s (final, rest) after) :
    Grows state s final after := by
  induction size : text.length using Nat.strong_induction_on generalizing text state s with
  | _ size ih =>
      subst size
      have shorter := strsep_pending_lt text newline
      rw [createLoop] at ran
      obtain ⟨⟨next, pStr1⟩, middle, line, continued⟩ := returns_bind_iff.mp ran
      refine (createLine_grows line).trans ?_
      cases pStr1 with
      | none =>
          obtain ⟨same, rfl⟩ := returns_pure_iff.mp continued
          obtain ⟨rfl, rfl⟩ := Prod.mk.inj same
          exact .refl _ _
      | some str =>
          cases cut : (strsep (some text) newline).2 with
          | none =>
              simp only [cut, Option.isSome_some, if_true, createLoop] at continued
              obtain ⟨same, rfl⟩ := returns_pure_iff.mp continued
              obtain ⟨rfl, rfl⟩ := Prod.mk.inj same
              exact .refl _ _
          | some remaining =>
              simp only [cut, Option.isSome_some, if_true] at continued shorter
              exact ih remaining.length (by simpa [pending] using shorter) continued rfl

/-- The loop of `create_list` leaves `tmp_data` behind the start of its text, or NULL. -/
theorem createListLoop_moves {text : Bytes} {state final : ListState} {rest : Option Bytes}
    {before outside : σ}
    (ran : Returns (createListLoop k (some text) state) before (final, rest) outside) :
    ∀ left ∈ rest, left.length < text.length := by
  refine @createListLoop_induct _ k
    (fun text _ _ _ rest _ => ∀ left ∈ rest, left.length < text.length) ?_ ?_ _ _ _ _ _ _ ran
  · intro text _ _ _ _ _ _ _ left isLeft
    have shorter := strsep_pending_lt text newline
    rw [Option.mem_def.mp isLeft] at shorter
    simpa [pending] using shorter
  · intro text _ _ _ _ _ remaining _ _ _ _ cut ih left isLeft
    have shorter := strsep_pending_lt text newline
    rw [cut] at shorter
    exact (ih left isLeft).trans (by simpa [pending] using shorter)

/-- A pointer that is not the start of a block frees nothing. -/
theorem vfreed_inside {live : List Nat} {pointer : Option VmPointer}
    (inside : ∀ place ∈ pointer, place.offset ≠ 0) : vfreed live pointer = live := by
  cases pointer with
  | none => rfl
  | some place =>
      obtain ⟨block, offset⟩ := place
      obtain ⟨before, rfl⟩ := Nat.exists_eq_succ_of_ne_zero (inside _ rfl)
      rfl

/-- What a `create_list` that returns did: the loop on a new block, and at its end a
`vfree` of a pointer that is not the start of the block. -/
theorem createList_cases {top : List FileNode} {rdt : Bytes} {sz : Nat}
    {result : Nat × List FileNode} (ran : Returns (createList k top rdt sz) s result after) :
    ∃ state middle pointer,
      Grows ⟨top, 0⟩ { s with live := s.allocated :: s.live, allocated := s.allocated + 1 }
        state middle ∧
      (∀ place ∈ pointer, place.offset ≠ 0) ∧
      result = (state.cnt, state.top) ∧
      after = { middle with
        uses := middle.uses ++ [⟨sz, (cstr rdt).length + 1, s.allocated, pointer⟩] } := by
  rw [createList, returns_bind_of_returns (returns_vmalloc s)] at ran
  split at ran
  · obtain ⟨⟨state, rest⟩, middle, looped, ends⟩ := returns_bind_iff.mp ran
    have moves := createListLoop_moves ((createLoop_tracks _ _).returned looped)
    have inside : ∀ place ∈ tmpPointer s.allocated (cstr rdt) rest, place.offset ≠ 0 := by
      intro place isPlace
      obtain ⟨left, isLeft, rfl⟩ := Option.map_eq_some_iff.mp (Option.mem_def.mp isPlace)
      exact Nat.sub_ne_zero_of_lt (moves left isLeft)
    simp only [vfree, returns_bind_iff, returns_modify_iff, returns_pure_iff] at ends
    obtain ⟨_, _, rfl, _, _, rfl, rfl, rfl⟩ := ends
    refine ⟨state, middle, _, createLoop_grows looped, inside, rfl, ?_⟩
    rw [vfreed_inside inside]
  · simp at ran

/-- What a `create_list` that returns does to the ledger: it keeps its scratch copy, of which
it gave no start to `vfree`. -/
theorem createList_grows {top : List FileNode} {rdt : Bytes} {sz : Nat}
    {result : Nat × List FileNode} (ran : Returns (createList k top rdt sz) s result after)
    (accounted : s.Accounted scratch) :
    ∃ use, after.uses = s.uses ++ [use] ∧
      (use.sz = sz ∧ use.freed ≠ some ⟨use.tmpData, 0⟩) ∧
      after.Accounted (use.tmpData :: scratch) ∧
      after.nodes.length + top.length = s.nodes.length + result.2.length ∧
      after.proc.globals = s.proc.globals := by
  obtain ⟨state, middle, pointer, grows, inside, rfl, rfl⟩ := createList_cases ran
  have whole := grows.accounted _ accounted.vmalloc
  refine ⟨⟨sz, (cstr rdt).length + 1, s.allocated, pointer⟩, by rw [grows.uses],
    ⟨rfl, fun start => inside _ start rfl⟩, ?_, grows.nodes, grows.globals⟩
  exact ⟨whole.blocks, whole.fresh, whole.distinct⟩

/-- Freeing the nodes leaves the scratch copies and the buffers. -/
theorem freed_perm {nodes live rest : List Nat} (blocks : live.Perm (scratch ++ (nodes ++ rest))) :
    (nodes.foldl List.erase live).Perm (scratch ++ rest) := by
  induction nodes generalizing live with
  | nil => exact blocks
  | cons p1 others ih =>
      refine ih ?_
      have front : live.Perm (p1 :: (scratch ++ (others ++ rest))) :=
        blocks.trans List.perm_middle
      simpa using front.erase p1

/-- Freeing the nodes of a list takes each from the live blocks once. -/
theorem returns_freeNodes (nodes : List Nat) (s : VmState σ) :
    Returns (freeNodes nodes) s () { s with live := nodes.foldl List.erase s.live } := by
  induction nodes generalizing s with
  | nil => exact returns_pure_iff.mpr ⟨rfl, rfl⟩
  | cons p1 rest ih => exact returns_modify.bind (ih { s with live := s.live.erase p1 })

theorem erased_sublist (nodes live : List Nat) : (nodes.foldl List.erase live).Sublist live := by
  induction nodes generalizing live with
  | nil => exact .refl _
  | cons p1 rest ih => exact (ih _).trans List.erase_sublist

end Blocks

end VmState

end FsProtection
