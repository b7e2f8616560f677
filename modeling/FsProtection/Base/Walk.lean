import FsProtection.Base.NodeList

/-!
# A walk over a list that others change

A reader looks for the first node that passes a test and reads it again to report it, with
one read of the shared list in a step. `Fits` is what a walk knows of a list whose nodes
lead to each other as long as they are live: it is at a node of that list, and its answer is
that of a list as it was since the walk began. Nodes may be added behind the others, and a
node that was freed stops the walk that reads it.
-/

namespace FsProtection.Base

variable {Value View Fault : Type}

/-- Where a walk is: `p` is about to be tested, `p` did not pass and `p->next` is read, `p`
passed and is reported, or the loop was left. -/
inductive Walk (Value : Type) where
  | testing (p : Pointer)
  | following (address : Nat)
  | reporting (address : Nat)
  | answered (found : Option Value)

/-- The nodes of a list that are still live look as they did, and point to the next one. -/
def Leads (view : Value → View) (cell : Nat → Option (Node Value)) (nodes : List (Nat × Value)) :
    Prop :=
  ∀ front address value back, nodes = front ++ (address, value) :: back →
    ∀ node, cell address = some node →
      view node.value = view value ∧ node.next = back.head?.map Prod.fst

theorem Segment.leads {cell : Nat → Option (Node Value)} {root : Pointer}
    {nodes : List (Nat × Value)} (chain : Segment cell root nodes none) (view : Value → View) :
    Leads view cell nodes := by
  rintro front address value back rfl node live
  obtain ⟨_, _, _, next, leads, behind⟩ := Segment.append_iff.mp chain
  obtain rfl := Option.some.inj (live.symm.trans leads)
  exact ⟨rfl, behind.start_eq⟩

namespace Walk

/-- The block the next step reads. -/
def reads : Walk Value → Pointer
  | .testing p => p
  | .following address => some address
  | .reporting address => some address
  | .answered _ => none

/-- A step of a walk. Reading a block that is not live, or a value that cannot be read,
faults. -/
def step (bad : Fault) (readable passes : Value → Bool) (cell : Nat → Option (Node Value)) :
    Walk Value → Except Fault (Walk Value)
  | .testing none => return .answered none
  | .testing (some address) =>
      match cell address with
      | none => throw bad
      | some node =>
          if readable node.value then
            if passes node.value then return .reporting address else return .following address
          else
            throw bad
  | .following address =>
      match cell address with
      | none => throw bad
      | some node => return .testing node.next
  | .reporting address =>
      match cell address with
      | none => throw bad
      | some node => return .answered (some node.value)
  | .answered found => return .answered found

/-- What a walk that has taken that many steps knows of the nodes of the list, and of the
lists seen since it began. -/
def Fits (view : Value → View) (passes : Value → Bool) (seen : List Value → Prop)
    (nodes : List (Nat × Value)) (taken : Nat) : Walk Value → Prop
  | .testing none => taken ≤ 2 * nodes.length ∧ ∃ old, seen old ∧ old.find? passes = none
  | .testing (some address) => ∃ front value back, nodes = front ++ (address, value) :: back ∧
      taken = 2 * front.length ∧ (front.map Prod.snd).find? passes = none
  | .following address => ∃ front value back, nodes = front ++ (address, value) :: back ∧
      taken = 2 * front.length + 1 ∧
      ((front ++ [(address, value)]).map Prod.snd).find? passes = none
  | .reporting address => ∃ front value back, nodes = front ++ (address, value) :: back ∧
      taken = 2 * front.length + 1 ∧ (front.map Prod.snd).find? passes = none ∧
      passes value = true
  | .answered found => ∃ old, seen old ∧ (old.find? passes).map view = found.map view

variable {bad : Fault} {readable passes now : Value → Bool} {view : Value → View}
  {seen later : List Value → Prop} {nodes more back : List (Nat × Value)}
  {cell : Nat → Option (Node Value)} {root start : Pointer} {taken address : Nat}
  {walk next : Walk Value}

theorem fits_testing (front : List (Nat × Value)) (whole : nodes = front ++ back)
    (known : seen (nodes.map Prod.snd)) (count : taken = 2 * front.length)
    (missed : (front.map Prod.snd).find? passes = none) :
    Fits view passes seen nodes taken (.testing (back.head?.map Prod.fst)) := by
  cases back with
  | nil =>
      obtain rfl : nodes = front := by rw [whole, List.append_nil]
      exact ⟨Nat.le_of_eq count, _, known, missed⟩
  | cons node rest => exact ⟨front, node.2, rest, whole, count, missed⟩

/-- A walk begins at the root. -/
theorem fits_begin (chain : Segment cell root nodes none) (known : seen (nodes.map Prod.snd)) :
    Fits view passes seen nodes 0 (.testing root) := by
  rw [chain.start_eq]
  exact fits_testing [] rfl known rfl rfl

/-- Nodes added behind the others leave a walk where it is. -/
theorem Fits.grow (fits : Fits view passes seen nodes taken walk)
    (kept : ∀ old, seen old → later old) : Fits view passes later (nodes ++ more) taken walk := by
  cases walk with
  | testing p =>
      cases p with
      | none =>
          obtain ⟨bounded, old, known, missed⟩ := fits
          exact ⟨by rw [List.length_append]; omega, old, kept old known, missed⟩
      | some address =>
          obtain ⟨front, value, back, rfl, count, missed⟩ := fits
          exact ⟨front, value, back ++ more, by simp, count, missed⟩
  | following address =>
      obtain ⟨front, value, back, rfl, count, missed⟩ := fits
      exact ⟨front, value, back ++ more, by simp, count, missed⟩
  | reporting address =>
      obtain ⟨front, value, back, rfl, count, missed, hit⟩ := fits
      exact ⟨front, value, back ++ more, by simp, count, missed, hit⟩
  | answered found =>
      obtain ⟨old, known, found⟩ := fits
      exact ⟨old, kept old known, found⟩

/-- What a walk reads is a node of the list. -/
theorem Fits.at_node (fits : Fits view passes seen nodes taken walk)
    (reading : walk.reads = some address) :
    ∃ front value back, nodes = front ++ (address, value) :: back := by
  cases walk with
  | testing p =>
      obtain rfl : p = some address := reading
      obtain ⟨front, value, back, whole, _⟩ := fits
      exact ⟨front, value, back, whole⟩
  | following p =>
      obtain rfl := Option.some.inj reading
      obtain ⟨front, value, back, whole, _⟩ := fits
      exact ⟨front, value, back, whole⟩
  | reporting p =>
      obtain rfl := Option.some.inj reading
      obtain ⟨front, value, back, whole, _⟩ := fits
      exact ⟨front, value, back, whole⟩
  | answered found => cases reading

/-- A step that does not fault keeps what the walk knows. The test that is made now need only
be the same on what looks like a node of the list. -/
theorem Fits.step (fits : Fits view passes seen nodes taken walk) (leads : Leads view cell nodes)
    (known : seen (nodes.map Prod.snd))
    (looks : ∀ node ∈ nodes, ∀ value, view value = view node.2 → now value = passes node.2)
    (stepped : walk.step bad readable now cell = .ok next) :
    Fits view passes seen nodes (taken + 1) next := by
  cases walk with
  | testing p =>
      cases p with
      | none =>
          obtain ⟨_, old, known, missed⟩ := fits
          cases stepped
          exact ⟨old, known, by rw [missed]⟩
      | some address =>
          obtain ⟨front, value, back, rfl, rfl, missed⟩ := fits
          simp only [Walk.step] at stepped
          split at stepped
          · cases stepped
          · next node live =>
              have same := looks (address, value) (by simp) _
                (leads front address value back rfl node live).1
              by_cases reads : readable node.value = true
              · rw [if_pos reads, same] at stepped
                by_cases hit : passes value = true
                · rw [if_pos hit] at stepped
                  cases stepped
                  exact ⟨front, value, back, rfl, rfl, missed, hit⟩
                · rw [if_neg hit] at stepped
                  cases stepped
                  refine ⟨front, value, back, rfl, rfl, ?_⟩
                  rw [List.map_append, List.find?_append, missed]
                  simpa using hit
              · rw [if_neg reads] at stepped
                cases stepped
  | following address =>
      obtain ⟨front, value, back, rfl, rfl, missed⟩ := fits
      simp only [Walk.step] at stepped
      split at stepped
      · cases stepped
      · next node live =>
          cases stepped
          rw [(leads front address value back rfl node live).2]
          exact fits_testing (front ++ [(address, value)]) (by simp) known
            (by rw [List.length_append, List.length_singleton]; omega) missed
  | reporting address =>
      obtain ⟨front, value, back, rfl, rfl, missed, hit⟩ := fits
      simp only [Walk.step] at stepped
      split at stepped
      · cases stepped
      · next node live =>
          cases stepped
          refine ⟨_, known, ?_⟩
          rw [List.map_append, List.find?_append, missed, List.map_cons, List.find?_cons_of_pos hit]
          exact congrArg some (leads front address value back rfl node live).1.symm
  | answered found =>
      obtain ⟨old, known, found⟩ := fits
      cases stepped
      exact ⟨old, known, found⟩

/-- A value that passes is reported by the next step. -/
theorem step_hit {node : Node Value} (live : cell address = some node)
    (reads : readable node.value = true) (hit : passes node.value = true) :
    (Walk.testing (some address)).step bad readable passes cell = .ok (.reporting address) := by
  simp only [step, live, if_pos reads, if_pos hit]
  rfl

theorem step_report {node : Node Value} (live : cell address = some node) :
    (Walk.reporting address).step bad readable passes cell = .ok (.answered (some node.value)) := by
  simp only [step, live]
  rfl

/-- A step faults on a block that is not live, and on a value that cannot be read. -/
theorem step_faults {fault : Fault} (faulted : walk.step bad readable passes cell = .error fault) :
    ∃ address, walk.reads = some address ∧
      ∀ node, cell address = some node → readable node.value = false := by
  cases walk with
  | testing p =>
      cases p with
      | none => cases faulted
      | some address =>
          refine ⟨address, rfl, fun node live => ?_⟩
          simp only [step, live] at faulted
          by_contra reads
          rw [Bool.not_eq_false] at reads
          rw [if_pos reads] at faulted
          split at faulted <;> cases faulted
  | following address =>
      refine ⟨address, rfl, fun node live => ?_⟩
      simp only [step, live] at faulted
      cases faulted
  | reporting address =>
      refine ⟨address, rfl, fun node live => ?_⟩
      simp only [step, live] at faulted
      cases faulted
  | answered found => cases faulted

/-- On a list in force a step faults at most on a value of the list that cannot be read. -/
theorem Fits.faults {fault : Fault} (fits : Fits view passes seen nodes taken walk)
    (chain : Segment cell root nodes none)
    (faulted : walk.step bad readable now cell = .error fault) :
    ∃ node ∈ nodes, readable node.2 = false := by
  obtain ⟨address, reading, unreadable⟩ := step_faults faulted
  obtain ⟨front, value, back, rfl⟩ := fits.at_node reading
  obtain ⟨_, _, _, _, live, _⟩ := Segment.append_iff.mp chain
  exact ⟨(address, value), by simp, unreadable _ live⟩

/-- A walk takes two steps for each node, and one at the end. -/
theorem Fits.ends (fits : Fits view passes seen nodes taken walk)
    (enough : 2 * nodes.length < taken) : ∃ found, walk = .answered found := by
  cases walk with
  | testing p =>
      cases p with
      | none => exact absurd fits.1 (by omega)
      | some address =>
          obtain ⟨front, value, back, rfl, rfl, _⟩ := fits
          rw [List.length_append, List.length_cons] at enough
          omega
  | following address =>
      obtain ⟨front, value, back, rfl, rfl, _⟩ := fits
      rw [List.length_append, List.length_cons] at enough
      omega
  | reporting address =>
      obtain ⟨front, value, back, rfl, rfl, _⟩ := fits
      rw [List.length_append, List.length_cons] at enough
      omega
  | answered found => exact ⟨found, rfl⟩

end Walk

end FsProtection.Base
