import Mathlib.Data.List.Induction
import FsProtection.Base.CString

/-!
# Pathnames and what they resolve to

A pathname is walked component by component from a starting directory, or from the root
when it is absolute: empty components and `.` stay, `..` goes up, every other component
enters. There are no symbolic links, so a directory is its list of names.
-/

namespace FsProtection.Base

def slash : Byte := 47

def dot : Bytes := [46]

def dotDot : Bytes := [46, 46]

/-- A component that names an entry. -/
def ProperName (component : Bytes) : Prop :=
  component ≠ [] ∧ component ≠ dot ∧ component ≠ dotDot ∧ slash ∉ component

instance : DecidablePred ProperName := fun component => by
  unfold ProperName
  infer_instance

/-- A name of an entry of a directory. -/
abbrev Name := { component : Bytes // ProperName component }

/-- A directory, by the names that lead to it from the root. -/
abbrev Directory := List Name

def components (pathname : Bytes) : List Bytes := pathname.splitOn slash

/-- A pathname that consists of names. -/
def OnlyNames (pathname : Bytes) : Prop :=
  ∀ component ∈ components pathname, ProperName component

instance : DecidablePred OnlyNames := fun pathname => by
  unfold OnlyNames
  infer_instance

/-- Where one component leads. -/
def Directory.enter (directory : Directory) (component : Bytes) : Directory :=
  if component = dotDot then directory.dropLast
  else if proper : ProperName component then directory ++ [⟨component, proper⟩]
  else directory

def Directory.walk (directory : Directory) (steps : List Bytes) : Directory :=
  steps.foldl Directory.enter directory

def IsAbsolute (pathname : Bytes) : Prop := pathname.head? = some slash

instance : DecidablePred IsAbsolute := fun pathname => by
  unfold IsAbsolute
  infer_instance

/-- The directory a walk of a pathname begins in. -/
def Directory.origin (directory : Directory) (pathname : Bytes) : Directory :=
  if IsAbsolute pathname then [] else directory

/-- What a pathname resolves to from a directory. -/
def Directory.resolve (directory : Directory) (pathname : Bytes) : Directory :=
  (directory.origin pathname).walk (components pathname)

/-- The object a pathname names, from a starting directory that may not be there. The
empty pathname names nothing. -/
def lookup (start : Option Directory) (pathname : Bytes) : Option Directory :=
  if pathname = [] then none
  else if IsAbsolute pathname then some (Directory.resolve [] pathname)
  else start.map fun directory => directory.resolve pathname

/-- The components of a pathname that are not empty. -/
def entries (pathname : Bytes) : List Bytes := (components pathname).filter (· ≠ [])

/-- The directory that would receive an entry created under a pathname, whose last
component has to be a name. -/
def Directory.receiving (directory : Directory) (pathname : Bytes) : Option Directory :=
  match (entries pathname).getLast? with
  | none => none
  | some last =>
      if ProperName last then some ((directory.origin pathname).walk (entries pathname).dropLast)
      else none

/-- A pathname without one slash at its end. -/
def trimmed (pathname : Bytes) : Bytes :=
  if pathname.getLast? = some slash then pathname.dropLast else pathname

/-- The names of a directory as components. -/
def Directory.texts (directory : Directory) : List Bytes := directory.map Subtype.val

/-- The absolute pathname of a directory. -/
def Directory.render (directory : Directory) : Bytes :=
  match directory with
  | [] => [slash]
  | _ => directory.flatMap fun name => slash :: name.1

section Components

theorem components_append (front back : Bytes) :
    components (front ++ slash :: back) = components front ++ components back :=
  List.splitOn_append_cons_self front back

theorem components_of_absent {pathname : Bytes} (absent : slash ∉ pathname) :
    components pathname = [pathname] :=
  List.splitOn_eq_singleton absent

theorem onlyNames_append {front back : Bytes} (last : slash ∉ back) :
    OnlyNames (front ++ slash :: back) ↔ OnlyNames front ∧ ProperName back := by
  rw [OnlyNames, components_append, components_of_absent last, List.forall_mem_append,
    List.forall_mem_singleton, OnlyNames]

theorem components_ne_nil (pathname : Bytes) : components pathname ≠ [] :=
  List.splitOn_ne_nil _ _

theorem components_injective {first second : Bytes} (same : components first = components second) :
    first = second := by
  have joined := congrArg ([slash].intercalate ·) same
  simpa only [components, List.intercalate_splitOn] using joined

variable {directory : Directory}

theorem proper_of_mem_texts {component : Bytes} (member : component ∈ directory.texts) :
    ProperName component := by
  obtain ⟨name, _, rfl⟩ := List.mem_map.mp member
  exact name.2

theorem texts_injective {other : Directory} (same : directory.texts = other.texts) :
    directory = other :=
  List.map_injective_iff.mpr Subtype.val_injective same

theorem components_names (names : Directory) :
    components (names.flatMap fun name => slash :: name.1) = [] :: names.texts := by
  induction names using List.reverseRecOn with
  | nil => rfl
  | append_singleton names name ih =>
      have alone : components name.1 = [name.1] := components_of_absent name.2.2.2.2
      rw [List.flatMap_append, List.flatMap_singleton, components_append, ih, alone]
      simp [Directory.texts]

theorem components_root : components (Directory.render []) = [[], []] := rfl

theorem components_render (nonroot : directory ≠ []) :
    components directory.render = [] :: directory.texts := by
  obtain ⟨name, rest, rfl⟩ := List.exists_cons_of_ne_nil nonroot
  exact components_names (name :: rest)

theorem render_absolute (directory : Directory) : IsAbsolute directory.render := by
  cases directory with
  | nil => rfl
  | cons name rest => rfl

theorem ne_nil_of_absolute {pathname : Bytes} (absolute : IsAbsolute pathname) : pathname ≠ [] := by
  rintro rfl
  exact absurd absolute (by decide)

theorem components_of_absolute {pathname : Bytes} (absolute : IsAbsolute pathname) :
    ∃ rest, components pathname = [] :: rest := by
  obtain ⟨rest, rfl⟩ := List.head?_eq_some_iff.mp absolute
  exact ⟨components rest, components_append [] rest⟩

/-- A pathname all of whose components are names is relative. -/
theorem not_absolute_of_proper {pathname : Bytes}
    (proper : OnlyNames pathname) : ¬ IsAbsolute pathname := by
  intro absolute
  obtain ⟨rest, begins⟩ := components_of_absolute absolute
  exact (proper [] (by simp [begins])).1 rfl

end Components

section Walk

variable {directory : Directory}

@[simp] theorem enter_empty : directory.enter [] = directory := by
  have improper : ¬ ProperName [] := by decide
  simp [Directory.enter, improper, dotDot]

/-- Names are entered one after the other. -/
theorem texts_walk {steps : List Bytes} (proper : ∀ step ∈ steps, ProperName step) :
    (directory.walk steps).texts = directory.texts ++ steps := by
  induction steps generalizing directory with
  | nil => simp [Directory.walk]
  | cons step rest ih =>
      obtain ⟨here, behind⟩ := List.forall_mem_cons.mp proper
      have entered : (directory.enter step).texts = directory.texts ++ [step] := by
        simp [Directory.enter, here.2.2.1, here, Directory.texts]
      rw [Directory.walk, List.foldl_cons, ← Directory.walk, ih behind, entered]
      simp

/-- Empty components lead nowhere. -/
theorem walk_filter (steps : List Bytes) :
    directory.walk (steps.filter (· ≠ [])) = directory.walk steps := by
  induction steps generalizing directory with
  | nil => rfl
  | cons step rest ih =>
      by_cases empty : step = []
      · subst empty
        simpa [Directory.walk] using ih
      · simpa [Directory.walk, empty] using ih

/-- The absolute pathname of a directory resolves to it. -/
theorem resolve_render (other : Directory) : directory.resolve other.render = other := by
  rw [Directory.resolve, Directory.origin, if_pos (render_absolute other)]
  by_cases root : other = []
  · subst root
    simp [components_root, Directory.walk]
  · rw [components_render root]
    refine texts_injective ?_
    rw [Directory.walk, List.foldl_cons, enter_empty, ← Directory.walk,
      texts_walk fun _ => proper_of_mem_texts]
    rfl

/-- A pathname behind the absolute one of a directory is the absolute one of another
exactly when its components lead from a directory that is not the root to the other. -/
theorem render_append_eq_render_iff {other : Directory} {pathname : Bytes} :
    directory.render ++ slash :: pathname = other.render ↔
      directory ≠ [] ∧ other.texts = directory.texts ++ components pathname := by
  constructor
  · intro same
    have split := congrArg components same
    rw [components_append] at split
    by_cases ended : other = []
    · rw [ended, components_root] at split
      refine absurd ?_ (components_ne_nil pathname)
      by_cases root : directory = []
      · subst root
        exact List.append_cancel_left (split : [[], []] ++ _ = [[], []] ++ [])
      · rw [components_render root] at split
        have length := congrArg List.length split
        have deeper := List.length_pos_iff.mpr root
        have entered := List.length_pos_iff.mpr (components_ne_nil pathname)
        simp only [List.length_append, List.length_cons, List.length_nil, Directory.texts,
          List.length_map] at length
        omega
    · rw [components_render ended] at split
      by_cases root : directory = []
      · subst root
        have texts : other.texts = [] :: components pathname :=
          (List.cons.inj (split : [] :: _ = [] :: _)).2.symm
        exact absurd rfl (proper_of_mem_texts (texts ▸ List.mem_cons_self)).1
      · rw [components_render root, List.cons_append] at split
        exact ⟨root, (List.cons.inj split).2.symm⟩
  · rintro ⟨nonroot, texts⟩
    have deeper : other ≠ [] := by
      rintro rfl
      exact components_ne_nil pathname (List.append_eq_nil_iff.mp texts.symm).2
    refine components_injective ?_
    rw [components_append, components_render nonroot, components_render deeper, texts,
      List.cons_append]

/-- When the other is what a walk of the pathname leads to, the walk has to begin in the
directory and to enter names only. -/
theorem render_append_eq_walk_iff {start : Directory} {pathname : Bytes} :
    directory.render ++ slash :: pathname = (start.walk (components pathname)).render ↔
      directory ≠ [] ∧ OnlyNames pathname ∧
        start = directory := by
  rw [render_append_eq_render_iff]
  refine and_congr_right fun _ => ⟨fun texts => ?_, ?_⟩
  · have proper : OnlyNames pathname :=
      fun component member => proper_of_mem_texts (by rw [texts]; simp [member])
    rw [texts_walk proper] at texts
    exact ⟨proper, texts_injective (List.append_cancel_right texts)⟩
  · rintro ⟨proper, rfl⟩
    exact texts_walk proper

/-- The pathname glued to a directory is the absolute one of the object named exactly when
the directory is not the root, and the walk begins there and enters names only. -/
theorem lookup_render_iff {start : Option Directory} {pathname : Bytes} :
    (lookup start pathname).map Directory.render = some (directory.render ++ slash :: pathname) ↔
      start = some directory ∧ directory ≠ [] ∧ OnlyNames pathname := by
  unfold lookup
  by_cases empty : pathname = []
  · subst empty
    have improper : ¬ OnlyNames [] := by decide
    simp [improper]
  · rw [if_neg empty]
    by_cases absolute : IsAbsolute pathname
    · have improper := fun proper => not_absolute_of_proper proper absolute
      rw [if_pos absolute, Option.map_some, Option.some_inj, eq_comm, Directory.resolve,
        render_append_eq_walk_iff]
      exact iff_of_false (fun same => improper same.2.1) (fun plain => improper plain.2.2)
    · cases start with
      | none => simp [absolute]
      | some start =>
          rw [if_neg absolute, Option.map_some, Option.map_some, Option.some_inj, eq_comm,
            Directory.resolve, Directory.origin, if_neg absolute, render_append_eq_walk_iff,
            Option.some_inj]
          tauto

/-- A pathname is the absolute one of the object it names exactly when it is that of some
directory. -/
theorem lookup_render_self_iff {start : Option Directory} {pathname : Bytes} :
    (lookup start pathname).map Directory.render = some pathname ↔
      ∃ other : Directory, pathname = other.render := by
  constructor
  · intro same
    obtain ⟨other, _, rfl⟩ := Option.map_eq_some_iff.mp same
    exact ⟨other, rfl⟩
  · rintro ⟨other, rfl⟩
    rw [lookup, if_neg (ne_nil_of_absolute (render_absolute other)),
      if_pos (render_absolute other), resolve_render, Option.map_some]

end Walk

section Receiving

variable {directory : Directory} {pathname front back : Bytes}

theorem entries_append (front back : Bytes) :
    entries (front ++ slash :: back) = entries front ++ entries back := by
  rw [entries, components_append, List.filter_append]
  rfl

theorem trimmed_cases (pathname : Bytes) :
    trimmed pathname = pathname ∧ pathname.getLast? ≠ some slash ∨
      pathname = trimmed pathname ++ [slash] := by
  unfold trimmed
  by_cases ended : pathname.getLast? = some slash
  · obtain ⟨front, rfl⟩ := List.getLast?_eq_some_iff.mp ended
    exact .inr (by simp)
  · exact .inl (by simp [ended])

theorem mem_of_mem_trimmed {byte : Byte} (member : byte ∈ trimmed pathname) : byte ∈ pathname := by
  obtain ⟨same, _⟩ | split := trimmed_cases pathname
  · rwa [same] at member
  · rw [split]
    exact List.mem_append_left _ member

theorem exists_last_slash (present : slash ∈ pathname) :
    ∃ front back, pathname = front ++ slash :: back ∧ slash ∉ back := by
  obtain ⟨back, front, split, absent⟩ := List.eq_append_cons_of_mem (List.mem_reverse.mpr present)
  refine ⟨front.reverse, back.reverse, ?_, by simpa using absent⟩
  simpa using congrArg List.reverse split

theorem entries_trimmed (pathname : Bytes) : entries (trimmed pathname) = entries pathname := by
  obtain ⟨same, _⟩ | split := trimmed_cases pathname
  · rw [same]
  · conv_rhs => rw [split, entries_append]
    exact (List.append_nil _).symm

theorem absolute_trimmed (nonempty : trimmed pathname ≠ []) :
    IsAbsolute pathname ↔ IsAbsolute (trimmed pathname) := by
  obtain ⟨same, _⟩ | split := trimmed_cases pathname
  · rw [same]
  · obtain ⟨first, rest, isTrimmed⟩ := List.exists_cons_of_ne_nil nonempty
    rw [isTrimmed] at split ⊢
    rw [split]
    rfl

theorem entries_of_proper (proper : OnlyNames pathname) :
    entries pathname = components pathname :=
  List.filter_eq_self.mpr fun component member => by simpa using (proper component member).1

/-- A single name is received by the directory itself. -/
theorem receiving_single_iff (single : slash ∉ trimmed pathname) :
    (directory.receiving pathname).map Directory.render = some directory.render ↔
      ProperName (trimmed pathname) := by
  have entered : entries pathname = if trimmed pathname = [] then [] else [trimmed pathname] := by
    rw [← entries_trimmed, entries, components_of_absent single]
    by_cases empty : trimmed pathname = [] <;> simp [empty]
  by_cases empty : trimmed pathname = []
  · have improper : ¬ ProperName [] := by decide
    simp [Directory.receiving, entered, empty, improper]
  · have relative : ¬ IsAbsolute pathname := fun absolute => by
      obtain ⟨rest, begins⟩ :=
        List.head?_eq_some_iff.mp ((absolute_trimmed empty).mp absolute)
      exact single (begins ▸ List.mem_cons_self)
    by_cases proper : ProperName (trimmed pathname)
    · simp [Directory.receiving, entered, empty, proper, Directory.origin, relative, Directory.walk]
    · simp [Directory.receiving, entered, empty, proper]

/-- With names in front of its last slash a pathname is relative. -/
theorem origin_of_front (split : trimmed pathname = front ++ slash :: back)
    (proper : OnlyNames front) :
    directory.origin pathname = directory := by
  refine if_neg fun absolute => not_absolute_of_proper proper ?_
  have nonempty : front ≠ [] := by
    rintro rfl
    exact absurd proper (by decide)
  obtain ⟨first, rest, rfl⟩ := List.exists_cons_of_ne_nil nonempty
  rw [absolute_trimmed (by simp [split]), split] at absolute
  exact absolute

/-- Behind a second slash at the end, the last component in front of it is the entry. -/
theorem not_receiving_of_slash (split : trimmed pathname = front ++ [slash]) :
    (directory.receiving pathname).map Directory.render ≠
      some (directory.render ++ slash :: front) := by
  intro same
  obtain ⟨other, received, rendered⟩ := Option.map_eq_some_iff.mp same
  obtain ⟨_, texts⟩ := render_append_eq_render_iff.mp rendered.symm
  have proper : OnlyNames front :=
    fun component member => proper_of_mem_texts (by rw [texts]; simp [member])
  have entered : entries pathname = components front := by
    rw [← entries_trimmed, split, entries_append, entries_of_proper proper]
    exact List.append_nil _
  have walked : other = directory.walk (components front).dropLast := by
    rw [Directory.receiving, entered, origin_of_front split proper] at received
    split at received
    · exact absurd received (by simp)
    · split at received
      · exact (Option.some_inj.mp received).symm
      · exact absurd received (by simp)
  have shorter : other.texts = directory.texts ++ (components front).dropLast := by
    rw [walked, texts_walk fun component member =>
      proper component (List.dropLast_subset _ member)]
  have length := congrArg List.length (List.append_cancel_left (texts.symm.trans shorter))
  have present := List.length_pos_iff.mpr (components_ne_nil front)
  rw [List.length_dropLast] at length
  omega

/-- A name behind a slash is received by the directory in front of it. -/
theorem receiving_of_last (split : trimmed pathname = front ++ slash :: back) (last : slash ∉ back)
    (nonempty : back ≠ []) :
    directory.receiving pathname =
      if ProperName back then some ((directory.origin pathname).walk (components front))
      else none := by
  have alone : entries back = [back] := by
    simp [entries, components_of_absent last, nonempty]
  rw [Directory.receiving, ← entries_trimmed, split, entries_append, alone, List.getLast?_concat,
    List.dropLast_concat, entries, walk_filter]

/-- An entry further down is received by what the pathname glued to the directory spells
exactly when the directory is not the root and the pathname consists of names. -/
theorem receiving_deeper_iff (split : trimmed pathname = front ++ slash :: back)
    (last : slash ∉ back) :
    (directory.receiving pathname).map Directory.render =
        some (directory.render ++ slash :: front) ↔
      directory ≠ [] ∧ OnlyNames (trimmed pathname) := by
  rw [split, onlyNames_append last]
  by_cases empty : back = []
  · subst empty
    exact iff_of_false (not_receiving_of_slash split) fun plain => plain.2.2.1 rfl
  · rw [receiving_of_last split last empty]
    by_cases proper : ProperName back
    · rw [if_pos proper, Option.map_some, Option.some_inj, eq_comm, render_append_eq_walk_iff]
      refine and_congr_right fun _ => ⟨fun plain => ⟨plain.1, proper⟩, fun plain => ?_⟩
      exact ⟨plain.1, origin_of_front split plain.1⟩
    · rw [if_neg proper]
      exact iff_of_false (by simp) fun plain => proper plain.2.2

end Receiving

end FsProtection.Base
