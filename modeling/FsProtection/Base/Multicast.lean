import Mathlib.Data.List.Basic
import Mathlib.Data.List.Induction
import Mathlib.Data.List.ReduceOption
import Mathlib.Logic.Function.Basic

/-!
# Multicast that loses and does not reorder

Senders have items to send, one at a time, to whoever has joined by then. An item may miss a
receiver. A receiver reads what waits for it, and a read may fail; what it shows then is what
it read before. What is sent, what reaches a receiver and what it reads are functions of the
events so far.
-/

namespace FsProtection

namespace Base

variable {Sender Receiver Item Event : Type*}

section Reads

/-- What is shown after each read, where a read that fails leaves what was there. -/
def fillDown (last : Item) : List (Option Item) → List Item
  | [] => []
  | read :: reads => read.getD last :: fillDown (read.getD last) reads

/-- What is there after some reads. -/
def lastRead (last : Item) (reads : List (Option Item)) : Item :=
  reads.foldl (fun last read => read.getD last) last

theorem fillDown_snoc (last : Item) (reads : List (Option Item)) (read : Option Item) :
    fillDown last (reads ++ [read]) =
      fillDown last reads ++ [read.getD (lastRead last reads)] := by
  induction reads generalizing last with
  | nil => rfl
  | cons first reads ih => simp [fillDown, lastRead, ih]

theorem lastRead_snoc (last : Item) (reads : List (Option Item)) (read : Option Item) :
    lastRead last (reads ++ [read]) = read.getD (lastRead last reads) := by
  simp [lastRead]

end Reads

section Along

/-- What events contribute, each in the light of those before it. -/
def alongFrom (contributes : List Event → Event → Option Item) (past : List Event) :
    List Event → List Item
  | [] => []
  | event :: later => (contributes past event).toList ++
      alongFrom contributes (past ++ [event]) later

def along (contributes : List Event → Event → Option Item) (events : List Event) : List Item :=
  alongFrom contributes [] events

variable {contributes : List Event → Event → Option Item}

theorem alongFrom_snoc (past events : List Event) (event : Event) :
    alongFrom contributes past (events ++ [event]) =
      alongFrom contributes past events ++ (contributes (past ++ events) event).toList := by
  induction events generalizing past with
  | nil => simp [alongFrom]
  | cons first events ih => simp [alongFrom, ih]

/-- The last event contributes behind the others. -/
theorem along_snoc (events : List Event) (event : Event) :
    along contributes (events ++ [event]) =
      along contributes events ++ (contributes events event).toList :=
  alongFrom_snoc [] events event

end Along

/-- What waits for a receiver and what it read. -/
structure Inbox (Item : Type*) where
  waiting : List Item
  reads : List (Option Item)

namespace Inbox

/-- Nothing has arrived or was read. -/
def empty : Inbox Item := ⟨[], []⟩

/-- An item reaches the inbox or is lost. -/
def offer (item : Item) (reaches : Bool) (inbox : Inbox Item) : Inbox Item where
  waiting := if reaches then inbox.waiting ++ [item] else inbox.waiting
  reads := inbox.reads

/-- A read waits for an item. -/
def take (inbox : Inbox Item) : Inbox Item :=
  match inbox.waiting with
  | [] => inbox
  | item :: others => ⟨others, inbox.reads ++ [some item]⟩

/-- A read that fails leaves the items where they are. -/
def fail (inbox : Inbox Item) : Inbox Item := { inbox with reads := inbox.reads ++ [none] }

end Inbox

/-- What the senders have yet to send, and the receivers that have joined. -/
structure Multicast (Sender Receiver Item : Type*) where
  pending : Sender → List Item
  inbox : Receiver → Option (Inbox Item)

inductive MulticastEvent (Sender Receiver Item : Type*) where
  | issue (sender : Sender) (items : List Item)
  | send (sender : Sender) (reaches : Receiver → Bool)
  | join (receiver : Receiver)
  | take (receiver : Receiver)
  | fail (receiver : Receiver)

namespace Multicast

variable [DecidableEq Sender]

/-- No sender has anything to send and nobody has joined. -/
def start : Multicast Sender Receiver Item := ⟨fun _ => [], fun _ => none⟩

/-- The items a sender is given. -/
def batch (sender : Sender) : MulticastEvent Sender Receiver Item → Option (List Item)
  | .issue other items => if other = sender then some items else none
  | _ => none

def isSend (sender : Sender) : MulticastEvent Sender Receiver Item → Bool
  | .send other _ => other = sender
  | _ => false

/-- What a sender was given, in order. -/
def given (sender : Sender) (past : List (MulticastEvent Sender Receiver Item)) : List Item :=
  (past.filterMap (batch sender)).flatten

/-- How often a sender sent. -/
def sends (sender : Sender) (past : List (MulticastEvent Sender Receiver Item)) : Nat :=
  past.countP (isSend sender)

/-- What a sender sends next. -/
def next (sender : Sender) (past : List (MulticastEvent Sender Receiver Item)) : Option Item :=
  (given sender past)[sends sender past]?

variable [DecidableEq Receiver]

/-- A receiver does what an inbox does, if it has joined. -/
def onInbox (s : Multicast Sender Receiver Item) (receiver : Receiver)
    (change : Inbox Item → Inbox Item) : Multicast Sender Receiver Item :=
  { s with inbox := Function.update s.inbox receiver ((s.inbox receiver).map change) }

/-- A receiver joins once, and a sender is given items when it has sent what it had. -/
def step (s : Multicast Sender Receiver Item) :
    MulticastEvent Sender Receiver Item → Multicast Sender Receiver Item
  | .issue sender items =>
      match s.pending sender with
      | [] => { s with pending := Function.update s.pending sender items }
      | _ :: _ => s
  | .send sender reaches =>
      match s.pending sender with
      | [] => s
      | item :: others =>
          { s with
            pending := Function.update s.pending sender others
            inbox := fun receiver => (s.inbox receiver).map (.offer item (reaches receiver)) }
  | .join receiver =>
      { s with inbox := Function.update s.inbox receiver ((s.inbox receiver).getD .empty) }
  | .take receiver => s.onInbox receiver .take
  | .fail receiver => s.onInbox receiver .fail

/-- The state after some events. -/
def run (events : List (MulticastEvent Sender Receiver Item)) : Multicast Sender Receiver Item :=
  events.foldl step start

theorem run_snoc (events : List (MulticastEvent Sender Receiver Item))
    (event : MulticastEvent Sender Receiver Item) :
    run (events ++ [event]) = (run events).step event := by
  simp [run]

/-- The receiver joins. -/
def isJoin (receiver : Receiver) : MulticastEvent Sender Receiver Item → Bool
  | .join other => other = receiver
  | _ => false

/-- The receiver reads an item. -/
def isTake (receiver : Receiver) : MulticastEvent Sender Receiver Item → Bool
  | .take other => other = receiver
  | _ => false

/-- The receiver joined some time before. -/
def joined (receiver : Receiver) (past : List (MulticastEvent Sender Receiver Item)) : Bool :=
  past.any (isJoin receiver)

/-- What of it reached the receiver. -/
def reaching (receiver : Receiver) (past : List (MulticastEvent Sender Receiver Item)) :
    List Item :=
  along (fun past event => match event with
    | .send sender reaches =>
        if joined receiver past ∧ reaches receiver = true then next sender past else none
    | _ => none) past

/-- How many items a receiver took. -/
def takes (receiver : Receiver) (past : List (MulticastEvent Sender Receiver Item)) : Nat :=
  past.countP (isTake receiver)

/-- What a receiver read: the items that reached it, one after the other, and nothing where a
read failed. -/
def reads (receiver : Receiver) (past : List (MulticastEvent Sender Receiver Item)) :
    List (Option Item) :=
  along (fun past event => match event with
    | .take other =>
        if other = receiver then some (reaching receiver past)[takes receiver past]? else none
    | .fail other => if other = receiver then some none else none
    | _ => none) past

/-- What can come after the events so far: a sender is given items when it has sent what it
had, sends when it has something to send, a receiver joins once, takes what waits for it, and
fails to. -/
def Possible (past : List (MulticastEvent Sender Receiver Item)) :
    MulticastEvent Sender Receiver Item → Prop
  | .issue sender _ => (given sender past).length ≤ sends sender past
  | .send sender _ => sends sender past < (given sender past).length
  | .join receiver => joined receiver past = false
  | .take receiver => takes receiver past < (reaching receiver past).length
  | .fail receiver => joined receiver past = true

instance (past : List (MulticastEvent Sender Receiver Item))
    (event : MulticastEvent Sender Receiver Item) : Decidable (Possible past event) :=
  match event with
  | .issue sender _ => inferInstanceAs (Decidable ((given sender past).length ≤ sends sender past))
  | .send sender _ => inferInstanceAs (Decidable (sends sender past < (given sender past).length))
  | .join receiver => inferInstanceAs (Decidable (joined receiver past = false))
  | .take receiver =>
      inferInstanceAs (Decidable (takes receiver past < (reaching receiver past).length))
  | .fail receiver => inferInstanceAs (Decidable (joined receiver past = true))

/-- Every item that is sent reaches the receiver. -/
def Reaches (receiver : Receiver) : MulticastEvent Sender Receiver Item → Prop
  | .send _ reaches => reaches receiver = true
  | _ => True

section Snoc

variable {past : List (MulticastEvent Sender Receiver Item)}
  {event : MulticastEvent Sender Receiver Item} {sender : Sender} {receiver : Receiver}

omit [DecidableEq Receiver] in
/-- What a sender was given grows by the batches issued to it, -/
theorem given_snoc :
    given sender (past ++ [event]) = given sender past ++ (batch sender event).getD [] := by
  cases given : batch sender event <;> simp [Multicast.given, List.filterMap_append, given]

omit [DecidableEq Receiver] in
/-- its sends are counted one by one, -/
theorem sends_snoc : sends sender (past ++ [event]) =
    sends sender past + if isSend sender event then 1 else 0 := by
  simp [sends, List.countP_append, List.countP_singleton]

omit [DecidableEq Sender] in
theorem joined_snoc :
    joined receiver (past ++ [event]) = (joined receiver past || isJoin receiver event) := by
  simp [joined, List.any_append]

omit [DecidableEq Sender] in
/-- and so are the reads of a receiver. -/
theorem takes_snoc : takes receiver (past ++ [event]) =
    takes receiver past + if isTake receiver event then 1 else 0 := by
  simp [takes, List.countP_append, List.countP_singleton]

/-- Events that send nothing and give nothing leave what reached a receiver. -/
theorem reaching_snoc_of (quiet : ∀ sender reaches, event ≠ .send sender reaches) :
    reaching receiver (past ++ [event]) = reaching receiver past := by
  unfold reaching
  rw [along_snoc]
  cases event with
  | send sender reaches => exact absurd rfl (quiet sender reaches)
  | _ => simp

/-- A send reaches those that have joined and have room. -/
theorem reaching_send {reaches : Receiver → Bool} :
    reaching receiver (past ++ [.send sender reaches]) = reaching receiver past ++
      (if joined receiver past ∧ reaches receiver = true then next sender past else none).toList :=
  along_snoc _ _

/-- What a receiver read grows by its own reads. -/
theorem reads_snoc : reads receiver (past ++ [event]) = reads receiver past ++
    (match event with
      | .take other =>
          if other = receiver then some (reaching receiver past)[takes receiver past]? else none
      | .fail other => if other = receiver then some none else none
      | _ => none).toList :=
  along_snoc _ _

end Snoc

/-- What there is of a receiver after some events. -/
def inboxOf (receiver : Receiver) (past : List (MulticastEvent Sender Receiver Item)) :
    Option (Inbox Item) :=
  if joined receiver past then
    some ⟨(reaching receiver past).drop (takes receiver past), reads receiver past⟩
  else none

/-- The state after some events, by what these were. -/
structure Sound (past : List (MulticastEvent Sender Receiver Item))
    (s : Multicast Sender Receiver Item) : Prop where
  sent : ∀ sender, sends sender past ≤ (given sender past).length
  pending : ∀ sender, s.pending sender = (given sender past).drop (sends sender past)
  taken : ∀ receiver, takes receiver past ≤ (reaching receiver past).length
  quiet : ∀ receiver, joined receiver past = false →
    reaching receiver past = [] ∧ takes receiver past = 0 ∧ reads receiver past = []
  inbox : ∀ receiver, s.inbox receiver = inboxOf receiver past

section Invariant

variable {past : List (MulticastEvent Sender Receiver Item)}
  {s : Multicast Sender Receiver Item} {event : MulticastEvent Sender Receiver Item}
  {sender : Sender} {receiver : Receiver} {items : List Item} {reaches : Receiver → Bool}

/-- Before any event the state is what the events say, -/
theorem sound_start : Sound [] (start : Multicast Sender Receiver Item) where
  sent _ := Nat.le_refl _
  pending _ := rfl
  taken _ := Nat.le_refl _
  quiet _ _ := ⟨rfl, rfl, rfl⟩
  inbox _ := rfl

/-- A receiver has not joined, and an event does not make it read or join. -/
theorem inboxOf_same (reached : reaching receiver (past ++ [event]) = reaching receiver past)
    (joins : isJoin receiver event = false) (taken : isTake receiver event = false)
    (read : reads receiver (past ++ [event]) = reads receiver past) :
    inboxOf receiver (past ++ [event]) = inboxOf receiver past := by
  simp [inboxOf, reached, read, joined_snoc, takes_snoc, joins, taken]

/-- a batch is given to its sender alone, -/
theorem Sound.issue (sound : s.Sound past) (done : (given sender past).length ≤ sends sender past) :
    Sound (past ++ [.issue sender items]) (s.step (.issue sender items)) := by
  have nothing : s.pending sender = [] := by
    rw [sound.pending]
    exact List.drop_eq_nil_of_le done
  have reached : ∀ receiver, reaching receiver (past ++ [.issue sender items]) =
      reaching receiver past := fun _ => reaching_snoc_of fun _ _ => nofun
  have read : ∀ receiver, reads receiver (past ++ [.issue sender items]) =
      reads receiver past := fun _ => reads_snoc.trans (List.append_nil _)
  simp only [step, nothing]
  refine ⟨fun other => ?_, fun other => ?_, fun receiver => ?_, fun receiver apart => ?_,
    fun receiver => ?_⟩
  · have before := sound.sent other
    simp only [sends_snoc, given_snoc, isSend, List.length_append]
    simp only [Bool.false_eq_true, if_false, Nat.add_zero]
    exact Nat.le_add_right_of_le before
  · have all : sends sender past = (given sender past).length :=
      Nat.le_antisymm (sound.sent sender) done
    simp only [sends_snoc, given_snoc, isSend, batch]
    by_cases same : other = sender
    · subst same
      simp [all]
    · simp [same, Ne.symm same, sound.pending]
  · simpa [reached, takes_snoc, isTake] using sound.taken receiver
  · simpa [reached, read, takes_snoc, isTake] using
      sound.quiet receiver (by simpa [joined_snoc, isJoin] using apart)
  · exact (sound.inbox receiver).trans
      (inboxOf_same (reached receiver) rfl rfl (read receiver)).symm

/-- a send hands over the next item of its sender, -/
theorem Sound.send (sound : s.Sound past) (has : sends sender past < (given sender past).length) :
    Sound (past ++ [.send sender reaches]) (s.step (.send sender reaches)) := by
  have owes : s.pending sender = (given sender past)[sends sender past] ::
      (given sender past).drop (sends sender past + 1) :=
    (sound.pending sender).trans (List.drop_eq_getElem_cons has)
  have item : next sender past = some (given sender past)[sends sender past] :=
    List.getElem?_eq_getElem has
  have read : ∀ receiver, reads receiver (past ++ [.send sender reaches]) =
      reads receiver past := fun _ => reads_snoc.trans (List.append_nil _)
  simp only [step, owes]
  refine ⟨fun other => ?_, fun other => ?_, fun receiver => ?_, fun receiver apart => ?_,
    fun receiver => ?_⟩
  · simp only [sends_snoc, given_snoc, isSend, batch, Option.getD_none, List.append_nil]
    by_cases same : sender = other
    · subst same
      simpa using Nat.succ_le_of_lt has
    · simpa [same] using sound.sent other
  · simp only [sends_snoc, given_snoc, isSend, batch, Option.getD_none, List.append_nil]
    by_cases same : other = sender
    · subst same
      simp
    · simp [same, Ne.symm same, sound.pending]
  · rw [reaching_send]
    simpa [takes_snoc, isTake] using Nat.le_add_right_of_le (sound.taken receiver)
  · have before : joined receiver past = false := by simpa [joined_snoc, isJoin] using apart
    simpa [reaching_send, read, takes_snoc, isTake, before] using sound.quiet receiver before
  · dsimp only
    rw [sound.inbox receiver, inboxOf, inboxOf, reaching_send, read, joined_snoc, takes_snoc, item]
    cases hasJoined : joined receiver past with
    | false => simp [isJoin]
    | true =>
        cases arrives : reaches receiver with
        | false => simp [isJoin, isTake, Inbox.offer]
        | true => simp [isJoin, isTake, Inbox.offer, List.drop_append_of_le_length,
            sound.taken receiver]

/-- a receiver joins with nothing waiting, -/
theorem Sound.join (sound : s.Sound past) (apart : joined receiver past = false) :
    Sound (past ++ [.join receiver]) (s.step (.join receiver)) := by
  have reached : ∀ other, reaching other (past ++ [.join receiver]) = reaching other past :=
    fun _ => reaching_snoc_of fun _ _ => nofun
  have read : ∀ other, reads other (past ++ [.join receiver]) = reads other past :=
    fun _ => reads_snoc.trans (List.append_nil _)
  refine ⟨fun sender => ?_, fun sender => ?_, fun other => ?_, fun other absent => ?_,
    fun other => ?_⟩
  · simpa [sends_snoc, given_snoc, isSend, batch] using sound.sent sender
  · simpa [sends_snoc, given_snoc, isSend, batch, step] using sound.pending sender
  · simpa [reached, takes_snoc, isTake] using sound.taken other
  · have before : joined other past = false := by
      simp only [joined_snoc, Bool.or_eq_false_iff] at absent
      exact absent.1
    simpa [reached, read, takes_snoc, isTake] using sound.quiet other before
  · by_cases same : other = receiver
    · subst same
      obtain ⟨nothing, none, noRead⟩ := sound.quiet other apart
      have outside : s.inbox other = Option.none := by
        rw [sound.inbox, inboxOf, apart]
        rfl
      simp [step, inboxOf, reached, read, joined_snoc, takes_snoc, isJoin, isTake, outside, nothing,
        none, noRead, Inbox.empty]
    · have notThis : isJoin other (.join receiver : MulticastEvent Sender Receiver Item) = false :=
        decide_eq_false (Ne.symm same)
      rw [inboxOf_same (reached other) notThis rfl (read other), ← sound.inbox other]
      simp [step, same]

/-- it takes the first item that waits, -/
theorem Sound.take (sound : s.Sound past)
    (waits : takes receiver past < (reaching receiver past).length) :
    Sound (past ++ [.take receiver]) (s.step (.take receiver)) := by
  have reached : ∀ other, reaching other (past ++ [.take receiver]) = reaching other past :=
    fun _ => reaching_snoc_of fun _ _ => nofun
  have waiting : (reaching receiver past).drop (takes receiver past) =
      (reaching receiver past)[takes receiver past] ::
        (reaching receiver past).drop (takes receiver past + 1) :=
    List.drop_eq_getElem_cons waits
  have hasJoined : joined receiver past = true := by
    by_contra absent
    have nothing := (sound.quiet receiver (Bool.eq_false_iff.mpr absent)).1
    simp [nothing] at waits
  have others : ∀ other, other ≠ receiver →
      isTake other (.take receiver : MulticastEvent Sender Receiver Item) = false ∧
        reads other (past ++ [.take receiver]) = reads other past := by
    intro other apart
    refine ⟨decide_eq_false (Ne.symm apart), ?_⟩
    rw [reads_snoc]
    simp [Ne.symm apart]
  refine ⟨fun sender => ?_, fun sender => ?_, fun other => ?_, fun other absent => ?_,
    fun other => ?_⟩
  · simpa [sends_snoc, given_snoc, isSend, batch] using sound.sent sender
  · simpa [sends_snoc, given_snoc, isSend, batch, step, onInbox] using sound.pending sender
  · rw [reached, takes_snoc]
    by_cases same : other = receiver
    · subst same
      simpa [isTake] using Nat.succ_le_of_lt waits
    · simpa [(others other same).1] using sound.taken other
  · have before : joined other past = false := by simpa [joined_snoc, isJoin] using absent
    have apart : other ≠ receiver := by
      rintro rfl
      cases before.symm.trans hasJoined
    simpa [reached, takes_snoc, others other apart] using sound.quiet other before
  · by_cases same : other = receiver
    · subst same
      have here : s.inbox other = some ⟨(reaching other past).drop (takes other past),
          reads other past⟩ := by rw [sound.inbox, inboxOf, if_pos hasJoined]
      have read : reads other (past ++ [.take other]) =
          reads other past ++ [some (reaching other past)[takes other past]] := by
        rw [reads_snoc]
        simp [List.getElem?_eq_getElem waits]
      have still : joined other (past ++ [.take other]) = true := by
        rw [joined_snoc, hasJoined, Bool.true_or]
      have one : isTake other (.take other : MulticastEvent Sender Receiver Item) = true :=
        decide_eq_true rfl
      rw [inboxOf, if_pos still, reached, read, takes_snoc, if_pos one]
      simp only [step, onInbox, Function.update_self, here, Option.map_some]
      rw [waiting]
      rfl
    · have this := others other same
      rw [inboxOf_same (reached other) rfl this.1 this.2, ← sound.inbox other]
      simp [step, onInbox, same]

/-- and a failing read takes none. -/
theorem Sound.fail (sound : s.Sound past) (hasJoined : joined receiver past = true) :
    Sound (past ++ [.fail receiver]) (s.step (.fail receiver)) := by
  have reached : ∀ other, reaching other (past ++ [.fail receiver]) = reaching other past :=
    fun _ => reaching_snoc_of fun _ _ => nofun
  have others : ∀ other, other ≠ receiver →
      reads other (past ++ [.fail receiver]) = reads other past := by
    intro other apart
    rw [reads_snoc]
    simp [Ne.symm apart]
  refine ⟨fun sender => ?_, fun sender => ?_, fun other => ?_, fun other absent => ?_,
    fun other => ?_⟩
  · simpa [sends_snoc, given_snoc, isSend, batch] using sound.sent sender
  · simpa [sends_snoc, given_snoc, isSend, batch, step, onInbox] using sound.pending sender
  · simpa [reached, takes_snoc, isTake] using sound.taken other
  · have before : joined other past = false := by simpa [joined_snoc, isJoin] using absent
    have apart : other ≠ receiver := by
      rintro rfl
      cases before.symm.trans hasJoined
    simpa [reached, takes_snoc, isTake, others other apart] using sound.quiet other before
  · by_cases same : other = receiver
    · subst same
      have here : s.inbox other = some ⟨(reaching other past).drop (takes other past),
          reads other past⟩ := by rw [sound.inbox, inboxOf, if_pos hasJoined]
      have read : reads other (past ++ [.fail other]) = reads other past ++ [none] := by
        rw [reads_snoc]
        simp
      rw [step, onInbox, inboxOf, reached, read, takes_snoc]
      simp [here, joined_snoc, hasJoined, isTake, Inbox.fail]
    · rw [inboxOf_same (reached other) rfl rfl (others other same), ← sound.inbox other]
      simp [step, onInbox, same]

/-- So the state stays what the events say. -/
theorem Sound.step (sound : s.Sound past) (possible : Possible past event) :
    Sound (past ++ [event]) (s.step event) := by
  cases event with
  | issue sender items => exact sound.issue possible
  | send sender reaches => exact sound.send possible
  | join receiver => exact sound.join possible
  | take receiver => exact sound.take possible
  | fail receiver => exact sound.fail possible

/-- Whatever the order of events, as far as it is possible, each sender has sent the first of
its items, and each receiver has read the first of those that reached it. -/
theorem run_sound {events : List (MulticastEvent Sender Receiver Item)}
    (possible : ∀ past event, past ++ [event] <+: events → Possible past event) :
    (run events).Sound events := by
  induction events using List.reverseRecOn with
  | nil => exact sound_start
  | append_singleton past event ih =>
      rw [run_snoc]
      refine (ih fun earlier other first => ?_).step (possible past event (List.prefix_refl _))
      exact possible earlier other (first.trans (List.prefix_append _ _))

end Invariant

end Multicast

end Base

end FsProtection
