import FsProtection.Base.Ordered
import FsProtection.Delivery

/-!
# What the clients print

The deliveries are a multicast of notifications: each process sends those of its calls in
order, and each receiver prints what reached it.
-/

namespace FsProtection

open Base

namespace Delivery

/-- The processes and the receivers do what the senders and the receivers of a multicast of
notifications do. -/
structure Refines (s : Delivery) (spec : Multicast Nat Nat Bytes) : Prop where
  pending : s.pending = spec.pending
  notices : ∀ process, ∀ message ∈ s.pending process, Notice message
  receivers : ∀ receiver, Option.Rel Receiver.Shows (s.receivers receiver) (spec.inbox receiver)

section Refinement

variable {σ : Type} {k : Kernel σ} {s : Delivery}
  {spec : Multicast Nat Nat Bytes}

theorem refines_start : start.Refines .start where
  pending := rfl
  notices _ _ member := by cases member
  receivers _ := .none

theorem Refines.update_receiver (refines : s.Refines spec) {receiver : Nat}
    {after : Option Receiver} {inbox : Option (Inbox Bytes)}
    (shows : Option.Rel Receiver.Shows after inbox) :
    Refines { s with receivers := Function.update s.receivers receiver after }
      { spec with inbox := Function.update spec.inbox receiver inbox } where
  pending := refines.pending
  notices := refines.notices
  receivers other := by
    by_cases same : other = receiver
    · subst same
      simpa using shows
    · simpa [same] using refines.receivers other

/-- A receiver does what an inbox does. -/
theorem Refines.onReceiver (refines : s.Refines spec) (receiver : Nat)
    {change : Receiver → Except Fault Receiver} {specChange : Inbox Bytes → Inbox Bytes}
    (changes : ∀ before inbox, before.Shows inbox →
      ∃ after, change before = .ok after ∧ after.Shows (specChange inbox)) :
    ∃ next, s.onReceiver receiver change = .ok next ∧
      next.Refines { spec with
        inbox := Function.update spec.inbox receiver ((spec.inbox receiver).map specChange) } := by
  have related := refines.receivers receiver
  unfold Delivery.onReceiver
  cases known : s.receivers receiver with
  | none =>
      cases joined : spec.inbox receiver with
      | some inbox =>
          rw [known, joined] at related
          cases related
      | none =>
          have unchanged : Function.update s.receivers receiver none = s.receivers := by
            rw [← known, Function.update_eq_self]
          refine ⟨s, rfl, ?_⟩
          have same : s = { s with receivers := Function.update s.receivers receiver none } := by
            rw [unchanged]
          rw [same]
          exact refines.update_receiver .none
  | some before =>
      rw [known] at related
      cases joined : spec.inbox receiver with
      | none =>
          rw [joined] at related
          cases related
      | some inbox =>
          rw [joined] at related
          cases related with
          | some shows =>
              obtain ⟨after, ran, showsAfter⟩ := changes before inbox shows
              refine ⟨{ s with receivers := Function.update s.receivers receiver (some after) },
                ?_, refines.update_receiver (.some showsAfter)⟩
              simp [ran, bind, Except.bind, pure, Except.pure]

theorem shows_map {receiver : Option Receiver} {inbox : Option (Inbox Bytes)}
    (related : Option.Rel Receiver.Shows receiver inbox) {change : Receiver → Receiver}
    {specChange : Inbox Bytes → Inbox Bytes}
    (changes : ∀ before inbox, before.Shows inbox → (change before).Shows (specChange inbox)) :
    Option.Rel Receiver.Shows (receiver.map change) (inbox.map specChange) := by
  cases related with
  | none => exact .none
  | some shows => exact .some (changes _ _ shows)

/-- The notices of one process change. -/
theorem notices_update {pending : Nat → List Bytes}
    (notices : ∀ process, ∀ message ∈ pending process, Notice message) {process : Nat}
    {messages : List Bytes} (each : ∀ message ∈ messages, Notice message) :
    ∀ other, ∀ message ∈ Function.update pending process messages other,
      Notice message := by
  intro other message member
  by_cases same : other = process
  · subst same
    rw [Function.update_self] at member
    exact each message member
  · rw [Function.update_of_ne same] at member
    exact notices other message member

/-- A process sends its next notice, which comes to the receivers, or misses them. -/
theorem Refines.send (refines : s.Refines spec) {process : Nat} {message : Bytes}
    {others : List Bytes} (next : s.pending process = message :: others)
    {change : Nat → Receiver → Receiver} {reaches : Nat → Bool}
    (changes : ∀ receiver before inbox, before.Shows inbox →
      (change receiver before).Shows (inbox.offer message (reaches receiver))) :
    Refines
      ⟨Function.update s.pending process others,
        fun receiver => (s.receivers receiver).map (change receiver)⟩
      (spec.step (.send process reaches)) := by
  have notices := refines.notices process
  have pending := congrFun refines.pending process
  rw [next] at notices pending
  simp only [Multicast.step]
  rw [← pending]
  refine ⟨by rw [refines.pending], ?_, fun receiver => ?_⟩
  · apply notices_update refines.notices
    exact fun text member => notices text (List.mem_cons_of_mem _ member)
  · exact shows_map (refines.receivers receiver) (changes receiver)

/-- `sendnlmsg` is a send of the multicast, one that reaches no receiver without an
`sk_buff`. -/
theorem Refines.sendnlmsg (refines : s.Refines spec) (process : Nat)
    (nlmsgData : Option (SizedBytes maxMsgsize)) (room : Nat → Bool) :
    ∃ next, s.step (.sendnlmsg (σ := σ) process nlmsgData room) = .ok next ∧
      next.Refines
        (spec.step (.send process fun receiver => nlmsgData.isSome && room receiver)) := by
  simp only [Delivery.step]
  cases given : s.pending process with
  | nil =>
      have pending := congrFun refines.pending process
      rw [given] at pending
      simp only [Multicast.step]
      rw [← pending]
      exact ⟨s, rfl, refines⟩
  | cons message others =>
      cases nlmsgData with
      | none =>
          have sends := refines.send given (fun _ before inbox shows => missed_shows shows message)
          simp only [Option.map_id'] at sends
          exact ⟨_, rfl, sends⟩
      | some nlmsgData =>
          have notice := refines.notices process message (by simp [given])
          obtain ⟨sent, ran, size, ended, text⟩ := sendnlmsg_notice notice nlmsgData
          have arrives : ∀ (receiver : Nat) (before : Receiver) (inbox : Inbox Bytes),
              before.Shows inbox → (before.arrive sent (room receiver)).Shows
                (inbox.offer message (room receiver)) := by
            intro receiver before inbox shows
            rw [← text]
            exact arrive_shows shows ended size (room receiver)
          refine ⟨_, ?_, refines.send given arrives⟩
          dsimp only
          rw [ran]
          rfl

/-- The step of the refinement. -/
theorem Refines.step (delivers : k.DeliversRecords) (refines : s.Refines spec)
    {event : DeliveryEvent σ} (real : event.Real k) :
    ∃ next, s.step event = .ok next ∧ next.Refines (spec.step event.multicast) := by
  cases event with
  | hooked process globals call =>
      have pending := congrFun refines.pending process
      simp only [Delivery.step, DeliveryEvent.multicast, Multicast.step]
      rw [← pending]
      cases given : s.pending process with
      | cons message others => exact ⟨s, rfl, refines⟩
      | nil =>
          refine ⟨⟨Function.update s.pending process call.sent, s.receivers⟩, rfl, ?_⟩
          refine ⟨by simp only [refines.pending], ?_, refines.receivers⟩
          apply notices_update refines.notices
          intro message sends
          obtain ⟨rule, listed, text⟩ := sent_notifications real.1 delivers real.2 sends
          exact ⟨rule, real.1 rule listed, text⟩
  | sendnlmsg process nlmsgData room =>
      exact refines.sendnlmsg process nlmsgData room
  | bind receiver =>
      refine ⟨_, rfl, refines.update_receiver ?_⟩
      have related := refines.receivers receiver
      generalize s.receivers receiver = before at related
      generalize spec.inbox receiver = inbox at related
      cases related with
      | none => exact .some shows_bound
      | some shows => exact .some shows
  | recvmsg receiver => exact refines.onReceiver receiver fun _ _ => turn_shows
  | recvmsgFails receiver => exact refines.onReceiver receiver fun _ _ => print_again_shows

/-- The run of the refinement. -/
theorem run_refines (delivers : k.DeliversRecords) {events : List (DeliveryEvent σ)}
    (real : ∀ event ∈ events, event.Real k) :
    ∃ s, execute Delivery.step start events = .ok s ∧
      s.Refines (Multicast.run (events.map DeliveryEvent.multicast)) := by
  refine execute_total
    (fun past (s : Delivery) => s.Refines (Multicast.run (past.map DeliveryEvent.multicast)))
    refines_start (fun past before event refines real => ?_) real
  obtain ⟨next, stepped, refinesNext⟩ := refines.step delivers real
  rw [List.map_append, List.map_singleton, Multicast.run_snoc]
  exact ⟨next, stepped, refinesNext⟩

/-- A receiver is as the messages that reached it and its reads make it. -/
theorem Refines.receiver {events : List (DeliveryEvent σ)} (refines : s.Refines spec)
    (sound : spec.Sound (events.map DeliveryEvent.multicast)) {number : Nat} {receiver : Receiver}
    (known : s.receivers number = some receiver) :
    receiver.queue.map cstr = (DeliveryEvent.reaching number events).drop
        (DeliveryEvent.takes number events) ∧
      receiver.printed = (fillDown [] (DeliveryEvent.reads number events)).map receivedLine := by
  have related := refines.receivers number
  rw [known, sound.inbox number, Multicast.inboxOf] at related
  split at related
  · cases related with
    | some shows => exact ⟨shows.waiting, shows.printed⟩
  · cases related

/-- There are the receivers that were bound. -/
theorem Refines.bound {events : List (DeliveryEvent σ)} (refines : s.Refines spec)
    (sound : spec.Sound (events.map DeliveryEvent.multicast)) (number : Nat) :
    (∃ receiver, s.receivers number = some receiver) ↔ .bind number ∈ events := by
  have joins : Multicast.joined number (events.map DeliveryEvent.multicast) = true ↔
      .bind number ∈ events := by
    simp only [Multicast.joined, List.any_map, List.any_eq_true, Function.comp_apply]
    constructor
    · rintro ⟨event, member, isJoin⟩
      cases event with
      | bind other =>
          obtain rfl : other = number := of_decide_eq_true isJoin
          exact member
      | _ => cases isJoin
    · exact fun member => ⟨_, member, decide_eq_true rfl⟩
  have related := refines.receivers number
  rw [sound.inbox number, Multicast.inboxOf] at related
  rw [← joins]
  split at related
  · next joined =>
      cases known : s.receivers number with
      | none =>
          rw [known] at related
          cases related
      | some receiver => simp [joined]
  · next apart =>
      cases known : s.receivers number with
      | none => simp [apart]
      | some receiver =>
          rw [known] at related
          cases related

end Refinement

end Delivery

end FsProtection
