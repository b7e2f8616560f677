import Mathlib.Data.List.Forall2
import FsProtection.Base.Multicast
import FsProtection.Communicate.Notification
import FsProtection.Hooks.Notices

/-!
# The notifications on their way to the clients

Hooked calls of any processes overlap, and each sends its notifications one by one. A
broadcast allocates an `sk_buff`, whose payload holds what memory held, and reaches the
sockets that have room. The child of a client prints what it receives, and prints again what
its buffer holds when `recvmsg` fails. All of it is a multicast that loses and does not
reorder.
-/

namespace FsProtection

open Base

/-- `MAX_PAYLOAD`. -/
def maxPayload : Nat := 1024

/-- `recvmsg`: a message is laid over the payload of `nlh`, as far as that reaches. -/
def recvmsg (nlmsgData : SizedBytes maxPayload) (sent : Bytes) : SizedBytes maxPayload :=
  ⟨sent.take maxPayload ++ nlmsgData.1.drop sent.length, by
    have size := nlmsgData.2
    rw [List.length_append, List.length_take, List.length_drop]
    omega⟩

/-- The line of `printf` in `notificationReceiver`. -/
def receivedLine (text : Bytes) : Bytes := lit "Received message: " ++ text ++ [newline]

/-- A process in the loop of `notificationReceiver`: the payload of its `nlh`, the messages
at its socket and the lines it printed. -/
structure Receiver where
  nlmsgData : SizedBytes maxPayload
  queue : List Bytes
  printed : List Bytes

namespace Receiver

/-- A receiver before its loop, `nlh` cleared by `memset`. -/
def bound : Receiver := ⟨SizedBytes.zeros _, [], []⟩

/-- `printf` reads on until a NUL. -/
def print (receiver : Receiver) : Except Fault Receiver :=
  if Terminated receiver.nlmsgData.1 then
    return { receiver with
      printed := receiver.printed ++ [receivedLine (cstr receiver.nlmsgData.1)] }
  else
    throw .overrun

/-- A turn of the loop, where `recvmsg` waits for a message. -/
def turn (receiver : Receiver) : Except Fault Receiver :=
  match receiver.queue with
  | [] => return receiver
  | sent :: queue =>
      print { receiver with nlmsgData := recvmsg receiver.nlmsgData sent, queue := queue }

/-- A message comes to the socket, if it has room. -/
def arrive (sent : Bytes) (room : Bool) (receiver : Receiver) : Receiver :=
  if room then { receiver with queue := receiver.queue ++ [sent] } else receiver

end Receiver

/-- The notifications each process has yet to send, and the receivers. -/
structure Delivery where
  pending : Nat → List Bytes
  receivers : Nat → Option Receiver

inductive DeliveryEvent (σ : Type) where
  /-- A hooked call decides by the rules in force then. -/
  | hooked (process : Nat) (globals : Globals) (call : HookedCall σ)
  /-- The next `sendnlmsg` of a process: the payload of its `sk_buff`, if there is one, and
  which sockets have room. -/
  | sendnlmsg (process : Nat) (nlmsgData : Option (SizedBytes maxMsgsize)) (room : Nat → Bool)
  | bind (receiver : Nat)
  | recvmsg (receiver : Nat)
  /-- `recvmsg` fails, which is not checked. -/
  | recvmsgFails (receiver : Nat)

namespace DeliveryEvent

variable {σ : Type}

/-- The hooked calls are calls of the hooks, under rules whose paths end. -/
def Real (k : Kernel σ) : DeliveryEvent σ → Prop
  | .hooked _ globals call => (∀ rule ∈ globals.fileListRoot, Terminated rule.filePath.1) ∧
      Returns (modified k globals call.call) call.before call.ret call.after
  | _ => True

/-- A broadcast reaches the receiver. -/
def Reaches (receiver : Nat) : DeliveryEvent σ → Prop
  | .sendnlmsg _ nlmsgData room => nlmsgData.isSome = true ∧ room receiver = true
  | _ => True

/-- What an event is to the multicast. -/
def multicast : DeliveryEvent σ → MulticastEvent Nat Nat Bytes
  | .hooked process _ call => .issue process call.sent
  | .sendnlmsg process nlmsgData room =>
      .send process fun receiver => nlmsgData.isSome && room receiver
  | .bind receiver => .join receiver
  | .recvmsg receiver => .take receiver
  | .recvmsgFails receiver => .fail receiver

/-- What can come next: a process makes a call when it has sent the notifications of the one
before, `sendnlmsg` is called with one of them, a client binds once, and `recvmsg` waits for a
message, or fails when it is called. -/
def Possible (past : List (DeliveryEvent σ)) (event : DeliveryEvent σ) : Prop :=
  Multicast.Possible (past.map multicast) event.multicast

/-- How often a process called `sendnlmsg`. -/
def sends (process : Nat) (events : List (DeliveryEvent σ)) : Nat :=
  Multicast.sends process (events.map multicast)

/-- What of it got an `sk_buff` and found room at the receiver's socket. -/
def reaching (receiver : Nat) (events : List (DeliveryEvent σ)) : List Bytes :=
  Multicast.reaching receiver (events.map multicast)

/-- How often `recvmsg` returned a message. -/
def takes (receiver : Nat) (events : List (DeliveryEvent σ)) : Nat :=
  Multicast.takes receiver (events.map multicast)

/-- What the turns of the receiver's loop read: one after the other of the messages that
reached it, and nothing where `recvmsg` failed. -/
def reads (receiver : Nat) (events : List (DeliveryEvent σ)) : List (Option Bytes) :=
  Multicast.reads receiver (events.map multicast)

end DeliveryEvent

namespace Delivery

variable {σ : Type}

def start : Delivery := ⟨fun _ => [], fun _ => none⟩

/-- One receiver does something that may fault. -/
def onReceiver (s : Delivery) (receiver : Nat) (change : Receiver → Except Fault Receiver) :
    Except Fault Delivery :=
  match s.receivers receiver with
  | none => return s
  | some before => do
      let after ← change before
      return { s with receivers := Function.update s.receivers receiver (some after) }

/-- A process begins a hooked call when it is done with the one before. -/
def step (s : Delivery) : DeliveryEvent σ → Except Fault Delivery
  | .hooked process _ call =>
      match s.pending process with
      | [] => return { s with pending := Function.update s.pending process call.sent }
      | _ :: _ => return s
  | .sendnlmsg process nlmsgData room =>
      match s.pending process with
      | [] => return s
      | message :: others => do
          let s := { s with pending := Function.update s.pending process others }
          match ← FsProtection.sendnlmsg nlmsgData (message ++ [0]) with
          | none => return s
          | some sent =>
              return { s with receivers := fun receiver =>
                (s.receivers receiver).map (.arrive sent (room receiver)) }
  | .bind receiver =>
      return { s with
        receivers := Function.update s.receivers receiver
          (some ((s.receivers receiver).getD .bound)) }
  | .recvmsg receiver => s.onReceiver receiver Receiver.turn
  | .recvmsgFails receiver => s.onReceiver receiver Receiver.print

end Delivery

/-- A receiver shows an inbox: the texts of its messages wait there, and its lines are what
was read, repeated where a read failed. -/
structure Receiver.Shows (receiver : Receiver) (inbox : Inbox Bytes) : Prop where
  waiting : receiver.queue.map cstr = inbox.waiting
  whole : ∀ sent ∈ receiver.queue, Terminated sent ∧ sent.length = maxMsgsize
  terminated : Terminated receiver.nlmsgData.1
  buffer : cstr receiver.nlmsgData.1 = lastRead [] inbox.reads
  printed : receiver.printed = (fillDown [] inbox.reads).map receivedLine

section Receiving

variable {receiver : Receiver} {inbox : Inbox Bytes}

theorem shows_bound : Receiver.bound.Shows .empty where
  waiting := rfl
  whole _ member := by cases member
  terminated := by decide
  buffer := by decide
  printed := rfl

/-- A message as long as the payload replaces all of it. -/
theorem recvmsg_whole (nlmsgData : SizedBytes maxPayload) {sent : Bytes}
    (size : sent.length = maxMsgsize) : (recvmsg nlmsgData sent).1 = sent := by
  have covers : maxPayload ≤ sent.length := size.ge
  have kept : sent.take maxPayload = sent := List.take_of_length_le size.le
  have gone : nlmsgData.1.drop sent.length = [] :=
    List.drop_eq_nil_of_le (nlmsgData.2.le.trans covers)
  simp [recvmsg, kept, gone]

/-- `printf` shows what was read last. -/
theorem print_shows {waiting : List Bytes} {reads : List (Option Bytes)}
    (read : Option Bytes) (queued : receiver.queue.map cstr = waiting)
    (whole : ∀ sent ∈ receiver.queue, Terminated sent ∧ sent.length = maxMsgsize)
    (terminated : Terminated receiver.nlmsgData.1)
    (buffer : cstr receiver.nlmsgData.1 = read.getD (lastRead [] reads))
    (printed : receiver.printed = (fillDown [] reads).map receivedLine) :
    ∃ after, receiver.print = .ok after ∧ after.Shows ⟨waiting, reads ++ [read]⟩ := by
  refine ⟨_, if_pos terminated, queued, whole, terminated, ?_, ?_⟩
  · rw [buffer, lastRead_snoc]
  · simp [printed, buffer, fillDown_snoc]

theorem turn_shows (shows : receiver.Shows inbox) :
    ∃ after, receiver.turn = .ok after ∧ after.Shows inbox.take := by
  have waiting := shows.waiting
  unfold Receiver.turn Inbox.take
  cases queue : receiver.queue with
  | nil =>
      rw [queue] at waiting
      rw [← waiting]
      exact ⟨receiver, rfl, shows⟩
  | cons sent others =>
      rw [queue] at waiting
      obtain ⟨ended, size⟩ := shows.whole sent (by simp [queue])
      have laid := recvmsg_whole receiver.nlmsgData size
      rw [← waiting]
      refine print_shows (some (cstr sent)) rfl (fun later member => ?_) ?_ ?_ shows.printed
      · exact shows.whole later (by simp [queue, show later ∈ others from member])
      · rw [laid]
        exact ended
      · rw [laid]
        rfl

theorem print_again_shows (shows : receiver.Shows inbox) :
    ∃ after, receiver.print = .ok after ∧ after.Shows inbox.fail :=
  print_shows none shows.waiting shows.whole shows.terminated shows.buffer shows.printed

theorem arrive_shows (shows : receiver.Shows inbox) {sent : Bytes} (terminated : Terminated sent)
    (size : sent.length = maxMsgsize) (room : Bool) :
    (receiver.arrive sent room).Shows (inbox.offer (cstr sent) room) := by
  cases room with
  | false => exact ⟨shows.waiting, shows.whole, shows.terminated, shows.buffer, shows.printed⟩
  | true =>
      refine ⟨?_, fun later member => ?_, shows.terminated, shows.buffer, shows.printed⟩
      · simp [Receiver.arrive, Inbox.offer, shows.waiting]
      · rcases List.mem_append.mp member with earlier | last
        · exact shows.whole later earlier
        · rw [List.mem_singleton.mp last]
          exact ⟨terminated, size⟩

/-- A message that misses the receiver. -/
theorem missed_shows (shows : receiver.Shows inbox) (message : Bytes) :
    receiver.Shows (inbox.offer message false) :=
  ⟨shows.waiting, shows.whole, shows.terminated, shows.buffer, shows.printed⟩

end Receiving

section Notices

variable {σ : Type} {k : Kernel σ} {globals : Globals}

/-- A call names a rule in each message it sends. -/
theorem HookedCall.Told.names {call : HookedCall σ} (told : call.Told k globals) {message : Bytes}
    (sends : message ∈ call.sent) : ∃ test, HookedCall.Names globals test message := by
  have transparent_sends :
      ¬ Transparent k call.call call.before call.ret call.after := fun passed => by
    rw [told.passed passed] at sends
    cases sends
  by_cases decided : call.call.Decided
  · have refused := (told.decided decided).resolve_right transparent_sends
    obtain ⟨test, _, only, names, one⟩ := told.refused refused
    rw [one] at sends
    exact ⟨test, List.mem_singleton.mp sends ▸ names⟩
  · obtain ⟨fd, count, listing⟩ : ∃ fd count, call.call = .getdents64 fd count := by
      simpa using decided
    by_cases filters : ∃ records rest, k.Delivers call.before fd count records rest ∧
        k.Copies (call.before.answered k call.call) (totalSize records)
    · obtain ⟨records, rest, delivered, copies⟩ := filters
      obtain ⟨_, each⟩ := told.listed fd count listing records rest delivered copies
      obtain ⟨place, inside, isMessage⟩ := List.getElem_of_mem sends
      have named := each.get (by rw [each.length_eq]; exact inside) inside
      rw [List.get_eq_getElem, List.get_eq_getElem, isMessage] at named
      exact ⟨_, named⟩
    · refine absurd (told.unlisted fd count listing fun records rest delivered copies => ?_)
        transparent_sends
      exact filters ⟨records, rest, delivered, copies⟩

/-- The messages of a hooked call are notifications of its rules. -/
theorem sent_notifications
    (terminated : ∀ rule ∈ globals.fileListRoot, Terminated rule.filePath.1)
    (delivers : k.DeliversRecords) {call : HookedCall σ}
    (ran : Returns (modified k globals call.call) call.before call.ret call.after)
    {message : Bytes} (sends : message ∈ call.sent) :
    ∃ rule ∈ globals.fileListRoot, message = rule.notification := by
  obtain ⟨test, rule, first, text⟩ := (told terminated delivers ran).names sends
  exact ⟨rule, List.mem_of_find?_eq_some first, text⟩

/-- A notification of a rule whose path ends. -/
def Notice (message : Bytes) : Prop :=
  ∃ rule : FileNode, Terminated rule.filePath.1 ∧ message = rule.notification

theorem Notice.sendable {message : Bytes} (notice : Notice message) :
    (0 : Byte) ∉ message ∧ message.length < maxMsgsize := by
  obtain ⟨rule, terminated, rfl⟩ := notice
  have pathLength := cstr_length_lt terminated
  rw [rule.filePath.2] at pathLength
  have word : (0 : Byte) ∉ rule.type.word ∧ rule.type.word.length ≤ 6 := by
    cases rule.type <;> decide
  have clean : (0 : Byte) ∉ cstr rule.filePath.1 := zero_notMem_cstr
  have headClean : (0 : Byte) ∉ lit "Protected:" := by decide
  have newlineClean : (0 : Byte) ≠ newline := by decide
  constructor
  · simp [FileNode.notification, headClean, clean, newlineClean, word.1]
  · have headLength : (lit "Protected:").length = 10 := rfl
    simp only [FileNode.notification, List.length_append, List.length_cons, headLength, maxMsgsize,
      filepathSize] at *
    omega

/-- What `sendnlmsg` makes of a notification. -/
theorem sendnlmsg_notice {message : Bytes} (notice : Notice message)
    (nlmsgData : SizedBytes maxMsgsize) :
    ∃ sent, sendnlmsg (some nlmsgData) (message ++ [0]) = .ok (some sent) ∧
      sent.length = maxMsgsize ∧ Terminated sent ∧ cstr sent = message := by
  obtain ⟨clean, short⟩ := notice.sendable
  have content : cstr (message ++ [0]) = message := cstr_append_zero clean []
  have ended : Terminated (message ++ [0]) := by simp [Terminated]
  obtain ⟨sent, ran, size, sentEnds, delivered⟩ :=
    sendnlmsg_fits ended (by rw [content]; exact short) nlmsgData
  exact ⟨sent, ran, size, sentEnds, by rw [delivered, content]⟩

end Notices

end FsProtection
