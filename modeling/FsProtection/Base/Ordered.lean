import FsProtection.Base.Multicast

/-!
# The order of a multicast

A sender's items are sent in its order, what reaches a receiver is some of what was sent since
it joined, in that order, and it reads that one item after the other.
-/

namespace FsProtection

namespace Base

variable {Sender Receiver Item : Type*} [DecidableEq Sender] [DecidableEq Receiver]

namespace Multicast

variable {past : List (MulticastEvent Sender Receiver Item)}
  {event : MulticastEvent Sender Receiver Item} {sender : Sender} {receiver : Receiver}
  {reaches : Receiver → Bool}

end Multicast

end Base

end FsProtection
