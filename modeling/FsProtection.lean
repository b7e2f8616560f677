import FsProtection.Base.Region
import FsProtection.Base.CString
import FsProtection.Base.Program
import FsProtection.Communicate.Rules
import FsProtection.Kernel.Interface
import FsProtection.Communicate.Parser
import FsProtection.Kernel.Quiet
import FsProtection.Communicate.LineIndependence
import FsProtection.Communicate.Lookup
import FsProtection.Communicate.Proc
import FsProtection.Hooks.Descriptor
import FsProtection.Configuration
import FsProtection.Client.Encode
import FsProtection.Utilities.Path
import FsProtection.Hooks.Decision
import FsProtection.Hooks.Path
import FsProtection.Kernel.Dirent
import FsProtection.Hooks.Directory
import FsProtection.Hooks.Getdents
import FsProtection.Hooks.Transparency
import FsProtection.Hooks.Listing
import FsProtection.Hooks.Secrecy
import FsProtection.Base.Counted
import FsProtection.Hooks.Table
import FsProtection.Kernel.Inodes
import FsProtection.Lifetime
import FsProtection.Hooks.Naming
import FsProtection.Hooks.Enforcement
import FsProtection.Hooks.Notices
import FsProtection.Hooks.Pairs
import FsProtection.Hooks.Survival
import FsProtection.Update
import FsProtection.Base.Heap
import FsProtection.Base.NodeList
import FsProtection.Base.Holds
import FsProtection.Client.FileList
import FsProtection.Client.Commands
import FsProtection.Communicate.RuleHeap
import FsProtection.Communicate.RuleSets
import FsProtection.Load.Complete
import FsProtection.Communicate.Hazards
import FsProtection.Communicate.Scratch
import FsProtection.Communicate.Accounting
import FsProtection.Communicate.Ledger
import FsProtection.Communicate.Released
import FsProtection.Hooks.Filter
import FsProtection.Hooks.Identity
import FsProtection.Hooks.Freshness
import FsProtection.Client.Sessions
import FsProtection.Communicate.Channel
import FsProtection.Communicate.Notification
import FsProtection.Hooks.Bounds
import FsProtection.Hooks.Resources
import FsProtection.Hooks.Parent
import FsProtection.Base.Checked
import FsProtection.Hooks.Strict
import FsProtection.Hooks.StrictAssembly
import FsProtection.Hooks.Failure
import FsProtection.Client.Limits
import FsProtection.Base.Loop
import FsProtection.Utilities.Dentry
import FsProtection.Client.Terminal
import FsProtection.Client.MainLoop
import FsProtection.Base.Script
import FsProtection.Base.Walk
import FsProtection.Communicate.Stepwise
import FsProtection.Communicate.Promises
import FsProtection.Communicate.Walks
import FsProtection.Communicate.Linearization
import FsProtection.Communicate.Overtaking
import FsProtection.Base.Pattern
import FsProtection.Load.Search
import FsProtection.Load.Accesses
import FsProtection.Load.Entries
import FsProtection.Load.Dispatch
import FsProtection.Load.Soundness
import FsProtection.Load.Reaching
import FsProtection.Base.Multicast
import FsProtection.Base.Ordered
import FsProtection.Delivery
import FsProtection.Printing
import FsProtection.Client.Typing
import FsProtection.Monitor
import FsProtection.Harmless
import FsProtection.Interference
import FsProtection.Communicate.Clears
import FsProtection.Communicate.LockStep
import FsProtection.Communicate.Ownership
import FsProtection.Communicate.Keeping
import FsProtection.Communicate.Saves
import FsProtection.Communicate.Handlers
import FsProtection.Communicate.Serial
import FsProtection.Communicate.Board
