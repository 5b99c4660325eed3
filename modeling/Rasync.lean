import Rasync.Sanity.Codec
import Rasync.Sanity.Plans
import Rasync.Proofs.Merge
import Rasync.Lib.Loop
import Rasync.Spec.Delta
import Rasync.Proofs.DeltaRoundTrip
import Rasync.Spec.Advertise
import Rasync.Sanity.Updates
import Rasync.Proofs.Advertise
import Rasync.Spec.Scan
import Rasync.Spec.Session
import Rasync.Lib.Runs
import Rasync.Sanity.Frames
import Rasync.Sanity.Transfers
import Rasync.Spec.Inbox
import Rasync.Sanity.Inbox
import Rasync.Proofs.Integrity
import Rasync.Spec.Duo
import Rasync.Spec.Replica
import Rasync.Sanity.Refinement
import Rasync.Sanity.Twins
import Rasync.Sanity.Line
import Rasync.Sanity.Lines
import Rasync.Sanity.Connection
import Rasync.Sanity.Agreement
import Rasync.Proofs.Conservation
import Rasync.Proofs.Flow
import Rasync.Proofs.Install
import Rasync.Sanity.Walk
import Rasync.Proofs.Walk
import Rasync.Proofs.Rescan
import Rasync.Sanity.Store
import Rasync.Sanity.Held
import Rasync.Proofs.Unseen
import Rasync.Sanity.Reserved
import Rasync.Proofs.PullOnly
import Rasync.Proofs.Served
import Rasync.Lib.Resolve
import Rasync.Sanity.Names
import Rasync.Proofs.Confined
import Rasync.Proofs.Deletions
import Rasync.Lib.PrefixCodec
import Rasync.Proofs.Manifest
import Rasync.Proofs.Additive
import Rasync.Proofs.Represented
import Rasync.Lib.Window
import Rasync.Proofs.PullWindow
import Rasync.Proofs.Retry
import Rasync.Spec.Threads
import Rasync.Sanity.Threads
import Rasync.Sanity.Alone
import Rasync.Spec.Handshake
import Rasync.Sanity.Handshake
import Rasync.Proofs.Handshake
import Rasync.Proofs.Refusal
import Rasync.Proofs.Ignored
import Rasync.Sanity.Pending
import Rasync.Proofs.Overtaken
import Rasync.Proofs.Forgotten
import Rasync.Spec.Service
import Rasync.Sanity.Told
import Rasync.Proofs.Notified
import Rasync.Spec.Pair
import Rasync.Proofs.Baselines
import Rasync.Proofs.PathCheck
import Rasync.Lib.Wildcard
import Rasync.Proofs.Globs
import Rasync.Proofs.Gitignore
import Rasync.Proofs.DeltaShape
import Rasync.Proofs.DeltaComplete
import Rasync.Lib.Worklist
import Rasync.Sanity.Follow
import Rasync.Proofs.Follow
import Rasync.Proofs.Streaming
import Rasync.Proofs.Landing
import Rasync.Proofs.Converge
import Rasync.Lib.Codewords
import Rasync.Proofs.Fingerprint
import Rasync.Proofs.Checksum
import Rasync.Lib.Backoff
import Rasync.Spec.DialRetry
import Rasync.Proofs.DialRetry
import Rasync.Spec.Gate
import Rasync.Proofs.Gate
import Rasync.Spec.Cli
import Rasync.Spec.Scoping
import Rasync.Sanity.Scoping
import Rasync.Proofs.Scoping
import Rasync.Proofs.Numbers
import Rasync.Proofs.StateDir
import Rasync.Lib.Credit
import Rasync.Spec.SendGate
import Rasync.Sanity.Strides
import Rasync.Sanity.Waits
import Rasync.Proofs.SendGate
import Rasync.Proofs.Paced
import Rasync.Spec.Frame
import Rasync.Lib.PrefixFree
import Rasync.Sanity.Framing
import Rasync.Lib.MapKeys
import Rasync.Sanity.Fitting
import Rasync.Spec.Router
import Rasync.Sanity.Wired
import Rasync.Proofs.Routed
import Rasync.Lib.Firsts
import Rasync.Proofs.Reports
import Rasync.Sanity.Knowledge
import Rasync.Proofs.Known
import Rasync.Spec.Startup
import Rasync.Proofs.Startup
import Rasync.Sanity.Places
import Rasync.Spec.Restart
import Rasync.Proofs.Lifetimes
