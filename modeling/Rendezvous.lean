import Rendezvous.Installed
import Rendezvous.Kernel.Call
import Rendezvous.Proofs.Deadlines
import Rendezvous.Proofs.Fates
import Rendezvous.Proofs.Queues
import Rendezvous.Proofs.Roles
import Rendezvous.Proofs.Transfer
import Rendezvous.Proofs.Prompt
import Rendezvous.Proofs.Replies
import Rendezvous.Proofs.Completion
import Rendezvous.Proofs.Conduct
import Rendezvous.Proofs.Arrivals
import Rendezvous.Proofs.Lineup
import Rendezvous.Proofs.Dispatch
import Rendezvous.Proofs.Bypass
import Rendezvous.Proofs.WaitingOrder
import Rendezvous.Proofs.Rearranged
import Rendezvous.Proofs.Standings
import Rendezvous.Proofs.Handling
import Rendezvous.Proofs.Alerts
import Rendezvous.Proofs.Resumption
import Rendezvous.Proofs.Idleness
import Rendezvous.Proofs.Departures
import Rendezvous.Proofs.Finality
import Rendezvous.Proofs.Traps
import Rendezvous.Proofs.RunTime
import Rendezvous.Proofs.Store
import Rendezvous.Proofs.Saturation
import Rendezvous.Proofs.Registered
import Rendezvous.Proofs.PlainQueues
import Rendezvous.Proofs.Receipt
import Rendezvous.Proofs.Agreement
import Rendezvous.Proofs.Codec
import Rendezvous.Proofs.Preemption
import Rendezvous.Proofs.Memory
import Rendezvous.Proofs.Isolation
import Rendezvous.Proofs.Texts
import Rendezvous.Proofs.Dumps
import Rendezvous.Proofs.Bystanders
import Rendezvous.Proofs.Refusals
import Rendezvous.Proofs.Names
import Rendezvous.Proofs.EarlyReplies
