import Navy.Proofs.PmmLive
import Navy.Proofs.SpaceSharing
import Navy.Library.RadixForest
import Navy.Proofs.Supply
import Navy.Syscall
import Navy.Library.StackMail
import Navy.Proofs.ProcessTable
import Navy.Proofs.Delivery
import Navy.Proofs.Preemption
import Navy.Proofs.LockSafety
import Navy.Proofs.InterruptFlag
import Navy.Proofs.TlbCoherence
import Navy.Proofs.Dispatch
import Navy.Proofs.ModuleSafety
import Navy.Proofs.Teardown
import Navy.Proofs.Boot
import Navy.Proofs.Operations
import Navy.Proofs.Isolation
import Navy.Proofs.Lifetime
import Navy.Proofs.RecycledMemory
import Navy.Proofs.StringSearch
import Navy.Proofs.Tokens
import Navy.Proofs.RoundTrips
import Navy.Proofs.HeapHooks
import Navy.Proofs.VecStack
import Navy.Proofs.FreshSpace
import Navy.Proofs.ModuleLookup
import Navy.Proofs.SymbolSafety
import Navy.Proofs.SymbolLookup
import Navy.Proofs.EntryFrames
import Navy.Proofs.Confinement
import Navy.Proofs.LiballocStale
import Navy.Proofs.TestFinish
