import CE321.Lists.Runs
import CE321.Dedup.Agreement
import CE321.Dedup.Counters
import CE321.Dedup.ReadBack
import CE321.Dedup.PushBlock
import CE321.Dedup.Overwriting
import CE321.Dedup.Ranges
import CE321.Dedup.Transparency
import CE321.Dedup.Names
import CE321.Dedup.Failures
import CE321.Dedup.Sharing
import CE321.Slob.MemoryFree
import CE321.Slob.Frontend
import CE321.Slob.Agreement
import CE321.Slob.Undo
import CE321.Slob.KernelRuns
import CE321.Vsched.EmptyQueue
import CE321.Vsched.Timings
import CE321.Vsched.Slices
import CE321.Vsched.Waiting
import CE321.Vsched.ListRuns
import CE321.Vsched.Sleepers
import CE321.Vsched.Births
import CE321.Iosched.Order
import CE321.Cpuinit.Acceptance
import CE321.Cpuinit.FinalNewline
import CE321.Cpuinit.Loading
