import SimpleSrv.Nebula.ReadLaws
import SimpleSrv.Nebula.WriteLaws
import SimpleSrv.Ef.CoroutineLaws
import SimpleSrv.Ef.PollBackends
import SimpleSrv.Ef.Shrink
import SimpleSrv.Ef.StackLaws
import SimpleSrv.Ef.Shutdown
import SimpleSrv.Ef.TrailingClose
import SimpleSrv.Ef.WakeUp
import SimpleSrv.Ef.Amd64
import SimpleSrv.Ef.FiberCalls
import SimpleSrv.Nebula.Lifetime
import SimpleSrv.Nebula.Table
import SimpleSrv.Tiga.Escapes
import SimpleSrv.Tiga.Malformed
import SimpleSrv.Ef.FreeOrder
import SimpleSrv.Ef.ConnectLaws
import SimpleSrv.Ef.KqueueTable
import SimpleSrv.Ef.EntryAlignment
import SimpleSrv.Ef.HeaderRoom
import SimpleSrv.Ef.Ledger
import SimpleSrv.Nebula.Pollers
import SimpleSrv.Nebula.PollerSet
import SimpleSrv.Nebula.SocketConnect
import SimpleSrv.Ef.Proxy
import SimpleSrv.Nebula.ThreadPool
import SimpleSrv.Tiga.ScannerTotal
import SimpleSrv.Ef.ListEntry
import SimpleSrv.Ef.PoolRings
import SimpleSrv.Ef.PoolLinks
import SimpleSrv.Pools.QueueRuns
import SimpleSrv.Pools.GrowingRuns
import SimpleSrv.Schedule.Sleepers
import SimpleSrv.Schedule.SwapContext
import SimpleSrv.Tiga.LoggerRuns
import SimpleSrv.Nebula.EchoRuns
import SimpleSrv.Ef.Upstream
import SimpleSrv.Ef.GreetingRuns
import SimpleSrv.Ef.SwitchFaults
