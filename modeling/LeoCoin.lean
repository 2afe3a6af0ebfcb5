import LeoCoin.Theory.Append
import LeoCoin.Theory.DeclaredLength
import LeoCoin.Theory.DecodingWork
import LeoCoin.Theory.DiscoverySystem
import LeoCoin.Theory.FirstInvalid
import LeoCoin.Theory.Forks
import LeoCoin.Theory.HostOrder
import LeoCoin.Theory.ListCalls
import LeoCoin.Theory.LockedPublished
import LeoCoin.Theory.LockedSerial
import LeoCoin.Theory.LockedSimulation
import LeoCoin.Theory.MinerProgram
import LeoCoin.Theory.Mutex
import LeoCoin.Theory.NonceSearch
import LeoCoin.Theory.OwnedNode
import LeoCoin.Theory.PayloadLength
import LeoCoin.Theory.ReadBounds
import LeoCoin.Theory.SignatureBounds
import LeoCoin.Theory.Signing
import LeoCoin.Theory.SweepUses
import LeoCoin.Theory.ThreadedRuns
import LeoCoin.Theory.Truncation
import LeoCoin.Theory.WorkCheck
