import Wei.Lib.Runs
import Wei.Lib.RealDouble
import Wei.Infer.Timed
import Wei.Track.Excursions
import Wei.Isolation
import Wei.Wire
import Wei.Infer.Readmission
import Wei.Infer.LossRate
import Wei.Infer.Rereading
import Wei.Infer.Ledger
import Wei.Infer.Throughput
import Wei.Infer.Blame
import Wei.Infer.ReusedSlot
import Wei.Infer.Steady
import Wei.Bus
import Wei.Poll
import Wei.Process.Lifecycle
import Wei.Process.Quiet
import Wei.Process.Report
import Wei.Process.Provenance
import Wei.Process.Run
import Wei.Process.Traffic
import Wei.Life.Usable
import Wei.Life.Interleaving
import Wei.Life.LossDetector
import Wei.Infer.VerdictExact
import Wei.Perfreport.Complete
import Wei.Perfreport.Serialize
import Wei.Life.Contexts
import Wei.Life.Threads
import Wei.Util.Threads
import Wei.Sockdump.Agreement
import Wei.ReportPublish
import Wei.Rfc
