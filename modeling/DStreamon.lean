import DStreamon.Proofs.StateTimeouts
import DStreamon.Proofs.BloomPair
import DStreamon.Proofs.Timers
import DStreamon.Proofs.Entries
import DStreamon.Proofs.Interleaving
import DStreamon.Proofs.Lifecycle
import DStreamon.Proofs.HashPaths
import DStreamon.Proofs.Threshold
import DStreamon.Proofs.Tewma
import DStreamon.Proofs.Contract
import DStreamon.Proofs.MetricBlock
import DStreamon.Proofs.MetricReset
import DStreamon.Proofs.DnsBounds
import DStreamon.Proofs.CaptureLoop
import DStreamon.Proofs.DBQueue
import DStreamon.Proofs.Gates
import DStreamon.Proofs.UpdateBlock
import DStreamon.Proofs.KeyedFilter
import DStreamon.Proofs.TimerThread
import DStreamon.Proofs.Novelty
import DStreamon.Proofs.EndToEnd
import DStreamon.Proofs.ExportedRecords
import DStreamon.Proofs.FileReading
import DStreamon.Proofs.Files
import DStreamon.Proofs.Flowkeys
import DStreamon.Proofs.Selector
import DStreamon.Proofs.DigestCache
import DStreamon.Proofs.Buffer
import DStreamon.Proofs.Khash
import DStreamon.Proofs.HashSplitter
import DStreamon.Proofs.Bookkeeping
import DStreamon.Proofs.Serialize
import DStreamon.Proofs.DLeftSlots
import DStreamon.Proofs.DLeftCounter
import DStreamon.Proofs.TewmaReads
import DStreamon.CBF
import DStreamon.Proofs.CBF
import DStreamon.DnsMessage
import DStreamon.Proofs.DnsExpansion
import DStreamon.Proofs.DnsMessage
import DStreamon.Proofs.Fifo
import DStreamon.Proofs.CompositeKey
import DStreamon.Proofs.HttpHeaders
import DStreamon.Proofs.HttpCalls
import DStreamon.Proofs.PacketCalls
import DStreamon.Proofs.Substitution
import DStreamon.Proofs.TableUpdate
import DStreamon.Proofs.Features
import DStreamon.Proofs.NetTypes
import DStreamon.Proofs.Transcoder
import DStreamon.Proofs.WireTemplate
import DStreamon.Proofs.RecordLag
import DStreamon.Proofs.Session
import DStreamon.Proofs.ExporterRuns
import DStreamon.Proofs.MBuf
import DStreamon.Proofs.Collector
import DStreamon.Proofs.Connections
import DStreamon.Proofs.DnsBudget
import DStreamon.Proofs.BitFields
import DStreamon.Proofs.NeverMissing
import DStreamon.Proofs.SchedulerRuns
import DStreamon.Proofs.Deadlock
import DStreamon.Files
import DStreamon.Proofs.TemplateRecords
import DStreamon.Lib.IStream
import DStreamon.InfoModel
import DStreamon.Proofs.InfoModel
