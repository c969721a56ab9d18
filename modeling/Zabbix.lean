import Zabbix.Library.Recognizer
import Zabbix.Expression.Buffers
import Zabbix.Expression.Acceptance
import Zabbix.Json.StringDecoding
import Zabbix.Text.ParamAgreement
import Zabbix.Text.ParamSyntax
import Zabbix.Text.Params
import Zabbix.Common.IdArray
import Zabbix.Common.IpList
import Zabbix.Common.Ipv6Collapse
import Zabbix.Common.Ipv6Expand
import Zabbix.Common.Utf8Check
import Zabbix.Common.Unsigned
import Zabbix.Library.Scanf
import Zabbix.Library.Fields
import Zabbix.Library.Digits
import Zabbix.Library.RunLength
import Zabbix.Common.Timespec
import Zabbix.Common.Int128
import Zabbix.Db.Condition
import Zabbix.Db.Escape
import Zabbix.ValueCache.CleanCache
import Zabbix.ValueCache.ReadValue
import Zabbix.ValueCache.CacheOperations
import Zabbix.ValueCache.RecordCount
import Zabbix.ValueCache.StringPool
import Zabbix.Library.BinarySearch
import Zabbix.Library.Entries
import Zabbix.Library.Memmove
import Zabbix.HistoryCache.History
import Zabbix.HistoryCache.VacuumHistory
import Zabbix.HistoryCache.VacuumText
import Zabbix.Library.Reachability
import Zabbix.Library.Procedure
import Zabbix.Library.SqlCondition
import Zabbix.Library.SqlLiteral
import Zabbix.Library.Utf8
import Zabbix.Expression.Batch
import Zabbix.Expression.Functions
import Zabbix.Escalator.EscalationRun
import Zabbix.Escalator.Escalations
import Zabbix.Agent.LogrtRun
import Zabbix.Agent.Logrt
import Zabbix.Library.Lines
import Zabbix.Agent.BufferRun
import Zabbix.Agent.ActiveBuffer
import Zabbix.Comms.Framing
import Zabbix.Comms.Tcp
import Zabbix.Comms.ByteStream
import Zabbix.Crypto.Base64RoundTrip
import Zabbix.Crypto.Base64
import Zabbix.Library.Buffer
import Zabbix.Algo.DirectHeap
import Zabbix.Algo.Hashmap
import Zabbix.Expression.Rounds
import Zabbix.Expression.Signed
import Zabbix.Expression.Simple
import Zabbix.Expression.Signs
import Zabbix.Expression.Syntax
import Zabbix.Expression.Evaluate
import Zabbix.ValueCache.ReleaseSafety
import Zabbix.ValueCache.ReleaseSpace
import Zabbix.Json.RoundTrip
import Zabbix.Json.WriterAccepted
import Zabbix.Json.WriterText
import Zabbix.Json.Document
import Zabbix.Json.Writer
import Zabbix.Json.Traversal
import Zabbix.Json.Decoding
import Zabbix.Json.Levels
import Zabbix.Json.Standard
import Zabbix.Json.Occurrence
import Zabbix.Json.Reader
import Zabbix.Json.ValidatorExact
import Zabbix.Json.Scalars
import Zabbix.Json.Syntax
import Zabbix.Json.Validator
import Zabbix.Text.ItemKeyAgreement
import Zabbix.Text.ItemKeySyntax
import Zabbix.Text.ItemKeyScan
import Zabbix.Text.ItemKey
import Zabbix.Library.Ascii
import Zabbix.Algo.HashsetRun
import Zabbix.Algo.HashsetSound
import Zabbix.Algo.Hashset
import Zabbix.Algo.NextPrime
import Zabbix.Library.Chains
import Zabbix.Memory.FailedRealloc
import Zabbix.Memory.Accounting
import Zabbix.Memory.RequiredSize
import Zabbix.Memory.Runs
import Zabbix.Memory.Client
import Zabbix.Memory.Reallocating
import Zabbix.Memory.Settled
import Zabbix.Memory.Freeing
import Zabbix.Memory.Operations
import Zabbix.Memory.Layout
import Zabbix.Library.Tiling
import Zabbix.Memory.Allocator
import Zabbix.Library.LinkedList
import Zabbix.Ids.Disjoint
import Zabbix.Ids.NextId
import Zabbix.Proxy.HostAvailability
import Zabbix.Proxy.HistorySender
import Zabbix.Proxy.RememberedRecord
import Zabbix.Library.IdLog
import Zabbix.Availability.Columns
import Zabbix.Availability.Documented
import Zabbix.Availability.Poll
import Zabbix.Config.IndexExactness
import Zabbix.Config.QueueRun
import Zabbix.Config.QueueOrder
import Zabbix.Config.Holding
import Zabbix.Config.StepSpecs
import Zabbix.Config.Placement
import Zabbix.Algo.BinaryHeapKeys
import Zabbix.Config.Polling
import Zabbix.Config.Items
import Zabbix.Config.Nextcheck
import Zabbix.Config.PollerItems
import Zabbix.Config.Tables
import Zabbix.Config.Index
import Zabbix.Library.Table
import Zabbix.Trigger.Consistency
import Zabbix.Trigger.Dependencies
import Zabbix.Trigger.DependencySync
import Zabbix.Trigger.DependencyCheck
import Zabbix.Algo.BinaryHeapRun
import Zabbix.ValueCache.AddExactness
import Zabbix.ValueCache.Answers
import Zabbix.Algo.HashmapRun
import Zabbix.Algo.HashsetPass
import Zabbix.Config.UserMacros
import Zabbix.Library.Identifiers
import Zabbix.Regexp.SharedOutput
import Zabbix.Regexp.GlobalRegexp
import Zabbix.Text.DiscoveryExactness
import Zabbix.Text.DiscoveryMacros
import Zabbix.Text.FunctionCall
import Zabbix.Library.Placeholder
import Zabbix.Poller.CalculatedItem
import Zabbix.Poller.CalculatedSubstitution
import Zabbix.Agent.LineReading
import Zabbix.Agent.LinePieces
import Zabbix.Agent.LineExactness
import Zabbix.Text.RemoveParam
import Zabbix.Library.Latest
import Zabbix.Timer.Calendar
import Zabbix.Library.SortedInsert
import Zabbix.Timer.MaintenancePeriod
import Zabbix.Timer.MaintenanceHosts
import Zabbix.Library.SampleRing
import Zabbix.Agent.CpuStat
import Zabbix.Selfmon.Collector
import Zabbix.Selfmon.Utilisation
import Zabbix.Text.SimpleMacros
import Zabbix.Poller.HttpSubstitution
import Zabbix.Agent.UserCommand
import Zabbix.Crypto.Md5
import Zabbix.Agent.FileChecksum
import Zabbix.Text.Hexadecimal
