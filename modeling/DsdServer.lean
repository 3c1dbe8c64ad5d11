import DsdServer.Assoc.Audio
import DsdServer.Assoc.AudioStore
import DsdServer.Assoc.Balance
import DsdServer.Assoc.Blind
import DsdServer.Assoc.Bounds
import DsdServer.Assoc.Calls
import DsdServer.Assoc.Consistency
import DsdServer.Assoc.Cores
import DsdServer.Assoc.Counters
import DsdServer.Assoc.Edits
import DsdServer.Assoc.Entities
import DsdServer.Assoc.EventLine
import DsdServer.Assoc.Eviction
import DsdServer.Assoc.Exclusive
import DsdServer.Assoc.Faithful
import DsdServer.Assoc.Handling
import DsdServer.Assoc.History
import DsdServer.Assoc.Identity
import DsdServer.Assoc.Invariants
import DsdServer.Assoc.Isolation
import DsdServer.Assoc.Listing
import DsdServer.Assoc.LogLine
import DsdServer.Assoc.Model
import DsdServer.Assoc.Networks
import DsdServer.Assoc.Pruning
import DsdServer.Assoc.Reachable
import DsdServer.Assoc.Recorded
import DsdServer.Assoc.Recorder
import DsdServer.Assoc.Records
import DsdServer.Assoc.References
import DsdServer.Assoc.Replay
import DsdServer.Assoc.Shelf
import DsdServer.Assoc.Sightings
import DsdServer.Assoc.Silent
import DsdServer.Assoc.Slots
import DsdServer.Assoc.Stored
import DsdServer.Assoc.Streams
import DsdServer.Assoc.Text
import DsdServer.Assoc.Types
import DsdServer.Assoc.Unseen
import DsdServer.Assoc.Verdicts
import DsdServer.Data.Bytes
import DsdServer.Data.FlatMap
import DsdServer.Data.Gather
import DsdServer.Data.Inserted
import DsdServer.Data.Joined
import DsdServer.Data.Ledger
import DsdServer.Data.Maximal
import DsdServer.Data.Nested
import DsdServer.Data.Path
import DsdServer.Data.Regex
import DsdServer.Data.Runs
import DsdServer.Data.SortedMap
import DsdServer.Data.Source
import DsdServer.Data.Stride
import DsdServer.Data.Stripped
import DsdServer.Data.Total
import DsdServer.Data.Weight
import DsdServer.Data.Wrap
import DsdServer.Dmr.Ars
import DsdServer.Dmr.LateIdentity
import DsdServer.Dmr.PduCarry
import DsdServer.Dmr.PduText
import DsdServer.Dmr.SlotAggregator
import DsdServer.Dmr.SlotCalls
import DsdServer.Json.Flat
import DsdServer.Json.FlatRound
import DsdServer.Json.Parse
import DsdServer.Json.RoundTrip
import DsdServer.Json.Tree
import DsdServer.Json.Value
import DsdServer.Json.Write
import DsdServer.Merge.Apply
import DsdServer.Merge.Capacity
import DsdServer.Merge.Capping
import DsdServer.Merge.Casts
import DsdServer.Merge.Conversions
import DsdServer.Merge.Dataset
import DsdServer.Merge.Excess
import DsdServer.Merge.Export
import DsdServer.Merge.ExportRound
import DsdServer.Merge.ExportShape
import DsdServer.Merge.ExportTree
import DsdServer.Merge.Fold
import DsdServer.Merge.Graphml
import DsdServer.Merge.Import
import DsdServer.Merge.Layers
import DsdServer.Merge.Provenance
import DsdServer.Merge.Qualified
import DsdServer.Merge.RuleFile
import DsdServer.Merge.Rules
import DsdServer.Merge.RulesInEffect
import DsdServer.Merge.Spans
import DsdServer.Merge.Uploads
import DsdServer.Merge.XmlText
import DsdServer.Server.AirText
import DsdServer.Server.DsdFme
import DsdServer.Server.Extras
import DsdServer.Server.Files
import DsdServer.Server.Hints
import DsdServer.Server.IqQueue
import DsdServer.Server.IqRuns
import DsdServer.Server.KeyFile
import DsdServer.Server.KeyForms
import DsdServer.Server.KeyList
import DsdServer.Server.KeyRound
import DsdServer.Server.Keys
import DsdServer.Server.Outbound
import DsdServer.Server.Pager
import DsdServer.Server.Ports
import DsdServer.Server.Query
import DsdServer.Server.Ranges
import DsdServer.Server.Rates
import DsdServer.Server.Reader
import DsdServer.Server.Requests
import DsdServer.Server.Session
import DsdServer.Server.Stats
import DsdServer.Server.StatsRuns
import DsdServer.Server.StreamKeys
import DsdServer.Server.Tidy
import DsdServer.Server.Tuning
import DsdServer.Signal.Decimation
import DsdServer.Signal.Resampler
import DsdServer.Tetra.BurstSync
import DsdServer.Tetra.Frontend
import DsdServer.Tetra.KitGrammar
import DsdServer.Tetra.KitJson
import DsdServer.Tetra.Voice
