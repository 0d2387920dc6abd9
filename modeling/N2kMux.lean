import N2kMux.CanFilter.SecondBus
import N2kMux.Daemon.AisRun
import N2kMux.AisDedup.HandOver
import N2kMux.Lib.Files
import N2kMux.Web.Saving
import N2kMux.Daemon.Traffic
import N2kMux.Lib.Tally
import N2kMux.Stats.Model
import N2kMux.Stats.Counts
import N2kMux.Stats.Document
import N2kMux.CanFilter.Protocol
import N2kMux.Lib.Watched
import N2kMux.Daemon.Documents
import N2kMux.Registry.Counted
import N2kMux.Arbiter.BusTree
import N2kMux.Arbiter.BusHistory
import N2kMux.Lib.Keyed
import N2kMux.Registry.SourcesView
import N2kMux.Lib.Quoted
import N2kMux.Lib.Documents
import N2kMux.Daemon.AtonKept
import N2kMux.Daemon.AtonTokens
import N2kMux.Daemon.Aton
import N2kMux.Lib.Values
import N2kMux.Jsonl.Truncated
import N2kMux.Jsonl.CutFields
import N2kMux.Jsonl.CutValue
import N2kMux.Jsonl.Members
import N2kMux.Jsonl.Spelled
import N2kMux.Web.Alike
import N2kMux.Simulator.Reader
import N2kMux.Simulator.Control
import N2kMux.Lib.Settings
import N2kMux.Nmea0183.Position
import N2kMux.Polar.Columns
import N2kMux.Polar.Speed
import N2kMux.Lib.Interpolation
import N2kMux.Polar.Model
import N2kMux.Web.Credential
import N2kMux.Lib.Base64
import N2kMux.Ais.Packing
import N2kMux.Lib.Bits
import N2kMux.CanFilter.Identifiers
import N2kMux.Lib.Cut
import N2kMux.Jsonl.Literal
import N2kMux.Web.ControlFile
import N2kMux.Web.Wrapped
import N2kMux.Web.Simulator
import N2kMux.Lib.Binary64
import N2kMux.Lib.While
import N2kMux.IniMerge.Limits
import N2kMux.IniMerge.Carried
import N2kMux.Registry.Every
import N2kMux.Daemon.Published
import N2kMux.Arbiter.BusMap
import N2kMux.Registry.Sources
import N2kMux.Lib.Json
import N2kMux.Web.WholeBody
import N2kMux.Web.Client
import N2kMux.Lib.Search
import N2kMux.Mapper.Borrowed
import N2kMux.Lib.Memo
import N2kMux.Daemon.RateLaw
import N2kMux.Daemon.Throttle
import N2kMux.Lib.Limiter
import N2kMux.Mapper.SatsInView
import N2kMux.Lib.Pages
import N2kMux.Registry.Leaks
import N2kMux.Web.SourcesTab
import N2kMux.Web.UnitsTab
import N2kMux.Web.Unchanged
import N2kMux.Web.Received
import N2kMux.Web.Posted
import N2kMux.Web.Model
import N2kMux.Config.Lookups
import N2kMux.Config.WellFormed
import N2kMux.Mapper.Framed
import N2kMux.IniMerge.InPlace
import N2kMux.IniMerge.Idempotent
import N2kMux.Daemon.LineReader
import N2kMux.Netout.Framing
import N2kMux.Ydraw.FastPacket
import N2kMux.CanFilter.Losers
import N2kMux.AisDedup.Preference
import N2kMux.IniMerge.Merged
import N2kMux.Jsonl.RoundTrip
import N2kMux.Arbiter.Priority
import N2kMux.Config.Entries
import N2kMux.Daemon.Losers
import N2kMux.Daemon.Pipeline
import N2kMux.Registry.Identity
import N2kMux.Daemon.Sourced
import N2kMux.Lib.Periodic
import N2kMux.Simulator.Schedule
