import Reconnoiter.Base64
import Reconnoiter.TagCodec
import Reconnoiter.TagRoundTrip
import Reconnoiter.PrometheusHistogram
import Reconnoiter.TagParse
import Reconnoiter.TagBuild
import Reconnoiter.Canonical
import Reconnoiter.CanonicalRead
import Reconnoiter.CanonicalReread
import Reconnoiter.CanonicalIdempotent
import Reconnoiter.ReverseCheck
import Reconnoiter.DirectorInterests
import Reconnoiter.DirectorSearch
import Reconnoiter.SearchMissCache
import Reconnoiter.Replication
import Reconnoiter.ReplicationSafety
import Reconnoiter.Registry
import Reconnoiter.RegistryIndex
import Reconnoiter.CheckLoader
import Reconnoiter.TagSet
import Reconnoiter.TagSearch
import Reconnoiter.CanonicalMeaning
import Reconnoiter.CheckLog
import Reconnoiter.FiltersetLmdb
import Reconnoiter.DirectorBacklog
import Reconnoiter.HistogramWindow
import Reconnoiter.Filterset
import Reconnoiter.FiltersetBackends
import Reconnoiter.CheckKeys
import Reconnoiter.CheckConvert
import Reconnoiter.TagSearchText
import Reconnoiter.TagSearchParse
import Reconnoiter.TagSearchReparse
import Reconnoiter.MessageDecoder
import Reconnoiter.TagAcceptance
import Reconnoiter.TagsetBuilder
import Reconnoiter.Compaction
import Reconnoiter.TagsetValidation
import Reconnoiter.BoundedWriter
import Reconnoiter.CanonicalBounds
import Reconnoiter.TagReplacement
import Reconnoiter.DuplicateSuppression
import Reconnoiter.ReplicationQuiescence
import Reconnoiter.Httptrap
import Reconnoiter.HttptrapAgreement
import Reconnoiter.MetricValue
import Reconnoiter.HttptrapNames
import Reconnoiter.GraphiteExpand
import Reconnoiter.GraphitePattern
import Reconnoiter.GraphiteMatch
import Reconnoiter.FixedPrefix
import Reconnoiter.MetricIdSearch
import Reconnoiter.TagSearchFollow
import Reconnoiter.TagSearchLayout
import Reconnoiter.FiltersetMetric
import Reconnoiter.MeasurementTag
import Reconnoiter.FiltersetAutoAdd
import Reconnoiter.CanonicalFixed
import Reconnoiter.FiltersetEntries
import Reconnoiter.FiltersetWalk
import Reconnoiter.OrderedTable
import Reconnoiter.CheckKeyOrder
import Reconnoiter.CheckDeletion
import Reconnoiter.CheckConfigure
import Reconnoiter.CheckVersions
import Reconnoiter.BatchExpansion
import Reconnoiter.LogFields
import Reconnoiter.BundleRecords
import Reconnoiter.MessageLine
import Reconnoiter.SourceAttribution
import Reconnoiter.FlushBarrier
import Reconnoiter.ClockTime
import Reconnoiter.PeriodicFiring
import Reconnoiter.CanonicalAppend
import Reconnoiter.FiltersetStable
import Reconnoiter.SlotAccounting
import Reconnoiter.EpochFlush
import Reconnoiter.GuessGrammar
import Reconnoiter.MetricCoerce
import Reconnoiter.Statsd
import Reconnoiter.StatsdReferences
import Reconnoiter.ResolverMaintain
import Reconnoiter.PingRun
import Reconnoiter.Rollup
import Reconnoiter.RollupRuns
import Reconnoiter.PrometheusUnits
import Reconnoiter.CheckWatch
import Reconnoiter.Interpolate
import Reconnoiter.CheckRecycling
import Reconnoiter.MessageReferences
import Reconnoiter.Optimistic
import Reconnoiter.InterestRace
