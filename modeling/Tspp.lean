import Tspp.Series.Pipeline
import Tspp.Series.LookupsAgree
import Tspp.Series.SkipOnIndex
import Tspp.Series.Mutation
import Tspp.Join.InnerLaws
import Tspp.Join.Lagged
import Tspp.Join.Matches
import Tspp.Join.Interweave
import Tspp.Chrono.AsofFwd
import Tspp.Chrono.LookAhead
import Tspp.Chrono.RounderLaws
import Tspp.Core.CommandRuns
import Tspp.Core.PartialMap
import Tspp.Series.References
import Tspp.Series.Store
import Tspp.Series.Iteration
import Tspp.Core.Agreement
import Tspp.Series.PipelineRelated
import Tspp.Series.Causality
import Tspp.Series.RollingLaws
import Tspp.Series.Equality
import Tspp.Join.AnySeries
import Tspp.Core.OrderedMap
import Tspp.Join.InterweaveLaws
import Tspp.Join.LeftRepaired
import Tspp.Series.Incremental
import Tspp.Series.Meaning
import Tspp.Join.AsofFate
import Tspp.Join.Expressions
import Tspp.Join.Recoding
import Tspp.Series.Traversal
import Tspp.Core.NestedRounding
import Tspp.Chrono.BarLookAhead
import Tspp.Chrono.Stages
import Tspp.Join.Continued
