import RownRg.Lib.Text
import RownRg.Lib.Regex
import RownRg.Lib.Scan
import RownRg.Core.Citations
import RownRg.Lib.Dedup
import RownRg.Core.Marks
import RownRg.Core.Renumbering
import RownRg.Core.RenumberLaws
import RownRg.Core.Charts
import RownRg.Core.State
import RownRg.Generation.Candidates
import RownRg.Workflows.WorkingCopy
import RownRg.Sections.Editing
import RownRg.Core.Types
import RownRg.Lib.Runs
import RownRg.Workflows.Pipeline
import RownRg.Projects.Derive
import RownRg.Workflows.Runner
import RownRg.Workflows.Resume
import RownRg.Workflows.Gates
import RownRg.Lib.Lines
import RownRg.Core.ChartFences
import RownRg.Lib.Uuid
import RownRg.Lib.Json
import RownRg.Core.SectionPlan
import RownRg.Sections.Drift
import RownRg.Core.BuildsOn
import RownRg.Core.Levels
import RownRg.Generation.DependencyGraph
import RownRg.Lib.Graph
import RownRg.Workflows.FlowDeps
import RownRg.Core.IdTokens
import RownRg.Core.Outline
import RownRg.Core.OutlineIds
import RownRg.Core.OutlineNormal
import RownRg.Core.OutlineDuplicates
import RownRg.Generation.Planner
import RownRg.Generation.OutlineEdits
import RownRg.Sections.OutlineDrift
import RownRg.Core.Carried
import RownRg.Sections.Rebase
import RownRg.Core.ChartLayout
import RownRg.Core.ChartSources
import RownRg.Sections.ChartRebase
import RownRg.Sections.Versions
import RownRg.Core.ChartSpec
import RownRg.Core.TableToChart
import RownRg.Auth.RefreshTokens
import RownRg.Retrieval.Rehearsal
import RownRg.Workflows.ExitWindow
import RownRg.Workflows.RowWins
import RownRg.Sections.Store
import RownRg.Workflows.NarrativeChain
import RownRg.Workflows.WriteRun
import RownRg.Workflows.KeptRows
import RownRg.Workflows.WrittenTexts
import RownRg.Retrieval.CacheCoherence
import RownRg.Workflows.AiEdits
import RownRg.Core.ChartFields
import RownRg.Core.ChartNumbers
import RownRg.Core.ChartRoundTrip
import RownRg.Core.DrawnTables
import RownRg.Projects.ConfigMerge
import RownRg.Workflows.ConfigSaves
import RownRg.Export.LeadHeading
import RownRg.Core.Circles
import RownRg.Core.Batches
import RownRg.Lib.Script
import RownRg.Qa.MarkerSpacing
import RownRg.Web.RefLabels
import RownRg.Web.OutlineEditor
import RownRg.Web.FollowedRefs
import RownRg.Web.Validation
import RownRg.Web.FormSound
import RownRg.Qa.HeadingSpots
import RownRg.Qa.HeadingFindings
import RownRg.Qa.HeadingRepair
import RownRg.Qa.LoneHeading
import RownRg.Qa.KeptReferences
import RownRg.Retrieval.Interleave
import RownRg.Retrieval.SourceCap
import RownRg.Sections.VersionDiff
import RownRg.Sections.VersionStore
import RownRg.Sections.RewriteOrder
import RownRg.Ledger.Entry
import RownRg.Ledger.Selection
import RownRg.Lib.Double
import RownRg.Ledger.Conflicts
import RownRg.Indexing.Chunking
import RownRg.Indexing.TableSafety
import RownRg.Auth.RateLimiter
import RownRg.Gpu.GpuQueue
import RownRg.Lib.Greedy
import RownRg.Generation.WriterContext
import RownRg.Generation.SplitWriter
import RownRg.Workflows.FailureCount
import RownRg.Lib.Spots
import RownRg.Qa.Numbers
import RownRg.Workflows.SectionRetries
import RownRg.Qa.Alignment
import RownRg.Qa.CrossSection
import RownRg.Qa.DedupRewrite
import RownRg.Qa.TokenBuckets
import RownRg.Export.SourceMarks
import RownRg.Export.Blocks
import RownRg.Export.Figures
import RownRg.Export.Recovery
import RownRg.Lib.Groups
import RownRg.Qa.TableCheck
import RownRg.Generation.TermRules
import RownRg.Generation.TermConsistency
import RownRg.Qa.TermNotation
import RownRg.Qa.TermRulers
import RownRg.Core.RefNotation
import RownRg.Indexing.ShortChunks
import RownRg.Lib.Lcs
import RownRg.Web.TextDiff
import RownRg.Web.DiffExact
import RownRg.Clients.EmbeddingBatches
import RownRg.Clients.RemoteEmbedding
import RownRg.Workflows.WebCollect
import RownRg.Indexing.TermMerging
import RownRg.Web.Markers
import RownRg.Core.MarkPlaces
import RownRg.Lib.Leftmost
import RownRg.Web.SourceEdits
import RownRg.Indexing.ChunkPages
import RownRg.Indexing.Exclusion
import RownRg.Indexing.ExclusionRuns
import RownRg.Auth.Accounts
import RownRg.Lib.Rounding
import RownRg.Retrieval.Fusion
import RownRg.Indexing.Raptor
import RownRg.Clients.QuotaGate
import RownRg.Export.InheritedMarks
import RownRg.Sections.CitationRepair
import RownRg.Lib.LossyQueue
import RownRg.Workflows.Progress
