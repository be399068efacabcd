import CallChart.Main
import CallChart.Proofs.Sets
import CallChart.Proofs.CacheTable
import CallChart.Proofs.CacheTrust
import CallChart.Proofs.CacheCurrent
import CallChart.Proofs.Pursuit
import CallChart.Proofs.Waves
import CallChart.Proofs.Questions
import CallChart.Proofs.CallList
import CallChart.Proofs.EmptyCache
import CallChart.Proofs.FailedSearch
import CallChart.Proofs.Session
import CallChart.Proofs.Arrangement
import CallChart.Proofs.Assembly
import CallChart.Proofs.CacheSynced
import CallChart.Proofs.Builds
import CallChart.Proofs.BuilderSession
import CallChart.Proofs.ProjectSearch
import CallChart.Proofs.Reindexed
import CallChart.Proofs.Traffic
import CallChart.Proofs.LiveBuild
import CallChart.Proofs.Publication
import CallChart.Proofs.CommitMoment
import CallChart.Proofs.ConfinedSearch
import CallChart.Proofs.Listings
import CallChart.Proofs.ProjectNodes
import CallChart.Proofs.Walks
import CallChart.Proofs.Workbench
import CallChart.Proofs.Components
import CallChart.Proofs.Requests
import CallChart.Proofs.Drawings
import CallChart.Proofs.Layouts
import CallChart.Proofs.CompleteLayouts
import CallChart.Proofs.Boxes
import CallChart.Proofs.Tiers
import CallChart.Proofs.Viewport
import CallChart.Proofs.AnyOrder
import CallChart.Proofs.CacheRuns
import CallChart.Proofs.LookupHistory
import CallChart.Proofs.AtOnce
import CallChart.Proofs.Endpoints
import CallChart.Proofs.Counts
import CallChart.Proofs.Lifecycle
import CallChart.Proofs.CallRelation
import CallChart.Proofs.FileEdits
import CallChart.Proofs.Representation
import CallChart.Proofs.Cancellation
import CallChart.Proofs.Errands
import CallChart.Proofs.Course
import CallChart.Proofs.QuestionLog
import CallChart.Proofs.EachOnce
import CallChart.Proofs.ScopeCalls
import CallChart.Proofs.AskedAgain
import CallChart.Proofs.CacheLikeness
import CallChart.Proofs.RoundOrder
import CallChart.Proofs.Pruning
import CallChart.Proofs.CompleteSets
import CallChart.Proofs.Stacking
import CallChart.Proofs.Gridding
import CallChart.Proofs.Refitting
import CallChart.Proofs.Restriction
import CallChart.Proofs.DotText
import CallChart.Proofs.PlainGrammar
import CallChart.Proofs.DirectoryScopes
import CallChart.Proofs.WheelZoom
import CallChart.Proofs.RequestContents
import CallChart.Proofs.WatchedChanges
import CallChart.Proofs.JsonRoundTrip
import CallChart.Proofs.ManifestReload
import CallChart.Proofs.AxisOrientation
