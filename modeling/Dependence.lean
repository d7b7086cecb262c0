import Dependence.Dataflow.Samples
import Dependence.Profiling.Recorder
import Dependence.Profiling.Text
import Dependence.Reaching
import Dependence.Proofs.EdgeEnds
import Dependence.Proofs.Equations
import Dependence.Proofs.Schedules
import Dependence.Proofs.BitSets
import Dependence.Proofs.DefinitionTables
import Dependence.Proofs.TransferSets
import Dependence.Proofs.ReachingPaths
import Dependence.Proofs.SearchOrder
import Dependence.Proofs.ParentTables
import Dependence.Proofs.Surveys
import Dependence.Proofs.DominatorPasses
import Dependence.Proofs.DominatorTrees
import Dependence.Proofs.Postdominance
import Dependence.Proofs.OpenRegions
import Dependence.Proofs.RecordedBranches
import Dependence.Proofs.CallStates
import Dependence.Proofs.ControlDependence
import Dependence.Proofs.Aggregates
import Dependence.Proofs.StoreSums
import Dependence.Proofs.ContextStacks
import Dependence.Proofs.CallAccounts
import Dependence.Proofs.Interleavings
import Dependence.Proofs.Layouts
import Dependence.Proofs.Records
import Dependence.Proofs.SplitWorkloads
import Dependence.Proofs.WellFormedRecords
import Dependence.Proofs.Absorption
import Dependence.Proofs.MergeAlgebra
import Dependence.Proofs.NameOrder
import Dependence.Proofs.ProfileSums
import Dependence.Proofs.JsonText
import Dependence.Proofs.ProfileText
import Dependence.Proofs.Survivors
import Dependence.Proofs.DominanceQueries
import Dependence.Proofs.StoreRuns
import Dependence.Proofs.Budgets
import Dependence.Proofs.Ascents
import Dependence.Proofs.ReferenceOrder
import Dependence.Proofs.SetAnalyses
import Dependence.Proofs.DominatorLoops
import Dependence.Proofs.ObjectOrder
import Dependence.Proofs.FaultFreedom
import Dependence.Proofs.Edits
import Dependence.Proofs.EventEdits
import Dependence.Proofs.RegionHistories
import Dependence.Proofs.Reentries
import Dependence.Proofs.BuiltStores
import Dependence.Proofs.Restoring
import Dependence.Proofs.SessionEdits
import Dependence.Proofs.FailedEvents
import Dependence.Proofs.Shutdowns
import Dependence.Proofs.SetEdits
import Dependence.Proofs.FiniteSets
import Dependence.Proofs.SetCursors
import Dependence.Proofs.SetLattice
import Dependence.Proofs.Growth
import Dependence.Proofs.Numberings
import Dependence.Proofs.FinishingOrder
import Dependence.Proofs.ByteOrder
import Dependence.Proofs.Fingers
import Dependence.Proofs.NameLookups
import Dependence.Proofs.Drains
