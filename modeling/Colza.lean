import Colza.GuardedRuns
import Colza.FiniteCounts
import Colza.ConservedRuns
import Colza.CommitPoints
import Colza.ToggleDigests
import Colza.Interfaces
import Colza.ProviderHandlers
import Colza.OpenIterations
import Colza.ProviderRuns
import Colza.ProviderInterleaving
import Colza.SoloRuns
import Colza.CounterRaces
import Colza.BackendRaces
import Colza.CollectiveNetwork
import Colza.ClientHandles
import Colza.HandleCollectives
import Colza.GroupHash
import Colza.HashConstruction
import Colza.DistributedStart
import Colza.StartCollectives
import Colza.SessionCollectives
import Colza.ServedStart
import Colza.SingleHandle
import Colza.MonaAddresses
import Colza.MonaLists
import Colza.ClientGroups
import Colza.ClientServers
import Colza.ClientEras
import Colza.IterationOrder
import Colza.RefusedRequests
import Colza.CompletedIterations
import Colza.ViewRefreshes
import Colza.ProviderObjects
import Colza.ReplyCallbacks
import Colza.AsyncRequests
import Colza.AsyncWaits
import Colza.AsyncLifetimes
import Colza.MonaResolution
import Colza.MonaRequests
import Colza.LeaveWakeups
import Colza.AddressSlots
import Colza.StagedBlocks
import Colza.StagingRaces
import Colza.AdminThreads
import Colza.RequestCompletion
import Colza.GroupObservations
import Colza.ProviderConfigs
import Colza.RequestEffects
import Colza.SerialRequests
import Colza.SerialHandlers
import Colza.SerialRuns
import Colza.ObservedRuns
import Colza.StagingServers
import Colza.ServedAttempts
import Colza.ElasticStaging
import Colza.HandlerProgress
import Colza.UnsteadyStart
import Colza.Noninterference
import Colza.PipelineIsolation
import Colza.Tenants
import Colza.BlockPlacement
import Colza.AddressReferences
import Colza.MemberOperations
import Colza.Deployments
import Colza.StagedIterations
import Colza.Departures
import Colza.GroupShutdown
