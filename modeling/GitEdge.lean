import GitEdge.Repo.Head
import GitEdge.Repo.Peel
import GitEdge.Jobs.Janitor
import GitEdge.Jobs.Parts
import GitEdge.Pack.ChunkFree
import GitEdge.Pack.Plan
import GitEdge.Pack.Boundary
import GitEdge.Store.Reads
import GitEdge.Wire.Names
import GitEdge.Jobs.Remote
import GitEdge.Wire.Header
import GitEdge.Jobs.Events
import GitEdge.Edge.Credentials
import GitEdge.Edge.RemoteUrl
import GitEdge.Edge.Signing
import GitEdge.Pack.Coalesce
import GitEdge.Pack.CacheBudget
import GitEdge.Jobs.Dispatch
import GitEdge.Store.Hashes
import GitEdge.Store.Interrupted
import GitEdge.Gc.Compaction
import GitEdge.Gc.Staking
