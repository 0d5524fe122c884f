import Klados.Effects
import Klados.Interleave
import Klados.Roles
import Klados.Handles
import Klados.Touches
import Klados.Files
import Klados.Blocks
import Klados.Agent
import Klados.World
import Klados.Cas
import Klados.Parent
import Klados.Instant
import Klados.Release
import Klados.Follow
import Klados.Listing
import Klados.Running
import Klados.Meter
import Klados.Lineage
import Klados.Fork
import Klados.Recover
import Klados.Gear
import Klados.Passes
import Klados.Counters
import Klados.Dedup
import Klados.Buffers
import Klados.Stats
import Klados.Fault
import Klados.Walk
import Klados.Render
import Klados.Charge
import Klados.Hook
import Klados.Trees
import Klados.Diff
import Klados.Framing
import Klados.Exchanges
import Klados.Ranks
import Klados.Metrics
import Klados.Frames
import Klados.WebSocket
import Klados.Receive
import Klados.Patterns
import Klados.Verdict
import Klados.Frozen
import Klados.Cold
import Klados.Reported
import Klados.Routes
import Klados.Slices
import Klados.Tenants
import Klados.Grants
import Klados.Isolation
import Klados.Estates
import Klados.Drift
import Klados.Hidden
import Klados.Shelf
import Klados.Hot
import Klados.Captures
import Klados.StoreWork
import Klados.Preserved
import Klados.PreservedSteps
import Klados.RoundTrip
import Klados.TimelineReads
