import ConFuzz.CLib.Array
import ConFuzz.CLib.Loop
import ConFuzz.Model.Table
import ConFuzz.Model.Resolve
import ConFuzz.Model.Emit
import ConFuzz.Config.Graph
import ConFuzz.Config.Prune
import ConFuzz.Resolve.Steps
import ConFuzz.Resolve.Select
import ConFuzz.Resolve.Total
import ConFuzz.Resolve.Exclusion
import ConFuzz.Resolve.Closure
import ConFuzz.Resolve.Coverage
import ConFuzz.Resolve.MustHave
import ConFuzz.Config.Forest
import ConFuzz.Emit.Steps
import ConFuzz.Emit.Buffer
import ConFuzz.Emit.Memory
import ConFuzz.Emit.Render
import ConFuzz.Emit.Stale
import ConFuzz.CLib.Json
import ConFuzz.Model.Load
import ConFuzz.Load.Fields
import ConFuzz.Load.Document
import ConFuzz.Load.Bounds
import ConFuzz.Resolve.Group
import ConFuzz.Config.Chain
import ConFuzz.Resolve.Dependency
import ConFuzz.Config.Apart
import ConFuzz.Config.Late
import ConFuzz.Resolve.Apart
import ConFuzz.Resolve.Fixpoint
import ConFuzz.Load.Order
import ConFuzz.Load.Keys
import ConFuzz.Load.Garbage
import ConFuzz.Model.Ext2
import ConFuzz.Model.Mutate
import ConFuzz.Mutate.Entries
import ConFuzz.Mutate.Labels
import ConFuzz.Mutate.Super
import ConFuzz.CLib.Region
import ConFuzz.Mutate.Descriptors
import ConFuzz.Mutate.Select
import ConFuzz.Emit.Trace
import ConFuzz.Resolve.Values
import ConFuzz.Load.Shipped
import ConFuzz.Emit.Length
import ConFuzz.CLib.Float
import ConFuzz.Model.Rand
import ConFuzz.Resolve.Random
import ConFuzz.Emit.Command
import ConFuzz.CLib.Getopt
import ConFuzz.CLib.Numbers
import ConFuzz.Emit.Free
import ConFuzz.Emit.Session
import ConFuzz.Emit.Shipped
import ConFuzz.Model.Extended
import ConFuzz.Model.Resize2fs
import ConFuzz.Mutate.Image
import ConFuzz.Mutate.Sparse
import ConFuzz.Target.Feature
import ConFuzz.Target.Lists
import ConFuzz.Target.Resize2fs
import ConFuzz.Target.Unique
