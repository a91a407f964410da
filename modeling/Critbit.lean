import Critbit.Trie.Splice
import Critbit.Trie.Canonical
import Critbit.Run.Refine
import Critbit.Run.Lookup
import Critbit.Run.Invariant
import Critbit.Run.History
import Critbit.Run.Order
import Critbit.Run.Paths
import Critbit.Run.Splice
import Critbit.Run.Clear
import Critbit.Run.Depth
import Critbit.Run.Lengths
import Critbit.Conc.Reinsert
import Critbit.Conc.Read
import Critbit.Conc.Linear
import Critbit.Conc.Progress
import Critbit.Conc.Leak
import Critbit.Dict.Source
import Critbit.Dict.Table
import Critbit.Dict.Change
import Critbit.Dict.Spec
import Critbit.Dict.Load
import Critbit.Dict.Refine
import Critbit.Dict.Iterator
import Critbit.Object.BitOrder
import Critbit.Dict.Scan
import Critbit.Bench.Drivers
import Critbit.Bench.Adapters
