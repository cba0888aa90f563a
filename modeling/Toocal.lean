import Toocal.Results.Shape
import Toocal.Results.Removal
import Toocal.Results.Isolation
import Toocal.Results.Reopening
import Toocal.Results.StaleCopies
import Toocal.Results.InsertOnly
import Toocal.Results.Thresholds
import Toocal.Results.NodeCodec
import Toocal.Results.Overwriting
import Toocal.Results.Splitting
import Toocal.Results.Rebalancing
import Toocal.Results.Searching
import Toocal.Results.Purity
import Toocal.Results.Storing
import Toocal.Results.Fitting
import Toocal.Results.Footprint
import Toocal.Results.FreelistCodec
import Toocal.Results.InsertStep
import Toocal.Results.Predecessors
import Toocal.Results.Breadcrumbs
import Toocal.Results.Faults
import Toocal.Results.Leaks
import Toocal.Results.UpperBound
import Toocal.Results.FillBounds
import Toocal.Results.RootCollapse
import Toocal.Results.KeyOrder
import Toocal.Results.Ownership
import Toocal.Results.Decoding
import Toocal.Results.PageSizes
import Toocal.Results.Dictionaries
import Toocal.Results.CrashSafety
import Toocal.Results.CutOff
import Toocal.Results.PageCosts
import Toocal.Results.Space
import Toocal.Results.Streams
import Toocal.Results.AnyFile
import Toocal.Results.Heights
