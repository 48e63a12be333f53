import FtMalloc.Lib.Bytes
import FtMalloc.Lib.BlockStore
import FtMalloc.Lib.Words
import FtMalloc.Lib.Lines
import FtMalloc.Lib.Slices
import FtMalloc.Lib.Numerals
import FtMalloc.Lib.Program
import FtMalloc.Lib.Process
import FtMalloc.Lib.LinkedList
import FtMalloc.Lib.Tiling
import FtMalloc.Lib.FreeList
import FtMalloc.Lib.Runs
import FtMalloc.Lib.Threads
import FtMalloc.Lib.Sessions
import FtMalloc.Lib.AtomicObject
import FtMalloc.Lib.Linearization
import FtMalloc.Lib.Progress
import FtMalloc.Machine
import FtMalloc.Source.Blocks
import FtMalloc.Source.Calls
import FtMalloc.Source.Reports
import FtMalloc.Source.Processes
import FtMalloc.Source.Strings
import FtMalloc.Source.Arrays
import FtMalloc.Source.Numbers
import FtMalloc.Source.Files
import FtMalloc.Source.Sorting
import FtMalloc.Abstract.TiledZone
import FtMalloc.Abstract.Operations
import FtMalloc.Abstract.Growth
import FtMalloc.Abstract.Zones
import FtMalloc.Abstract.Arena
import FtMalloc.Abstract.Requests
import FtMalloc.Abstract.Turns
import FtMalloc.Abstract.Reports
import FtMalloc.Refine.ZoneMemory
import FtMalloc.Refine.Lists
import FtMalloc.Refine.Fields
import FtMalloc.Refine.Merge
import FtMalloc.Refine.Allocate
import FtMalloc.Refine.Release
import FtMalloc.Refine.Copy
import FtMalloc.Refine.Extend
import FtMalloc.Refine.Represent
import FtMalloc.Refine.Zones
import FtMalloc.Refine.Calls
import FtMalloc.Refine.Reports
import FtMalloc.Refine.Processes
import FtMalloc.Refine.Views
import FtMalloc.Observe
import FtMalloc.Runs
import FtMalloc.Client
import FtMalloc.Refine.Strings
import FtMalloc.Refine.Arrays
import FtMalloc.Refine.Numbers
import FtMalloc.Refine.Files
import FtMalloc.Refine.Lines
import FtMalloc.Refine.Sorting
import FtMalloc.Properties.Headers
import FtMalloc.Properties.Merging
import FtMalloc.Properties.Capacity
import FtMalloc.Properties.Layout
import FtMalloc.Properties.Reports
import FtMalloc.Properties.Links
import FtMalloc.Properties.Payloads
import FtMalloc.Properties.Pointers
import FtMalloc.Properties.Refusals
import FtMalloc.Properties.Mappings
import FtMalloc.Properties.Filling
import FtMalloc.Properties.Undo
import FtMalloc.Properties.InPlace
import FtMalloc.Properties.Regrow
import FtMalloc.Properties.Moves
import FtMalloc.Properties.LargeZones
import FtMalloc.Properties.FreeOrder
import FtMalloc.Properties.Locking
import FtMalloc.Properties.Serial
import FtMalloc.Properties.Client
import FtMalloc.Properties.Independence
import FtMalloc.Properties.Strings
import FtMalloc.Properties.Numbers
import FtMalloc.Properties.Lines
import FtMalloc.Properties.Sorting
