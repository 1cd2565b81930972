import CgiFileStore.Lib.Search
import CgiFileStore.Lib.Matcher
import CgiFileStore.Lib.Memory
import CgiFileStore.Lib.Integer
import CgiFileStore.Lib.Files
import CgiFileStore.Lib.FileTree
import CgiFileStore.Lib.DirTree
import CgiFileStore.Lib.Transition
import CgiFileStore.Lib.Chain
import CgiFileStore.Lib.Heap
import CgiFileStore.Redis.Server
import CgiFileStore.Redis.RedisOp
import CgiFileStore.Redis.RangeRows
import CgiFileStore.Redis.Format
import CgiFileStore.Redis.HashTables
import CgiFileStore.Redis.Batch
import CgiFileStore.Redis.Hmset
import CgiFileStore.Redis.HashWriters
import CgiFileStore.Common.Memstr
import CgiFileStore.Common.Suffix
import CgiFileStore.Echo.EchoOp
import CgiFileStore.Echo.HeaderScan
import CgiFileStore.Echo.Multipart
import CgiFileStore.Echo.LinuxBody
import CgiFileStore.Echo.Store
import CgiFileStore.Echo.Main
import CgiFileStore.Echo.BodyBuffer
import CgiFileStore.Echo.ToolOutput
import CgiFileStore.Echo.UploadFiles
import CgiFileStore.Echo.Sunyan
import CgiFileStore.Data.UtilCgi
import CgiFileStore.Data.Splitter
import CgiFileStore.Data.HostName
import CgiFileStore.Data.StrReplace
import CgiFileStore.Data.DataOp
import CgiFileStore.Data.QueryLookup
import CgiFileStore.Data.Paging
import CgiFileStore.Data.RowColumns
import CgiFileStore.Data.FirstColumn
import CgiFileStore.Data.RowLoop
import CgiFileStore.Data.RoundTrip
import CgiFileStore.Data.RowLimits
import CgiFileStore.Data.ListingText
import CgiFileStore.Data.RowIndependence
import CgiFileStore.Data.Main
import CgiFileStore.System.Workers
import CgiFileStore.System.ViewCounts
import CgiFileStore.System.SharedFiles
import CgiFileStore.System.LogDirectories
import CgiFileStore.Json.Item
import CgiFileStore.Json.Parse
import CgiFileStore.Json.Strings
import CgiFileStore.Json.Numbers
import CgiFileStore.Json.Grammar
import CgiFileStore.Json.RoundTrip
import CgiFileStore.Json.Listing
import CgiFileStore.Json.Bounds
import CgiFileStore.Json.Minify
import CgiFileStore.Json.Buffered
import CgiFileStore.Json.Cells
import CgiFileStore.Json.Trees
import CgiFileStore.Json.Deleting
import CgiFileStore.Json.Forest
import CgiFileStore.Json.Linking
import CgiFileStore.Json.Building
import CgiFileStore.Json.Editing
import CgiFileStore.Json.Calls
import CgiFileStore.System.Browsing
import CgiFileStore.Json.Pointers
import CgiFileStore.Json.Growing
import CgiFileStore.Json.Outcomes
import CgiFileStore.Json.InMemory
