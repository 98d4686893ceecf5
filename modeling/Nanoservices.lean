import Nanoservices.Library.System
import Nanoservices.Library.Versioned
import Nanoservices.Library.Chain
import Nanoservices.Library.Utf16
import Nanoservices.Library.Json
import Nanoservices.Library.Optimistic
import Nanoservices.Db.Refinement
import Nanoservices.Db.Bindings
import Nanoservices.Services.Buffer
import Nanoservices.Db.Versions
import Nanoservices.Db.Cell
import Nanoservices.Db.Keys
import Nanoservices.Services.Updates
import Nanoservices.Services.ComposeJoin
import Nanoservices.Services.UniqueId
import Nanoservices.Sched.Execution
import Nanoservices.Sched.Naming
import Nanoservices.Sched.Progress
import Nanoservices.Services.Following
import Nanoservices.Http.Request
import Nanoservices.Services.PostWaits
import Nanoservices.Services.Acknowledged
import Nanoservices.Sched.LeastLoaded
import Nanoservices.Sched.QueueOrder
import Nanoservices.Services.TimelineOrder
import Nanoservices.Services.FanOuts
import Nanoservices.Sched.Idleness
import Nanoservices.Sched.LockUse
import Nanoservices.Sched.StartUp
import Nanoservices.Http.Routing
import Nanoservices.Sched.Samples
import Nanoservices.Services.StoredValues
import Nanoservices.Services.ShortUrls
import Nanoservices.Services.FormFields
import Nanoservices.Services.Login
import Nanoservices.Services.Writes
import Nanoservices.Services.Bindings
import Nanoservices.Db.Buckets
import Nanoservices.Sched.Balance
import Nanoservices.Sched.Work
import Nanoservices.Library.JoinTree
import Nanoservices.Sched.JoinTrees
import Nanoservices.Library.JsonText
import Nanoservices.Library.Framing
import Nanoservices.Library.Calendar
import Nanoservices.Http.Date
import Nanoservices.Http.Response
import Nanoservices.Http.NetworkServer
import Nanoservices.Http.Clients
import Nanoservices.Services.Benchmarks
