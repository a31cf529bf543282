import Nilo.Hpack.Encode
import Nilo.Http.Sliding
import Nilo.Http.Utf8
import Nilo.Http.Gate
import Nilo.Http.Once
import Nilo.Http.Proxies
import Nilo.Http.Session
import Nilo.Http1.Body
import Nilo.Http1.Find
import Nilo.Http1.Order
import Nilo.Http2.FieldHead
import Nilo.Http2.HandOff
import Nilo.Http2.Lent
import Nilo.Http2.Streams
import Nilo.Job.Chain
import Nilo.Job.Cron
import Nilo.Job.Fence
import Nilo.Job.Zones
import Nilo.Jwt.Rotation
import Nilo.Jwt.Times
import Nilo.Proto.Shape
import Nilo.Router.Dispatch
import Nilo.Room.Floor
import Nilo.Room.Drained
import Nilo.Ws.Closing
import Nilo.Ws.Header
import Nilo.Ws.Reason
import Nilo.Ws.Unmask
import Nilo.Cache.Losses
import Nilo.Cache.Sizing
import Nilo.Sql.Apply
import Nilo.Sql.Settled
import Nilo.Sql.Managed
import Nilo.Http1.Request
import Nilo.Http.Multipart
import Nilo.Jwt.Refresh
import Nilo.Http.Hops
import Nilo.Id.Uuid
import Nilo.Core.Print
import Nilo.Http.Events
import Nilo.Http.Cookie
import Nilo.S3.Policy
import Nilo.Http.Marks
import Nilo.Http.Url
import Nilo.Http.Tagged
import Nilo.Http.Streamed
import Nilo.Http.Opening
import Nilo.Http2.Heard
import Nilo.Cache.Racing
import Nilo.Http1.Reference
import Nilo.Http2.Lending
