import SimpleWeb.Http.FieldFidelity
import SimpleWeb.Http.FieldBounds
import SimpleWeb.Http.Parameters
import SimpleWeb.Http.LineBodies
import SimpleWeb.Http.ResponseWrite
import SimpleWeb.Http.LineShape
import SimpleWeb.Http.ReadReport
import SimpleWeb.ServiceCalls
import SimpleWeb.Http.ByteCount
import SimpleWeb.AccessLog
import SimpleWeb.ConfReading
import SimpleWeb.ConfOrder
import SimpleWeb.RequestLog
import SimpleWeb.ContentType
import SimpleWeb.Connection
import SimpleWeb.ThreadPool.Mutex
import SimpleWeb.ThreadPool.History
import SimpleWeb.ThreadPool.Shutdown
import SimpleWeb.Http.WriteLengths
import SimpleWeb.Putback
import SimpleWeb.FileHandles
import SimpleWeb.Server
import SimpleWeb.Replies
import SimpleWeb.Hosts
import SimpleWeb.Segments
import SimpleWeb.LogOrder
import SimpleWeb.ConfHosts
import SimpleWeb.StaticFiles
import SimpleWeb.BatchEnd
import SimpleWeb.Backlog
import SimpleWeb.Seek
import SimpleWeb.SharedFiles
