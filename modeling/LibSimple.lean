import LibSimple.Support.CLang
import LibSimple.Support.Runs
import LibSimple.Http.Message
import LibSimple.Http.LineParser
import LibSimple.Http.ByteStep
import LibSimple.Http.Chunking
import LibSimple.Http.BlankLine
import LibSimple.Http.Encode
import LibSimple.Http.Safety
import LibSimple.Http.MessageText
import LibSimple.Http.RoundTrip
import LibSimple.CircBuf.Model
import LibSimple.Support.RingWindow
import LibSimple.CircBuf.Refinement
import LibSimple.Support.Transition
import LibSimple.ThreadPool.Model
import LibSimple.ThreadPool.Invariant
import LibSimple.ThreadPool.Safety
import LibSimple.Support.SerialServer
import LibSimple.Thread.Model
import LibSimple.Thread.Token
import LibSimple.Thread.Matching
import LibSimple.Support.Handles
import LibSimple.Tcp.Model
import LibSimple.Tcp.Ownership
import LibSimple.ThreadPool.Lock
import LibSimple.Http.Framing
import LibSimple.Http.HeaderBreak
import LibSimple.Http.StartLine
import LibSimple.Http.BodyPieces
import LibSimple.ThreadPool.EarlyWake
import LibSimple.Tcp.Attempts
import LibSimple.ListHead.Model
import LibSimple.ListHead.Refinement
import LibSimple.Http.HeaderMemory
import LibSimple.Support.WriteLog
import LibSimple.Http.HeaderStore
import LibSimple.Support.PosixRegex
import LibSimple.Url.Model
import LibSimple.Url.QueryPairs
import LibSimple.Url.Split
import LibSimple.Url.RoundTrip
import LibSimple.Httpsrv.Containment
import LibSimple.Http.HeaderCount
import LibSimple.Http.BodyLength
import LibSimple.Http.LengthLimit
import LibSimple.Support.Words
import LibSimple.Http.Folding
import LibSimple.Tcp.Transfer
import LibSimple.Support.LinkedRings
import LibSimple.ListHead.Exchange
import LibSimple.Semaphore.Deadline
import LibSimple.Httpsrv.Response
import LibSimple.Httpsrv.FilenameSafety
import LibSimple.Httpsrv.FileTransfer
import LibSimple.Httpsrv.FileFraming
import LibSimple.Support.IntText
import LibSimple.Teacher.Config
import LibSimple.Support.Tracking
import LibSimple.Teacher.Areas
import LibSimple.Teacher.AreaRange
import LibSimple.Teacher.AreaTracking
import LibSimple.Support.Debounce
import LibSimple.Teacher.Debouncing
import LibSimple.Teacher.OverReport
import LibSimple.Teacher.Analyze
import LibSimple.Teacher.Mirror
import LibSimple.Teacher.Calibration
import LibSimple.Ptz.Model
import LibSimple.Ptz.Shutdown
import LibSimple.Ptz.TaskOrder
import LibSimple.Ptz.Oper
import LibSimple.Support.EventRuns
import LibSimple.Teacher.Control
import LibSimple.Teacher.Following
import LibSimple.Teacher.Aim
import LibSimple.Teacher.SessionCamera
import LibSimple.Httpsrv.Replies
import LibSimple.Httpsrv.Server
import LibSimple.Teacher.CloseView
import LibSimple.Http.Release
import LibSimple.Teacher.Scaling
import LibSimple.Support.Pieces
import LibSimple.Tcp.Stream
import LibSimple.Teacher.SessionAreas
