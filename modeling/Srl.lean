import Srl.DictionaryStrings
import Srl.RpcConsumed
import Srl.RpcRoundTrip
import Srl.RpcBinary
import Srl.RpcDateTime
import Srl.TcpBounds
import Srl.TcpReadAll
import Srl.CalendarDays
import Srl.UriText
import Srl.UriRuns
import Srl.HttpServerPool
import Srl.ThreadPoolWait
import Srl.ThreadPause
import Srl.MutexOwner
import Srl.Base64Foreign
import Srl.XmlEntities
import Srl.XmlChunkedWalk
import Srl.VectorPointers
import Srl.VectorValues
import Srl.StrRuns
import Srl.StrHash
import Srl.ProcessListRefresh
import Srl.XmlRpcAnswers
import Srl.DictionaryBalanced
import Srl.DictionaryWalk
import Srl.VectorAddAt
import Srl.VectorSort
import Srl.BinaryCStrings
import Srl.ByteBufferSearch
import Srl.ByteBufferSerialize
import Srl.SocketSend
import Srl.StrSectionSkip
import Srl.StrReplaceFrom
import Srl.StrRemove
import Srl.StrRemoveAll
import Srl.StrReplaceAll
import Srl.StrSentinel
import Srl.StrEscape
import Srl.StrVal
import Srl.StrVal64
import Srl.StrEndsWith
import Srl.StrCompare
import Srl.StrFormat
import Srl.DateTimeSteps
import Srl.DateTimeCompare
import Srl.CheckSum
import Srl.RpcNames
import Srl.XmlAttributeSearch
import Srl.XmlBackwardWalk
import Srl.HttpFolding
import Srl.HttpRequestLine
import Srl.IniReparse
import Srl.RpcStrings
import Srl.RpcRepeat
import Srl.IniIntegers
import Srl.ValueTrigger
import Srl.FtpPort
import Srl.FileNames
import Srl.TextFileLines
import Srl.GarbageCollector
import Srl.Monitor
import Srl.ArgumentParser
import Srl.ProcessReads
import Srl.ProcessArguments
import Srl.Random
import Srl.JsonPrint
import Srl.RpcRegistry
import Srl.ThreadSessions
import Srl.HttpExchange
import Srl.Singleton
import Srl.FSCopy
import Srl.MonitoredProcess
