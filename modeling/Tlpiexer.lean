import Tlpiexer.Foundations.CString
import Tlpiexer.Foundations.Decimal
import Tlpiexer.Foundations.LinkedList
import Tlpiexer.Foundations.Transition
import Tlpiexer.Foundations.Mutex
import Tlpiexer.Foundations.MessageQueue
import Tlpiexer.Constants
import Tlpiexer.NameValue.Llist
import Tlpiexer.NameValue.Store
import Tlpiexer.NameValue.Server
import Tlpiexer.SeqNum.Lbuf
import Tlpiexer.SeqNum.Server
import Tlpiexer.ShmTransfer.Processes
import Tlpiexer.ShmTransfer.Transfer
import Tlpiexer.Tree.Elements
import Tlpiexer.Tree.Map
import Tlpiexer.Tree.Locking
import Tlpiexer.OnceInit
import Tlpiexer.FileServer.Server
import Tlpiexer.FileServer.Client
import Tlpiexer.Chat.Processes
import Tlpiexer.Chat.Handshake
import Tlpiexer.HandOff
import Tlpiexer.EchoServer
import Tlpiexer.PingPong
import Tlpiexer.NameValue.Honest
import Tlpiexer.NameValue.Residue
import Tlpiexer.Foundations.Layout
import Tlpiexer.QueueMonitor.Frame
import Tlpiexer.QueueMonitor.Threads
import Tlpiexer.DirWatch
import Tlpiexer.SelfPipe
import Tlpiexer.SeqNum.Lines
import Tlpiexer.Foundations.Forest
import Tlpiexer.ProcTree
import Tlpiexer.RealPath.SolveDot
import Tlpiexer.Foundations.FileSystem
import Tlpiexer.GetCwd
import Tlpiexer.Foundations.Chain
import Tlpiexer.RealPath.Links
import Tlpiexer.Foundations.Script
import Tlpiexer.Nftw.Walk
import Tlpiexer.Nftw.Script
import Tlpiexer.Nftw.Traversal
import Tlpiexer.Nftw.Errno
import Tlpiexer.Nftw.WorkingDir
import Tlpiexer.Foundations.Segments
import Tlpiexer.Tail
import Tlpiexer.Environ
import Tlpiexer.Foundations.Credentials
import Tlpiexer.EAccess
import Tlpiexer.SignIn
import Tlpiexer.Foundations.RegularFile
import Tlpiexer.SendFile
import Tlpiexer.Foundations.Descriptors
import Tlpiexer.Isock
import Tlpiexer.PipeX
import Tlpiexer.OobSock
import Tlpiexer.NameValue.Calls
import Tlpiexer.ExecLp
import Tlpiexer.Foundations.DescriptorTable
import Tlpiexer.Dup
import Tlpiexer.Popen
import Tlpiexer.Foundations.Transfers
import Tlpiexer.VectorIo
import Tlpiexer.MqSeqNum
import Tlpiexer.QueueMonitor.Select
import Tlpiexer.Foundations.ArrayScan
import Tlpiexer.StatusFile.Fields
import Tlpiexer.StatusFile.Names
import Tlpiexer.StatusFile.VerifyProc
import Tlpiexer.Benchmark
import Tlpiexer.ProcTable
import Tlpiexer.CopyFile
import Tlpiexer.SeqNum.Bound
import Tlpiexer.ThreadId
import Tlpiexer.EchoServer.Service
import Tlpiexer.EchoStream
import Tlpiexer.FifoBackup
import Tlpiexer.Foundations.Monitor
import Tlpiexer.NameValue.Network
import Tlpiexer.ThreadIncr
import Tlpiexer.Tree.Linearizable
import Tlpiexer.DirWatch.Stream
import Tlpiexer.Foundations.Signals
import Tlpiexer.OobSock.Session
import Tlpiexer.SignalCatch
import Tlpiexer.HandOff.Completion
import Tlpiexer.ChildWait
import Tlpiexer.UpperPipe
import Tlpiexer.EchoMux
import Tlpiexer.OpenFiles
import Tlpiexer.Chat.Conversation
import Tlpiexer.Chat.Embedding
