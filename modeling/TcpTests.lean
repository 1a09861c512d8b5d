import TcpTests.Fgmp.PropertyWire
import TcpTests.Mpserver.Reads
import TcpTests.Mpserver.Noninterference
import TcpTests.Mpserver.Registry
import TcpTests.Mpclient.Header
import TcpTests.Mpclient.Replay
import TcpTests.Mpclient.Requests
import TcpTests.Mpclient.Destination
import TcpTests.FgmpMsg.Reader
import TcpTests.FgmpMsg.MotionStore
import TcpTests.Nbserver.Echo
import TcpTests.Nbserver.Slots
import TcpTests.UnixServer.Echo
import TcpTests.UnixServer.Descriptors
import TcpTests.UnixClient.Exchange
import TcpTests.SimpServer.Objects
import TcpTests.SimpClient.Reconnect
import TcpTests.SimpClient.Replies
import TcpTests.Udpserver2.Counter
import TcpTests.Udpclient2.Agreement
import TcpTests.Text.CleanCalls
import TcpTests.Text.SevenBit
import TcpTests.Ebsocket.Descriptors
import TcpTests.Ebsocket.ReadWrite
import TcpTests.Sockhelp.Gets
import TcpTests.GenStg.Contents
import TcpTests.FgIo.Packet
import TcpTests.Mpclient.WaitBound
import TcpTests.Nbclient.Sleep
import TcpTests.Nbclient.Throttle
import TcpTests.UnixServer.Timeout
import TcpTests.Mpserver.ExitKey
import TcpTests.FgmpMsg.Orientation
import TcpTests.FgIo.PrintHex
import TcpTests.FgIo.Movement
import TcpTests.FgDist.Coordinates
import TcpTests.Sockhelp.Address
import TcpTests.Text.ErrmsgText
import TcpTests.Ebsocket.Dots
import TcpTests.Fgmp.Swaps
import TcpTests.SimpCommon.Verbosity
import TcpTests.FgGeometry.CartToGeod
import TcpTests.FgmpMsg.EfgToLlh
import TcpTests.Mpclient.Recapture
import TcpTests.Lib.LogFile
import TcpTests.Text.Decimal
import TcpTests.Udpserver.Server
import TcpTests.Udpserver.OutputFile
import TcpTests.Udpclient.Echo
import TcpTests.Sockhelp.GetConnection
import TcpTests.Lib.Strtok
import TcpTests.HttpServer.Respond
import TcpTests.Httpget.Client
import TcpTests.Httpget.Fetch
import TcpTests.HttpServer.Slots
import TcpTests.Lib.Shuffle
import TcpTests.SimpServer.FdSet
import TcpTests.SimpServer.MessageLog
import TcpTests.Nbserver.Content
import TcpTests.Fgmp.TinyXdr
import TcpTests.FgIo.TestSocket
import TcpTests.FgGeometry.GeodToCart
import TcpTests.UdpRecv.Sessions
import TcpTests.Nbclient.System
