import Practise.Machine
import Practise.EchoServer
import Practise.EchoAccounting
import Practise.EchoDrain
import Practise.EchoReadLoop
import Practise.EchoProjection
import Practise.RelayRing
import Practise.LibeventEcho
import Practise.EchoRing
import Practise.LibeventProgress
import Practise.EdgeTriggered
import Practise.EdgeProgress
import Practise.Clib
import Practise.TftpServer
import Practise.TftpTransfer
import Practise.TftpAcks
import Practise.TftpNetwork
import Practise.TftpMemory
import Practise.TftpSharing
import Practise.TftpStreams
import Practise.TftpMain
import Practise.LinkedChain
import Practise.SessionList
import Practise.SessionStorage
import Practise.Slices
import Practise.BlockedCates
import Practise.InitSoftMap
import Practise.GoStrings
import Practise.SoftMapKeys
import Practise.BlockedHistory
import Practise.BlockSoftMain
import Practise.RedisLoop
import Practise.JsonText
import Practise.ChineseJson
import Practise.ChineseJsonMain
import Practise.SearchTree
import Practise.LinkedTree
import Practise.BinaryTreePush
import Practise.BinaryTreeOrder
import Practise.Regexp
import Practise.ExtractHostNames
import Practise.ConfinedHostNames
import Practise.HostNameScan
