import Vdetelweb.Lib.Lines
import Vdetelweb.Lib.Linked
import Vdetelweb.Lib.Markup
import Vdetelweb.Lib.Runs
import Vdetelweb.Lib.Trim
import Vdetelweb.Lib.Words
import Vdetelweb.Proof.Successive
import Vdetelweb.Proof.Audit
import Vdetelweb.Proof.Threads
import Vdetelweb.Proof.Forward
import Vdetelweb.Proof.Login
import Vdetelweb.Proof.Urls
import Vdetelweb.Proof.Stream
import Vdetelweb.Proof.Table
import Vdetelweb.Proof.Nested
import Vdetelweb.Proof.Form
import Vdetelweb.Proof.Reject
import Vdetelweb.Proof.Config
import Vdetelweb.Proof.Hangup
import Vdetelweb.Proof.Columns
import Vdetelweb.Proof.History
import Vdetelweb.Proof.Notify
import Vdetelweb.Proof.Boxes
import Vdetelweb.Proof.Optional
import Vdetelweb.Proof.Recv
import Vdetelweb.Proof.Send
import Vdetelweb.Proof.Sockets
import Vdetelweb.Proof.Events
import Vdetelweb.Proof.Kept
import Vdetelweb.Proof.Apart
import Vdetelweb.Proof.Device
import Vdetelweb.Proof.Ipv6
import Vdetelweb.Proof.FileWrites
import Vdetelweb.Proof.Timers
import Vdetelweb.Proof.TreeWalks
import Vdetelweb.Proof.Routes
import Vdetelweb.Proof.Queue
import Vdetelweb.Proof.TcpIn
