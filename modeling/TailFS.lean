import TailFS.Basic
import TailFS.Address
import TailFS.UserServer.Basic
import TailFS.UserServer.Scanner
import TailFS.UserServer.Lifecycle
import TailFS.UserServer.Backoff
import TailFS.UserServer.Timed
import TailFS.Remote.State
import TailFS.Remote.Generation
import TailFS.Remote.Dial
import TailFS.Remote.Serve
import TailFS.Remote.Interleaving
import TailFS.Remote.Routing
import TailFS.Remote.Request
import TailFS.World.Basic
import TailFS.World.Guarantees
