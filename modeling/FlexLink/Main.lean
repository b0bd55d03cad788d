import FlexLink.Console.Interaction
import FlexLink.Session.Basic
import Std.Async.Timer
import Std.Async.UDP

/-! # The command line

Answers the tool's questions from the system: its files, its clocks and its network.  Nothing is
decided here.  Announcements are not listened to, so a peer has to be named or set. -/
set_option autoImplicit false
namespace FlexLink.Console

open Std.Async

def reasonOf (e : IO.Error) : String :=
  let said (code : UInt32) (why : String) : String := SystemError.numbered why code.toNat
  match e with
  | .alreadyExists _ code why | .invalidArgument _ code why | .permissionDenied _ code why
  | .resourceExhausted _ code why | .inappropriateType _ code why | .noSuchThing _ code why
  | .interrupted _ code why | .noFileOrDirectory _ code why
  | .otherError code why | .resourceBusy code why | .resourceVanished code why
  | .unsupportedOperation code why | .hardwareFault code why | .unsatisfiedConstraints code why
  | .illegalOperation code why | .protocolError code why | .timeExpired code why => said code why
  | .unexpectedEof => "unexpected end of file"
  | .userError why => why

def attempt {α : Type} (act : IO α) : IO (Except String α) := do
  try return .ok (← act)
  catch e => return .error (reasonOf e)

/-! ## Files -/

def fileAt (path : String) : IO FileState := do
  try return .content (← IO.FS.readBinFile path).toList
  catch
    | .noFileOrDirectory .. => return .missing
    | _ => return .directory

/-- The directory of a journal, which is made if need be.  The empty path names no directory. -/
def journalAt (path : String) : IO (Except JournalError JournalDirectory) := do
  if path.isEmpty then return .ok { path, process := 0, files := none }
  let files ← attempt do
    IO.FS.createDirAll path
    (← (← IO.FS.realPath path).readDir).toList.mapM fun entry => do
      match ← attempt (IO.FS.readBinFile entry.path) with
      | .ok bytes => return (entry.fileName, FileNode.text (Utf8.decodeLossy bytes.toList))
      | .error _ => return (entry.fileName, FileNode.folder)
  match files with
  | .ok files => return .ok (.seed { path, process := 0 } files)
  | .error why => return .error (.io path why)

/-! ## The clock, chance and the environment -/

def wallClock : IO Millis := do
  return .ofNat (← Std.Time.Timestamp.now).toMillisecondsSinceUnixEpoch.val.toNat

def randomBytes : IO (Vector UInt8 16) := do
  let bytes ← IO.getRandomBytes 16
  return Vector.ofFn fun i => bytes.toList.getD i 0

def environment : IO Environment := do
  let names := ["HOME", "XDG_CONFIG_HOME", "XDG_DATA_HOME", "FLEXMIDI_CONFIG", "FLEXCTL_PEER",
    "FLEXCTL_BIND", "FLEXCTL_JOURNAL"] ++ Settings.overrides.map (·.1)
  return ⟨← names.filterMapM fun name => do
    return (← IO.getEnv name).map fun value => (name, value)⟩

/-! ## The network -/

def toHost : SocketAddress → Std.Net.SocketAddress
  | ⟨.v4 ip, port, _⟩ => .v4 ⟨⟨#v[ip.a, ip.b, ip.c, ip.d]⟩, port⟩
  | ⟨.v6 ip, port, _⟩ => .v6 ⟨⟨ip.groups⟩, port⟩

def ofHost : Std.Net.SocketAddress → SocketAddress
  | .v4 a => ⟨.v4 ⟨a.addr.octets[0], a.addr.octets[1], a.addr.octets[2], a.addr.octets[3]⟩, a.port, 0⟩
  | .v6 a => ⟨.v6 ⟨a.addr.segments⟩, a.port, 0⟩

def transmit (socket : UDP.Socket) (datagram : List UInt8) : IO Unit :=
  (socket.send ⟨datagram.toArray⟩).block

/-- The next datagram before a point of time.  An error is taken for a datagram without content,
which holds nothing. -/
def receiveBefore (socket : UDP.Socket) (deadline : Nat) : IO (Option (List UInt8)) := do
  let now ← IO.monoMsNow
  if deadline ≤ now then return none
  try
    let timer ← (Selector.sleep (.ofNat (deadline - now))).block
    (Selectable.one #[
      .case (socket.recvSelector 65535) fun (data, _) => return some data.toList,
      .case timer fun _ => return none]).block
  catch _ => return some []

/-- Proposes until the peer answers or time is up, and gathers what comes. -/
partial def gatherArrivals (socket : UDP.Socket) (s : Session) (deadline retry : Nat)
    (arrivals : List (Nat × List UInt8)) : IO (List (Nat × List UInt8)) := do
  let now ← IO.monoMsNow
  if !s.isNegotiating || deadline ≤ now then return arrivals.reverse
  if retry ≤ now then
    let _ ← attempt (transmit socket s.proposalDatagram)
    gatherArrivals socket s deadline (now + Session.retryInterval) arrivals
  else
    match ← receiveBefore socket (min deadline retry) with
    | none => gatherArrivals socket s deadline retry arrivals
    | some data =>
      let (s, reply) := s.receive now data
      let _ ← reply.mapM fun datagram => attempt (transmit socket datagram)
      gatherArrivals socket s deadline retry ((now, data) :: arrivals)

/-- Datagrams that wait to be sent, newest first. -/
abbrev Outbox := List (List UInt8)

def outbox : DatagramSocket Outbox := ⟨fun waiting datagram => (datagram :: waiting, .ok ())⟩

partial def converse (socket : UDP.Socket) (timeout deadline : Nat)
    (x : Exchange (Session × Outbox)) : IO (Except Failure Outcome) := do
  match ← attempt (x.net.2.reverse.forM (transmit socket)) with
  | .error why => return .error (TransportError.send why).failure
  | .ok () =>
    match x.state with
    | .failed why => return .error why
    | .finished => return .ok x.outcome
    | .waiting =>
      let arrived ← receiveBefore socket deadline
      let (now, wall) := (← IO.monoMsNow, ← wallClock)
      let link := Session.link outbox now
      match arrived with
      | none =>
        converse socket timeout (now + timeout)
          ({ x with net := (x.net.1, []) }.onDeadline link wall)
      | some data =>
        let (s, reply) := x.net.1.receive now data
        let (inbox, batches) := s.inbox.drain
        converse socket timeout deadline
          (batches.foldl (Exchange.onBatch link wall)
            { x with net := ({ s with inbox }, reply.toList) })

def exchange (options : SessionOptions) (request : Command) (timeout : Nat) :
    IO (Except Failure Outcome) := do
  let closed := (Session.new options ⟨← randomBytes⟩).take.1
  let now ← IO.monoMsNow
  let socket ← UDP.Socket.mk
  let bound ← attempt do
    socket.bind (toHost options.bindAddress)
    return ofHost (← socket.getSockName)
  let (connected, arrivals) ←
    match bound with
    | .error why => pure (.error why, [])
    | .ok address =>
      let peer := closed.peerFrom address none
      let connected ← attempt (socket.connect (toHost peer))
      let session := closed.attach now address peer
      let deadline := if connected.isOk then now + options.negotiationTimeoutMs else now
      pure (connected, ← gatherArrivals socket session deadline now [])
  match closed.opened now { bound, connected := fun _ => connected, arrivals } with
  | (_, .error e) => return .error (e.failure.under "failed to open session")
  | (session, .ok ()) =>
    let lane := Lane.of session.state.group session.state.channel
    let timeout := timeout * 1000
    let now ← IO.monoMsNow
    converse socket timeout (now + timeout)
      (.begin (Session.link outbox now) (session, []) lane {} request)

def perform : Interaction → IO Output
  | .done output => return output
  | .readSettings path next => do perform (next (← fileAt path))
  | .openJournal path next => do perform (next (← journalAt path))
  | .exchange options request timeout next => do
    perform (next (← exchange options request timeout))

end FlexLink.Console

open FlexLink FlexLink.Console in
def main (words : List String) : IO UInt32 := do
  let output ← perform <|
    Interaction.run (← environment) words (← wallClock) (randomCorr (← randomBytes))
  IO.print output.out
  IO.eprint output.err
  return .ofNat output.code
