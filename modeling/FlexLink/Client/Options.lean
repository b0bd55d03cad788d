import FlexLink.Failure
import FlexLink.Session.Options

/-! # Options of a client's session

A client has its own local address, and a peer that is named goes before one that is set. -/
set_option autoImplicit false
namespace FlexLink

/-- The options of the session of a client.  Without a peer there must be a way to find one. -/
def SessionOptions.ofClient (settings : Settings) (bindAddress : SocketAddress)
    (peer : Option SocketAddress) : Except Failure SessionOptions :=
  match SessionOptions.ofSettings settings with
  | .error e => .error ⟨"invalid session config", [e.message]⟩
  | .ok options =>
    let options := { options with
      bindAddress
      peerAddress := peer.or options.peerAddress
      enableDiscovery := options.enableDiscovery && peer.isNone }
    if options.peerAddress.isNone && !options.enableDiscovery then
      .error ⟨"no peer: pass --peer or set session.peer_addr", []⟩
    else .ok options

end FlexLink
