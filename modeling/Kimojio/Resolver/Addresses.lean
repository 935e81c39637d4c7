import Kimojio.Resolver.Request
import Kimojio.Resolver.VarlinkReply

/-!
# Kimojio.Resolver.Addresses

Model of the reply side of `kimojio/src/resolver.rs`: the visitor that collects
the addresses of a reply, and `decode_varlink_reply`.

The parser for address literals is that of the standard library; it is a
parameter where it is used.
-/

namespace Kimojio.Resolver

/-- An IP address. -/
inductive IpAddr where
  | v4 (octets : Vector UInt8 4)
  | v6 (octets : Vector UInt8 16)
  deriving DecidableEq, Repr

/-- A socket address. -/
inductive SocketAddr where
  | v4 (ip : Vector UInt8 4) (port : UInt16)
  | v6 (ip : Vector UInt8 16) (port : UInt16) (flowinfo scope : UInt32)
  deriving DecidableEq, Repr

/-- `SocketAddr::new` -/
def SocketAddr.new : IpAddr → UInt16 → SocketAddr
  | .v4 octets, port => .v4 octets port
  | .v6 octets, port => .v6 octets port 0 0

/-- A description of an invalid message, as an error. -/
def protocolError (detail : String) : ResolveError := .protocol detail.toList

/-- The largest reply in bytes, without its NUL byte. -/
def maxVarlinkReplySize : Nat := 64 * 1024

/-- `libc::AF_INET` -/
def afInet : Int := 2

/-- `libc::AF_INET6` -/
def afInet6 : Int := 10

/-- The address bytes, as many as the reply contained. -/
def ResolvedAddress.bytes (address : ResolvedAddress) : List UInt8 :=
  if address.length ≤ maxAddressBytes then address.octets.toList.take address.length
  else address.octets.toList

/-- `<[u8; n]>::try_from` -/
def octetsOf? (n : Nat) (octets : List UInt8) : Option (Vector UInt8 n) :=
  if h : octets.length = n then some ⟨octets.toArray, by simpa using h⟩ else none

/-- Combines a decoded address with `port`, and rejects a combination of
family and length that is not valid. -/
def socketAddress (address : ResolvedAddress) (port : UInt16) : Except ResolveError SocketAddr :=
  if address.family = afInet then
    match octetsOf? 4 address.bytes with
    | none => .error (protocolError "IPv4 address did not contain exactly 4 bytes")
    | some octets => .ok (.new (.v4 octets) port)
  else if address.family = afInet6 then
    match octetsOf? 16 address.bytes with
    | none => .error (protocolError "IPv6 address did not contain exactly 16 bytes")
    | some octets =>
      if address.ifindex < 0 then .error (protocolError "`ifindex` was negative")
      else .ok (.v6 octets port 0 (UInt32.ofNat address.ifindex.toNat))
  else
    .error (protocolError ("address entry used unsupported family " ++ toString address.family))

/-- The state of the visitor that converts each address as it arrives. -/
structure CollectAddresses where
  addresses : List SocketAddr
  port : UInt16
  /-- Whether the reply contained a Varlink method error. -/
  methodError : Bool

/-- The visitor: a conversion that fails stops the decode. -/
def CollectAddresses.visitor : ReplyVisitor CollectAddresses ResolveError where
  escapeName _ c := (none, c)
  address address c :=
    match socketAddress address c.port with
    | .ok socket => (none, { c with addresses := c.addresses ++ [socket] })
    | .error error => (some error, c)
  error _ c := (none, { c with methodError := true })

/-- Describes a rejected reply as a protocol failure. -/
def decodeError (error : ReplyError) : ResolveError :=
  protocolError ("reply was not a valid ResolveHostname response: " ++ error.display)

/-- `Utf8Error::valid_up_to`: the length of the longest part that is UTF-8. -/
def validUpTo (bytes : List UInt8) : Nat :=
  ((List.range (bytes.length + 1)).filter fun n => (Str.fromUtf8 (bytes.take n)).isSome).foldl max 0

/-- The addresses of a reply. -/
def decodeVarlinkReply (reply : List UInt8) (host : Str) (port : UInt16) :
    Except ResolveError (List SocketAddr) :=
  if reply.length > maxVarlinkReplySize then
    .error (protocolError "reply exceeded the 65536-byte limit")
  else
    match Str.fromUtf8 reply with
    | none =>
      .error (protocolError
        ("reply was not valid UTF-8 after " ++ toString (validUpTo reply) ++ " bytes"))
    | some text =>
      match (ResolveHostnameReply.new text).drive CollectAddresses.visitor ⟨[], port, false⟩ with
      | (.error error, _, _) => .error (decodeError error)
      | (.ok (some error), _, _) => .error error
      | (.ok none, _, collect) =>
        if collect.methodError || collect.addresses.isEmpty then .error (.hostNotFound host)
        else .ok collect.addresses

/-- Parses `host` as an address literal, in brackets or not. -/
def parseAddressLiteral (parseIp : Str → Option IpAddr) (host : Str) (port : UInt16) :
    Option SocketAddr :=
  let candidate :=
    match host with
    | '[' :: rest => if rest.getLast? = some ']' then rest.dropLast else host
    | _ => host
  (parseIp candidate).map fun address => SocketAddr.new address port

end Kimojio.Resolver
