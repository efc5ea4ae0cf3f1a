import Oasys.Serialize.StringPairSerialize
import Oasys.Util.StdString

/-!
# URI

The class `URI` of `util/URI.h` and `util/URI.cc`: the string with the components that are
offsets and lengths into it, the accessors, the two functions that find the components, and
the setters that do not parse again. A `size_t` is a natural number and an `int` an integer: a
string has fewer bytes than an `int` counts. Messages are left out.
-/

namespace Oasys

open StdString

inductive UriParseErr where
  | ok
  | noUri
  | noSep
  | badPercent
  | badIpLiteral
  | badIpv6
  | badScheme
  | badUserinfo
  | badHost
  | badPort
  | badPath
  | badQuery
  | badFragment
  | noParamVal
  deriving DecidableEq, Repr

structure URI.Component where
  offset_ : Nat := 0
  length_ : Nat := 0
  deriving DecidableEq, Repr

/-- `URI`, as its default constructor makes it. -/
structure URI where
  uri_ : List UInt8 := []
  scheme_ : URI.Component := {}
  ssp_ : URI.Component := {}
  authority_ : URI.Component := {}
  path_ : URI.Component := {}
  query_ : URI.Component := {}
  fragment_ : URI.Component := {}
  userinfo_ : URI.Component := {}
  host_ : URI.Component := {}
  port_ : URI.Component := {}
  port_num_ : UInt32 := 0
  parse_err_ : UriParseErr := .noUri
  validate_ : Bool := true
  normalize_ : Bool := true
  deriving DecidableEq, Repr

namespace URI

/-- `clear`; the string goes only if `clear_uri` is set. -/
def clear (u : URI) (clear_uri : Bool) : URI :=
  { uri_ := if clear_uri then [] else u.uri_, validate_ := u.validate_, normalize_ := u.normalize_ }

/-! ### Accessors -/

def valid (u : URI) : Bool := u.parse_err_ = .ok

/-- The accessor of a component. -/
def text (u : URI) (c : Component) : Except Fault (List UInt8) :=
  substr u.uri_ c.offset_ c.length_

def scheme (u : URI) : Except Fault (List UInt8) := u.text u.scheme_

def ssp (u : URI) : Except Fault (List UInt8) := u.text u.ssp_

def authority (u : URI) : Except Fault (List UInt8) := u.text u.authority_

def userinfo (u : URI) : Except Fault (List UInt8) := u.text u.userinfo_

def host (u : URI) : Except Fault (List UInt8) := u.text u.host_

def port (u : URI) : Except Fault (List UInt8) := u.text u.port_

def path (u : URI) : Except Fault (List UInt8) := u.text u.path_

def query (u : URI) : Except Fault (List UInt8) := u.text u.query_

def fragment (u : URI) : Except Fault (List UInt8) := u.text u.fragment_

/-! ### Parsing -/

/-- `atoi` of a port, as the `unsigned int` it is stored in. -/
def portNum (port : List UInt8) : UInt32 := UInt32.ofInt (atoi (cStr port))

/-- The scheme `eth`. -/
def eth : List UInt8 := ['e', 't', 'h']

/-- What an authority starts with. -/
def slashes : List UInt8 := ['/', '/']

/-- `parse_generic_ssp`: the two slashes of an authority. -/
def startsAuthority (u : URI) : Except Fault Bool := do
  let curr_pos := u.ssp_.offset_
  if u.ssp_.length_ < 2 then return false
  if (← charAt u.uri_ curr_pos) ≠ '/' then return false
  return (← charAt u.uri_ (curr_pos + 1)) = '/'

/-- `parse_generic_ssp`: the authority, and where it ends. -/
def findAuthority (u : URI) : Except Fault (Component × Nat) := do
  let curr_pos := u.ssp_.offset_
  if ← u.startsAuthority then
    let authority_end := (findFirstOf u.uri_ ['/', '?', '#'] (curr_pos + 2)).getD u.uri_.length
    assert (authority_end - curr_pos > 0)
    return (⟨curr_pos, authority_end - curr_pos⟩, authority_end)
  else
    return (⟨curr_pos, 0⟩, curr_pos)

/-- `parse_generic_ssp`: the path. -/
def findPath (u : URI) (curr_pos : Nat) : Component × Nat :=
  if curr_pos ≠ u.uri_.length then
    let path_end := (findFirstOf u.uri_ ['?', '#'] curr_pos).getD u.uri_.length
    (⟨curr_pos, path_end - curr_pos⟩, path_end)
  else
    (⟨curr_pos, 0⟩, curr_pos)

/-- There is a character `c` at the position, which may be the end. -/
def startsWith (u : URI) (curr_pos : Nat) (c : UInt8) : Except Fault Bool := do
  if curr_pos = u.uri_.length then return false
  return (← charAt u.uri_ curr_pos) = c

/-- `parse_generic_ssp`: the query. -/
def findQuery (u : URI) (curr_pos : Nat) : Except Fault (Component × Nat) := do
  if ← u.startsWith curr_pos '?' then
    let query_end := (find u.uri_ '#' curr_pos).getD u.uri_.length
    assert (query_end - curr_pos > 0)
    return (⟨curr_pos, query_end - curr_pos⟩, query_end)
  else
    return (⟨curr_pos, 0⟩, curr_pos)

/-- `parse_generic_ssp`: the fragment. -/
def findFragment (u : URI) (curr_pos : Nat) : Except Fault (Component × Nat) := do
  if ← u.startsWith curr_pos '#' then
    assert (u.uri_.length - curr_pos > 0)
    return (⟨curr_pos, u.uri_.length - curr_pos⟩, u.uri_.length)
  else
    return (⟨curr_pos, 0⟩, curr_pos)

/-- `parse_generic_ssp`, which returns `URI_PARSE_OK` in every case. -/
def parseGenericSsp (u : URI) : Except Fault URI := do
  if u.ssp_.length_ = 0 then
    let ssp_ := u.ssp_
    return { u with
      authority_ := ssp_, path_ := ssp_, query_ := ssp_, fragment_ := ssp_
      userinfo_ := ssp_, host_ := ssp_, port_ := ssp_ }
  let (authority_, curr_pos) ← u.findAuthority
  let (path_, curr_pos) := u.findPath curr_pos
  let (query_, curr_pos) ← u.findQuery curr_pos
  let (fragment_, curr_pos) ← u.findFragment curr_pos
  assert (curr_pos = u.uri_.length)
  return { u with authority_, path_, query_, fragment_ }

/-- `parse_authority`: the user information, and where it ends in the authority. -/
def findUserinfo (u : URI) (authority : List UInt8) : Component × Nat :=
  let curr_pos := 2
  match find authority '@' curr_pos with
  | some userinfo_end =>
    (⟨u.authority_.offset_ + curr_pos, userinfo_end + 1 - curr_pos⟩, userinfo_end + 1)
  | none => (⟨u.authority_.offset_ + curr_pos, 0⟩, curr_pos)

/-- `parse_authority`: where the host ends, `none` for an IP literal that does not. -/
def findHostEnd (u : URI) (authority : List UInt8) (curr_pos : Nat) :
    Except Fault (Option Nat) := do
  if curr_pos = authority.length then return some curr_pos
  if (← charAt authority curr_pos) = '[' then
    return (find authority ']' curr_pos).map (· + 1)
  else if (← u.scheme) = eth then
    -- special case for ethernet uri
    return some authority.length
  else
    return some ((find authority ':' curr_pos).getD authority.length)

/-- `parse_authority`: the port from where the host ends, and where the port ends; `none` if
    something else is there. -/
def findPort (u : URI) (authority : List UInt8) (curr_pos : Nat) :
    Except Fault (Option (URI × Nat)) := do
  if curr_pos ≠ authority.length then
    if (← charAt authority curr_pos) ≠ ':' then return none
    let port_start := curr_pos + 1
    let port_len := authority.length - port_start
    let u := { u with port_ := ⟨u.authority_.offset_ + port_start, port_len⟩ }
    if port_len > 0 then
      let port ← u.port
      return some ({ u with port_num_ := portNum port }, authority.length)
    else
      return some (u, authority.length)
  else
    return some ({ u with port_ := ⟨u.authority_.offset_ + curr_pos, 0⟩ }, curr_pos)

def parseAuthority (u : URI) : Except Fault (UriParseErr × URI) := do
  if u.authority_.length_ = 0 then
    let authority_ := u.authority_
    return (.ok, { u with userinfo_ := authority_, host_ := authority_, port_ := authority_ })
  let authority ← u.authority
  assert (2 ≤ authority.length)
  assert ((← substr authority 0 2) = slashes)
  let (userinfo_, curr_pos) := u.findUserinfo authority
  let u := { u with userinfo_ }
  match ← u.findHostEnd authority curr_pos with
  | none => return (.badIpLiteral, u)
  | some host_end =>
    let u := { u with host_ := ⟨u.authority_.offset_ + curr_pos, host_end - curr_pos⟩ }
    match ← u.findPort authority host_end with
    | none => return (.badPort, u)
    | some (u, curr_pos) =>
      assert (curr_pos = authority.length)
      return (.ok, u)

/-! ### Setters -/

namespace Component

def adjustOffset (c : Component) (diff : Int) : Except Fault Component := do
  if c.offset_ = 0 then return c
  if diff > 0 then
    return { c with offset_ := c.offset_ + diff.toNat }
  else
    assert (c.offset_ ≥ (-diff).toNat)
    return { c with offset_ := c.offset_ - (-diff).toNat }

def adjustLength (c : Component) (diff : Int) : Except Fault Component := do
  if diff > 0 then
    return { c with length_ := c.length_ + diff.toNat }
  else
    assert (c.length_ ≥ (-diff).toNat)
    return { c with length_ := c.length_ - (-diff).toNat }

end Component

/-- `int diff`, the difference of two lengths. -/
def diff (new old : Nat) : Int := (new : Int) - old

def setScheme (u : URI) (scheme : List UInt8) : Except Fault URI := do
  assert (u.parse_err_ = .ok)
  let uri_ ← replace u.uri_ u.scheme_.offset_ u.scheme_.length_ scheme
  let diff := diff scheme.length u.scheme_.length_
  let u := { u with uri_ }
  if diff ≠ 0 then
    let scheme_ ← u.scheme_.adjustLength diff
    let ssp_ ← u.ssp_.adjustOffset diff
    let authority_ ← u.authority_.adjustOffset diff
    let userinfo_ ← u.userinfo_.adjustOffset diff
    let host_ ← u.host_.adjustOffset diff
    let port_ ← u.port_.adjustOffset diff
    let path_ ← u.path_.adjustOffset diff
    let query_ ← u.query_.adjustOffset diff
    let fragment_ ← u.fragment_.adjustOffset diff
    return { u with
      scheme_, ssp_, authority_, userinfo_, host_, port_, path_, query_, fragment_ }
  else
    return u

/-- `set_authority`. What `parse_authority` returns is not looked at. -/
def setAuthority (u : URI) (authority : List UInt8) : Except Fault URI := do
  assert (u.parse_err_ = .ok)
  let uri_ ← replace u.uri_ u.authority_.offset_ u.authority_.length_ authority
  let diff := diff authority.length u.authority_.length_
  let u := { u with uri_ }
  let u ←
    if diff ≠ 0 then do
      let ssp_ ← u.ssp_.adjustLength diff
      let authority_ ← u.authority_.adjustLength diff
      let path_ ← u.path_.adjustOffset diff
      let query_ ← u.query_.adjustOffset diff
      let fragment_ ← u.fragment_.adjustOffset diff
      pure { u with ssp_, authority_, path_, query_, fragment_ }
    else
      pure u
  let (_, u) ← u.parseAuthority
  return u

def setUserinfo (u : URI) (userinfo : List UInt8) : Except Fault URI := do
  assert (u.parse_err_ = .ok)
  let uri_ ← replace u.uri_ u.userinfo_.offset_ u.userinfo_.length_ userinfo
  let diff := diff userinfo.length u.userinfo_.length_
  let u := { u with uri_ }
  if diff ≠ 0 then
    let ssp_ ← u.ssp_.adjustLength diff
    let authority_ ← u.authority_.adjustLength diff
    let userinfo_ ← u.userinfo_.adjustLength diff
    let host_ ← u.host_.adjustOffset diff
    let port_ ← u.port_.adjustOffset diff
    let path_ ← u.path_.adjustOffset diff
    let query_ ← u.query_.adjustOffset diff
    let fragment_ ← u.fragment_.adjustOffset diff
    return { u with ssp_, authority_, userinfo_, host_, port_, path_, query_, fragment_ }
  else
    return u

def setHost (u : URI) (host : List UInt8) : Except Fault URI := do
  assert (u.parse_err_ = .ok)
  let uri_ ← replace u.uri_ u.host_.offset_ u.host_.length_ host
  let diff := diff host.length u.host_.length_
  let u := { u with uri_ }
  if diff ≠ 0 then
    let ssp_ ← u.ssp_.adjustLength diff
    let authority_ ← u.authority_.adjustLength diff
    let host_ ← u.host_.adjustLength diff
    let port_ ← u.port_.adjustOffset diff
    let path_ ← u.path_.adjustOffset diff
    let query_ ← u.query_.adjustOffset diff
    let fragment_ ← u.fragment_.adjustOffset diff
    return { u with ssp_, authority_, host_, port_, path_, query_, fragment_ }
  else
    return u

def setPort (u : URI) (port : List UInt8) : Except Fault URI := do
  assert (u.parse_err_ = .ok)
  let uri_ ← replace u.uri_ u.port_.offset_ u.port_.length_ port
  let diff := diff port.length u.port_.length_
  let u := { u with uri_ }
  let u ←
    if diff ≠ 0 then do
      let ssp_ ← u.ssp_.adjustLength diff
      let authority_ ← u.authority_.adjustLength diff
      let port_ ← u.port_.adjustLength diff
      let path_ ← u.path_.adjustOffset diff
      let query_ ← u.query_.adjustOffset diff
      let fragment_ ← u.fragment_.adjustOffset diff
      pure { u with ssp_, authority_, port_, path_, query_, fragment_ }
    else
      pure u
  return { u with port_num_ := portNum port }

def setPath (u : URI) (path : List UInt8) : Except Fault URI := do
  assert (u.parse_err_ = .ok)
  let uri_ ← replace u.uri_ u.path_.offset_ u.path_.length_ path
  let diff := diff path.length u.path_.length_
  let u := { u with uri_ }
  if diff ≠ 0 then
    let ssp_ ← u.ssp_.adjustLength diff
    let path_ ← u.path_.adjustLength diff
    let query_ ← u.query_.adjustOffset diff
    let fragment_ ← u.fragment_.adjustOffset diff
    return { u with ssp_, path_, query_, fragment_ }
  else
    return u

def setQuery (u : URI) (query : List UInt8) : Except Fault URI := do
  assert (u.parse_err_ = .ok)
  let uri_ ← replace u.uri_ u.query_.offset_ u.query_.length_ query
  let diff := diff query.length u.query_.length_
  let u := { u with uri_ }
  if diff ≠ 0 then
    let ssp_ ← u.ssp_.adjustLength diff
    let query_ ← u.query_.adjustLength diff
    let fragment_ ← u.fragment_.adjustOffset diff
    return { u with ssp_, query_, fragment_ }
  else
    return u

def setFragment (u : URI) (fragment : List UInt8) : Except Fault URI := do
  assert (u.parse_err_ = .ok)
  let uri_ ← replace u.uri_ u.fragment_.offset_ u.fragment_.length_ fragment
  let diff := diff fragment.length u.fragment_.length_
  let u := { u with uri_ }
  if diff ≠ 0 then
    let ssp_ ← u.ssp_.adjustLength diff
    let fragment_ ← u.fragment_.adjustLength diff
    return { u with ssp_, fragment_ }
  else
    return u

/-! ### The query -/

/-- `query_value`: the loop over the parameters. -/
def findValue (u : URI) (param : List UInt8) : Nat → Nat → Except Fault (List UInt8)
  | 0, _ => throw .outOfFuel
  | fuel + 1, curr_pos => do
    let query_end := u.query_.offset_ + u.query_.length_
    if query_end ≤ curr_pos then return []
    let param_start := curr_pos + 1
    match find u.uri_ '=' param_start with
    | none => return []
    | some param_end =>
      if param_end > query_end then return []
      if (← substr u.uri_ param_start (param_end - param_start)) ≠ param then
        match findFirstOf u.uri_ [';'] param_start with
        | none => return []
        | some curr_pos => findValue u param fuel curr_pos
      else
        if (← charAt u.uri_ param_end) ≠ '=' then return []
        let value_start := param_end + 1
        let value_end := (findFirstOf u.uri_ [';', '#'] value_start).getD u.uri_.length
        substr u.uri_ value_start (value_end - value_start)

/-- `query_value`. Every round of the loop comes nearer to the end of the query. -/
def queryValue (u : URI) (param : List UInt8) : Except Fault (List UInt8) := do
  assert (u.parse_err_ = .ok)
  if u.query_.length_ = 0 then return []
  assert ((← charAt u.uri_ u.query_.offset_) = '?')
  u.findValue param (u.query_.length_ + 1) u.query_.offset_

end URI

end Oasys
