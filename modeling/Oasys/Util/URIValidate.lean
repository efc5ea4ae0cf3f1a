import Oasys.Util.URI

/-!
# URI: validation

`URI::validate` of `util/URI.cc` and what it calls. The five checks of a component's
characters are one loop over the component, each with its own characters and its own error.
The `unsigned int` that counts in these loops does not come to its end.
-/

namespace Oasys.URI

open StdString

/-! ### Characters -/

def isUnreserved (c : UInt8) : Bool :=
  isalnum c || c = '-' || c = '.' || c = '_' || c = '~'

/-- `is_sub_delim`; 39 is the apostrophe. -/
def isSubDelim (c : UInt8) : Bool :=
  c = '!' || c = '$' || c = '&' || c = 39 || c = '(' || c = ')' || c = '*' || c = '+' ||
    c = ',' || c = ';' || c = '='

def isHexdig (c : UInt8) : Bool :=
  isdigit c || c = 'a' || c = 'A' || c = 'b' || c = 'B' || c = 'c' || c = 'C' || c = 'd' ||
    c = 'D' || c = 'e' || c = 'E' || c = 'f' || c = 'F'

/-- The characters of a host, as `validate_host` and `decode_authority` have them. -/
def hostChar (c : UInt8) : Bool := isUnreserved c || isSubDelim c

/-- The characters of a user information. -/
def userinfoChar (c : UInt8) : Bool := isUnreserved c || isSubDelim c || c = ':'

/-- The characters of a path but the slash, which `decode_path` does not decode. -/
def segmentChar (c : UInt8) : Bool := isUnreserved c || isSubDelim c || c = ':' || c = '@'

/-- The characters of a path. -/
def pathChar (c : UInt8) : Bool :=
  isUnreserved c || isSubDelim c || c = '/' || c = ':' || c = '@'

/-- The characters of a query and of a fragment. -/
def queryChar (c : UInt8) : Bool :=
  isUnreserved c || isSubDelim c || c = ':' || c = '@' || c = '/' || c = '?'

/-- The loop over the characters of a component: `allowed` are those it goes over, and `bad` is
    the error for one that is neither allowed nor part of a percent-encoded character. -/
def validateChars (allowed : UInt8 → Bool) (bad : UriParseErr) : List UInt8 → UriParseErr
  | [] => .ok
  | c :: rest =>
    if allowed c then validateChars allowed bad rest
    else if c = '%' then
      match rest with
      | h :: l :: rest =>
        if isHexdig h && isHexdig l then validateChars allowed bad rest else .badPercent
      | _ => .badPercent
    else bad

/-! ### IP literals -/

/-- `validate_ip_literal` from behind the `v`. -/
def validateIpFuture (host : List UInt8) : UriParseErr :=
  match host with
  | [] => .badIpLiteral
  | c :: host =>
    if !isHexdig c then .badIpLiteral
    else
      match host.dropWhile isHexdig with
      | [] => .badIpLiteral
      | c :: host =>
        if c ≠ '.' then .badIpLiteral
        else if host = [] then .badIpLiteral
        else if host.all userinfoChar then .ok
        else .badIpLiteral

/-- Where the loop over the hexadecimal pieces ends: what is left of the host from its last
    piece on, if an IPv4 address is to be read there, and the counts. -/
structure Pieces where
  decimal : Option (List UInt8)
  num_pieces : Int
  double_colon : Bool
  deriving DecidableEq, Repr

/-- `validate_ip_literal`: the loop over the pieces, `none` where it returns
    `URI_PARSE_BAD_IPV6`. -/
def readPieces (host : List UInt8) (num_pieces : Int) (double_colon prev_double_colon : Bool) :
    Option Pieces :=
  let digits := (host.take 4).takeWhile isHexdig
  let num_pieces := num_pieces + 1
  match hdrop : host.drop digits.length with
  | [] =>
    if digits = [] then
      if !prev_double_colon then none else some ⟨none, num_pieces - 1, double_colon⟩
    else some ⟨none, num_pieces, double_colon⟩
  | c :: rest =>
    if c = ':' then
      if digits = [] then
        if num_pieces = 1 then
          match rest with
          | [] => none
          | c :: rest =>
            if c ≠ ':' then none
            else if double_colon then none
            else readPieces rest num_pieces true true
        else if double_colon then none
        else readPieces rest num_pieces true true
      else readPieces rest num_pieces double_colon false
    else if c = '.' then
      if digits = [] then none else some ⟨some host, num_pieces - 1, double_colon⟩
    else none
termination_by host.length
decreasing_by all_goals
  have hrest := congrArg List.length hdrop
  simp only [List.length_drop, List.length_cons] at hrest ⊢
  omega

/-- `validate_ip_literal`: the loop over the octets, of which `n` are still to come. -/
def readOctets : Nat → List UInt8 → UriParseErr
  | 0, _ => .ok
  | n + 1, host =>
    let digit := (host.take 3).takeWhile isdigit
    let rest := host.drop digit.length
    if digit = [] then .badIpv6
    else if digit.length > 1 ∧ digit.head? = some ('0' : UInt8) then .badIpv6
    else if Decimal.value digit > 255 then .badIpv6
    else if n = 0 then
      if rest ≠ [] then .badIpv6 else .ok
    else
      match rest with
      | [] => .badIpv6
      | c :: rest => if c ≠ '.' then .badIpv6 else readOctets n rest

/-- `validate_ip_literal`: the checks behind the loop over the pieces, with the IPv4 address
    between them if there is one. -/
def checkPieces : Option Pieces → UriParseErr
  | none => .badIpv6
  | some ⟨none, num_pieces, double_colon⟩ =>
    if num_pieces ≤ 0 ∨ (double_colon ∧ num_pieces > 8) ∨ (¬double_colon ∧ num_pieces ≠ 8)
    then .badIpv6 else .ok
  | some ⟨some decimal, num_pieces, double_colon⟩ =>
    if num_pieces ≤ 0 ∨ (double_colon ∧ num_pieces > 6) ∨ (¬double_colon ∧ num_pieces ≠ 6)
    then .badIpv6
    else
      match readOctets 4 decimal with
      | .ok =>
        let num_pieces := num_pieces + 2
        if num_pieces ≤ 0 ∨ (double_colon ∧ num_pieces > 8) ∨ (¬double_colon ∧ num_pieces ≠ 8)
        then .badIpv6 else .ok
      | err => err

def validateIpLiteral (host : List UInt8) : UriParseErr :=
  match host with
  | [] => .badIpLiteral
  | c :: rest =>
    if c = 'v' || c = 'V' then validateIpFuture rest
    else checkPieces (readPieces host 0 false false)

def validateEthLiteral (host : List UInt8) : UriParseErr :=
  if host.length ≠ 17 then .badHost
  else if host.zipIdx.all fun (c, i) => if (i + 1) % 3 ≠ 0 then isHexdig c else c = ':' then .ok
  else .badHost

/-! ### Components -/

def validateSchemeName (u : URI) : Except Fault UriParseErr := do
  match ← u.scheme with
  | [] => return .badScheme
  | c :: scheme =>
    if !isalpha c then return .badScheme
    else if scheme.all fun c => isalnum c || c = '+' || c = '-' || c = '.' then return .ok
    else return .badScheme

def validateUserinfo (u : URI) : Except Fault UriParseErr := do
  if u.userinfo_.length_ = 0 then return .ok
  let userinfo ← u.userinfo
  assert (userinfo.getLast? = some ('@' : UInt8))
  return validateChars userinfoChar .badUserinfo userinfo.dropLast

def validateHost (u : URI) : Except Fault UriParseErr := do
  let host ← u.host
  if host = [] then return .ok
  if host.head? = some ('[' : UInt8) then
    assert (host.getLast? = some (']' : UInt8))
    return validateIpLiteral (← substr host 1 (host.length - 2))
  else if (← u.scheme) = eth then
    return validateEthLiteral host
  else
    return validateChars hostChar .badHost host

def validatePort (u : URI) : Except Fault UriParseErr := do
  if u.port_.length_ = 0 then return .ok
  let port ← u.port
  return if port.all isdigit then .ok else .badPort

def validatePath (u : URI) : Except Fault UriParseErr := do
  if u.path_.length_ = 0 then return .ok
  let path ← u.path
  if u.authority_.length_ ≠ 0 then assert (path.head? = some ('/' : UInt8))
  if u.authority_.length_ = 0 ∧ 2 ≤ path.length then
    assert (path.take 2 ≠ slashes)
  return validateChars pathChar .badPath path

def validateQuery (u : URI) : Except Fault UriParseErr := do
  if u.query_.length_ = 0 then return .ok
  let query ← u.query
  assert (query.head? = some ('?' : UInt8))
  return validateChars queryChar .badQuery query.tail

def validateFragment (u : URI) : Except Fault UriParseErr := do
  if u.fragment_.length_ = 0 then return .ok
  let fragment ← u.fragment
  assert (fragment.head? = some ('#' : UInt8))
  return validateChars queryChar .badFragment fragment.tail

/-- One check after another, up to the first that fails. -/
def firstErr (u : URI) : List (URI → Except Fault UriParseErr) → Except Fault UriParseErr
  | [] => return .ok
  | check :: checks => do
    match ← check u with
    | .ok => firstErr u checks
    | err => return err

def validate (u : URI) : Except Fault UriParseErr :=
  u.firstErr [validateSchemeName, validateUserinfo, validateHost, validatePort, validatePath,
    validateQuery, validateFragment]

end Oasys.URI
