import Oasys.Util.URIValidate

/-!
# URI: normalization

`URI::normalize` of `util/URI.cc` and what it calls, and then `parse`, which finds the
components, validates and normalizes, with the members that parse. The five loops that decode
percent-encoded characters are one loop, each with the characters it decodes.
-/

namespace Oasys.URI

open StdString

/-! ### Percent-encoded characters -/

/-- `sscanf` with `%x` of two characters, and the cast to `char`. Without a digit it leaves
    `hex_value` as it is, which has been given no value. -/
def hexValue (h l : UInt8) : Except Fault UInt8 :=
  let (neg, text) := skipSign ((cStr [h, l]).dropWhile isspace)
  if text.takeWhile Hex.isDigit = [] then throw .indeterminate
  else return if neg then 0 - .ofNat (Hex.value text) else .ofNat (Hex.value text)

/-- The loop over the percent signs of a component, and what is appended behind the last one.
    The characters that are `allowed` are decoded. -/
def decodeLoop (allowed : UInt8 → Bool) : List UInt8 → Except Fault (List UInt8)
  | [] => return []
  | c :: rest =>
    if c ≠ '%' then do
      let decoded ← decodeLoop allowed rest
      return c :: decoded
    else
      match rest with
      | h :: l :: rest => do
        let c ← hexValue h l
        let decoded ← decodeLoop allowed rest
        return (if allowed c then [c] else ['%', toupper h, toupper l]) ++ decoded
      | _ => throw .assertFailed

/-- A component decoded; `none` if the loop appends nothing, which is without a percent sign. -/
def decode (allowed : UInt8 → Bool) (text : List UInt8) : Except Fault (Option (List UInt8)) :=
  if text.contains '%' then some <$> decodeLoop allowed text else return none

/-- `decode_authority`: the user information. -/
def decodeUserinfo (u : URI) : Except Fault URI := do
  let userinfo ← u.userinfo
  match ← decode userinfoChar userinfo with
  | none => return u
  | some decoded_userinfo => u.setUserinfo decoded_userinfo

/-- `decode_authority`: the host. -/
def decodeHost (u : URI) : Except Fault URI := do
  let host ← u.host
  match ← decode hostChar host with
  | none => return u
  | some decoded_host => u.setHost decoded_host

def decodeAuthority (u : URI) : Except Fault URI := do
  let u ← u.decodeUserinfo
  u.decodeHost

def decodePath (u : URI) : Except Fault URI := do
  let path ← u.path
  match ← decode segmentChar path with
  | none => return u
  | some decoded_path => u.setPath decoded_path

def decodeQuery (u : URI) : Except Fault URI := do
  let query ← u.query
  match ← decode queryChar query with
  | none => return u
  | some decoded_query => u.setQuery decoded_query

def decodeFragment (u : URI) : Except Fault URI := do
  let fragment ← u.fragment
  match ← decode queryChar fragment with
  | none => return u
  | some decoded_fragment => u.setFragment decoded_fragment

/-! ### Components -/

/-- `normalize_scheme`: every character of the scheme in place. -/
def normalizeScheme (u : URI) : Except Fault URI := do
  let scheme ← u.scheme
  let uri_ ← replace u.uri_ u.scheme_.offset_ u.scheme_.length_ (scheme.map tolower)
  return { u with uri_ }

/-- `normalize_authority`: the loop over the characters of the host, which goes over what is
    percent-encoded. -/
def lowerHost : List UInt8 → List UInt8
  | [] => []
  | c :: rest =>
    if c = '%' then
      match rest with
      | h :: l :: rest => c :: h :: l :: lowerHost rest
      | rest => c :: rest
    else tolower c :: lowerHost rest

def normalizeAuthority (u : URI) : Except Fault URI := do
  let u ← u.decodeAuthority
  let host ← u.host
  let uri_ ← replace u.uri_ u.host_.offset_ u.host_.length_ (lowerHost host)
  return { u with uri_ }

/-- `normalize_path`: the loop that resolves the segments in front of a slash. It returns the
    path and whether it has found anything. -/
def resolveDots : Nat → List UInt8 → Nat → Bool → Except Fault (List UInt8 × Bool)
  | 0, _, _, _ => throw .outOfFuel
  | fuel + 1, path, checkpoint, modified => do
    match findStr path ['.', '/'] checkpoint with
    | none => return (path, modified)
    | some dot_segment =>
      if dot_segment = 0 then
        resolveDots fuel (← erase path dot_segment 2) checkpoint true
      else
        let before ← charAt path (dot_segment - 1)
        if before = '/' then
          resolveDots fuel (← erase path dot_segment 2) checkpoint true
        else if before = '.' then
          if dot_segment = 1 then
            resolveDots fuel (← erase path (dot_segment - 1) 3) checkpoint true
          else if (← charAt path (dot_segment - 2)) = '/' then
            if dot_segment = 2 then
              resolveDots fuel (← erase path (dot_segment - 1) 3) checkpoint true
            else
              let prev_seg := (findLastOf path '/' (dot_segment - 3)).getD 0
              resolveDots fuel (← erase path prev_seg (dot_segment + 1 - prev_seg)) prev_seg true
          else resolveDots fuel path (dot_segment + 2) true
        else resolveDots fuel path (dot_segment + 2) true

/-- `normalize_path`: the segment at the end; `none` if it is no dot segment. -/
def resolveLast (path : List UInt8) : Except Fault (Option (List UInt8)) := do
  if path = [('.' : UInt8)] then return some (← erase path 0 1)
  if path = [('.' : UInt8), '.'] then return some (← erase path 0 2)
  if path.length ≥ 2 then
    if (← substr path (path.length - 2) 2) = [('/' : UInt8), '.'] then
      return some (← erase path (path.length - 1) 1)
  if path.length ≥ 3 then
    if (← substr path (path.length - 3) 3) = [('/' : UInt8), '.', '.'] then
      if path.length = 3 then
        return some (← erase path (path.length - 2) 2)
      else
        let prev_seg := (findLastOf path '/' (path.length - 4)).getD 0
        let path ← erase path prev_seg (path.length - prev_seg)
        return some (path ++ [('/' : UInt8)])
  return none

/-- `normalize_path`. Every round of the loop comes nearer to the end of the path. -/
def normalizePath (u : URI) : Except Fault URI := do
  let u ← u.decodePath
  let path ← u.path
  let (path, modified) ← resolveDots (path.length + 1) path 0 false
  match ← resolveLast path with
  | some path => u.setPath path
  | none => if modified then u.setPath path else return u

def normalizeQuery (u : URI) : Except Fault URI := u.decodeQuery

def normalizeFragment (u : URI) : Except Fault URI := u.decodeFragment

def normalize (u : URI) : Except Fault URI := do
  let u ← u.normalizeScheme
  let u ← u.normalizeAuthority
  let u ← u.normalizePath
  let u ← u.normalizeQuery
  u.normalizeFragment

/-! ### Parsing the string -/

/-- `parse`: the scheme and the rest, and the components of the rest. -/
def parseComponents (u : URI) : Except Fault URI := do
  let u := u.clear false
  if u.uri_ = [] then return { u with parse_err_ := .noUri }
  match find u.uri_ ':' 0 with
  | none => return { u with parse_err_ := .noSep }
  | some scheme_len =>
    if scheme_len = 0 then return { u with parse_err_ := .badScheme }
    let u := { u with
      scheme_ := ⟨0, scheme_len⟩
      ssp_ := ⟨scheme_len + 1, u.uri_.length - (scheme_len + 1)⟩ }
    let u ← u.parseGenericSsp
    let (err, u) ← u.parseAuthority
    return { u with parse_err_ := err }

/-- `parse`: the validation, if it is on. -/
def validateIfSet (u : URI) : Except Fault UriParseErr :=
  if u.validate_ then u.validate else return .ok

/-- `parse`: the normalization, if it is on. -/
def normalizeIfSet (u : URI) : Except Fault URI :=
  if u.normalize_ then u.normalize else return u

/-- `parse`. What it returns is in `parse_err_` too. -/
def parse (u : URI) : Except Fault URI := do
  let u ← u.parseComponents
  if u.parse_err_ ≠ .ok then return u
  let err ← u.validateIfSet
  if err ≠ .ok then return { u with parse_err_ := err }
  let u ← u.normalizeIfSet
  return { u with parse_err_ := .ok }

/-- The constructor that takes a string. -/
def ofString (uri : List UInt8) (validate normalize : Bool) : Except Fault URI :=
  parse { uri_ := uri, validate_ := validate, normalize_ := normalize }

def setSsp (u : URI) (ssp : List UInt8) : Except Fault URI := do
  assert (u.parse_err_ = .ok)
  let uri_ ← replace u.uri_ u.ssp_.offset_ u.ssp_.length_ ssp
  parse { u with uri_ }

/-- `serialize` with an action that unmarshals: the string that it has found is parsed. -/
def unserialize (u : URI) (uri : List UInt8) : Except Fault URI := parse { u with uri_ := uri }

end Oasys.URI
