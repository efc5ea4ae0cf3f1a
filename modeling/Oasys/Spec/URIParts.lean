import Oasys.Util.URINormalize

/-!
# The parts of a URI

What the components of a URI stand for: the texts of its parts, each with the delimiters that
belong to it. The parts are `WF` if the delimiters between them are the first ones of their
kind, which is what makes them the parts of their text; `toURI` is the object that has them as
its components. This file proves that the two parsing functions find the parts of every text
that has such parts.
-/

namespace Oasys.URI

open StdString

/-- The characters that end an authority. -/
abbrev authorityEnds : List UInt8 := ['/', '?', '#']

/-- The characters that end a path. -/
abbrev pathEnds : List UInt8 := ['?', '#']

/-- The parts of an authority: the user information with its `@`, the host, and the port
    without its colon, if there is the colon. -/
structure Authority where
  userinfo : List UInt8
  host : List UInt8
  port : Option (List UInt8)
  deriving DecidableEq, Repr

/-- The parts of a URI: the scheme without its colon, and the others as the accessors return
    them. -/
structure Parts where
  scheme : List UInt8
  authority : Option Authority
  path : List UInt8
  query : List UInt8
  fragment : List UInt8
  deriving DecidableEq, Repr

namespace Authority

def portText (a : Authority) : List UInt8 :=
  match a.port with
  | none => []
  | some port => ':' :: port

def inner (a : Authority) : List UInt8 := a.userinfo ++ (a.host ++ a.portText)

def text (a : Authority) : List UInt8 := slashes ++ a.inner

/-- A user information ends with the first `@`. -/
def IsUserinfo (userinfo rest : List UInt8) : Prop :=
  (userinfo = [] ∧ '@'.toUInt8 ∉ rest) ∨ ∃ x, userinfo = x ++ ['@'.toUInt8] ∧ '@'.toUInt8 ∉ x

def IsLiteral (host : List UInt8) : Prop :=
  ∃ x, host = '['.toUInt8 :: (x ++ [']'.toUInt8]) ∧ ']'.toUInt8 ∉ x

/-- Another host ends with the first colon, in a URI of the scheme `eth` with the authority. -/
def IsName (isEth : Prop) (host rest : List UInt8) : Prop :=
  (host ++ rest).head? ≠ some '['.toUInt8 ∧ (isEth → rest = []) ∧ (¬isEth → ':'.toUInt8 ∉ host)

/-- The parts are the ones that their delimiters make. -/
structure WF (a : Authority) (isEth : Prop) : Prop where
  userinfo : IsUserinfo a.userinfo (a.host ++ a.portText)
  host : IsLiteral a.host ∨ IsName isEth a.host a.portText
  ends : ∀ c ∈ a.inner, c ∉ authorityEnds

/-- The number of the port; an empty port leaves the one that was there. -/
def number (a : Authority) (old : UInt32) : UInt32 :=
  match a.port with
  | none => old
  | some port => if port = [] then old else portNum port

end Authority

namespace Parts

def authorityText (p : Parts) : List UInt8 := (p.authority.map Authority.text).getD []

def behindPath (p : Parts) : List UInt8 := p.query ++ p.fragment

def ssp (p : Parts) : List UInt8 := p.authorityText ++ (p.path ++ p.behindPath)

def text (p : Parts) : List UInt8 := (p.scheme ++ [':'.toUInt8]) ++ p.ssp

/-- The parts are the ones that their delimiters make. -/
structure WF (p : Parts) : Prop where
  scheme_ne : p.scheme ≠ []
  scheme : ':'.toUInt8 ∉ p.scheme
  authority : ∀ a, p.authority = some a → a.WF (p.scheme = eth)
  path_of_some : p.authority ≠ none → ∀ c ∈ p.path.head?, c = '/'
  path_of_none : p.authority = none → ¬slashes <+: p.path
  path : ∀ c ∈ p.path, c ∉ pathEnds
  query_head : ∀ c ∈ p.query.head?, c = '?'
  query : '#'.toUInt8 ∉ p.query
  fragment_head : ∀ c ∈ p.fragment.head?, c = '#'

/-! ### The object with the parts -/

def start (p : Parts) : Nat := p.scheme.length + 1

def pathStart (p : Parts) : Nat := p.start + p.authorityText.length

/-- Where the user information starts; without an authority it has the place of one. -/
def userinfoAt (p : Parts) : Component :=
  match p.authority with
  | none => ⟨p.start, 0⟩
  | some a => ⟨p.start + 2, a.userinfo.length⟩

def hostAt (p : Parts) : Component :=
  match p.authority with
  | none => ⟨p.start, 0⟩
  | some a => ⟨p.start + 2 + a.userinfo.length, a.host.length⟩

/-- Where the port is: behind its colon, or at the end of the host. -/
def portAt (p : Parts) : Component :=
  match p.authority with
  | none => ⟨p.start, 0⟩
  | some a =>
    match a.port with
    | none => ⟨p.start + 2 + a.userinfo.length + a.host.length, 0⟩
    | some port => ⟨p.start + 2 + a.userinfo.length + a.host.length + 1, port.length⟩

def number (p : Parts) : UInt32 := (p.authority.map fun a => a.number 0).getD 0

/-- The object whose components are the parts. -/
def toURI (p : Parts) (validate normalize : Bool) : URI where
  uri_ := p.text
  scheme_ := ⟨0, p.scheme.length⟩
  ssp_ := ⟨p.start, p.ssp.length⟩
  authority_ := ⟨p.start, p.authorityText.length⟩
  path_ := ⟨p.pathStart, p.path.length⟩
  query_ := ⟨p.pathStart + p.path.length, p.query.length⟩
  fragment_ := ⟨p.pathStart + p.path.length + p.query.length, p.fragment.length⟩
  userinfo_ := p.userinfoAt
  host_ := p.hostAt
  port_ := p.portAt
  port_num_ := p.number
  parse_err_ := .ok
  validate_ := validate
  normalize_ := normalize

end Parts

/-! ### `parse_generic_ssp` -/

section

variable {u : URI} {front rest : List UInt8}

theorem startsAuthority_eq {ssp : List UInt8} (huri : u.uri_ = front ++ ssp)
    (hssp : u.ssp_ = ⟨front.length, ssp.length⟩) :
    u.startsAuthority = .ok (slashes.isPrefixOf ssp) := by
  unfold startsAuthority
  rw [huri, hssp]
  match ssp with
  | [] => simp [slashes]
  | [c] => simp [slashes, List.isPrefixOf]
  | c :: d :: ssp =>
    have hnext : charAt (front ++ c :: d :: ssp) (front.length + 1) = .ok d := by
      have hat : charAt ((front ++ [c]) ++ d :: ssp) (front ++ [c]).length = .ok d :=
        charAt_append (front ++ [c]) d
      simpa using hat
    simp only [List.length_cons, charAt_append, hnext, slashes, List.isPrefixOf]
    by_cases hc : c = '/'.toUInt8
    · by_cases hd : d = '/'.toUInt8
      · simp [hc, hd]
      · simp [hc, hd, Ne.symm hd]
    · simp [hc, Ne.symm hc]

theorem findAuthority_eq {mid : List UInt8} (huri : u.uri_ = front ++ (slashes ++ (mid ++ rest)))
    (hssp : u.ssp_ = ⟨front.length, (slashes ++ (mid ++ rest)).length⟩)
    (hmid : ∀ c ∈ mid, c ∉ authorityEnds) (hrest : ∀ c ∈ rest.head?, c ∈ authorityEnds) :
    u.findAuthority = .ok (⟨front.length, (slashes ++ mid).length⟩,
      front.length + (slashes ++ mid).length) := by
  have hslashes : slashes.isPrefixOf (slashes ++ (mid ++ rest)) = true := by
    simp [List.isPrefixOf_iff_prefix]
  have hstarts := startsAuthority_eq huri hssp
  have hend := getD_findFirstOf (front ++ slashes) hmid hrest
  have hlen : slashes.length = 2 := rfl
  have hsub : front.length + 2 + mid.length - front.length = 2 + mid.length := by omega
  rw [hslashes] at hstarts
  simp only [List.length_append, List.append_assoc, hlen] at hend
  simp only [findAuthority, hstarts, huri, hssp, ok_bind, if_true, List.length_append, hlen, hend,
    hsub]
  simp [Nat.add_assoc]

theorem findAuthority_none {ssp : List UInt8} (huri : u.uri_ = front ++ ssp)
    (hssp : u.ssp_ = ⟨front.length, ssp.length⟩) (h : ¬slashes <+: ssp) :
    u.findAuthority = .ok (⟨front.length, 0⟩, front.length) := by
  have hslashes : slashes.isPrefixOf ssp = false := by
    rw [Bool.eq_false_iff, ne_eq, List.isPrefixOf_iff_prefix]
    exact h
  have hstarts := startsAuthority_eq huri hssp
  rw [hslashes] at hstarts
  simp [findAuthority, hstarts, hssp]

theorem findPath_eq {path : List UInt8} (huri : u.uri_ = front ++ (path ++ rest))
    (hpath : ∀ c ∈ path, c ∉ pathEnds) (hrest : ∀ c ∈ rest.head?, c ∈ pathEnds) :
    u.findPath front.length = (⟨front.length, path.length⟩, front.length + path.length) := by
  have hend := getD_findFirstOf front hpath hrest
  simp only [List.length_append] at hend
  simp only [findPath, huri, List.length_append]
  split
  · rw [hend]
    simp
  · rename_i hnil
    have hzero : path.length = 0 := by omega
    simp [hzero]

theorem startsWith_eq {c : UInt8} (huri : u.uri_ = front ++ rest) :
    u.startsWith front.length c = .ok (rest.head? = some c) := by
  unfold startsWith
  rw [huri]
  cases rest with
  | nil => simp
  | cons d rest => simp

theorem findQuery_eq {query : List UInt8} (huri : u.uri_ = front ++ (query ++ rest))
    (hhead : ∀ c ∈ query.head?, c = '?'.toUInt8) (hquery : '#'.toUInt8 ∉ query)
    (hrest : ∀ c ∈ rest.head?, c = '#'.toUInt8) :
    u.findQuery front.length = .ok (⟨front.length, query.length⟩, front.length + query.length) := by
  have hstarts := startsWith_eq (c := '?'.toUInt8) huri
  have hend := getD_find front hquery hrest
  unfold findQuery
  rw [hstarts]
  cases query with
  | nil =>
    -- a fragment starts with another character
    have hne : rest.head? ≠ some '?'.toUInt8 := fun h => absurd (hrest _ h) (by decide)
    simp [hne]
  | cons c query =>
    have hc : c = '?'.toUInt8 := hhead c (by simp)
    have hsub : front.length + (c :: query).length - front.length = (c :: query).length := by omega
    rw [← huri] at hend
    simp only [ok_bind, hend, hsub]
    simp [hc]

theorem findFragment_eq {fragment : List UInt8} (huri : u.uri_ = front ++ fragment)
    (hhead : ∀ c ∈ fragment.head?, c = '#'.toUInt8) :
    u.findFragment front.length =
      .ok (⟨front.length, fragment.length⟩, front.length + fragment.length) := by
  have hstarts := startsWith_eq (c := '#'.toUInt8) huri
  unfold findFragment
  rw [hstarts]
  cases fragment with
  | nil => simp
  | cons c fragment =>
    have hc : c = '#'.toUInt8 := hhead c (by simp)
    simp [hc, huri]

end

/-- The texts behind the scheme are cut at the delimiters that the parser looks for. -/
structure Cut (authority path query fragment : List UInt8) : Prop where
  authority : (authority = [] ∧ ¬slashes <+: path) ∨
    ((∃ mid, authority = slashes ++ mid ∧ ∀ c ∈ mid, c ∉ authorityEnds) ∧
      ∀ c ∈ path.head?, c = '/'.toUInt8)
  path : ∀ c ∈ path, c ∉ pathEnds
  query_head : ∀ c ∈ query.head?, c = '?'.toUInt8
  query : '#'.toUInt8 ∉ query
  fragment_head : ∀ c ∈ fragment.head?, c = '#'.toUInt8

namespace Cut

variable {authority path query fragment : List UInt8}

theorem behindPath_head (h : Cut authority path query fragment) :
    ∀ c ∈ (query ++ fragment).head?, c ∈ pathEnds := by
  intro c hc
  cases query with
  | nil =>
    have hc := h.fragment_head c hc
    simp [hc]
  | cons d query =>
    have hc := h.query_head c (by simpa using hc)
    simp [hc]

theorem not_slashes (h : Cut authority path query fragment) (hpath : ¬slashes <+: path) :
    ¬slashes <+: path ++ (query ++ fragment) := by
  have hhead := h.behindPath_head
  intro hslashes
  match path, hpath with
  | [], _ =>
    obtain ⟨rest, hrest⟩ := hslashes
    rw [List.nil_append] at hrest
    have hc := hhead '/'.toUInt8 (by rw [← hrest]; rfl)
    exact absurd hc (by decide)
  | [c], _ =>
    obtain ⟨rest, hrest⟩ := hslashes
    have htail : '/'.toUInt8 :: rest = query ++ fragment := (List.cons.inj hrest).2
    have hc := hhead '/'.toUInt8 (by rw [← htail]; rfl)
    exact absurd hc (by decide)
  | c :: d :: path, hpath =>
    apply hpath
    simpa [slashes, List.cons_prefix_cons] using hslashes

theorem behindAuthority_head (h : Cut authority path query fragment)
    (hpath : ∀ c ∈ path.head?, c = '/'.toUInt8) :
    ∀ c ∈ (path ++ (query ++ fragment)).head?, c ∈ authorityEnds := by
  intro c hc
  cases path with
  | nil => exact List.mem_cons_of_mem _ (h.behindPath_head c hc)
  | cons d path =>
    have hc := hpath c (by simpa using hc)
    simp [hc]

end Cut

/-- `parse_generic_ssp` finds the texts that are cut at their delimiters. Where nothing is
    behind the scheme it sets the components of the authority too, which is left open here. -/
theorem parseGenericSsp_eq {u : URI} {front authority path query fragment : List UInt8}
    (h : Cut authority path query fragment)
    (huri : u.uri_ = front ++ (authority ++ (path ++ (query ++ fragment))))
    (hssp : u.ssp_ = ⟨front.length, (authority ++ (path ++ (query ++ fragment))).length⟩) :
    ∃ userinfo_ host_ port_, u.parseGenericSsp = .ok { u with
      authority_ := ⟨front.length, authority.length⟩
      path_ := ⟨front.length + authority.length, path.length⟩
      query_ := ⟨front.length + authority.length + path.length, query.length⟩
      fragment_ :=
        ⟨front.length + authority.length + path.length + query.length, fragment.length⟩
      userinfo_, host_, port_ } := by
  by_cases hnil : (authority ++ (path ++ (query ++ fragment))).length = 0
  · -- an empty part everywhere
    simp only [List.length_append] at hnil
    have ha : authority.length = 0 := by omega
    have hp : path.length = 0 := by omega
    have hq : query.length = 0 := by omega
    have hf : fragment.length = 0 := by omega
    refine ⟨u.ssp_, u.ssp_, u.ssp_, ?_⟩
    simp [parseGenericSsp, hssp, ha, hp, hq, hf]
  · have hauthority : u.findAuthority =
        .ok (⟨front.length, authority.length⟩, front.length + authority.length) := by
      rcases h.authority with ⟨ha, hpath⟩ | ⟨⟨mid, ha, hmid⟩, hpath⟩
      · rw [ha, List.nil_append] at huri hssp
        rw [findAuthority_none huri hssp (h.not_slashes hpath), ha]
        rfl
      · rw [ha, List.append_assoc] at huri hssp
        rw [findAuthority_eq huri hssp hmid (h.behindAuthority_head hpath), ha]
    have hpath : u.findPath (front.length + authority.length) =
        (⟨front.length + authority.length, path.length⟩,
          front.length + authority.length + path.length) := by
      have hfront : u.uri_ = (front ++ authority) ++ (path ++ (query ++ fragment)) := by
        simp [huri]
      have hfind := findPath_eq hfront h.path h.behindPath_head
      simpa using hfind
    have hquery : u.findQuery (front.length + authority.length + path.length) =
        .ok (⟨front.length + authority.length + path.length, query.length⟩,
          front.length + authority.length + path.length + query.length) := by
      have hfront : u.uri_ = (front ++ authority ++ path) ++ (query ++ fragment) := by
        simp [huri]
      have hfind := findQuery_eq hfront h.query_head h.query h.fragment_head
      simpa [Nat.add_assoc] using hfind
    have hfragment : u.findFragment
        (front.length + authority.length + path.length + query.length) =
        .ok (⟨front.length + authority.length + path.length + query.length, fragment.length⟩,
          front.length + authority.length + path.length + query.length + fragment.length) := by
      have hfront : u.uri_ = (front ++ authority ++ path ++ query) ++ fragment := by
        simp [huri]
      have hfind := findFragment_eq hfront h.fragment_head
      simpa [Nat.add_assoc] using hfind
    have hend : u.uri_.length =
        front.length + authority.length + path.length + query.length + fragment.length := by
      simp [huri, Nat.add_assoc]
    refine ⟨u.userinfo_, u.host_, u.port_, ?_⟩
    simp only [parseGenericSsp, hssp, if_neg hnil, hauthority, hpath, hquery, hfragment, ok_bind,
      hend]
    simp

/-! ### `parse_authority` -/

section

open Authority

variable {u : URI} {front host rest : List UInt8}

theorem findUserinfo_eq {userinfo : List UInt8} (h : IsUserinfo userinfo rest) :
    u.findUserinfo (slashes ++ (userinfo ++ rest)) =
      (⟨u.authority_.offset_ + 2, userinfo.length⟩, 2 + userinfo.length) := by
  simp only [findUserinfo]
  rcases h with ⟨rfl, hrest⟩ | ⟨x, rfl, hx⟩
  · have hfind : find (slashes ++ ([] ++ rest)) '@'.toUInt8 2 = none := find_eq_none slashes hrest
    rw [hfind]
    rfl
  · have hfind : find (slashes ++ (x ++ ['@'.toUInt8] ++ rest)) '@'.toUInt8 2 =
        some (2 + x.length) := by
      rw [List.append_assoc]
      exact find_eq_some slashes hx
    rw [hfind]
    simp [Nat.add_assoc]

theorem findHostEnd_literal (front : List UInt8) (h : IsLiteral host) :
    u.findHostEnd (front ++ (host ++ rest)) front.length =
      .ok (some (front.length + host.length)) := by
  obtain ⟨x, rfl, hx⟩ := h
  have hmid : ']'.toUInt8 ∉ '['.toUInt8 :: x := by
    intro h
    cases List.mem_cons.1 h with
    | inl h => exact absurd h (by decide)
    | inr h => exact hx h
  have hfind : find (front ++ ('['.toUInt8 :: x ++ ']'.toUInt8 :: rest)) ']'.toUInt8
      front.length = some (front.length + ('['.toUInt8 :: x).length) := find_eq_some front hmid
  simp only [List.cons_append] at hfind
  simp [findHostEnd, hfind, Nat.add_assoc]

theorem findHostEnd_eq (front : List UInt8) {scheme : List UInt8} (hscheme : u.scheme = .ok scheme)
    (h : IsLiteral host ∨ IsName (scheme = eth) host rest)
    (hrest : ∀ c ∈ rest.head?, c = ':'.toUInt8) :
    u.findHostEnd (front ++ (host ++ rest)) front.length =
      .ok (some (front.length + host.length)) := by
  rcases h with hliteral | ⟨hhead, heth, hcolon⟩
  · exact findHostEnd_literal front hliteral
  · unfold findHostEnd
    cases hall : host ++ rest with
    | nil =>
      obtain ⟨rfl, rfl⟩ := List.append_eq_nil_iff.1 hall
      simp
    | cons c t =>
      have hc : c ≠ '['.toUInt8 := by
        intro h
        rw [hall, h] at hhead
        exact hhead rfl
      have hlength := congrArg List.length hall
      simp only [List.length_append, List.length_cons] at hlength
      by_cases hs : scheme = eth
      · have hnil := heth hs
        subst hnil
        simp only [List.length_nil, Nat.add_zero] at hlength
        simp [hc, hscheme, hs, hlength]
      · have hend := getD_find front (hcolon hs) hrest
        simp only [hall, List.length_append, List.length_cons] at hend
        simp [hc, hscheme, hs, hend]

theorem findHostEnd_none (u : URI) (front : List UInt8) (h : ']'.toUInt8 ∉ rest) :
    u.findHostEnd (front ++ '['.toUInt8 :: rest) front.length = .ok none := by
  have hmid : ']'.toUInt8 ∉ '['.toUInt8 :: rest := by
    intro h'
    cases List.mem_cons.1 h' with
    | inl h' => exact absurd h' (by decide)
    | inr h' => exact h h'
  simp [findHostEnd, find_eq_none front hmid]

theorem findPort_eq {a : Authority} {before behind : List UInt8}
    (huri : u.uri_ = before ++ (front ++ a.portText ++ behind))
    (hauthority : u.authority_.offset_ = before.length) :
    u.findPort (front ++ a.portText) front.length = .ok (some ({ u with
      port_ :=
        match a.port with
        | none => ⟨before.length + front.length, 0⟩
        | some port => ⟨before.length + front.length + 1, port.length⟩
      port_num_ := a.number u.port_num_ }, (front ++ a.portText).length)) := by
  unfold findPort portText Authority.number at *
  cases hport : a.port with
  | none => simp [hauthority]
  | some port =>
    rw [hport] at huri
    have hsub : front.length + (port.length + 1) - (front.length + 1) = port.length := by omega
    cases port with
    | nil => simp [hauthority, Nat.add_assoc]
    | cons c port =>
      have hsubstr : substr u.uri_ (before.length + (front.length + 1)) (port.length + 1) =
          .ok (c :: port) := by
        have hsplit : u.uri_ = (before ++ front ++ [':'.toUInt8]) ++ ((c :: port) ++ behind) := by
          simp [huri]
        have hall : substr ((before ++ front ++ [':'.toUInt8]) ++ ((c :: port) ++ behind))
            (before ++ front ++ [':'.toUInt8]).length (c :: port).length = .ok (c :: port) :=
          substr_append _
        rw [hsplit]
        simpa [Nat.add_assoc] using hall
      simp only [List.length_cons] at hsub
      simp [hauthority, hsub, URI.port, URI.text, hsubstr, Nat.add_assoc]

theorem findPort_none {c : UInt8} (hc : c ≠ ':'.toUInt8) :
    u.findPort (front ++ c :: rest) front.length = .ok none := by
  simp [findPort, hc]

theorem parseAuthority_eq {a : Authority} {scheme : List UInt8}
    (huri : u.uri_ = front ++ (a.text ++ rest))
    (hauthority : u.authority_ = ⟨front.length, a.text.length⟩) (hscheme : u.scheme = .ok scheme)
    (h : a.WF (scheme = eth)) :
    u.parseAuthority = .ok (.ok, { u with
      userinfo_ := ⟨front.length + 2, a.userinfo.length⟩
      host_ := ⟨front.length + 2 + a.userinfo.length, a.host.length⟩
      port_ :=
        match a.port with
        | none => ⟨front.length + 2 + a.userinfo.length + a.host.length, 0⟩
        | some port => ⟨front.length + 2 + a.userinfo.length + a.host.length + 1, port.length⟩
      port_num_ := a.number u.port_num_ }) := by
  have hne : ¬u.authority_.length_ = 0 := by
    rw [hauthority]
    simp [Authority.text, slashes]
  have htext : u.authority = .ok a.text := by
    rw [URI.authority, URI.text, huri, hauthority]
    exact substr_append front
  have hslashes : substr a.text 0 2 = .ok slashes := by
    simp [substr, Authority.text, slashes]
  have hlen : 2 ≤ a.text.length := by
    simp [Authority.text, slashes]
  have huserinfo : u.findUserinfo a.text = (⟨front.length + 2, a.userinfo.length⟩,
      2 + a.userinfo.length) := by
    have hfind := findUserinfo_eq (u := u) h.userinfo
    rwa [hauthority] at hfind
  have hhead : ∀ c ∈ a.portText.head?, c = ':'.toUInt8 := by
    unfold portText
    cases a.port <;> simp
  have hhost : ∀ v : URI, v.scheme = .ok scheme →
      v.findHostEnd a.text (2 + a.userinfo.length) =
        .ok (some (2 + a.userinfo.length + a.host.length)) := by
    intro v hv
    have hfind := findHostEnd_eq (slashes ++ a.userinfo) hv h.host hhead
    rwa [List.append_assoc, List.length_append] at hfind
  have hbefore : (slashes ++ a.userinfo ++ a.host).length =
      2 + a.userinfo.length + a.host.length := by
    simp only [List.length_append]
    rfl
  have hall : slashes ++ a.userinfo ++ a.host ++ a.portText = a.text := by
    simp [Authority.text, Authority.inner]
  have hport : ∀ v : URI, v.uri_ = u.uri_ → v.authority_ = u.authority_ →
      v.findPort a.text (2 + a.userinfo.length + a.host.length) = .ok (some ({ v with
        port_ :=
          match a.port with
          | none => ⟨front.length + (2 + a.userinfo.length + a.host.length), 0⟩
          | some port => ⟨front.length + (2 + a.userinfo.length + a.host.length) + 1, port.length⟩
        port_num_ := a.number v.port_num_ }, a.text.length)) := by
    intro v hv hat
    have hsplit : v.uri_ = front ++ ((slashes ++ a.userinfo ++ a.host) ++ a.portText ++ rest) := by
      simp [hv, huri, Authority.text, Authority.inner]
    have hfind := findPort_eq hsplit (by rw [hat, hauthority])
    rwa [hbefore, hall] at hfind
  unfold parseAuthority
  rw [if_neg hne, htext]
  simp only [ok_bind, hslashes, huserinfo, hlen, decide_true, assert_true]
  rw [hhost { u with userinfo_ := ⟨front.length + 2, a.userinfo.length⟩ } hscheme]
  simp only [ok_bind]
  have hat : ∀ host_, URI.findPort { u with
      userinfo_ := ⟨front.length + 2, a.userinfo.length⟩, host_ } _ _ = _ :=
    fun host_ => hport _ rfl rfl
  rw [hat]
  have hsub : 2 + a.userinfo.length + a.host.length - (2 + a.userinfo.length) = a.host.length := by
    omega
  simp only [hauthority, hsub]
  simp [Nat.add_assoc]

namespace Parts

variable {p : Parts}

theorem WF.cut (h : p.WF) : Cut p.authorityText p.path p.query p.fragment where
  authority := by
    unfold authorityText
    cases ha : p.authority with
    | none => exact Or.inl ⟨rfl, h.path_of_none ha⟩
    | some a =>
      have hpath := h.path_of_some (by simp [ha])
      exact Or.inr ⟨⟨a.inner, rfl, (h.authority a ha).ends⟩, hpath⟩
  path := h.path
  query_head := h.query_head
  query := h.query
  fragment_head := h.fragment_head

end Parts

theorem find_scheme {scheme ssp : List UInt8} (h : ':'.toUInt8 ∉ scheme) :
    find (scheme ++ [':'.toUInt8] ++ ssp) ':'.toUInt8 0 = some scheme.length := by
  have hfind : find ([] ++ (scheme ++ ':'.toUInt8 :: ssp)) ':'.toUInt8 0 = _ := find_eq_some [] h
  simpa using hfind

/-- The object when `parse` has found the scheme. -/
def withScheme (u : URI) (scheme ssp : List UInt8) : URI :=
  { u.clear false with scheme_ := ⟨0, scheme.length⟩, ssp_ := ⟨scheme.length + 1, ssp.length⟩ }

theorem parseComponents_of_scheme {scheme ssp : List UInt8}
    (huri : u.uri_ = scheme ++ [':'.toUInt8] ++ ssp) (hscheme : ':'.toUInt8 ∉ scheme)
    (hne : scheme ≠ []) :
    u.parseComponents = (do
      let u ← (u.withScheme scheme ssp).parseGenericSsp
      let (err, u) ← u.parseAuthority
      return { u with parse_err_ := err }) := by
  have hnil : scheme ++ [':'.toUInt8] ++ ssp ≠ [] := by simp
  have hfind : find (scheme ++ [':'.toUInt8] ++ ssp) ':'.toUInt8 0 = _ := find_scheme hscheme
  have hlen : scheme.length ≠ 0 := by simpa using hne
  have hsub : (scheme ++ [':'.toUInt8] ++ ssp).length - (scheme.length + 1) = ssp.length := by
    simp
    omega
  have hclear : (u.clear false).uri_ = scheme ++ [':'.toUInt8] ++ ssp := huri
  simp only [parseComponents, withScheme, hclear, if_neg hnil, hfind, if_neg hlen, hsub]

theorem parseComponents_eq {p : Parts} (huri : u.uri_ = p.text) (h : p.WF) :
    u.parseComponents = .ok (p.toURI u.validate_ u.normalize_) := by
  let v := u.withScheme p.scheme p.ssp
  have hv : v.uri_ = (p.scheme ++ [':'.toUInt8]) ++
      (p.authorityText ++ (p.path ++ (p.query ++ p.fragment))) := huri
  have hssp : v.ssp_ = ⟨(p.scheme ++ [':'.toUInt8]).length, p.ssp.length⟩ := by
    simp [v, withScheme]
  obtain ⟨userinfo_, host_, port_, hgeneric⟩ := parseGenericSsp_eq h.cut hv hssp
  rw [parseComponents_of_scheme huri h.scheme h.scheme_ne, hgeneric, ok_bind]
  cases ha : p.authority with
  | none =>
    have hnil : p.authorityText = [] := by
      simp [Parts.authorityText, ha]
    simp [parseAuthority, hnil, Parts.toURI, Parts.userinfoAt, Parts.hostAt, Parts.portAt,
      Parts.number, Parts.pathStart, Parts.start, ha, huri, v, withScheme, clear]
  | some a =>
    have htext : p.authorityText = a.text := by
      simp [Parts.authorityText, ha]
    have hscheme : v.scheme = .ok p.scheme := by
      have hsub : substr ([] ++ (p.scheme ++ ':'.toUInt8 :: p.ssp)) 0 p.scheme.length = _ :=
        substr_append []
      simpa [v, URI.scheme, URI.text, withScheme, clear, huri, Parts.text] using hsub
    rw [htext] at hv ⊢
    refine bind_eq_ok.2 ⟨_, parseAuthority_eq hv rfl hscheme (h.authority a ha), ?_⟩
    simp [Parts.toURI, Parts.userinfoAt, Parts.hostAt, Parts.portAt, Parts.number,
      Parts.pathStart, Parts.start, ha, huri, htext, v, withScheme, clear]

end

end Oasys.URI
