import Oasys.Spec.URIParts

/-!
# Parsing a URI

Every text is that of well-formed parts, or the parser rejects it: it has no scheme, or an IP
literal that does not end or ends in front of something that is no port. So the components of
an object that is parsed without an error cover its string.
-/

namespace Oasys.URI

open StdString

/-! ### Every text has parts -/

theorem exists_cut (ssp : List UInt8) : ∃ authority path query fragment,
    ssp = authority ++ (path ++ (query ++ fragment)) ∧ Cut authority path query fragment := by
  -- the authority first, and then the rest up to the query and up to the fragment
  have hsplit : ∃ authority rest, ssp = authority ++ rest ∧
      ((authority = [] ∧ ¬slashes <+: rest) ∨
        ((∃ mid, authority = slashes ++ mid ∧ ∀ c ∈ mid, c ∉ authorityEnds) ∧
          ∀ c ∈ rest.head?, c ∈ authorityEnds)) := by
    by_cases h : slashes <+: ssp
    · obtain ⟨t, rfl⟩ := h
      obtain ⟨mid, rest, rfl, hmid, hrest⟩ := exists_split_of authorityEnds t
      exact ⟨slashes ++ mid, rest, by simp, Or.inr ⟨⟨mid, rfl, hmid⟩, hrest⟩⟩
    · exact ⟨[], ssp, rfl, Or.inl ⟨rfl, h⟩⟩
  obtain ⟨authority, rest, rfl, hauthority⟩ := hsplit
  obtain ⟨path, rest, rfl, hpath, hrest⟩ := exists_split_of pathEnds rest
  obtain ⟨query, fragment, rfl, hquery, hfragment⟩ := exists_split '#'.toUInt8 rest
  refine ⟨authority, path, query, fragment, rfl, ?_, hpath, ?_, hquery, hfragment⟩
  · rcases hauthority with ⟨hnil, hslashes⟩ | ⟨hmid, hhead⟩
    · exact Or.inl ⟨hnil, fun h => hslashes (h.trans (List.prefix_append _ _))⟩
    · refine Or.inr ⟨hmid, ?_⟩
      intro c hc
      -- what ends the authority and not the path is a slash
      have hends := hhead c (by simp [List.head?_append, Option.mem_def.1 hc])
      have hnot := hpath c (List.mem_of_mem_head? hc)
      simpa [List.mem_cons] using fun h => hnot ((List.mem_cons.1 hends).resolve_left h)
  · intro c hc
    -- what ends the path and does not begin a fragment is a question mark
    have hends := hrest c (by simp [List.head?_append, Option.mem_def.1 hc])
    have hne : c ≠ '#'.toUInt8 := fun h => hquery (h ▸ List.mem_of_mem_head? hc)
    simpa [hne] using hends

/-- An authority whose IP literal does not end, or ends in front of what is no port. -/
def Malformed (inner : List UInt8) : Prop :=
  ∃ userinfo t, inner = userinfo ++ '['.toUInt8 :: t ∧
    Authority.IsUserinfo userinfo ('['.toUInt8 :: t) ∧
    (']'.toUInt8 ∉ t ∨
      ∃ x c r, t = x ++ ']'.toUInt8 :: c :: r ∧ ']'.toUInt8 ∉ x ∧ c ≠ ':'.toUInt8)

theorem exists_userinfo (inner : List UInt8) :
    ∃ userinfo rest, inner = userinfo ++ rest ∧ Authority.IsUserinfo userinfo rest := by
  obtain ⟨mid, rest, rfl, hmid, hrest⟩ := exists_split '@'.toUInt8 inner
  cases rest with
  | nil => exact ⟨[], mid, by simp, Or.inl ⟨rfl, hmid⟩⟩
  | cons c rest =>
    have hc := hrest c (by simp)
    subst hc
    exact ⟨mid ++ ['@'.toUInt8], rest, by simp, Or.inr ⟨mid, rfl, hmid⟩⟩

/-- What is behind the user information is a host and a port, or it is an IP literal that is
    not followed by one. -/
theorem exists_host (isEth : Prop) (rest : List UInt8) :
    (∃ host port, rest = host ++ (Authority.mk [] host port).portText ∧
      (Authority.IsLiteral host ∨
        Authority.IsName isEth host (Authority.mk [] host port).portText)) ∨
    ∃ t, rest = '['.toUInt8 :: t ∧ (']'.toUInt8 ∉ t ∨
      ∃ x c r, t = x ++ ']'.toUInt8 :: c :: r ∧ ']'.toUInt8 ∉ x ∧ c ≠ ':'.toUInt8) := by
  by_cases hhead : rest.head? = some '['.toUInt8
  · obtain ⟨t, rfl⟩ : ∃ t, rest = '['.toUInt8 :: t := by
      cases rest with
      | nil => simp at hhead
      | cons c t => exact ⟨t, by simpa using hhead⟩
    obtain ⟨x, r, rfl, hx, hr⟩ := exists_split ']'.toUInt8 t
    match r, hr with
    | [], _ => exact Or.inr ⟨_, rfl, Or.inl (by simpa using hx)⟩
    | d :: r, hr =>
      have hd := hr d (by simp)
      subst hd
      have hliteral : Authority.IsLiteral ('['.toUInt8 :: (x ++ [']'.toUInt8])) := ⟨x, rfl, hx⟩
      match r with
      | [] => exact Or.inl ⟨_, none, by simp [Authority.portText], Or.inl hliteral⟩
      | c :: r =>
        by_cases hc : c = ':'.toUInt8
        · subst hc
          exact Or.inl ⟨_, some r, by simp [Authority.portText], Or.inl hliteral⟩
        · exact Or.inr ⟨_, rfl, Or.inr ⟨x, c, r, rfl, hx, hc⟩⟩
  · left
    by_cases heth : isEth
    · refine ⟨rest, none, by simp [Authority.portText], Or.inr ⟨?_, ?_, ?_⟩⟩
      · simpa [Authority.portText] using hhead
      · simp [Authority.portText]
      · exact fun h => absurd heth h
    · obtain ⟨host, r, rfl, hhost, hr⟩ := exists_split ':'.toUInt8 rest
      have hname : ∀ port, r = (Authority.mk [] host port).portText →
          Authority.IsName isEth host (Authority.mk [] host port).portText := by
        intro port hport
        exact ⟨hport ▸ hhead, fun h => absurd h heth, fun _ => hhost⟩
      cases r with
      | nil => exact ⟨host, none, rfl, Or.inr (hname none rfl)⟩
      | cons c r =>
        have hc := hr c (by simp)
        subst hc
        exact ⟨host, some r, rfl, Or.inr (hname (some r) rfl)⟩

theorem exists_authority (isEth : Prop) {inner : List UInt8}
    (h : ∀ c ∈ inner, c ∉ authorityEnds) :
    (∃ a : Authority, a.inner = inner ∧ a.WF isEth) ∨ Malformed inner := by
  obtain ⟨userinfo, rest, rfl, huserinfo⟩ := exists_userinfo inner
  rcases exists_host isEth rest with ⟨host, port, rfl, hhost⟩ | ⟨t, rfl, ht⟩
  · exact Or.inl ⟨⟨userinfo, host, port⟩, rfl, huserinfo, hhost, h⟩
  · exact Or.inr ⟨userinfo, t, rfl, huserinfo, ht⟩

/-- A text is rejected for its scheme, or it has well-formed parts, or its authority is
    malformed. -/
theorem exists_parts {s scheme ssp : List UInt8} (hs : s = scheme ++ [':'.toUInt8] ++ ssp)
    (hscheme : ':'.toUInt8 ∉ scheme) (hne : scheme ≠ []) :
    (∃ p : Parts, p.text = s ∧ p.WF) ∨
      ∃ inner path query fragment, ssp = slashes ++ inner ++ (path ++ (query ++ fragment)) ∧
        Cut (slashes ++ inner) path query fragment ∧ Malformed inner := by
  obtain ⟨authority, path, query, fragment, rfl, hcut⟩ := exists_cut ssp
  rcases hcut.authority with ⟨rfl, hslashes⟩ | ⟨⟨inner, rfl, hinner⟩, hhead⟩
  · refine Or.inl ⟨⟨scheme, none, path, query, fragment⟩, hs.symm, ?_⟩
    exact ⟨hne, hscheme, by simp, by simp, fun _ => hslashes, hcut.path, hcut.query_head,
      hcut.query, hcut.fragment_head⟩
  · rcases exists_authority (scheme = eth) hinner with ⟨a, rfl, ha⟩ | hmalformed
    · refine Or.inl ⟨⟨scheme, some a, path, query, fragment⟩, hs.symm, ?_⟩
      exact ⟨hne, hscheme, by simpa using ha, fun _ => hhead, by simp, hcut.path,
        hcut.query_head, hcut.query, hcut.fragment_head⟩
    · exact Or.inr ⟨inner, path, query, fragment, rfl, hcut, hmalformed⟩

/-! ### What is rejected -/

theorem parseAuthority_malformed {u : URI} {front inner rest : List UInt8}
    (huri : u.uri_ = front ++ (slashes ++ inner ++ rest))
    (hauthority : u.authority_ = ⟨front.length, (slashes ++ inner).length⟩)
    (h : Malformed inner) :
    ∃ err v, u.parseAuthority = .ok (err, v) ∧ err ≠ .ok ∧ v.uri_ = u.uri_ ∧
      v.validate_ = u.validate_ ∧ v.normalize_ = u.normalize_ := by
  obtain ⟨userinfo, t, rfl, huserinfo, ht⟩ := h
  have hne : ¬u.authority_.length_ = 0 := by
    rw [hauthority]
    simp [slashes]
  have htext : u.authority = .ok (slashes ++ (userinfo ++ '['.toUInt8 :: t)) := by
    rw [URI.authority, URI.text, huri, hauthority]
    exact substr_append front
  have hslashes : substr (slashes ++ (userinfo ++ '['.toUInt8 :: t)) 0 2 = .ok slashes := by
    simp [substr, slashes]
  have hlen : 2 ≤ (slashes ++ (userinfo ++ '['.toUInt8 :: t)).length := by
    simp [slashes]
  have hfind := findUserinfo_eq (u := u) huserinfo
  have hbefore : (slashes ++ userinfo).length = 2 + userinfo.length := List.length_append
  unfold parseAuthority
  rw [if_neg hne, htext]
  simp only [ok_bind, hslashes, hfind, hlen, decide_true, assert_true]
  rcases ht with ht | ⟨x, c, r, rfl, hx, hc⟩
  · -- the literal does not end
    have hhost : ∀ v : URI, v.findHostEnd (slashes ++ (userinfo ++ '['.toUInt8 :: t))
        (2 + userinfo.length) = .ok none := by
      intro v
      have hnone := findHostEnd_none v (slashes ++ userinfo) ht
      rwa [List.append_assoc, hbefore] at hnone
    rw [hhost]
    exact ⟨_, _, rfl, by decide, rfl, rfl, rfl⟩
  · -- it ends in front of something else
    have hsplit : slashes ++ (userinfo ++ '['.toUInt8 :: (x ++ ']'.toUInt8 :: c :: r)) =
        (slashes ++ userinfo) ++ (('['.toUInt8 :: (x ++ [']'.toUInt8])) ++ c :: r) := by
      simp
    have hhost : ∀ v : URI, v.findHostEnd
        (slashes ++ (userinfo ++ '['.toUInt8 :: (x ++ ']'.toUInt8 :: c :: r)))
        (2 + userinfo.length) =
          .ok (some (2 + userinfo.length + ('['.toUInt8 :: (x ++ [']'.toUInt8])).length)) := by
      intro v
      rw [hsplit, ← hbefore]
      exact findHostEnd_literal _ ⟨x, rfl, hx⟩
    have hport : ∀ v : URI, v.findPort
        (slashes ++ (userinfo ++ '['.toUInt8 :: (x ++ ']'.toUInt8 :: c :: r)))
        (2 + userinfo.length + ('['.toUInt8 :: (x ++ [']'.toUInt8])).length) = .ok none := by
      intro v
      rw [hsplit, ← hbefore, ← List.append_assoc, ← List.length_append]
      exact findPort_none hc
    rw [hhost]
    simp only [ok_bind]
    rw [hport]
    exact ⟨_, _, rfl, by decide, rfl, rfl, rfl⟩

theorem parseComponents_cases (u : URI) :
    (∃ p : Parts, p.text = u.uri_ ∧ p.WF ∧
      u.parseComponents = .ok (p.toURI u.validate_ u.normalize_)) ∨
    ∃ v, u.parseComponents = .ok v ∧ v.parse_err_ ≠ .ok ∧ v.uri_ = u.uri_ ∧
      v.validate_ = u.validate_ ∧ v.normalize_ = u.normalize_ := by
  obtain ⟨scheme, rest, huri, hscheme, hrest⟩ := exists_split ':'.toUInt8 u.uri_
  cases rest with
  | nil =>
    -- no colon
    have hfind : find u.uri_ ':'.toUInt8 0 = none := by
      rw [huri]
      exact find_eq_none [] (by simpa using hscheme)
    right
    by_cases hnil : u.uri_ = []
    · exact ⟨{ u.clear false with parse_err_ := .noUri }, by simp [parseComponents, clear, hnil],
        by simp, rfl, rfl, rfl⟩
    · exact ⟨{ u.clear false with parse_err_ := .noSep },
        by simp [parseComponents, clear, hnil, hfind], by simp, rfl, rfl, rfl⟩
  | cons c ssp =>
    have hc := hrest c (by simp)
    subst hc
    have hs : u.uri_ = scheme ++ [':'.toUInt8] ++ ssp := by
      simp [huri]
    by_cases hne : scheme = []
    · -- nothing in front of it
      have hnil : u.uri_ ≠ [] := by simp [hs]
      have hfind : find u.uri_ ':'.toUInt8 0 = some 0 := by
        rw [hs, find_scheme hscheme, hne]
        rfl
      exact Or.inr ⟨{ u.clear false with parse_err_ := .badScheme },
        by simp [parseComponents, clear, hnil, hfind], by simp, rfl, rfl, rfl⟩
    · rcases exists_parts hs hscheme hne with ⟨p, hp, hwf⟩ | ⟨inner, path, query, fragment,
        hssp, hcut, hmalformed⟩
      · exact Or.inl ⟨p, hp, hwf, parseComponents_eq hp.symm hwf⟩
      · right
        have hv : (u.withScheme scheme ssp).uri_ = (scheme ++ [':'.toUInt8]) ++
            (slashes ++ inner ++ (path ++ (query ++ fragment))) := hssp ▸ hs
        have hat : (u.withScheme scheme ssp).ssp_ = ⟨(scheme ++ [':'.toUInt8]).length,
            (slashes ++ inner ++ (path ++ (query ++ fragment))).length⟩ := by
          simp [withScheme, hssp]
        obtain ⟨userinfo_, host_, port_, hparts⟩ := parseGenericSsp_eq hcut hv hat
        obtain ⟨w, hgeneric, huri, hauthority, hsame⟩ :
            ∃ w, (u.withScheme scheme ssp).parseGenericSsp = .ok w ∧
              w.uri_ = (u.withScheme scheme ssp).uri_ ∧
              w.authority_ = ⟨(scheme ++ [':'.toUInt8]).length, (slashes ++ inner).length⟩ ∧
              w.uri_ = u.uri_ ∧ w.validate_ = u.validate_ ∧ w.normalize_ = u.normalize_ :=
          ⟨_, hparts, rfl, rfl, rfl, rfl, rfl⟩
        obtain ⟨err, v, hparse, herr, hkept⟩ :=
          parseAuthority_malformed (huri.trans hv) hauthority hmalformed
        rw [hsame.1, hsame.2.1, hsame.2.2] at hkept
        rw [parseComponents_of_scheme hs hscheme hne, hgeneric, ok_bind, hparse]
        exact ⟨_, rfl, herr, hkept⟩

/-! ### The components of the parts -/

namespace Parts

variable (p : Parts) (v n : Bool)

def userinfoText : List UInt8 := (p.authority.map Authority.userinfo).getD []

def hostText : List UInt8 := (p.authority.map Authority.host).getD []

def portText : List UInt8 := ((p.authority.bind Authority.port)).getD []

theorem text_eq {u : URI} {c : Component} {front mid rest : List UInt8}
    (huri : u.uri_ = front ++ (mid ++ rest)) (hoffset : c.offset_ = front.length)
    (hlength : c.length_ = mid.length) : u.text c = .ok mid := by
  rw [URI.text, huri, hoffset, hlength]
  exact substr_append front

@[simp] theorem toURI_scheme : (p.toURI v n).scheme = .ok p.scheme := by
  have huri : (p.toURI v n).uri_ = [] ++ (p.scheme ++ ':'.toUInt8 :: p.ssp) := by
    simp [toURI, Parts.text]
  exact text_eq huri rfl rfl

@[simp] theorem toURI_ssp : (p.toURI v n).ssp = .ok p.ssp := by
  have huri : (p.toURI v n).uri_ = (p.scheme ++ [':'.toUInt8]) ++ (p.ssp ++ []) := by
    simp [toURI, Parts.text]
  have hoffset : p.start = (p.scheme ++ [':'.toUInt8]).length := by
    simp [start]
  exact text_eq huri hoffset rfl

@[simp] theorem toURI_authority : (p.toURI v n).authority = .ok p.authorityText := by
  have huri : (p.toURI v n).uri_ = (p.scheme ++ [':'.toUInt8]) ++ (p.authorityText ++
      (p.path ++ p.behindPath)) := rfl
  have hoffset : p.start = (p.scheme ++ [':'.toUInt8]).length := by
    simp [start]
  exact text_eq huri hoffset rfl

@[simp] theorem toURI_path : (p.toURI v n).path = .ok p.path := by
  have huri : (p.toURI v n).uri_ = (p.scheme ++ [':'.toUInt8] ++ p.authorityText) ++
      (p.path ++ p.behindPath) := by
    simp [toURI, Parts.text, Parts.ssp]
  have hoffset : p.pathStart = (p.scheme ++ [':'.toUInt8] ++ p.authorityText).length := by
    simp [pathStart, start, Nat.add_assoc, Nat.add_comm]
  exact text_eq huri hoffset rfl

@[simp] theorem toURI_query : (p.toURI v n).query = .ok p.query := by
  have huri : (p.toURI v n).uri_ = (p.scheme ++ [':'.toUInt8] ++ p.authorityText ++ p.path) ++
      (p.query ++ p.fragment) := by
    simp [toURI, Parts.text, Parts.ssp, behindPath]
  have hoffset : p.pathStart + p.path.length =
      (p.scheme ++ [':'.toUInt8] ++ p.authorityText ++ p.path).length := by
    simp only [pathStart, start, List.length_append, List.length_singleton]
  exact text_eq huri hoffset rfl

@[simp] theorem toURI_fragment : (p.toURI v n).fragment = .ok p.fragment := by
  have huri : (p.toURI v n).uri_ =
      (p.scheme ++ [':'.toUInt8] ++ p.authorityText ++ p.path ++ p.query) ++
        (p.fragment ++ []) := by
    simp [toURI, Parts.text, Parts.ssp, behindPath]
  have hoffset : p.pathStart + p.path.length + p.query.length =
      (p.scheme ++ [':'.toUInt8] ++ p.authorityText ++ p.path ++ p.query).length := by
    simp only [pathStart, start, List.length_append, List.length_singleton]
  exact text_eq huri hoffset rfl

theorem text_start : (p.toURI v n).text ⟨p.start, 0⟩ = .ok [] := by
  have huri : (p.toURI v n).uri_ = (p.scheme ++ [':'.toUInt8]) ++ ([] ++ p.ssp) := rfl
  have hoffset : p.start = (p.scheme ++ [':'.toUInt8]).length := by
    simp [start]
  exact text_eq huri hoffset rfl

@[simp] theorem toURI_userinfo : (p.toURI v n).userinfo = .ok p.userinfoText := by
  cases ha : p.authority with
  | none => simpa [toURI, URI.userinfo, userinfoAt, userinfoText, ha] using p.text_start v n
  | some a =>
    have huri : (p.toURI v n).uri_ = (p.scheme ++ [':'.toUInt8] ++ slashes) ++ (a.userinfo ++
        (a.host ++ a.portText ++ (p.path ++ p.behindPath))) := by
      simp [toURI, Parts.text, Parts.ssp, authorityText, ha, Authority.text, Authority.inner]
    have hoffset : p.start + 2 = (p.scheme ++ [':'.toUInt8] ++ slashes).length := by
      simp [start, slashes]
    have htext := text_eq (c := ⟨p.start + 2, a.userinfo.length⟩) huri hoffset rfl
    simpa [toURI, URI.userinfo, userinfoAt, userinfoText, ha] using htext

@[simp] theorem toURI_host : (p.toURI v n).host = .ok p.hostText := by
  cases ha : p.authority with
  | none => simpa [toURI, URI.host, hostAt, hostText, ha] using p.text_start v n
  | some a =>
    have huri : (p.toURI v n).uri_ = (p.scheme ++ [':'.toUInt8] ++ slashes ++ a.userinfo) ++
        (a.host ++ (a.portText ++ (p.path ++ p.behindPath))) := by
      simp [toURI, Parts.text, Parts.ssp, authorityText, ha, Authority.text, Authority.inner]
    have hoffset : p.start + 2 + a.userinfo.length =
        (p.scheme ++ [':'.toUInt8] ++ slashes ++ a.userinfo).length := by
      simp only [start, slashes, List.length_append, List.length_cons, List.length_nil]
    have htext := text_eq (c := ⟨p.start + 2 + a.userinfo.length, a.host.length⟩) huri hoffset rfl
    simpa [toURI, URI.host, hostAt, hostText, ha] using htext

@[simp] theorem toURI_port : (p.toURI v n).port = .ok p.portText := by
  cases ha : p.authority with
  | none => simpa [toURI, URI.port, portAt, portText, ha] using p.text_start v n
  | some a =>
    cases hport : a.port with
    | none =>
      have huri : (p.toURI v n).uri_ =
          (p.scheme ++ [':'.toUInt8] ++ slashes ++ a.userinfo ++ a.host) ++
            ([] ++ (p.path ++ p.behindPath)) := by
        simp [toURI, Parts.text, Parts.ssp, authorityText, ha, Authority.text, Authority.inner,
          Authority.portText, hport]
      have hoffset : p.start + 2 + a.userinfo.length + a.host.length =
          (p.scheme ++ [':'.toUInt8] ++ slashes ++ a.userinfo ++ a.host).length := by
        simp only [start, slashes, List.length_append, List.length_cons, List.length_nil]
      have htext := text_eq (c := ⟨p.start + 2 + a.userinfo.length + a.host.length, 0⟩) huri
        hoffset rfl
      simpa [toURI, URI.port, portAt, portText, ha, hport] using htext
    | some port =>
      have huri : (p.toURI v n).uri_ =
          (p.scheme ++ [':'.toUInt8] ++ slashes ++ a.userinfo ++ a.host ++ [':'.toUInt8]) ++
            (port ++ (p.path ++ p.behindPath)) := by
        simp [toURI, Parts.text, Parts.ssp, authorityText, ha, Authority.text, Authority.inner,
          Authority.portText, hport]
      have hoffset : p.start + 2 + a.userinfo.length + a.host.length + 1 =
          (p.scheme ++ [':'.toUInt8] ++ slashes ++ a.userinfo ++ a.host ++
            [':'.toUInt8]).length := by
        simp only [start, slashes, List.length_append, List.length_cons, List.length_nil]
      have htext := text_eq
        (c := ⟨p.start + 2 + a.userinfo.length + a.host.length + 1, port.length⟩) huri hoffset rfl
      simpa [toURI, URI.port, portAt, portText, ha, hport] using htext

end Parts

/-! ### Tiling -/

def Component.stop (c : Component) : Nat := c.offset_ + c.length_

/-- The components cover the string one after the other. -/
structure Tiled (u : URI) : Prop where
  text : ∃ scheme authority path query fragment, u.scheme = .ok scheme ∧
    u.authority = .ok authority ∧ u.path = .ok path ∧ u.query = .ok query ∧
    u.fragment = .ok fragment ∧
    scheme ++ [':'.toUInt8] ++ authority ++ path ++ query ++ fragment = u.uri_
  within : ∀ c ∈ [u.scheme_, u.ssp_, u.authority_, u.userinfo_, u.host_, u.port_, u.path_,
    u.query_, u.fragment_], c.stop ≤ u.uri_.length
  scheme_ : u.scheme_.offset_ = 0
  ssp_ : u.ssp_.offset_ = u.scheme_.stop + 1 ∧ u.ssp_.stop = u.uri_.length
  authority_ : u.authority_.offset_ = u.scheme_.stop + 1
  path_ : u.path_.offset_ = u.authority_.stop
  query_ : u.query_.offset_ = u.path_.stop
  fragment_ : u.fragment_.offset_ = u.query_.stop ∧ u.fragment_.stop = u.uri_.length
  /-- Without an authority its components are empty, where it would be. -/
  noAuthority : u.authority_.length_ = 0 →
    u.userinfo_ = u.authority_ ∧ u.host_ = u.authority_ ∧ u.port_ = u.authority_
  /-- An authority is the two slashes, the user information and the host, and then nothing or
      the colon and the port. -/
  authority : u.authority_.length_ ≠ 0 → ∃ userinfo host port, u.userinfo = .ok userinfo ∧
    u.host = .ok host ∧ u.port = .ok port ∧
    u.userinfo_.offset_ = u.authority_.offset_ + 2 ∧ u.host_.offset_ = u.userinfo_.stop ∧
    u.port_.stop = u.authority_.stop ∧
    ((u.port_.offset_ = u.host_.stop ∧ u.host_.stop = u.authority_.stop ∧
        u.authority = .ok (slashes ++ userinfo ++ host)) ∨
      (u.port_.offset_ = u.host_.stop + 1 ∧
        u.authority = .ok (slashes ++ userinfo ++ host ++ ':'.toUInt8 :: port)))

namespace Parts

theorem length_ssp (p : Parts) : p.ssp.length =
    p.authorityText.length + (p.path.length + (p.query.length + p.fragment.length)) := by
  simp [ssp, behindPath]

theorem length_text (p : Parts) : p.text.length = p.start + p.ssp.length := by
  simp only [Parts.text, start, List.length_append, List.length_singleton]

theorem length_authorityText {p : Parts} {a : Authority} (h : p.authority = some a) :
    p.authorityText.length =
      2 + a.userinfo.length + a.host.length + a.portText.length := by
  simp only [authorityText, h, Option.map_some, Option.getD_some, Authority.text, Authority.inner,
    slashes, List.length_append, List.length_cons, List.length_nil]
  omega

theorem stop_le (p : Parts) : p.userinfoAt.stop ≤ p.pathStart ∧ p.hostAt.stop ≤ p.pathStart ∧
    p.portAt.stop = p.pathStart := by
  unfold userinfoAt hostAt portAt pathStart
  cases ha : p.authority with
  | none => simp [Component.stop, authorityText, ha]
  | some a =>
    have hlength := length_authorityText ha
    unfold Authority.portText at hlength
    cases hport : a.port with
    | none =>
      simp only [hport, List.length_nil] at hlength
      simp only [hport, Component.stop]
      omega
    | some port =>
      simp only [hport, List.length_cons] at hlength
      simp only [hport, Component.stop]
      omega

/-- The components of the object with the parts cover its string. -/
theorem tiled_toURI (p : Parts) (v n : Bool) : Tiled (p.toURI v n) where
  text := by
    refine ⟨p.scheme, p.authorityText, p.path, p.query, p.fragment, by simp, by simp, by simp,
      by simp, by simp, ?_⟩
    simp [toURI, Parts.text, Parts.ssp, behindPath]
  within := by
    have hssp := p.length_ssp
    have hstop := p.stop_le
    have htext : (p.toURI v n).uri_.length = p.start + p.ssp.length := p.length_text
    unfold pathStart at hstop
    rw [htext]
    simp only [toURI, List.mem_cons, List.not_mem_nil, or_false, forall_eq_or_imp, forall_eq]
    refine ⟨?_, ?_, ?_, ?_, ?_, ?_, ?_, ?_, ?_⟩ <;>
      simp only [Component.stop, pathStart, start] at hstop ⊢ <;> omega
  scheme_ := rfl
  ssp_ := by
    have htext := p.length_text
    exact ⟨by simp [toURI, Component.stop, start], htext.symm⟩
  authority_ := by
    simp [toURI, Component.stop, start]
  path_ := rfl
  query_ := rfl
  fragment_ := by
    have hssp := p.length_ssp
    have htext := p.length_text
    refine ⟨rfl, ?_⟩
    simp only [toURI, Component.stop, pathStart]
    omega
  noAuthority := by
    intro h
    cases ha : p.authority with
    | none => simp [toURI, userinfoAt, hostAt, portAt, authorityText, ha]
    | some a =>
      have hlength := length_authorityText ha
      simp only [toURI] at h
      omega
  authority := by
    intro h
    cases ha : p.authority with
    | none => simp [toURI, authorityText, ha] at h
    | some a =>
      have hstop := p.stop_le
      have htext : p.authorityText = slashes ++ a.userinfo ++ a.host ++ a.portText := by
        simp [authorityText, ha, Authority.text, Authority.inner]
      refine ⟨p.userinfoText, p.hostText, p.portText, by simp, by simp, by simp, ?_, ?_,
        hstop.2.2, ?_⟩
      · simp [toURI, userinfoAt, ha]
      · simp [toURI, userinfoAt, hostAt, ha, Component.stop]
      · have hlength := length_authorityText ha
        cases hport : a.port with
        | none =>
          have hnil : a.portText = [] := by simp [Authority.portText, hport]
          rw [hnil] at htext hlength
          left
          refine ⟨?_, ?_, ?_⟩
          · simp [toURI, hostAt, portAt, ha, hport, Component.stop]
          · simp only [toURI, hostAt, ha, Component.stop, List.length_nil] at hlength ⊢
            omega
          · simp [htext, userinfoText, hostText, ha]
        | some port =>
          have hcons : a.portText = ':'.toUInt8 :: port := by simp [Authority.portText, hport]
          right
          constructor
          · simp [toURI, hostAt, portAt, ha, hport, Component.stop]
          · simp [htext, hcons, userinfoText, hostText, portText, ha, hport]

end Parts

/-- `parse` without validation or normalization returns for every string, so that none of its
    assertions fails. If it finds no error, the components cover the string. -/
theorem parse_tiled (u : URI) :
    ∃ w, parse { u with validate_ := false, normalize_ := false } = .ok w ∧
      (w.valid = true → w.uri_ = u.uri_ ∧ Tiled w) := by
  rcases parseComponents_cases { u with validate_ := false, normalize_ := false } with
    ⟨p, htext, -, hparse⟩ | ⟨w, hparse, herr, -, hvalidate, hnormalize⟩
  · refine ⟨p.toURI false false, ?_, fun _ => ⟨htext, p.tiled_toURI false false⟩⟩
    rw [parse, hparse]
    rfl
  · refine ⟨w, ?_, ?_⟩
    · rw [parse, hparse, ok_bind, if_pos herr]
      rfl
    · intro hvalid
      exact absurd (by simpa [valid] using hvalid) herr

end Oasys.URI

/-!
### Validating a URI

What `validate` accepts, as a property of the parts. For parts that the parser finds it
returns, since the delimiters that its assertions look for are where the parser has put them.
-/

namespace Oasys.URI

open StdString

/-! ### Texts -/

/-- A text of plain characters and of escapes, which are a percent sign and two more. -/
inductive Escaped (plain : UInt8 → Prop) (pair : UInt8 → UInt8 → Prop) : List UInt8 → Prop
  | nil : Escaped plain pair []
  | char {c : UInt8} {rest : List UInt8} (hc : plain c) (hrest : Escaped plain pair rest) :
      Escaped plain pair (c :: rest)
  | escape {h l : UInt8} {rest : List UInt8} (hpair : pair h l)
      (hrest : Escaped plain pair rest) : Escaped plain pair ('%'.toUInt8 :: h :: l :: rest)

theorem Escaped.mono {plain plain' : UInt8 → Prop} {pair pair' : UInt8 → UInt8 → Prop}
    {text : List UInt8} (hplain : ∀ c, plain c → plain' c) (hpair : ∀ h l, pair h l → pair' h l)
    (htext : Escaped plain pair text) : Escaped plain' pair' text := by
  induction htext with
  | nil => exact .nil
  | char hc _ ih => exact .char (hplain _ hc) ih
  | escape hp _ ih => exact .escape (hpair _ _ hp) ih

/-- A valid text: the allowed characters, and escapes with two hexadecimal digits. -/
def ValidText (allowed : UInt8 → Bool) (text : List UInt8) : Prop :=
  Escaped (fun c => allowed c = true) (fun h l => isHexdig h = true ∧ isHexdig l = true) text

theorem validateChars_eq_ok {allowed : UInt8 → Bool} {bad : UriParseErr} {text : List UInt8}
    (hpercent : allowed '%' = false) (hbad : bad ≠ .ok) :
    validateChars allowed bad text = .ok ↔ ValidText allowed text := by
  constructor
  · intro h
    fun_induction validateChars allowed bad text with
    | case1 => exact .nil
    | case2 c rest hc ih => exact .char hc (ih h)
    | case3 h' l rest hdigits hnot ih =>
      rw [Bool.and_eq_true] at hdigits
      exact .escape hdigits (ih h)
    | case4 => cases h
    | case5 => cases h
    | case6 => exact absurd h hbad
  · intro h
    induction h with
    | nil => rfl
    | char hc _ ih => rw [validateChars.eq_def]; simp [hc, ih]
    | escape hpair _ ih => simp [validateChars, hpercent, hpair.1, hpair.2, ih]

def schemeChar (c : UInt8) : Bool := isalnum c || c = '+' || c = '-' || c = '.'

/-- A host that is accepted: none, an IP literal in brackets, and another one by the scheme. -/
inductive ValidHost (isEth : Prop) : List UInt8 → Prop
  | nil : ValidHost isEth []
  | literal {x : List UInt8} (h : validateIpLiteral x = .ok) :
      ValidHost isEth ('['.toUInt8 :: (x ++ [']'.toUInt8]))
  | eth {host : List UInt8} (heth : isEth) (hhead : host.head? ≠ some '['.toUInt8)
      (h : validateEthLiteral host = .ok) : ValidHost isEth host
  | name {host : List UInt8} (heth : ¬isEth) (hhead : host.head? ≠ some '['.toUInt8)
      (h : ValidText hostChar host) : ValidHost isEth host

/-- The parts of a URI that is accepted. -/
structure Parts.Valid (p : Parts) : Prop where
  scheme_head : ∀ c ∈ p.scheme.head?, isalpha c = true
  scheme : ∀ c ∈ p.scheme, schemeChar c = true
  userinfo : ValidText userinfoChar p.userinfoText.dropLast
  host : ValidHost (p.scheme = URI.eth) p.hostText
  port : ∀ c ∈ p.portText, isdigit c = true
  path : ValidText pathChar p.path
  query : ValidText queryChar p.query.tail
  fragment : ValidText queryChar p.fragment.tail

/-! ### The checks -/

/-- A check returns, and it accepts exactly what has the property. -/
def Checks (x : Except Fault UriParseErr) (P : Prop) : Prop :=
  ∃ err, x = .ok err ∧ (err = .ok ↔ P)

theorem Checks.cons {u : URI} {check : URI → Except Fault UriParseErr}
    {checks : List (URI → Except Fault UriParseErr)} {P Q : Prop} (h : Checks (check u) P)
    (hrest : Checks (u.firstErr checks) Q) : Checks (u.firstErr (check :: checks)) (P ∧ Q) := by
  obtain ⟨err, hcheck, hP⟩ := h
  obtain ⟨err', hchecks, hQ⟩ := hrest
  by_cases herr : err = .ok
  · refine ⟨err', ?_, ?_⟩
    · simp [firstErr, hcheck, herr, hchecks]
    · rw [hQ, ← hP]
      simp [herr]
  · refine ⟨err, ?_, ?_⟩
    · simp only [firstErr, hcheck, ok_bind]
      cases err <;> simp_all
    · rw [← hP]
      simp [herr]

namespace Parts

variable {p : Parts} {v n : Bool}

theorem checks_validateSchemeName (h : p.WF) :
    Checks (p.toURI v n).validateSchemeName
      ((∀ c ∈ p.scheme.head?, isalpha c = true) ∧ ∀ c ∈ p.scheme, schemeChar c = true) := by
  obtain ⟨c, scheme, hscheme⟩ := List.exists_cons_of_ne_nil h.scheme_ne
  have halpha : isalpha c = true → schemeChar c = true := by
    intro hc
    simp [schemeChar, isalnum, hc]
  have hall : (scheme.all fun c => isalnum c || c = '+' || c = '-' || c = '.') =
      scheme.all schemeChar := rfl
  unfold validateSchemeName
  rw [toURI_scheme, ok_bind, hscheme]
  simp only [hall, List.head?_cons, Option.mem_some_iff, forall_eq', List.forall_mem_cons]
  by_cases hc : isalpha c = true
  · by_cases hrest : scheme.all schemeChar = true
    · refine ⟨.ok, by simp [hc, hrest], ?_⟩
      rw [List.all_eq_true] at hrest
      simpa [hc, halpha hc] using hrest
    · refine ⟨.badScheme, by simp [hc, hrest], ?_⟩
      rw [List.all_eq_true] at hrest
      simp [hrest]
  · exact ⟨.badScheme, by simp [hc], by simp [hc]⟩

theorem checks_validatePath (h : p.WF) :
    Checks (p.toURI v n).validatePath (ValidText pathChar p.path) := by
  by_cases hnil : p.path = []
  · refine ⟨.ok, by simp [validatePath, toURI, hnil], ?_⟩
    simp [hnil, ValidText, Escaped.nil]
  · have hlength : (p.toURI v n).path_.length_ ≠ 0 := by simpa [toURI] using hnil
    refine ⟨validateChars pathChar .badPath p.path, ?_, validateChars_eq_ok rfl (by decide)⟩
    unfold validatePath
    rw [if_neg hlength, toURI_path, ok_bind]
    have hat : (p.toURI v n).authority_.length_ = p.authorityText.length := rfl
    rw [hat]
    cases ha : p.authority with
    | none =>
      have hzero : p.authorityText.length = 0 := by simp [authorityText, ha]
      have hslashes : p.path.take 2 ≠ slashes := by
        intro htake
        exact h.path_of_none ha (htake ▸ List.take_prefix 2 p.path)
      simp [hzero, hslashes]
    | some a =>
      have hpos : p.authorityText.length ≠ 0 := by simp [authorityText, ha, Authority.text, slashes]
      obtain ⟨c, path, hpath⟩ := List.exists_cons_of_ne_nil hnil
      have hc : c = '/'.toUInt8 := h.path_of_some (by simp [ha]) c (by simp [hpath])
      simp [hpos, hpath, hc]

theorem checks_validateQuery (h : p.WF) :
    Checks (p.toURI v n).validateQuery (ValidText queryChar p.query.tail) := by
  cases hquery : p.query with
  | nil =>
    refine ⟨.ok, by simp [validateQuery, toURI, hquery], ?_⟩
    simp [ValidText, Escaped.nil]
  | cons c query =>
    have hc : c = '?'.toUInt8 := h.query_head c (by simp [hquery])
    refine ⟨validateChars queryChar .badQuery query, ?_, validateChars_eq_ok rfl (by decide)⟩
    have hlength : (p.toURI v n).query_.length_ ≠ 0 := by simp [toURI, hquery]
    unfold validateQuery
    rw [if_neg hlength, toURI_query, ok_bind, hquery]
    simp [hc]

theorem checks_validateFragment (h : p.WF) :
    Checks (p.toURI v n).validateFragment (ValidText queryChar p.fragment.tail) := by
  cases hfragment : p.fragment with
  | nil =>
    refine ⟨.ok, by simp [validateFragment, toURI, hfragment], ?_⟩
    simp [ValidText, Escaped.nil]
  | cons c fragment =>
    have hc : c = '#'.toUInt8 := h.fragment_head c (by simp [hfragment])
    refine ⟨validateChars queryChar .badFragment fragment, ?_,
      validateChars_eq_ok rfl (by decide)⟩
    have hlength : (p.toURI v n).fragment_.length_ ≠ 0 := by simp [toURI, hfragment]
    unfold validateFragment
    rw [if_neg hlength, toURI_fragment, ok_bind, hfragment]
    simp [hc]

theorem userinfoText_cases (h : p.WF) :
    p.userinfoText = [] ∨ ∃ x, p.userinfoText = x ++ ['@'.toUInt8] := by
  cases ha : p.authority with
  | none => simp [userinfoText, ha]
  | some a =>
    rcases (h.authority a ha).userinfo with ⟨hnil, -⟩ | ⟨x, hx, -⟩
    · simp [userinfoText, ha, hnil]
    · simp [userinfoText, ha, hx]

theorem checks_validateUserinfo (h : p.WF) :
    Checks (p.toURI v n).validateUserinfo (ValidText userinfoChar p.userinfoText.dropLast) := by
  have hlength : (p.toURI v n).userinfo_.length_ = p.userinfoText.length := by
    cases ha : p.authority <;> simp [toURI, userinfoAt, userinfoText, ha]
  unfold validateUserinfo
  rw [hlength, toURI_userinfo, ok_bind]
  rcases userinfoText_cases h with hnil | ⟨x, hx⟩
  · refine ⟨.ok, by simp [hnil], ?_⟩
    simp [hnil, ValidText, Escaped.nil]
  · refine ⟨validateChars userinfoChar .badUserinfo x, by simp [hx], ?_⟩
    rw [hx, List.dropLast_concat]
    exact validateChars_eq_ok rfl (by decide)

theorem checks_validatePort :
    Checks (p.toURI v n).validatePort (∀ c ∈ p.portText, isdigit c = true) := by
  have hlength : (p.toURI v n).port_.length_ = p.portText.length := by
    cases ha : p.authority with
    | none => simp [toURI, portAt, portText, ha]
    | some a => cases hport : a.port <;> simp [toURI, portAt, portText, ha, hport]
  unfold validatePort
  rw [hlength, toURI_port, ok_bind]
  by_cases hnil : p.portText = []
  · exact ⟨.ok, by simp [hnil], by simp [hnil]⟩
  · by_cases hall : p.portText.all isdigit = true
    · refine ⟨.ok, by simp [hnil, hall], ?_⟩
      simpa using hall
    · refine ⟨.badPort, by simp [hnil, hall], ?_⟩
      simpa using hall

theorem validHost_literal {isEth : Prop} {x : List UInt8} :
    ValidHost isEth ('['.toUInt8 :: (x ++ [']'.toUInt8])) ↔ validateIpLiteral x = .ok := by
  constructor
  · intro h
    generalize hhost : '['.toUInt8 :: (x ++ [']'.toUInt8]) = host at h
    cases h with
    | nil => cases hhost
    | literal h => rwa [List.append_cancel_right (List.cons.inj hhost).2]
    | eth _ hhead => exact absurd (by rw [← hhost]; rfl) hhead
    | name _ hhead => exact absurd (by rw [← hhost]; rfl) hhead
  · exact .literal

theorem validHost_name {isEth : Prop} {host : List UInt8} (hnil : host ≠ [])
    (hhead : host.head? ≠ some '['.toUInt8) :
    ValidHost isEth host ↔
      (isEth ∧ validateEthLiteral host = .ok) ∨ (¬isEth ∧ ValidText hostChar host) := by
  constructor
  · intro h
    cases h with
    | nil => exact absurd rfl hnil
    | literal => exact absurd rfl hhead
    | eth heth _ h => exact .inl ⟨heth, h⟩
    | name heth _ h => exact .inr ⟨heth, h⟩
  · rintro (⟨heth, h⟩ | ⟨heth, h⟩)
    · exact .eth heth hhead h
    · exact .name heth hhead h

theorem checks_validateHost (h : p.WF) :
    Checks (p.toURI v n).validateHost (ValidHost (p.scheme = URI.eth) p.hostText) := by
  have hcases : p.hostText = [] ∨ (∃ x, p.hostText = '['.toUInt8 :: (x ++ [']'.toUInt8])) ∨
      p.hostText.head? ≠ some '['.toUInt8 := by
    cases ha : p.authority with
    | none => simp [hostText, ha]
    | some a =>
      rcases (h.authority a ha).host with ⟨x, hx, -⟩ | ⟨hhead, -, -⟩
      · exact .inr (.inl ⟨x, by simp [hostText, ha, hx]⟩)
      · cases hhost : a.host with
        | nil => simp [hostText, ha, hhost]
        | cons c host =>
          rw [hhost] at hhead
          exact .inr (.inr (by simpa [hostText, ha, hhost] using hhead))
  unfold validateHost
  rw [toURI_host, ok_bind]
  rcases hcases with hnil | ⟨x, hx⟩ | hhead
  · refine ⟨.ok, by simp [hnil], ?_⟩
    simp [hnil, ValidHost.nil]
  · have hsub : substr ('['.toUInt8 :: (x ++ [']'.toUInt8])) 1 x.length = .ok x := by
      have hinner : substr (['['.toUInt8] ++ (x ++ [']'.toUInt8])) 1 x.length = .ok x :=
        substr_append ['['.toUInt8]
      exact hinner
    have hlast : ('['.toUInt8 :: (x ++ [']'.toUInt8])).getLast? = some ']'.toUInt8 := by
      rw [← List.cons_append, List.getLast?_concat]
    refine ⟨validateIpLiteral x, ?_, ?_⟩
    · simp [hx, hlast, hsub]
    · rw [hx, validHost_literal]
  · by_cases hnil : p.hostText = []
    · refine ⟨.ok, by simp [hnil], ?_⟩
      simp [hnil, ValidHost.nil]
    · rw [if_neg hnil, if_neg hhead, toURI_scheme, ok_bind]
      by_cases heth : p.scheme = URI.eth
      · refine ⟨validateEthLiteral p.hostText, by simp [heth], ?_⟩
        simp [validHost_name hnil hhead, heth]
      · refine ⟨validateChars hostChar .badHost p.hostText, by simp [heth], ?_⟩
        rw [validateChars_eq_ok rfl (by decide), validHost_name hnil hhead]
        simp [heth]

theorem checks_validate (h : p.WF) : Checks (p.toURI v n).validate p.Valid := by
  have hnone : Checks ((p.toURI v n).firstErr []) True := ⟨.ok, rfl, by simp⟩
  have hall := (checks_validateSchemeName (v := v) (n := n) h).cons <|
    (checks_validateUserinfo h).cons <| (checks_validateHost h).cons <|
    checks_validatePort.cons <| (checks_validatePath h).cons <|
    (checks_validateQuery h).cons <| (checks_validateFragment h).cons hnone
  obtain ⟨err, hrun, hP⟩ := hall
  refine ⟨err, hrun, hP.trans ?_⟩
  constructor
  · rintro ⟨⟨h1, h2⟩, h3, h4, h5, h6, h7, h8, -⟩
    exact ⟨h1, h2, h3, h4, h5, h6, h7, h8⟩
  · intro h
    exact ⟨⟨h.scheme_head, h.scheme⟩, h.userinfo, h.host, h.port, h.path, h.query, h.fragment,
      trivial⟩

end Parts

end Oasys.URI

/-!
### The setters of a URI

A setter that does not parse again leaves the object whose parts are those it had, with the
new text in the place of the old one. The lengths of the two texts may differ by what an `int`
holds.
-/

namespace Oasys.URI

open StdString

namespace Component

variable {c : Component} {new old : Nat}

theorem adjustLength_eq (h : old ≤ c.length_) :
    c.adjustLength (diff new old) = .ok ⟨c.offset_, c.length_ + new - old⟩ := by
  unfold adjustLength diff
  by_cases hpos : (new : Int) - old > 0
  · have hlength : c.length_ + ((new : Int) - old).toNat = c.length_ + new - old := by omega
    rw [if_pos hpos, hlength]
    rfl
  · have hsub : (-((new : Int) - old)).toNat = old - new := by omega
    have hlength : c.length_ - (old - new) = c.length_ + new - old := by omega
    have hfits : old - new ≤ c.length_ := by omega
    rw [if_neg hpos, hsub]
    simp [hfits, hlength]

theorem adjustOffset_eq (h : old < c.offset_) :
    c.adjustOffset (diff new old) = .ok ⟨c.offset_ + new - old, c.length_⟩ := by
  have hne : c.offset_ ≠ 0 := by omega
  unfold adjustOffset diff
  rw [if_neg hne]
  by_cases hpos : (new : Int) - old > 0
  · have hoffset : c.offset_ + ((new : Int) - old).toNat = c.offset_ + new - old := by omega
    rw [if_pos hpos, hoffset]
    rfl
  · have hsub : (-((new : Int) - old)).toNat = old - new := by omega
    have hoffset : c.offset_ - (old - new) = c.offset_ + new - old := by omega
    have hfits : old - new ≤ c.offset_ := by omega
    rw [if_neg hpos, hsub]
    simp [hfits, hoffset]

theorem diff_ne_zero : diff new old ≠ 0 ↔ new ≠ old := by
  unfold diff
  omega

end Component

namespace Parts

variable (p : Parts) (v n : Bool)

theorem replace_text {text front mid rest : List UInt8} {offset : Nat} (str : List UInt8)
    (htext : text = front ++ (mid ++ rest)) (hoffset : offset = front.length) :
    replace text offset mid.length str = .ok (front ++ (str ++ rest)) := by
  rw [htext, hoffset, replace_append]

theorem setPath_eq (path : List UInt8) :
    (p.toURI v n).setPath path = .ok (toURI { p with path } v n) := by
  have htext : ∀ path, Parts.text { p with path } = (p.scheme ++ [':'.toUInt8] ++
      p.authorityText) ++ (path ++ p.behindPath) := by
    simp [Parts.text, Parts.ssp, authorityText, behindPath]
  have hoffset : p.pathStart = (p.scheme ++ [':'.toUInt8] ++ p.authorityText).length := by
    simp [pathStart, start, Nat.add_assoc, Nat.add_comm]
  have hreplace := replace_text path (htext p.path) hoffset
  rw [← htext path] at hreplace
  simp only [setPath, toURI, hreplace, decide_true, assert_true, ok_bind]
  simp only [length_ssp, pathStart, start, authorityText, Component.diff_ne_zero]
  simp (disch := simp only; omega) only [Component.adjustLength_eq, Component.adjustOffset_eq,
    ok_bind]
  split <;> simp only [pure_eq_ok, Except.ok.injEq, URI.mk.injEq, Component.mk.injEq,
    userinfoAt, hostAt, portAt, number, start, true_and, and_true] <;> omega

theorem setQuery_eq (query : List UInt8) :
    (p.toURI v n).setQuery query = .ok (toURI { p with query } v n) := by
  have htext : ∀ query, Parts.text { p with query } = (p.scheme ++ [':'.toUInt8] ++
      p.authorityText ++ p.path) ++ (query ++ p.fragment) := by
    simp [Parts.text, Parts.ssp, authorityText, behindPath]
  have hoffset : p.pathStart + p.path.length =
      (p.scheme ++ [':'.toUInt8] ++ p.authorityText ++ p.path).length := by
    simp only [pathStart, start, List.length_append, List.length_singleton]
  have hreplace := replace_text query (htext p.query) hoffset
  rw [← htext query] at hreplace
  simp only [setQuery, toURI, hreplace, decide_true, assert_true, ok_bind]
  simp only [length_ssp, pathStart, start, authorityText, Component.diff_ne_zero]
  simp (disch := simp only; omega) only [Component.adjustLength_eq, Component.adjustOffset_eq,
    ok_bind]
  split <;> simp only [pure_eq_ok, Except.ok.injEq, URI.mk.injEq, Component.mk.injEq,
    userinfoAt, hostAt, portAt, number, start, true_and, and_true] <;> omega

theorem setFragment_eq (fragment : List UInt8) :
    (p.toURI v n).setFragment fragment = .ok (toURI { p with fragment } v n) := by
  have htext : ∀ fragment, Parts.text { p with fragment } = (p.scheme ++ [':'.toUInt8] ++
      p.authorityText ++ p.path ++ p.query) ++ (fragment ++ []) := by
    simp [Parts.text, Parts.ssp, authorityText, behindPath]
  have hoffset : p.pathStart + p.path.length + p.query.length =
      (p.scheme ++ [':'.toUInt8] ++ p.authorityText ++ p.path ++ p.query).length := by
    simp only [pathStart, start, List.length_append, List.length_singleton]
  have hreplace := replace_text fragment (htext p.fragment) hoffset
  rw [← htext fragment] at hreplace
  simp only [setFragment, toURI, hreplace, decide_true, assert_true, ok_bind]
  simp only [length_ssp, pathStart, start, authorityText, Component.diff_ne_zero]
  simp (disch := simp only; omega) only [Component.adjustLength_eq, ok_bind]
  split <;> simp only [pure_eq_ok, Except.ok.injEq, URI.mk.injEq, Component.mk.injEq,
    userinfoAt, hostAt, portAt, number, start, true_and, and_true] <;> omega

theorem setScheme_eq (scheme : List UInt8) :
    (p.toURI v n).setScheme scheme = .ok (toURI { p with scheme } v n) := by
  have htext : ∀ scheme, Parts.text { p with scheme } = [] ++ (scheme ++ ':'.toUInt8 :: p.ssp) := by
    simp [Parts.text, Parts.ssp, authorityText, behindPath]
  have hreplace : replace p.text 0 p.scheme.length scheme = _ :=
    replace_text scheme (htext p.scheme) rfl
  rw [← htext scheme] at hreplace
  simp only [setScheme, toURI, hreplace, decide_true, assert_true, ok_bind]
  simp only [length_ssp, pathStart, start, authorityText, userinfoAt, hostAt, portAt, number,
    Component.diff_ne_zero]
  -- the components of an authority have their places behind the scheme in each case
  cases ha : p.authority with
  | none =>
    simp (disch := simp only; omega) only [Component.adjustLength_eq, Component.adjustOffset_eq,
      ok_bind]
    split <;> simp only [pure_eq_ok, Except.ok.injEq, URI.mk.injEq, Component.mk.injEq, true_and,
      and_true] <;> omega
  | some a =>
    cases hport : a.port <;>
      simp (disch := simp only; omega) only [Component.adjustLength_eq, Component.adjustOffset_eq,
        hport, ok_bind] <;>
      split <;> simp only [pure_eq_ok, Except.ok.injEq, URI.mk.injEq, Component.mk.injEq, true_and,
        and_true] <;> omega

variable (a : Authority)

theorem length_text_authority :
    a.text.length = 2 + a.userinfo.length + a.host.length + a.portText.length := by
  simp only [Authority.text, Authority.inner, slashes, List.length_append, List.length_cons,
    List.length_nil]
  omega

theorem setUserinfo_eq (userinfo : List UInt8) :
    (toURI { p with authority := some a } v n).setUserinfo userinfo =
      .ok (toURI { p with authority := some { a with userinfo } } v n) := by
  have htext : ∀ userinfo, Parts.text { p with authority := some { a with userinfo } } =
      (p.scheme ++ [':'.toUInt8] ++ slashes) ++
        (userinfo ++ (a.host ++ (a.portText ++ (p.path ++ p.behindPath)))) := by
    simp [Parts.text, Parts.ssp, authorityText, behindPath, Authority.text, Authority.inner,
      Authority.portText]
  have hoffset : p.scheme.length + 1 + 2 = (p.scheme ++ [':'.toUInt8] ++ slashes).length := by
    simp only [slashes, List.length_append, List.length_cons, List.length_nil]
  have hreplace := replace_text userinfo (htext a.userinfo) hoffset
  rw [← htext userinfo] at hreplace
  simp only [setUserinfo, toURI, userinfoAt, start, hreplace, decide_true, assert_true, ok_bind]
  simp only [length_ssp, length_text_authority, pathStart, start, authorityText, hostAt, portAt,
    number, Component.diff_ne_zero, Option.map_some, Option.getD_some]
  unfold Authority.portText
  cases hport : a.port <;>
    simp (disch := simp only [List.length_cons, List.length_nil]; omega) only
      [Component.adjustLength_eq, Component.adjustOffset_eq, ok_bind] <;>
    split <;> simp only [pure_eq_ok, Except.ok.injEq, URI.mk.injEq, Component.mk.injEq,
      Authority.number, hport, true_and, and_true] <;> omega

theorem setHost_eq (host : List UInt8) :
    (toURI { p with authority := some a } v n).setHost host =
      .ok (toURI { p with authority := some { a with host } } v n) := by
  have htext : ∀ host, Parts.text { p with authority := some { a with host } } =
      (p.scheme ++ [':'.toUInt8] ++ slashes ++ a.userinfo) ++
        (host ++ (a.portText ++ (p.path ++ p.behindPath))) := by
    simp [Parts.text, Parts.ssp, authorityText, behindPath, Authority.text, Authority.inner,
      Authority.portText]
  have hoffset : p.scheme.length + 1 + 2 + a.userinfo.length =
      (p.scheme ++ [':'.toUInt8] ++ slashes ++ a.userinfo).length := by
    simp only [slashes, List.length_append, List.length_cons, List.length_nil]
  have hreplace := replace_text host (htext a.host) hoffset
  rw [← htext host] at hreplace
  simp only [setHost, toURI, hostAt, start, hreplace, decide_true, assert_true, ok_bind]
  simp only [length_ssp, length_text_authority, pathStart, start, authorityText, userinfoAt, portAt,
    number, Component.diff_ne_zero, Option.map_some, Option.getD_some]
  unfold Authority.portText
  cases hport : a.port <;>
    simp (disch := simp only [List.length_cons, List.length_nil]; omega) only
      [Component.adjustLength_eq, Component.adjustOffset_eq, ok_bind] <;>
    split <;> simp only [pure_eq_ok, Except.ok.injEq, URI.mk.injEq, Component.mk.injEq,
      Authority.number, hport, true_and, and_true] <;> omega

theorem portNum_nil : portNum [] = 0 := by
  decide

theorem setPort_eq (old port : List UInt8) :
    (toURI { p with authority := some { a with port := some old } } v n).setPort port =
      .ok (toURI { p with authority := some { a with port := some port } } v n) := by
  have htext : ∀ port, Parts.text { p with authority := some { a with port := some port } } =
      (p.scheme ++ [':'.toUInt8] ++ slashes ++ a.userinfo ++ a.host ++ [':'.toUInt8]) ++
        (port ++ (p.path ++ p.behindPath)) := by
    simp [Parts.text, Parts.ssp, authorityText, behindPath, Authority.text, Authority.inner,
      Authority.portText]
  have hoffset : p.scheme.length + 1 + 2 + a.userinfo.length + a.host.length + 1 =
      (p.scheme ++ [':'.toUInt8] ++ slashes ++ a.userinfo ++ a.host ++ [':'.toUInt8]).length := by
    simp only [slashes, List.length_append, List.length_cons, List.length_nil]
  have hreplace := replace_text port (htext old) hoffset
  have hnumber : (if port = [] then 0 else portNum port) = portNum port := by
    split
    · rename_i h
      rw [h, portNum_nil]
    · rfl
  rw [← htext port] at hreplace
  simp only [setPort, toURI, portAt, start, hreplace, decide_true, assert_true, ok_bind]
  simp only [length_ssp, length_text_authority, pathStart, start, authorityText, userinfoAt, hostAt,
    number, Component.diff_ne_zero, Option.map_some, Option.getD_some, Authority.portText,
    Authority.number, hnumber, List.length_cons]
  simp (disch := simp only; omega) only [Component.adjustLength_eq, Component.adjustOffset_eq,
    ok_bind]
  split <;> simp only [pure_eq_ok, ok_bind, Except.ok.injEq, URI.mk.injEq, Component.mk.injEq,
    true_and, and_true] <;> omega

/-- `set_authority`, for a text that has well-formed parts. It leaves the number of the old
    port where the new one is empty. -/
theorem setAuthority_eq {b : Authority} (h : b.WF (p.scheme = eth)) :
    (toURI { p with authority := some a } v n).setAuthority b.text =
      .ok { toURI { p with authority := some b } v n with port_num_ := b.number (a.number 0) } := by
  have htext : ∀ a : Authority, Parts.text { p with authority := some a } =
      (p.scheme ++ [':'.toUInt8]) ++ (a.text ++ (p.path ++ p.behindPath)) := by
    simp [Parts.text, Parts.ssp, authorityText, behindPath]
  have hoffset : p.scheme.length + 1 = (p.scheme ++ [':'.toUInt8]).length := by
    simp
  have hreplace := replace_text b.text (htext a) hoffset
  rw [← htext b] at hreplace
  have hscheme : ∀ u : URI, u.uri_ = Parts.text { p with authority := some b } →
      u.scheme_ = ⟨0, p.scheme.length⟩ → u.scheme = .ok p.scheme := by
    intro u huri hat
    have hsplit : u.uri_ = [] ++ (p.scheme ++ ':'.toUInt8 :: (b.text ++ (p.path ++
        p.behindPath))) := by
      simp [huri, htext b]
    rw [URI.scheme, hat]
    exact text_eq hsplit rfl rfl
  simp only [setAuthority, toURI, start, authorityText, Option.map_some, Option.getD_some, hreplace,
    decide_true, assert_true, ok_bind]
  simp only [length_ssp, pathStart, start, authorityText, userinfoAt, hostAt,
    portAt, number, Component.diff_ne_zero, Option.map_some, Option.getD_some]
  simp (disch := simp only; omega) only [Component.adjustLength_eq, Component.adjustOffset_eq,
    ok_bind]
  split
  all_goals
    simp only [pure_eq_ok, ok_bind]
    refine bind_eq_ok.2 ⟨_, parseAuthority_eq (htext b) ?_ (hscheme _ rfl rfl) h, ?_⟩
    · simp only [Component.mk.injEq, List.length_append, List.length_singleton, true_and]
      omega
    · simp only [List.length_append, List.length_singleton, Except.ok.injEq, URI.mk.injEq,
        Component.mk.injEq, true_and, and_true]
      omega

end Parts

end Oasys.URI
