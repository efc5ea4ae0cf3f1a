import Oasys.Spec.IpLiteral
import Oasys.Spec.URIDots

/-!
# Normalizing a URI

What the methods that decode and normalize leave of the parts of a URI. They return for texts
in which every percent sign begins an escape that `sscanf` can read, which a valid URI has and
another need not have; so a construction that normalizes without validating ends for some
strings at an assertion or with an indeterminate value.
-/

namespace Oasys.URI

open StdString

/-! ### Escapes -/

/-- `sscanf` finds a digit: at once, or behind a blank or a sign. -/
def IsNumber (h l : UInt8) : Prop :=
  Hex.isDigit h ∨ ((isspace h ∨ h = '+'.toUInt8 ∨ h = '-'.toUInt8) ∧ Hex.isDigit l)

/-- Every percent sign begins an escape that can be read. -/
def Decodable (text : List UInt8) : Prop := Escaped (· ≠ '%'.toUInt8) IsNumber text

theorem not_isDigit {c : UInt8} (h : c = 0 ∨ isspace c = true ∨ c = 45 ∨ c = 43) :
    Hex.isDigit c = false := by
  rcases h with rfl | h | rfl | rfl
  · rfl
  · simp only [isspace, Bool.or_eq_true, decide_eq_true_eq, Bool.and_eq_true] at h
    simp only [Hex.isDigit]
    grind
  · rfl
  · rfl

theorem hexValue_eq_ok {h l : UInt8} : (∃ c, hexValue h l = .ok c) ↔ IsNumber h l := by
  have hexists : (∃ c, hexValue h l = .ok c) ↔
      (skipSign ((cStr [h, l]).dropWhile isspace)).2.takeWhile Hex.isDigit ≠ [] := by
    simp only [hexValue]
    split <;> simp_all
  have hsign : ∀ {c : UInt8} {text : List UInt8}, c ≠ 45 → c ≠ 43 →
      (skipSign (c :: text)).2 = c :: text := by
    intro c text hminus hplus
    unfold skipSign
    split <;> simp_all
  -- what is found at the last character
  have hlast : (cStr [l]).takeWhile Hex.isDigit ≠ [] ↔ Hex.isDigit l = true := by
    by_cases h0 : l = 0
    · simp [h0, cStr, not_isDigit]
    · simp [h0, cStr]
  have hblank : (skipSign ((cStr [l]).dropWhile isspace)).2.takeWhile Hex.isDigit ≠ [] ↔
      Hex.isDigit l = true := by
    by_cases hnot : l = 0 ∨ isspace l = true ∨ l = 45 ∨ l = 43
    · have hdigit := not_isDigit hnot
      rcases hnot with rfl | hspace | rfl | rfl
      · decide
      · have h0 : l ≠ 0 := fun h => absurd (h ▸ hspace) (by decide)
        simp [cStr, h0, hspace, skipSign, hdigit]
      · decide
      · decide
    · simp only [not_or, Bool.not_eq_true] at hnot
      obtain ⟨h0, hspace, hminus, hplus⟩ := hnot
      simp [cStr, h0, hspace, hsign hminus hplus]
  rw [hexists, IsNumber]
  by_cases hnot : h = 0 ∨ isspace h = true ∨ h = 45 ∨ h = 43
  · have hdigit := not_isDigit hnot
    rcases hnot with rfl | hspace | rfl | rfl
    · have hnil : cStr [0, l] = [] := rfl
      have hspace : isspace 0 = false := by decide
      rw [hnil, hdigit, hspace]
      simp [skipSign, Char.toUInt8]
    · have h0 : h ≠ 0 := fun h0 => absurd (h0 ▸ hspace) (by decide)
      have hdrop : (cStr [h, l]).dropWhile isspace = (cStr [l]).dropWhile isspace := by
        simp [cStr, h0, hspace]
      rw [hdrop, hblank]
      simp [hdigit, hspace]
    · have htext : (skipSign ((cStr [45, l]).dropWhile isspace)).2 = cStr [l] := rfl
      rw [htext, hlast, hdigit]
      simp [Char.toUInt8]
    · have htext : (skipSign ((cStr [43, l]).dropWhile isspace)).2 = cStr [l] := rfl
      rw [htext, hlast, hdigit]
      simp [Char.toUInt8]
  · simp only [not_or, Bool.not_eq_true] at hnot
    obtain ⟨h0, hspace, hminus, hplus⟩ := hnot
    have htext : (skipSign ((cStr [h, l]).dropWhile isspace)).2 = h :: cStr [l] := by
      simp [cStr, h0, hspace, hsign hminus hplus]
    have hsigns : ¬(h = '+'.toUInt8 ∨ h = '-'.toUInt8) := not_or.2 ⟨hplus, hminus⟩
    rw [htext]
    simp [hspace, hsigns]

/-! ### Decoding a component -/

section

variable {allowed : UInt8 → Bool} {text : List UInt8}

/-- What is left of an escape: the character, or the escape with its letters in upper case. -/
def decodedEscape (allowed : UInt8 → Bool) (h l : UInt8) : List UInt8 :=
  match hexValue h l with
  | .ok c => if allowed c then [c] else ['%', toupper h, toupper l]
  | .error _ => []

/-- What is left of a text that is `Decodable`. -/
def decoded (allowed : UInt8 → Bool) : List UInt8 → List UInt8
  | [] => []
  | c :: rest =>
    if c ≠ '%' then c :: decoded allowed rest
    else
      match rest with
      | h :: l :: rest => decodedEscape allowed h l ++ decoded allowed rest
      | _ => []

theorem decoded_char {c : UInt8} {rest : List UInt8} (hc : c ≠ '%'.toUInt8) :
    decoded allowed (c :: rest) = c :: decoded allowed rest := by
  rw [decoded.eq_def]
  exact if_pos hc

@[simp] theorem decoded_escape {h l : UInt8} {rest : List UInt8} :
    decoded allowed ('%'.toUInt8 :: h :: l :: rest) =
      decodedEscape allowed h l ++ decoded allowed rest := by
  rw [decoded, if_neg (by simp)]

theorem decoded_eq_self (h : '%'.toUInt8 ∉ text) : decoded allowed text = text := by
  induction text with
  | nil => rfl
  | cons c text ih =>
    obtain ⟨hc, htext⟩ := not_or.1 (fun h' => h (List.mem_cons.2 h'))
    rw [decoded_char (Ne.symm hc), ih htext]

theorem decodable_of_not_mem (h : '%'.toUInt8 ∉ text) : Decodable text := by
  induction text with
  | nil => exact .nil
  | cons c text ih =>
    obtain ⟨hc, htext⟩ := not_or.1 (fun h' => h (List.mem_cons.2 h'))
    exact .char (Ne.symm hc) (ih htext)

theorem decodeLoop_eq (h : Decodable text) :
    decodeLoop allowed text = .ok (decoded allowed text) := by
  induction h with
  | nil => rfl
  | char hc _ ih =>
    rw [decodeLoop.eq_def, decoded_char hc]
    simp only [if_pos hc, ih, ok_bind]
    rfl
  | @escape h l rest hpair _ ih =>
    obtain ⟨c, hc⟩ := hexValue_eq_ok.2 hpair
    have hvalue : decodedEscape allowed h l =
        if allowed c then [c] else ['%'.toUInt8, toupper h, toupper l] := by
      simp [decodedEscape, hc]
    rw [decodeLoop, if_neg (by simp), decoded_escape, hvalue]
    simp only [hc, ih, ok_bind]
    rfl

theorem decodable_of_decodeLoop {t : List UInt8} (h : decodeLoop allowed text = .ok t) :
    Decodable text := by
  fun_induction decodeLoop allowed text generalizing t with
  | case1 => exact .nil
  | case2 c rest hc ih =>
    obtain ⟨decoded, hrest, -⟩ := bind_eq_ok.1 h
    exact .char hc (ih hrest)
  | case3 c hc h l rest ih =>
    obtain ⟨c, hvalue, h⟩ := bind_eq_ok.1 h
    obtain ⟨decoded, hrest, -⟩ := bind_eq_ok.1 h
    obtain rfl := not_not.1 hc
    exact .escape (hexValue_eq_ok.1 ⟨c, hvalue⟩) (ih hrest)
  | case4 c rest hc hshort => cases h

theorem decode_cases (allowed : UInt8 → Bool) (h : Decodable text) :
    decode allowed text = .ok (some (decoded allowed text)) ∨
      (decode allowed text = .ok none ∧ decoded allowed text = text) := by
  by_cases hpercent : '%'.toUInt8 ∈ text
  · left
    simp [decode, hpercent, decodeLoop_eq h]
  · right
    simp [decode, hpercent, decoded_eq_self]

theorem decodable_of_decode {t : Option (List UInt8)} (h : decode allowed text = .ok t) :
    Decodable text := by
  by_cases hpercent : '%'.toUInt8 ∈ text
  · simp only [decode, List.contains_eq_mem, hpercent, decide_true, if_true] at h
    obtain ⟨t, hloop, -⟩ := map_eq_ok.1 h
    exact decodable_of_decodeLoop hloop
  · exact decodable_of_not_mem hpercent

end

/-! ### Decoding and normalizing the components -/

/-- What `decode_authority` leaves of an authority. -/
def Authority.decoded (a : Authority) : Authority :=
  { a with
    userinfo := URI.decoded userinfoChar a.userinfo
    host := URI.decoded hostChar a.host }

def Authority.normalized (a : Authority) : Authority :=
  { a.decoded with host := lowerHost a.decoded.host }

/-- What `normalize` leaves of the parts of a URI. -/
def Parts.normalized (p : Parts) : Parts where
  scheme := p.scheme.map tolower
  authority := p.authority.map Authority.normalized
  path := DotSegments.remove slash dot (decoded segmentChar p.path)
  query := decoded queryChar p.query
  fragment := decoded queryChar p.fragment

/-- Every component that is decoded can be. -/
structure Parts.CanDecode (p : Parts) : Prop where
  userinfo : Decodable p.userinfoText
  host : Decodable p.hostText
  path : Decodable p.path
  query : Decodable p.query
  fragment : Decodable p.fragment

namespace Parts

variable {p : Parts} {v n : Bool} {u : URI}

theorem decodePath_eq (h : Decodable p.path) :
    (p.toURI v n).decodePath =
      .ok (toURI { p with path := decoded segmentChar p.path } v n) := by
  rw [decodePath, toURI_path, ok_bind]
  rcases decode_cases segmentChar h with ht | ⟨ht, hself⟩
  · rw [ht, ok_bind]
    exact setPath_eq p v n _
  · rw [ht, hself]
    rfl

theorem decodable_of_decodePath (h : (p.toURI v n).decodePath = .ok u) : Decodable p.path := by
  rw [decodePath, toURI_path, ok_bind] at h
  obtain ⟨t, ht, -⟩ := bind_eq_ok.1 h
  exact decodable_of_decode ht

theorem decodeQuery_eq (h : Decodable p.query) :
    (p.toURI v n).decodeQuery =
      .ok (toURI { p with query := decoded queryChar p.query } v n) := by
  rw [decodeQuery, toURI_query, ok_bind]
  rcases decode_cases queryChar h with ht | ⟨ht, hself⟩
  · rw [ht, ok_bind]
    exact setQuery_eq p v n _
  · rw [ht, hself]
    rfl

theorem decodable_of_decodeQuery (h : (p.toURI v n).decodeQuery = .ok u) : Decodable p.query := by
  rw [decodeQuery, toURI_query, ok_bind] at h
  obtain ⟨t, ht, -⟩ := bind_eq_ok.1 h
  exact decodable_of_decode ht

theorem decodeFragment_eq (h : Decodable p.fragment) :
    (p.toURI v n).decodeFragment =
      .ok (toURI { p with fragment := decoded queryChar p.fragment } v n) := by
  rw [decodeFragment, toURI_fragment, ok_bind]
  rcases decode_cases queryChar h with ht | ⟨ht, hself⟩
  · rw [ht, ok_bind]
    exact setFragment_eq p v n _
  · rw [ht, hself]
    rfl

theorem decodable_of_decodeFragment (h : (p.toURI v n).decodeFragment = .ok u) :
    Decodable p.fragment := by
  rw [decodeFragment, toURI_fragment, ok_bind] at h
  obtain ⟨t, ht, -⟩ := bind_eq_ok.1 h
  exact decodable_of_decode ht

theorem normalizeScheme_eq (p : Parts) (v n : Bool) :
    (p.toURI v n).normalizeScheme =
      .ok (toURI { p with scheme := p.scheme.map tolower } v n) := by
  have htext : ∀ scheme, Parts.text { p with scheme } = [] ++ (scheme ++ ':'.toUInt8 :: p.ssp) := by
    simp [Parts.text, Parts.ssp, authorityText, behindPath]
  have hreplace : replace p.text 0 p.scheme.length (p.scheme.map tolower) = _ :=
    replace_text (p.scheme.map tolower) (htext p.scheme) rfl
  rw [← htext] at hreplace
  rw [normalizeScheme, toURI_scheme, ok_bind]
  refine bind_eq_ok.2 ⟨_, hreplace, ?_⟩
  simp [toURI, ssp, authorityText, behindPath, pathStart, start, userinfoAt, hostAt, portAt, number]

theorem decodeUserinfo_eq (h : Decodable p.userinfoText) :
    (p.toURI v n).decodeUserinfo = .ok (toURI { p with
      authority := p.authority.map fun a =>
        { a with userinfo := decoded userinfoChar a.userinfo } } v n) := by
  rw [decodeUserinfo, toURI_userinfo, ok_bind]
  obtain ⟨scheme, authority, path, query, fragment⟩ := p
  cases authority with
  | none => rfl
  | some a =>
    rcases decode_cases userinfoChar h with ht | ⟨ht, hself⟩
    · rw [ht, ok_bind]
      exact setUserinfo_eq ⟨scheme, some a, path, query, fragment⟩ v n a _
    · rw [ht, Option.map_some]
      exact congrArg (fun userinfo => Except.ok (toURI ⟨scheme, some { a with userinfo }, path,
        query, fragment⟩ v n)) hself.symm

theorem decodable_of_decodeUserinfo (h : (p.toURI v n).decodeUserinfo = .ok u) :
    Decodable p.userinfoText := by
  rw [decodeUserinfo, toURI_userinfo, ok_bind] at h
  obtain ⟨t, ht, -⟩ := bind_eq_ok.1 h
  exact decodable_of_decode ht

theorem decodeHost_eq (h : Decodable p.hostText) :
    (p.toURI v n).decodeHost = .ok (toURI { p with
      authority := p.authority.map fun a => { a with host := decoded hostChar a.host } } v n) := by
  rw [decodeHost, toURI_host, ok_bind]
  obtain ⟨scheme, authority, path, query, fragment⟩ := p
  cases authority with
  | none => rfl
  | some a =>
    rcases decode_cases hostChar h with ht | ⟨ht, hself⟩
    · rw [ht, ok_bind]
      exact setHost_eq ⟨scheme, some a, path, query, fragment⟩ v n a _
    · rw [ht, Option.map_some]
      exact congrArg (fun host => Except.ok (toURI ⟨scheme, some { a with host }, path, query,
        fragment⟩ v n)) hself.symm

theorem decodable_of_decodeHost (h : (p.toURI v n).decodeHost = .ok u) :
    Decodable p.hostText := by
  rw [decodeHost, toURI_host, ok_bind] at h
  obtain ⟨t, ht, -⟩ := bind_eq_ok.1 h
  exact decodable_of_decode ht

theorem length_lowerHost (host : List UInt8) : (lowerHost host).length = host.length := by
  fun_induction lowerHost host <;> simp_all

theorem setHost_of_length {host : List UInt8} (herr : u.parse_err_ = .ok)
    (h : host.length = u.host_.length_) :
    u.setHost host = do
      let uri_ ← replace u.uri_ u.host_.offset_ u.host_.length_ host
      return { u with uri_ } := by
  have hdiff : diff host.length u.host_.length_ = 0 := by
    rw [h]
    simp [diff]
  simp only [setHost, herr, decide_true, assert_true, ok_bind, hdiff, ne_eq, not_true_eq_false,
    if_false]

theorem replace_host (p : Parts) (v n : Bool) :
    (do
      let uri_ ← replace (p.toURI v n).uri_ (p.toURI v n).host_.offset_ (p.toURI v n).host_.length_
        (lowerHost p.hostText)
      return { p.toURI v n with uri_ }) =
    .ok (toURI { p with
      authority := p.authority.map fun a => { a with host := lowerHost a.host } } v n) := by
  obtain ⟨scheme, authority, path, query, fragment⟩ := p
  cases authority with
  | none =>
    have htext : (toURI ⟨scheme, none, path, query, fragment⟩ v n).uri_ =
        (scheme ++ [':'.toUInt8]) ++ ([] ++ (path ++ (query ++ fragment))) := rfl
    have hoffset : (toURI ⟨scheme, none, path, query, fragment⟩ v n).host_.offset_ =
        (scheme ++ [':'.toUInt8]).length := by
      simp [toURI, hostAt, start]
    have hreplace := replace_text [] htext hoffset
    exact bind_eq_ok.2 ⟨_, hreplace, rfl⟩
  | some a =>
    have hset := setHost_eq ⟨scheme, some a, path, query, fragment⟩ v n a (lowerHost a.host)
    rwa [setHost_of_length rfl (length_lowerHost a.host)] at hset

theorem normalizeAuthority_eq (huserinfo : Decodable p.userinfoText)
    (hhost : Decodable p.hostText) :
    (p.toURI v n).normalizeAuthority =
      .ok (toURI { p with authority := p.authority.map Authority.normalized } v n) := by
  have hhost' : Decodable (Parts.hostText { p with authority := p.authority.map fun a =>
      { a with userinfo := decoded userinfoChar a.userinfo } }) := by
    unfold hostText at hhost ⊢
    rw [Option.map_map]
    exact hhost
  rw [normalizeAuthority, decodeAuthority, decodeUserinfo_eq huserinfo, ok_bind,
    decodeHost_eq hhost', ok_bind, toURI_host, ok_bind, replace_host]
  simp only [Option.map_map]
  rfl

theorem decodable_of_normalizeAuthority (h : (p.toURI v n).normalizeAuthority = .ok u) :
    Decodable p.userinfoText ∧ Decodable p.hostText := by
  obtain ⟨w, hdecode, -⟩ := bind_eq_ok.1 h
  obtain ⟨x, huserinfo, hhost⟩ := bind_eq_ok.1 hdecode
  have hdecodable := decodable_of_decodeUserinfo huserinfo
  rw [decodeUserinfo_eq hdecodable] at huserinfo
  obtain rfl := Except.ok.inj huserinfo
  have hdecodable' := decodable_of_decodeHost hhost
  unfold hostText at hdecodable' ⊢
  rw [Option.map_map] at hdecodable'
  exact ⟨hdecodable, hdecodable'⟩

theorem normalize_eq (h : p.CanDecode) :
    (p.toURI v n).normalize = .ok (p.normalized.toURI v n) := by
  rw [normalize, normalizeScheme_eq, ok_bind]
  -- each step leaves the components that are still to come
  refine bind_eq_ok.2 ⟨_, normalizeAuthority_eq ?_ ?_, bind_eq_ok.2 ⟨_, normalizePath_eq v n
    (decodePath_eq ?_), bind_eq_ok.2 ⟨_, decodeQuery_eq ?_, decodeFragment_eq ?_⟩⟩⟩
  · exact h.userinfo
  · exact h.host
  · exact h.path
  · exact h.query
  · exact h.fragment

theorem canDecode_of_normalize (h : (p.toURI v n).normalize = .ok u) : p.CanDecode := by
  rw [normalize, normalizeScheme_eq, ok_bind] at h
  obtain ⟨_, hauthority, h⟩ := bind_eq_ok.1 h
  obtain ⟨huserinfo, hhost⟩ := decodable_of_normalizeAuthority hauthority
  rw [normalizeAuthority_eq huserinfo hhost] at hauthority
  obtain rfl := Except.ok.inj hauthority
  obtain ⟨_, hnormalize, h⟩ := bind_eq_ok.1 h
  obtain ⟨_, hdecode, -⟩ := bind_eq_ok.1 hnormalize
  have hpath := decodable_of_decodePath hdecode
  rw [normalizePath_eq v n (decodePath_eq hpath)] at hnormalize
  obtain rfl := Except.ok.inj hnormalize
  obtain ⟨_, hdecode, h⟩ := bind_eq_ok.1 h
  have hquery := decodable_of_decodeQuery hdecode
  rw [normalizeQuery, decodeQuery_eq hquery] at hdecode
  obtain rfl := Except.ok.inj hdecode
  have hfragment := decodable_of_decodeFragment h
  exact ⟨huserinfo, hhost, hpath, hquery, hfragment⟩

end Parts

/-! ### Construction -/

theorem isHexdig_eq (c : UInt8) : isHexdig c = Hex.isDigit c := by
  obtain ⟨n, rfl⟩ := exists_byte c
  revert n
  decide +kernel

theorem decodable_of_validText {allowed : UInt8 → Bool} {text : List UInt8}
    (hpercent : allowed '%' = false) (h : ValidText allowed text) : Decodable text := by
  refine h.mono ?_ ?_
  · intro c hc heq
    rw [heq, hpercent] at hc
    cases hc
  · intro h l hdigits
    rw [isHexdig_eq, isHexdig_eq] at hdigits
    exact .inl hdigits.1

theorem mem_of_validateEthLiteral {host : List UInt8} (h : validateEthLiteral host = .ok) :
    ∀ c ∈ host, isHexdig c = true ∨ c = ':'.toUInt8 := by
  unfold validateEthLiteral at h
  split at h
  · cases h
  · split at h
    · rename_i hall
      rw [List.all_eq_true] at hall
      intro c hc
      obtain ⟨i, hi, rfl⟩ := List.mem_iff_getElem.1 hc
      have hat := hall (host[i], i) (by simp [List.mem_zipIdx_iff_getElem?, hi])
      simp only at hat
      split at hat
      · exact .inl hat
      · exact .inr (by simpa using hat)
    · cases h

theorem decodable_of_validHost {isEth : Prop} {host : List UInt8} (h : ValidHost isEth host) :
    Decodable host := by
  cases h with
  | nil => exact .nil
  | @literal x h =>
    apply decodable_of_not_mem
    have hchars := chars_of_validateIpLiteral h
    intro hmem
    have hmem : '%'.toUInt8 = '['.toUInt8 ∨ '%'.toUInt8 ∈ x ∨ '%'.toUInt8 = ']'.toUInt8 := by
      simpa using hmem
    rcases hmem with hmem | hmem | hmem
    · exact absurd hmem (by decide)
    · exact absurd (hchars _ hmem) (by decide)
    · exact absurd hmem (by decide)
  | eth _ _ h =>
    apply decodable_of_not_mem
    intro hmem
    rcases mem_of_validateEthLiteral h _ hmem with hc | hc
    · exact absurd hc (by decide)
    · exact absurd hc (by decide)
  | name _ _ h => exact decodable_of_validText rfl h

theorem Escaped.append {plain : UInt8 → Prop} {pair : UInt8 → UInt8 → Prop}
    {text text' : List UInt8} (h : Escaped plain pair text) (h' : Escaped plain pair text') :
    Escaped plain pair (text ++ text') := by
  induction h with
  | nil => exact h'
  | char hc _ ih => exact .char hc ih
  | escape hpair _ ih => exact .escape hpair ih

theorem decodable_of_tail {text : List UInt8} {c : UInt8} (hc : c ≠ '%'.toUInt8)
    (hhead : ∀ d ∈ text.head?, d = c) (h : Decodable text.tail) : Decodable text := by
  cases text with
  | nil => exact .nil
  | cons d text => exact .char (hhead d rfl ▸ hc) h

theorem Parts.Valid.canDecode {p : Parts} (hwf : p.WF) (h : p.Valid) : p.CanDecode where
  userinfo := by
    have htext := decodable_of_validText rfl h.userinfo
    rcases userinfoText_cases hwf with hnil | ⟨x, hx⟩
    · rw [hnil]
      exact .nil
    · rw [hx, List.dropLast_concat] at htext
      rw [hx]
      exact htext.append (.char (by decide) .nil)
  host := decodable_of_validHost h.host
  path := decodable_of_validText rfl h.path
  query := decodable_of_tail (by decide) hwf.query_head (decodable_of_validText rfl h.query)
  fragment :=
    decodable_of_tail (by decide) hwf.fragment_head (decodable_of_validText rfl h.fragment)

section

variable {s : List UInt8} {validate normalize : Bool}

def Parts.accepted (p : Parts) (normalize : Bool) : Parts :=
  if normalize then p.normalized else p

theorem ofString_accepted {p : Parts} (hwf : p.WF) (hvalid : validate = true → p.Valid)
    (hdecode : normalize = true → p.CanDecode) :
    ofString p.text validate normalize =
      .ok ((p.accepted normalize).toURI validate normalize) := by
  have hparse : URI.parseComponents
      { uri_ := p.text, validate_ := validate, normalize_ := normalize } =
      .ok (p.toURI validate normalize) := parseComponents_eq rfl hwf
  have hvalidate : (p.toURI validate normalize).validateIfSet = .ok .ok := by
    cases validate with
    | false => rfl
    | true =>
      obtain ⟨err, hrun, herr⟩ := Parts.checks_validate hwf (v := true) (n := normalize)
      rw [herr.2 (hvalid rfl)] at hrun
      exact hrun
  have hnormalize : (p.toURI validate normalize).normalizeIfSet =
      .ok ((p.accepted normalize).toURI validate normalize) := by
    cases normalize with
    | false => rfl
    | true => exact Parts.normalize_eq (hdecode rfl)
  have hok : ¬(p.toURI validate normalize).parse_err_ ≠ .ok := by simp [Parts.toURI]
  rw [ofString, parse, hparse, ok_bind, if_neg hok, hvalidate, ok_bind, if_neg (by simp),
    hnormalize]
  rfl

variable (normalize) in
theorem ofString_invalid {p : Parts} (hwf : p.WF) (hvalid : ¬p.Valid) :
    ∃ err, err ≠ .ok ∧
      ofString p.text true normalize = .ok { p.toURI true normalize with parse_err_ := err } := by
  have hparse : URI.parseComponents
      { uri_ := p.text, validate_ := true, normalize_ := normalize } =
      .ok (p.toURI true normalize) := parseComponents_eq rfl hwf
  obtain ⟨err, hrun, herr⟩ := Parts.checks_validate hwf (v := true) (n := normalize)
  have hne : err ≠ .ok := fun h => hvalid (herr.1 h)
  have hok : ¬(p.toURI true normalize).parse_err_ ≠ .ok := by simp [Parts.toURI]
  refine ⟨err, hne, ?_⟩
  have hvalidate : (p.toURI true normalize).validateIfSet = .ok err := hrun
  rw [ofString, parse, hparse, ok_bind, if_neg hok, hvalidate, ok_bind, if_pos hne]
  rfl

variable (validate normalize) in
theorem ofString_rejected (h : ∀ p : Parts, p.WF → p.text ≠ s) :
    ∃ u, ofString s validate normalize = .ok u ∧ u.parse_err_ ≠ .ok ∧ u.uri_ = s ∧
      u.validate_ = validate ∧ u.normalize_ = normalize := by
  rcases parseComponents_cases { uri_ := s, validate_ := validate, normalize_ := normalize } with
    ⟨p, htext, hwf, -⟩ | ⟨u, hparse, herr, huri, hv, hn⟩
  · exact absurd htext (h p hwf)
  · refine ⟨u, ?_, herr, huri, hv, hn⟩
    rw [ofString, parse, hparse, ok_bind, if_pos herr]
    rfl

theorem canDecode_of_ofString {p : Parts} {u : URI} (hwf : p.WF)
    (h : ofString p.text false true = .ok u) : p.CanDecode := by
  have hparse : URI.parseComponents { uri_ := p.text, validate_ := false, normalize_ := true } =
      .ok (p.toURI false true) := parseComponents_eq rfl hwf
  have hok : ¬(p.toURI false true).parse_err_ ≠ .ok := by simp [Parts.toURI]
  have hvalidate : (p.toURI false true).validateIfSet = .ok .ok := rfl
  rw [ofString, parse, hparse, ok_bind, if_neg hok, hvalidate, ok_bind, if_neg (by simp)] at h
  obtain ⟨w, hnormalize, -⟩ := bind_eq_ok.1 h
  exact Parts.canDecode_of_normalize hnormalize

theorem exists_accepted {u : URI} (h : ofString s validate normalize = .ok u)
    (hvalid : u.valid = true) :
    ∃ p : Parts, p.WF ∧ p.text = s ∧ (validate = true → p.Valid) ∧
      (normalize = true → p.CanDecode) ∧ u = (p.accepted normalize).toURI validate normalize := by
  have hok : u.parse_err_ = .ok := by simpa [URI.valid] using hvalid
  by_cases hparts : ∃ p : Parts, p.WF ∧ p.text = s
  · obtain ⟨p, hwf, rfl⟩ := hparts
    have hv : validate = true → p.Valid := by
      rintro rfl
      by_contra hnot
      obtain ⟨err, hne, hrun⟩ := ofString_invalid normalize hwf hnot
      rw [hrun] at h
      obtain rfl := Except.ok.inj h
      exact hne hok
    have hn : normalize = true → p.CanDecode := by
      rintro rfl
      cases validate with
      | true => exact (hv rfl).canDecode hwf
      | false => exact canDecode_of_ofString hwf h
    refine ⟨p, hwf, rfl, hv, hn, ?_⟩
    rw [ofString_accepted hwf hv hn] at h
    exact (Except.ok.inj h).symm
  · obtain ⟨w, hw, herr, -⟩ := ofString_rejected validate normalize
      fun p hwf htext => hparts ⟨p, hwf, htext⟩
    rw [hw] at h
    obtain rfl := Except.ok.inj h
    exact absurd hok herr

end

/-- The construction of a URI returns, unless it normalizes what it has not validated and a
    component has a percent sign that begins no escape `sscanf` can read. -/
theorem ofString_returns_iff (s : List UInt8) (validate normalize : Bool) :
    (∃ u, ofString s validate normalize = .ok u) ↔
      (validate = true ∨ normalize = false ∨ ∀ p : Parts, p.WF → p.text = s → p.CanDecode) := by
  constructor
  · rintro ⟨u, hu⟩
    cases validate with
    | true => exact .inl rfl
    | false =>
      cases normalize with
      | false => exact .inr (.inl rfl)
      | true =>
        refine .inr (.inr ?_)
        rintro p hwf rfl
        exact canDecode_of_ofString hwf hu
  · intro h
    by_cases hparts : ∃ p : Parts, p.WF ∧ p.text = s
    · obtain ⟨p, hwf, rfl⟩ := hparts
      by_cases hvalid : validate = true → p.Valid
      · refine ⟨_, ofString_accepted hwf hvalid ?_⟩
        intro hn
        rcases h with hv | hn' | hall
        · exact (hvalid hv).canDecode hwf
        · rw [hn] at hn'
          cases hn'
        · exact hall p hwf rfl
      · obtain ⟨rfl, hnot⟩ := Classical.not_imp.1 hvalid
        obtain ⟨err, -, hrun⟩ := ofString_invalid normalize hwf hnot
        exact ⟨_, hrun⟩
    · have hnone : ∀ p : Parts, p.WF → p.text ≠ s := fun p hwf htext => hparts ⟨p, hwf, htext⟩
      obtain ⟨u, hu, -⟩ := ofString_rejected validate normalize hnone
      exact ⟨u, hu⟩

/-- A percent sign at the end of the path. -/
theorem not_ofString_returns :
    ¬∀ s validate normalize, ∃ u, ofString s validate normalize = .ok u := by
  intro h
  obtain ⟨u, hu⟩ := h [97, 58, 37] false true
  have herror : ofString [97, 58, 37] false true = .error .assertFailed := by decide
  rw [herror] at hu
  cases hu

end Oasys.URI

/-!
### Parameters in the query of a URI

`query_value` searches the whole string for what ends a key and a value. Where the query is a
list of parameters, what it finds is in the query, or it is behind it and the loop ends.
-/

namespace Oasys.URI

open StdString

def param (pair : List UInt8 × List UInt8) : List UInt8 := pair.1 ++ '='.toUInt8 :: pair.2

def params (pairs : List (List UInt8 × List UInt8)) : List UInt8 :=
  [';'.toUInt8].intercalate (pairs.map param)

/-- The keys and values have no delimiter that ends them. -/
structure Delimited (pair : List UInt8 × List UInt8) : Prop where
  key : ∀ c ∈ pair.1, c ≠ ';'.toUInt8 ∧ c ≠ '='.toUInt8 ∧ c ≠ '#'.toUInt8
  value : ∀ c ∈ pair.2, c ≠ ';'.toUInt8 ∧ c ≠ '#'.toUInt8

section

variable {u : URI} {before fragment : List UInt8} {c : UInt8}
  {pairs : List (List UInt8 × List UInt8)} {pair : List UInt8 × List UInt8}

/-- The parameters behind the first one, with the semicolon before them. -/
def paramsTail : List (List UInt8 × List UInt8) → List UInt8
  | [] => []
  | pair :: pairs => ';'.toUInt8 :: params (pair :: pairs)

theorem params_cons : params (pair :: pairs) = param pair ++ paramsTail pairs := by
  cases pairs with
  | nil => simp [params, paramsTail]
  | cons pair' pairs => simp [params, paramsTail, List.intercalate_cons_cons]

theorem findValue_end {fuel : Nat} (k : List UInt8) {curr_pos : Nat}
    (hend : u.query_.offset_ + u.query_.length_ ≤ curr_pos) :
    u.findValue k (fuel + 1) curr_pos = .ok [] := by
  simp [findValue, hend]

theorem lt_of_find {pos : Nat} (huri : u.uri_ = before ++ c :: fragment)
    (hfragment : ∀ d ∈ fragment.head?, d = '#'.toUInt8)
    (hpos : find u.uri_ '=' (before.length + 1) = some pos) : before.length + 1 < pos := by
  have hlen : before.length + 1 = (before ++ [c]).length := by simp
  cases fragment with
  | nil =>
    have hsplit : u.uri_ = (before ++ [c]) ++ [] := by simp [huri]
    rw [hsplit, hlen, find_eq_none (before ++ [c]) (by simp)] at hpos
    cases hpos
  | cons d fragment =>
    have hsplit : u.uri_ = (before ++ [c]) ++ ([d] ++ fragment) := by simp [huri]
    have hd : '='.toUInt8 ∉ [d] := by
      rw [hfragment d rfl]
      decide
    rw [hsplit, hlen] at hpos
    have hle := le_of_find (before ++ [c]) hd hpos
    simp only [List.length_append, List.length_singleton] at hle
    omega

theorem head_paramsTail (pairs : List (List UInt8 × List UInt8))
    (hfragment : ∀ d ∈ fragment.head?, d = '#'.toUInt8) :
    ∀ d ∈ (paramsTail pairs ++ fragment).head?, d ∈ [';'.toUInt8, '#'.toUInt8] := by
  cases pairs with
  | nil =>
    intro d hd
    rw [hfragment d (by simpa [paramsTail] using hd)]
    simp
  | cons pair pairs => simp [paramsTail]

theorem Delimited.not_mem_param (h : Delimited pair) : ∀ d ∈ param pair, d ∉ [';'.toUInt8] := by
  intro d hd
  rw [List.mem_singleton]
  rcases List.mem_append.1 hd with hd | hd
  · exact (h.key d hd).1
  · rcases List.mem_cons.1 hd with hd | hd
    · rw [hd]
      decide
    · exact (h.value d hd).1

theorem findValue_eq {fuel : Nat} (k : List UInt8)
    (huri : u.uri_ = before ++ c :: (params pairs ++ fragment))
    (hend : u.query_.offset_ + u.query_.length_ = before.length + 1 + (params pairs).length)
    (hfragment : ∀ d ∈ fragment.head?, d = '#'.toUInt8) (hpairs : ∀ pair ∈ pairs, Delimited pair)
    (hfuel : pairs.length < fuel) :
    u.findValue k fuel before.length = .ok ((pairs.lookup k).getD []) := by
  induction pairs generalizing before c fuel with
  | nil =>
    obtain ⟨fuel, rfl⟩ := Nat.exists_eq_succ_of_ne_zero (Nat.ne_of_gt hfuel)
    have hnil : (params []).length = 0 := rfl
    rw [hnil] at hend
    have hmore : ¬before.length + 1 ≤ before.length := by omega
    simp only [findValue, hend, Nat.add_zero, hmore, if_false]
    split
    · rfl
    · rename_i pos hpos
      rw [if_pos (lt_of_find huri hfragment hpos)]
      rfl
  | cons pair pairs ih =>
    obtain ⟨fuel, rfl⟩ := Nat.exists_eq_succ_of_ne_zero (Nat.ne_of_gt (Nat.zero_lt_of_lt hfuel))
    obtain ⟨key, value⟩ := pair
    have hpair := hpairs (key, value) List.mem_cons_self
    have hlen : before.length + 1 = (before ++ [c]).length := by simp
    have hparams : u.uri_ =
        (before ++ [c]) ++ (param (key, value) ++ (paramsTail pairs ++ fragment)) := by
      simp [huri, params_cons]
    have hkey : u.uri_ =
        (before ++ [c]) ++ (key ++ '='.toUInt8 :: (value ++ (paramsTail pairs ++ fragment))) := by
      simp [hparams, param]
    have hfind : find u.uri_ '=' (before.length + 1) = some (before.length + 1 + key.length) := by
      rw [hkey, hlen]
      exact find_eq_some (before ++ [c]) fun hmem => (hpair.key _ hmem).2.1 rfl
    have hlength : (params ((key, value) :: pairs)).length =
        key.length + 1 + value.length + (paramsTail pairs).length := by
      simp only [params_cons, param, List.length_append, List.length_cons]
      omega
    have hsubstr : substr u.uri_ (before.length + 1)
        (before.length + 1 + key.length - (before.length + 1)) = .ok key := by
      rw [Nat.add_sub_cancel_left, hkey, hlen]
      exact substr_append _
    rw [hlength] at hend
    have hmore : ¬before.length + 1 + (key.length + 1 + value.length + (paramsTail pairs).length) ≤
        before.length := by omega
    have hinside : ¬before.length + 1 + key.length > before.length + 1 +
        (key.length + 1 + value.length + (paramsTail pairs).length) := by omega
    simp only [findValue, hend, hmore, hfind, hinside, hsubstr, if_false, ok_bind]
    by_cases hk : key = k
    · -- the value ends in front of the next parameter or of the fragment
      have hlen' : before.length + 1 + key.length + 1 =
          (before ++ [c] ++ key ++ ['='.toUInt8]).length := by
        simp only [List.length_append, List.length_singleton]
      have hvalue : u.uri_ = (before ++ [c] ++ key ++ ['='.toUInt8]) ++
          (value ++ (paramsTail pairs ++ fragment)) := by
        simp [hkey]
      have hat : charAt u.uri_ (before.length + 1 + key.length) = .ok '='.toUInt8 := by
        have hcharAt : charAt ((before ++ [c] ++ key) ++
            '='.toUInt8 :: (value ++ (paramsTail pairs ++ fragment))) (before ++ [c] ++ key).length =
            .ok '='.toUInt8 := charAt_append _ _
        simpa [hkey, Nat.add_assoc, Nat.add_comm, Nat.add_left_comm] using hcharAt
      have hvalueEnd : (findFirstOf u.uri_ [';'.toUInt8, '#'.toUInt8]
          (before.length + 1 + key.length + 1)).getD u.uri_.length =
          before.length + 1 + key.length + 1 + value.length := by
        rw [hvalue, hlen']
        apply getD_findFirstOf
        · intro d hd
          have hd := hpair.value d hd
          simp [hd.1, hd.2]
        · exact head_paramsTail pairs hfragment
      have hresult : substr u.uri_ (before.length + 1 + key.length + 1) value.length =
          .ok value := by
        rw [hvalue, hlen']
        exact substr_append _
      rw [if_neg (not_not_intro hk), hat, ok_bind, if_neg (by simp), hvalueEnd,
        Nat.add_sub_cancel_left, hresult]
      simp [hk]
    · have hlookup : ((key, value) :: pairs).lookup k = pairs.lookup k := by
        have hbeq : (k == key) = false := by simpa using Ne.symm hk
        simp [List.lookup_cons, hbeq]
      rw [if_pos hk, hlookup]
      cases pairs with
      | nil =>
        -- a semicolon is only in the fragment
        split
        · rfl
        · rename_i pos hpos
          rw [hparams, hlen] at hpos
          have hle := le_of_findFirstOf (before ++ [c]) hpair.not_mem_param hpos
          obtain ⟨fuel, rfl⟩ := Nat.exists_eq_succ_of_ne_zero (n := fuel) (by simp at hfuel; omega)
          apply findValue_end
          simp only [param, paramsTail, List.length_append, List.length_cons,
            List.length_nil] at hle hend
          omega
      | cons next pairs =>
        have hnext : findFirstOf u.uri_ [';'.toUInt8] (before.length + 1) =
            some (before ++ c :: param (key, value)).length := by
          have hfirst : findFirstOf ((before ++ [c]) ++ (param (key, value) ++
              ';'.toUInt8 :: (params (next :: pairs) ++ fragment))) [';'.toUInt8]
              (before ++ [c]).length = _ :=
            findFirstOf_eq_some (before ++ [c]) hpair.not_mem_param (by simp)
          rw [hparams, hlen]
          simpa [paramsTail, Nat.add_assoc, Nat.add_comm, Nat.add_left_comm] using hfirst
        rw [hnext]
        apply ih (c := ';'.toUInt8)
        · simp [hparams, paramsTail]
        · simp only [paramsTail, List.length_append, List.length_cons, param] at hend ⊢
          omega
        · intro pair hmem
          exact hpairs pair (List.mem_cons_of_mem _ hmem)
        · simp only [List.length_cons] at hfuel ⊢
          omega

theorem head_decoded {allowed : UInt8 → Bool} {text : List UInt8}
    (h : ∀ d ∈ text.head?, d = '#'.toUInt8) :
    ∀ d ∈ (decoded allowed text).head?, d = '#'.toUInt8 := by
  cases text with
  | nil => simp [decoded]
  | cons d text =>
    have hd : d = '#'.toUInt8 := h d rfl
    rw [hd, decoded_char (by decide)]
    simp

theorem length_le_length_params (pairs : List (List UInt8 × List UInt8)) :
    pairs.length ≤ (params pairs).length := by
  induction pairs with
  | nil => simp
  | cons pair pairs ih =>
    rw [params_cons]
    simp only [param, List.length_append, List.length_cons]
    cases pairs with
    | nil =>
      simp only [List.length_nil]
      omega
    | cons next pairs =>
      simp only [paramsTail, List.length_cons] at ih ⊢
      omega

theorem Parts.queryValue_eq {p : Parts} (v n : Bool) (k : List UInt8)
    (hfragment : ∀ d ∈ p.fragment.head?, d = '#'.toUInt8)
    (hquery : p.query = '?'.toUInt8 :: params pairs) (hpairs : ∀ pair ∈ pairs, Delimited pair) :
    (p.toURI v n).queryValue k = .ok ((pairs.lookup k).getD []) := by
  have huri : (p.toURI v n).uri_ = (p.scheme ++ [':'.toUInt8] ++ p.authorityText ++ p.path) ++
      '?'.toUInt8 :: (params pairs ++ p.fragment) := by
    simp [toURI, text, ssp, behindPath, hquery]
  have hoffset : (p.toURI v n).query_.offset_ =
      (p.scheme ++ [':'.toUInt8] ++ p.authorityText ++ p.path).length := by
    simp only [toURI, pathStart, start, List.length_append, List.length_singleton]
  have hlength : (p.toURI v n).query_.length_ = (params pairs).length + 1 := by
    simp [toURI, hquery]
  have hat : charAt (p.toURI v n).uri_ (p.toURI v n).query_.offset_ = .ok '?'.toUInt8 := by
    rw [huri, hoffset]
    exact charAt_append _ _
  have hloop : (p.toURI v n).findValue k ((p.toURI v n).query_.length_ + 1)
      (p.toURI v n).query_.offset_ = .ok ((pairs.lookup k).getD []) := by
    have hfuel := length_le_length_params pairs
    rw [hoffset]
    apply findValue_eq k huri
    · omega
    · exact hfragment
    · exact hpairs
    · omega
  have hne : ¬(p.toURI v n).query_.length_ = 0 := by omega
  have hok : (p.toURI v n).parse_err_ = .ok := rfl
  simp [queryValue, hok, hne, hat, hloop]

end

/-- `query_value` finds the value of the first parameter with the key, in every URI that is
    accepted with parameters in its query. -/
theorem queryValue_eq_lookup {s : List UInt8} {validate normalize : Bool} {u : URI}
    {pairs : List (List UInt8 × List UInt8)} (k : List UInt8)
    (hu : ofString s validate normalize = .ok u) (hvalid : u.valid = true)
    (hquery : u.query = .ok ('?'.toUInt8 :: params pairs))
    (hpairs : ∀ pair ∈ pairs, Delimited pair) :
    u.queryValue k = .ok ((pairs.lookup k).getD []) := by
  obtain ⟨p, hwf, -, -, -, rfl⟩ := exists_accepted hu hvalid
  rw [Parts.toURI_query, Except.ok.injEq] at hquery
  refine Parts.queryValue_eq validate normalize k ?_ hquery hpairs
  cases normalize with
  | false => exact hwf.fragment_head
  | true => exact head_decoded hwf.fragment_head

/-- The text `a:?k=v;l=x;k=w#=`, whose key `k` has a value in front of another one. -/
theorem queryValue_eq_lookup_two :
    (ofString [97, 58, 63, 107, 61, 118, 59, 108, 61, 120, 59, 107, 61, 119, 35, 61] true true >>=
      fun u => u.queryValue [107]) = .ok [118] := by
  have hpairs : ∀ pair ∈ [([(107 : UInt8)], [(118 : UInt8)]), ([108], [120]), ([107], [119])],
      Delimited pair := by
    intro pair hpair
    constructor <;> revert pair <;> decide +kernel
  have hvalid : (ofString [97, 58, 63, 107, 61, 118, 59, 108, 61, 120, 59, 107, 61, 119, 35, 61]
      true true).map valid = .ok true := by decide
  have hquery : (ofString [97, 58, 63, 107, 61, 118, 59, 108, 61, 120, 59, 107, 61, 119, 35, 61]
      true true >>= query) = .ok ('?'.toUInt8 :: params [([107], [118]), ([108], [120]),
        ([107], [119])]) := by decide
  obtain ⟨u, hu, hvalid⟩ := map_eq_ok.1 hvalid
  rw [hu, ok_bind] at hquery
  rw [hu, ok_bind]
  exact queryValue_eq_lookup [107] hu hvalid hquery hpairs

end Oasys.URI
