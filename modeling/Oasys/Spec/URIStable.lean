import Oasys.Spec.URINormalForm

/-!
# Stability of normalized URIs

The parts that normalization leaves of valid parts are again valid and normal. They are the
parts of their text as well, unless normalization has turned the scheme into `eth`, whose hosts
end elsewhere, or has left a path without an authority that starts with two slashes.
-/

namespace Oasys.URI

open StdString DotSegments

/-- What the accessors return. -/
structure Accessors where
  parse_status : UriParseErr
  uri : List UInt8
  scheme : Except Fault (List UInt8)
  ssp : Except Fault (List UInt8)
  authority : Except Fault (List UInt8)
  userinfo : Except Fault (List UInt8)
  host : Except Fault (List UInt8)
  port : Except Fault (List UInt8)
  path : Except Fault (List UInt8)
  query : Except Fault (List UInt8)
  fragment : Except Fault (List UInt8)
  port_num : UInt32
  deriving DecidableEq

/-- What the accessors return of a URI. -/
def accessors (u : URI) : Accessors where
  parse_status := u.parse_err_
  uri := u.uri_
  scheme := u.scheme
  ssp := u.ssp
  authority := u.authority
  userinfo := u.userinfo
  host := u.host
  port := u.port
  path := u.path
  query := u.query
  fragment := u.fragment
  port_num := u.port_num_

/-! ### Characters -/

section

variable {text host : List UInt8} {isEth isEth' : Prop} {c d : UInt8}

/-- The characters of a host: those of a user information, percent signs and brackets. -/
def HostChar (c : UInt8) : Prop :=
  userinfoChar c = true ∨ c = '%'.toUInt8 ∨ c = '['.toUInt8 ∨ c = ']'.toUInt8

instance : DecidablePred HostChar := fun _ => inferInstanceAs (Decidable (_ ∨ _ ∨ _ ∨ _))

theorem userinfoChar_of_hostChar (h : hostChar c = true) : userinfoChar c = true := by
  obtain ⟨n, rfl⟩ := exists_byte c
  revert n
  decide +kernel

theorem ValidText.not_mem {allowed : UInt8 → Bool} (h : ValidText allowed text)
    (hallowed : allowed d = false) (hpercent : d ≠ '%'.toUInt8) (hdigit : isHexdig d = false) :
    d ∉ text := by
  intro hd
  rcases Escaped.chars (fun _ _ hp => hp) h d hd with hd | hd | hd
  · simp [hallowed] at hd
  · exact hpercent hd
  · simp [hdigit] at hd

theorem ValidHost.chars (h : ValidHost isEth host) : ∀ c ∈ host, HostChar c := by
  cases h with
  | nil => simp
  | @literal x h =>
    intro c hc
    have hc : c = '['.toUInt8 ∨ c ∈ x ∨ c = ']'.toUInt8 := by simpa using hc
    rcases hc with hc | hc | hc
    · exact .inr (.inr (.inl hc))
    · exact .inl (chars_of_validateIpLiteral h c hc)
    · exact .inr (.inr (.inr hc))
  | eth _ _ h =>
    intro c hc
    rcases mem_of_validateEthLiteral h c hc with hc | rfl
    · exact .inl (userinfoChar_of_isHexdig hc)
    · exact .inl (by decide)
  | name _ _ h =>
    intro c hc
    rcases Escaped.chars (fun _ _ hp => hp) h c hc with hc | hc | hc
    · exact .inl (userinfoChar_of_hostChar hc)
    · exact .inr (.inl hc)
    · exact .inl (userinfoChar_of_isHexdig hc)

theorem not_mem_authorityEnds
    (h : HostChar c ∨ c = '@'.toUInt8 ∨ c = ':'.toUInt8 ∨ isdigit c = true) :
    c ∉ authorityEnds := by
  obtain ⟨n, rfl⟩ := exists_byte c
  revert n
  decide +kernel

/-! ### The host -/

def normalHost (host : List UInt8) : List UInt8 := lowerHost (decoded hostChar host)

theorem percent_notMem_literal {x : List UInt8} (h : validateIpLiteral x = .ok) :
    '%'.toUInt8 ∉ '['.toUInt8 :: (x ++ [']'.toUInt8]) := by
  have hx : '%'.toUInt8 ∉ x := by
    intro hmem
    exact absurd (chars_of_validateIpLiteral h _ hmem) (by decide)
  have hopen : '%'.toUInt8 ≠ '['.toUInt8 := by decide
  have hclose : '%'.toUInt8 ≠ ']'.toUInt8 := by decide
  simp [hx, hopen, hclose]

theorem percent_notMem_eth (h : validateEthLiteral host = .ok) : '%'.toUInt8 ∉ host := by
  intro hmem
  rcases mem_of_validateEthLiteral h _ hmem with hc | hc
  · exact absurd hc (by decide)
  · exact absurd hc (by decide)

theorem normalHost_eq_map (h : '%'.toUInt8 ∉ host) : normalHost host = host.map tolower := by
  rw [normalHost, decoded_eq_self h, lowerHost_eq_map h]

theorem normalHost_literal {x : List UInt8} (h : validateIpLiteral x = .ok) :
    normalHost ('['.toUInt8 :: (x ++ [']'.toUInt8])) =
      '['.toUInt8 :: (x.map tolower ++ [']'.toUInt8]) := by
  rw [normalHost_eq_map (percent_notMem_literal h), List.map_cons, List.map_append]
  rfl

theorem validateEthLiteral_lower (h : validateEthLiteral host = .ok) :
    validateEthLiteral (host.map tolower) = .ok := by
  have hcolon : decide (tolower ':'.toUInt8 = ':'.toUInt8) = true := by decide
  unfold validateEthLiteral at h ⊢
  split at h
  · cases h
  · rename_i hlength
    split at h
    · rename_i hall
      rw [if_neg (by simpa using hlength), if_pos]
      rw [List.zipIdx_map, List.all_map, List.all_eq_true]
      rw [List.all_eq_true] at hall
      rintro ⟨c, i⟩ hc
      have hat := hall (c, i) hc
      simp only [Function.comp_apply, Prod.map_apply, id_eq] at hat ⊢
      split
      · rename_i hi
        rw [if_pos hi] at hat
        exact isHexdig_tolower hat
      · rename_i hi
        rw [if_neg hi] at hat
        have hc : c = ':'.toUInt8 := by simpa using hat
        rw [hc]
        exact hcolon
    · cases h

theorem hostChar_ne_percent (h : hostChar c = true) : c ≠ '%'.toUInt8 := by
  rintro rfl
  exact absurd h (by decide)

theorem hostChar_tolower (h : hostChar c = true) : hostChar (tolower c) = true := by
  obtain ⟨n, rfl⟩ := exists_byte c
  revert n
  decide +kernel

theorem normal_normalHost (h : ValidText hostChar host) :
    Normal (hostChar · = true) hostChar (normalHost host) :=
  (normal_decoded (fun _ => hostChar_ne_percent) (fun _ hc => hc) h).lowerHost
    (fun _ => hostChar_ne_percent) fun _ => hostChar_tolower

theorem ValidHost.normalHost (h : ValidHost isEth host) (heth : isEth → isEth')
    (hname : isEth' → isEth ∨ host = [] ∨ host.head? = some '['.toUInt8) :
    ValidHost isEth' (normalHost host) := by
  cases h with
  | nil => exact .nil
  | literal h =>
    rw [normalHost_literal h]
    exact .literal (validateIpLiteral_lower h)
  | eth he hhead h =>
    have hlower := validateEthLiteral_lower h
    rw [normalHost_eq_map (percent_notMem_eth h)]
    refine .eth (heth he) ?_ hlower
    intro hhead
    have hmem := mem_of_validateEthLiteral hlower '['.toUInt8 (List.mem_of_mem_head? hhead)
    rcases hmem with hc | hc
    · exact absurd hc (by decide)
    · exact absurd hc (by decide)
  | name he hhead h =>
    by_cases hnil : host = []
    · rw [hnil]
      exact .nil
    · have hvalid := (normal_normalHost h).validText
      refine .name ?_ ?_ hvalid
      · intro he'
        rcases hname he' with h1 | h1 | h1
        · exact he h1
        · exact hnil h1
        · exact hhead h1
      · intro hopen
        exact hvalid.not_mem rfl (by decide) rfl (List.mem_of_mem_head? hopen)

theorem ValidHost.not_mem (h : ValidHost isEth host) (hhead : host.head? ≠ some '['.toUInt8) :
    '['.toUInt8 ∉ URI.normalHost host ∧ (¬isEth → ':'.toUInt8 ∉ URI.normalHost host) := by
  cases h with
  | nil => simp [URI.normalHost, decoded, lowerHost]
  | literal => simp at hhead
  | eth he _ h =>
    rw [normalHost_eq_map (percent_notMem_eth h)]
    refine ⟨?_, fun hne => absurd he hne⟩
    intro hmem
    rcases mem_of_validateEthLiteral (validateEthLiteral_lower h) _ hmem with hc | hc
    · exact absurd hc (by decide)
    · exact absurd hc (by decide)
  | name _ _ h =>
    have hvalid := (normal_normalHost h).validText
    exact ⟨hvalid.not_mem rfl (by decide) rfl, fun _ => hvalid.not_mem rfl (by decide) rfl⟩

theorem colon_mem_eth (h : validateEthLiteral host = .ok) : ':'.toUInt8 ∈ host := by
  unfold validateEthLiteral at h
  split at h
  · cases h
  · rename_i hlength
    have hlength : host.length = 17 := not_not.1 hlength
    split at h
    · rename_i hall
      rw [List.all_eq_true] at hall
      have hat := hall (host[2], 2) (by simp [List.mem_zipIdx_iff_getElem?])
      have hcolon : host[2] = ':'.toUInt8 := by simpa using hat
      rw [← hcolon]
      exact List.getElem_mem _
    · cases h

theorem normalHost_ne_nil (h : ValidText hostChar host) (hne : host ≠ []) :
    normalHost host ≠ [] := by
  have hdecoded : decoded hostChar host ≠ [] := by
    cases h with
    | nil => exact absurd rfl hne
    | char hc _ => simp [decoded_char (hostChar_ne_percent hc)]
    | @escape h l rest hp _ =>
      obtain ⟨c, hc⟩ := hexValue_eq_ok.2
        (.inl (by rw [← isHexdig_eq]; exact hp.1) : IsNumber h l)
      rw [decoded_escape, decodedEscape, hc]
      simp only
      split <;> simp
  intro hnil
  apply hdecoded
  rw [← List.length_eq_zero_iff, ← Parts.length_lowerHost]
  exact List.length_eq_zero_iff.2 hnil

theorem normalHost_normalHost (h : ValidHost isEth host) :
    normalHost (normalHost host) = normalHost host := by
  have hmap : ∀ {text : List UInt8}, '%'.toUInt8 ∉ text →
      URI.normalHost (URI.normalHost text) = URI.normalHost text := by
    intro text htext
    have hlower : '%'.toUInt8 ∉ text.map tolower := by
      rintro hmem
      obtain ⟨c, hc, heq⟩ := List.mem_map.1 hmem
      have hpercent : c = '%'.toUInt8 := by
        revert heq
        clear hc
        obtain ⟨n, rfl⟩ := exists_byte c
        revert n
        decide +kernel
      exact htext (hpercent ▸ hc)
    rw [normalHost_eq_map htext, normalHost_eq_map hlower, List.map_map]
    exact List.map_congr_left fun c _ => tolower_tolower c
  cases h with
  | nil => rfl
  | literal h => exact hmap (percent_notMem_literal h)
  | eth _ _ h => exact hmap (percent_notMem_eth h)
  | name _ _ h =>
    have hdecoded := normal_decoded (fun _ => hostChar_ne_percent) (fun _ hc => hc) h
    rw [URI.normalHost, (normal_normalHost h).decoded_eq fun _ => hostChar_ne_percent]
    exact lowerHost_lowerHost (fun _ => hostChar_ne_percent) (fun _ => hostChar_tolower) hdecoded

end

/-! ### The parts -/

/-- The parts stay the parts of their text when they are normalized: the scheme does not become
    `eth`, unless there is no host that would be read in another way, and the path does not
    become one that starts with two slashes, which is told from its segments. -/
structure Parts.Stable (p : Parts) : Prop where
  scheme : p.scheme.map tolower = eth → p.scheme = eth ∨ ∀ a, p.authority = some a →
    a.host ++ a.portText = [] ∨ (a.host ++ a.portText).head? = some '['.toUInt8
  path : p.authority = none →
    ¬Kind.Doubled (Kind.resolved ((p.path.splitOn slash).map segKind))

section

variable {p : Parts} {a : Authority}

theorem schemeChar_tolower {c : UInt8} (h : schemeChar c = true) :
    schemeChar (tolower c) = true := by
  obtain ⟨n, rfl⟩ := exists_byte c
  revert n
  decide +kernel

theorem isalpha_tolower {c : UInt8} (h : isalpha c = true) : isalpha (tolower c) = true := by
  obtain ⟨n, rfl⟩ := exists_byte c
  revert n
  decide +kernel

theorem userinfoChar_ne_percent {c : UInt8} (h : userinfoChar c = true) : c ≠ '%'.toUInt8 := by
  rintro rfl
  exact absurd h (by decide)

theorem queryChar_ne_percent {c : UInt8} (h : queryChar c = true) : c ≠ '%'.toUInt8 := by
  rintro rfl
  exact absurd h (by decide)

theorem pathChar_of_segmentChar {c : UInt8} (h : segmentChar c = true) : pathChar c = true := by
  obtain ⟨n, rfl⟩ := exists_byte c
  revert n
  decide +kernel

theorem decoded_append {allowed plain : UInt8 → Bool} {text text' : List UInt8}
    (hplain : ∀ c, plain c = true → c ≠ '%'.toUInt8) (h : ValidText plain text) :
    decoded allowed (text ++ text') = decoded allowed text ++ decoded allowed text' := by
  induction h with
  | nil => rfl
  | char hc _ ih => rw [List.cons_append, decoded_char (hplain _ hc), decoded_char (hplain _ hc), ih,
      List.cons_append]
  | escape _ _ ih => simp [ih]

theorem exists_userinfo_normalized (hwf : p.WF) (hvalid : p.Valid) (ha : p.authority = some a) :
    (a.userinfo = [] ∧ decoded userinfoChar a.userinfo = [] ∧
        '@'.toUInt8 ∉ a.host ++ a.portText) ∨
      ∃ x, decoded userinfoChar a.userinfo = x ++ ['@'.toUInt8] ∧
        Normal (userinfoChar · = true) userinfoChar x := by
  rcases (hwf.authority a ha).userinfo with ⟨hnil, hnot⟩ | ⟨x, hx, -⟩
  · exact .inl ⟨hnil, by rw [hnil]; rfl, hnot⟩
  · have htext : ValidText userinfoChar x := by
      have huserinfo := hvalid.userinfo
      rwa [Parts.userinfoText, ha, Option.map_some, Option.getD_some, hx,
        List.dropLast_concat] at huserinfo
    refine .inr ⟨decoded userinfoChar x, ?_,
      normal_decoded (fun _ => userinfoChar_ne_percent) (fun _ hc => hc) htext⟩
    rw [hx, decoded_append (fun _ => userinfoChar_ne_percent) htext]
    rfl

theorem normal_path (h : ValidText pathChar p.path) :
    Normal (pathChar · = true) segmentChar p.normalized.path := by
  have hdecoded : Normal (pathChar · = true) segmentChar (decoded segmentChar p.path) :=
    normal_decoded (fun _ => pathChar_ne_percent) (fun _ => pathChar_of_segmentChar) h
  have hsegs := hdecoded.segments fun _ _ hp => hp.digits
  obtain ⟨kept, last, hkept, hlast, heq⟩ := exists_remove_of dot Escaped.nil hsegs
  have htext : Normal (pathChar · = true) segmentChar (keptText slash kept) := by
    clear heq
    induction kept with
    | nil => exact .nil
    | cons seg kept ih =>
      obtain ⟨hseg, hkept⟩ := List.forall_mem_cons.1 hkept
      exact (ih hkept).append (hseg.append (.char (by decide) .nil))
  have hpath : p.normalized.path = keptText slash kept ++ last := heq
  rw [hpath]
  exact htext.append hlast

theorem decoded_tail {text : List UInt8} {d : UInt8} (hd : d ≠ '%'.toUInt8)
    (hhead : ∀ c ∈ text.head?, c = d) :
    (decoded queryChar text).tail = decoded queryChar text.tail ∧
      ∀ c ∈ (decoded queryChar text).head?, c = d := by
  cases text with
  | nil => simp [decoded]
  | cons c text =>
    have hc : c = d := hhead c rfl
    rw [hc, decoded_char hd]
    simp

theorem eth_lower : eth.map tolower = eth := by
  decide

namespace Parts

theorem validHost_normalized (hvalid : p.Valid) (hstable : p.Stable) :
    ValidHost (p.scheme.map tolower = URI.eth) p.normalized.hostText := by
  have hhost := hvalid.host
  cases ha : p.authority with
  | none =>
    have hnil : p.normalized.hostText = [] := by simp [hostText, normalized, ha]
    rw [hnil]
    exact .nil
  | some a =>
    have htext : p.hostText = a.host := by simp [hostText, ha]
    have hnormal : p.normalized.hostText = normalHost a.host := by
      simp [hostText, normalized, ha, Authority.normalized, Authority.decoded, normalHost]
    rw [htext] at hhost
    rw [hnormal]
    apply hhost.normalHost
    · intro heth
      rw [heth, eth_lower]
    · intro heth
      rcases hstable.scheme heth with h | h
      · exact .inl h
      · rcases h a ha with h | h
        · exact .inr (.inl (List.append_eq_nil_iff.1 h).1)
        · cases hhost : a.host with
          | nil => exact .inr (.inl rfl)
          | cons c host => exact .inr (.inr (by simpa [hhost] using h))

theorem valid_normalized (hwf : p.WF) (hvalid : p.Valid) (hstable : p.Stable) :
    p.normalized.Valid where
  scheme_head := by
    intro c hc
    obtain ⟨d, hd, rfl⟩ : ∃ d, p.scheme.head? = some d ∧ tolower d = c := by
      simpa [normalized, List.head?_map] using hc
    exact isalpha_tolower (hvalid.scheme_head d hd)
  scheme := by
    intro c hc
    obtain ⟨d, hd, rfl⟩ := List.mem_map.1 hc
    exact schemeChar_tolower (hvalid.scheme d hd)
  userinfo := by
    cases ha : p.authority with
    | none =>
      have hnil : p.normalized.userinfoText = [] := by simp [userinfoText, normalized, ha]
      rw [hnil]
      exact .nil
    | some a =>
      have htext : p.normalized.userinfoText = decoded userinfoChar a.userinfo := by
        simp [userinfoText, normalized, ha, Authority.normalized, Authority.decoded]
      rw [htext]
      rcases exists_userinfo_normalized hwf hvalid ha with ⟨-, hnil, -⟩ | ⟨x, hx, hnormal⟩
      · rw [hnil]
        exact .nil
      · rw [hx, List.dropLast_concat]
        exact hnormal.validText
  host := validHost_normalized hvalid hstable
  port := by
    have hport := hvalid.port
    cases ha : p.authority with
    | none => simp [portText, normalized, ha]
    | some a =>
      simpa [portText, normalized, ha, Authority.normalized, Authority.decoded] using hport
  path := (normal_path hvalid.path).validText
  query := by
    have htail := decoded_tail (by decide) hwf.query_head
    have hnormal : Normal (queryChar · = true) queryChar (decoded queryChar p.query.tail) :=
      normal_decoded (fun _ => queryChar_ne_percent) (fun _ hc => hc) hvalid.query
    have hquery : p.normalized.query.tail = decoded queryChar p.query.tail := htail.1
    rw [hquery]
    exact hnormal.validText
  fragment := by
    have htail := decoded_tail (by decide) hwf.fragment_head
    have hnormal : Normal (queryChar · = true) queryChar (decoded queryChar p.fragment.tail) :=
      normal_decoded (fun _ => queryChar_ne_percent) (fun _ hc => hc) hvalid.fragment
    have hfragment : p.normalized.fragment.tail = decoded queryChar p.fragment.tail := htail.1
    rw [hfragment]
    exact hnormal.validText

theorem normalized_normalized (hwf : p.WF) (hvalid : p.Valid) :
    p.normalized.normalized = p.normalized := by
  have hscheme : p.normalized.normalized.scheme = p.normalized.scheme := by
    change (p.scheme.map tolower).map tolower = p.scheme.map tolower
    rw [List.map_map]
    exact List.map_congr_left fun c _ => tolower_tolower c
  have hauthority : p.normalized.normalized.authority = p.normalized.authority := by
    cases ha : p.authority with
    | none => simp [normalized, ha]
    | some a =>
      have huserinfo : decoded userinfoChar (decoded userinfoChar a.userinfo) =
          decoded userinfoChar a.userinfo := by
        rcases exists_userinfo_normalized hwf hvalid ha with ⟨-, hnil, -⟩ | ⟨x, hx, hnormal⟩
        · rw [hnil]
          rfl
        · rw [hx, decoded_append (fun _ => userinfoChar_ne_percent) hnormal.validText,
            hnormal.decoded_eq fun _ => userinfoChar_ne_percent]
          rfl
      have hhost : normalHost (normalHost a.host) = normalHost a.host := by
        have hhost := hvalid.host
        rw [hostText, ha] at hhost
        exact normalHost_normalHost hhost
      simp only [normalHost] at hhost
      simp [normalized, ha, Authority.normalized, Authority.decoded, huserinfo, hhost]
  have hpath : p.normalized.normalized.path = p.normalized.path := by
    have hnormal := normal_path hvalid.path
    change remove slash dot (decoded segmentChar p.normalized.path) = p.normalized.path
    rw [hnormal.decoded_eq fun _ => pathChar_ne_percent]
    exact remove_remove _
  have hdecoded : ∀ {text : List UInt8} {d : UInt8}, d ≠ '%'.toUInt8 →
      (∀ c ∈ text.head?, c = d) → ValidText queryChar text.tail →
      decoded queryChar (decoded queryChar text) = decoded queryChar text := by
    intro text d hd hhead h
    cases text with
    | nil => rfl
    | cons c text =>
      have hc : c = d := hhead c rfl
      have hnormal : Normal (queryChar · = true) queryChar (decoded queryChar text) :=
        normal_decoded (fun _ => queryChar_ne_percent) (fun _ hc => hc) h
      rw [hc, decoded_char hd, decoded_char hd, hnormal.decoded_eq fun _ => queryChar_ne_percent]
  have hquery : p.normalized.normalized.query = p.normalized.query :=
    hdecoded (by decide) hwf.query_head hvalid.query
  have hfragment : p.normalized.normalized.fragment = p.normalized.fragment :=
    hdecoded (by decide) hwf.fragment_head hvalid.fragment
  generalize p.normalized.normalized = q at *
  cases q
  simp_all

theorem wf_normalized_authority (hwf : p.WF) (hvalid : p.Valid) (hstable : p.Stable)
    (ha : p.authority = some a) : a.normalized.WF (p.scheme.map tolower = URI.eth) := by
  have hhost : ValidHost (p.scheme = URI.eth) a.host := by
    have hhost := hvalid.host
    rwa [hostText, ha] at hhost
  have hhost' : ValidHost (p.scheme.map tolower = URI.eth) (normalHost a.host) := by
    have hhost' := validHost_normalized hvalid hstable
    rwa [hostText, normalized, ha] at hhost'
  have hport : ∀ c ∈ a.portText, c = ':'.toUInt8 ∨ isdigit c = true := by
    have hport := hvalid.port
    intro c hc
    unfold Authority.portText at hc
    cases hp : a.port with
    | none => simp [hp] at hc
    | some port =>
      rw [hp] at hc
      rcases List.mem_cons.1 hc with hc | hc
      · exact .inl hc
      · exact .inr (hport c (by simpa [portText, ha, hp] using hc))
  have huserinfo := exists_userinfo_normalized hwf hvalid ha
  refine ⟨?_, ?_, ?_⟩
  · rcases huserinfo with ⟨-, hnil, -⟩ | ⟨x, hx, hnormal⟩
    · refine .inl ⟨hnil, ?_⟩
      intro hmem
      rcases List.mem_append.1 hmem with hc | hc
      · exact absurd (hhost'.chars _ hc) (by decide)
      · exact absurd (hport _ hc) (by decide)
    · exact .inr ⟨x, hx, hnormal.validText.not_mem rfl (by decide) rfl⟩
  · rcases (hwf.authority a ha).host with ⟨x, hx, -⟩ | ⟨hhead, heth, -⟩
    · -- a literal stays one
      left
      rw [hx] at hhost
      have hliteral := validHost_literal.1 hhost
      have hlower := chars_of_validateIpLiteral (validateIpLiteral_lower hliteral)
      refine ⟨x.map tolower, ?_, fun hc => absurd (hlower _ hc) (by decide)⟩
      have hnormal := normalHost_literal hliteral
      rwa [← hx] at hnormal
    · -- in a name are neither brackets nor, but for the scheme `eth`, colons
      right
      have hhost_head : a.host.head? ≠ some '['.toUInt8 := by
        intro hopen
        exact hhead (by simp [List.head?_append, hopen])
      have hnot := hhost.not_mem hhost_head
      refine ⟨?_, ?_, ?_⟩
      · change (normalHost a.host ++ a.portText).head? ≠ some '['.toUInt8
        intro hopen
        rcases List.mem_append.1 (List.mem_of_mem_head? hopen) with hc | hc
        · exact hnot.1 hc
        · exact absurd (hport _ hc) (by decide)
      · intro heth'
        rcases hstable.scheme heth' with hscheme | hall
        · exact heth hscheme
        · rcases hall a ha with hnil | hopen
          · exact (List.append_eq_nil_iff.1 hnil).2
          · exact absurd hopen hhead
      · exact fun hne => hnot.2 fun hscheme => hne (by rw [hscheme, eth_lower])
  · intro c hc
    apply not_mem_authorityEnds
    rcases List.mem_append.1 hc with hc | hc
    · change c ∈ decoded userinfoChar a.userinfo at hc
      rcases huserinfo with ⟨-, hnil, -⟩ | ⟨x, hx, hnormal⟩
      · simp [hnil] at hc
      · rw [hx] at hc
        rcases List.mem_append.1 hc with hc | hc
        · rcases Escaped.chars (fun _ _ hp => hp.digits) hnormal c hc with hc | hc | hc
          · exact .inl (.inl hc)
          · exact .inl (.inr (.inl hc))
          · exact .inl (.inl (userinfoChar_of_isHexdig hc))
        · exact .inr (.inl (List.mem_singleton.1 hc))
    · rcases List.mem_append.1 hc with hc | hc
      · exact .inl (hhost'.chars c hc)
      · exact .inr (.inr (hport c hc))

theorem wf_normalized (hwf : p.WF) (hvalid : p.Valid) (hstable : p.Stable) : p.normalized.WF where
  scheme_ne := by simpa [normalized] using hwf.scheme_ne
  scheme := by
    intro hmem
    obtain ⟨c, hc, heq⟩ := List.mem_map.1 hmem
    have hchar := schemeChar_tolower (hvalid.scheme c hc)
    rw [heq] at hchar
    exact absurd hchar (by decide)
  authority := by
    intro a hsome
    obtain ⟨b, hb, rfl⟩ : ∃ b, p.authority = some b ∧ b.normalized = a := by
      simpa [normalized] using hsome
    exact wf_normalized_authority hwf hvalid hstable hb
  path_of_some := by
    intro hsome c hc
    have hne : p.authority ≠ none := by simpa [normalized] using hsome
    cases hpath : p.path with
    | nil => simp [normalized, hpath, decoded, remove, removeFrom, IsDots, keptText] at hc
    | cons d path =>
      have hd : d = slash := hwf.path_of_some hne d (by simp [hpath])
      have hhead : p.normalized.path.head? = some slash := by
        change (remove slash dot (decoded segmentChar p.path)).head? = some slash
        rw [hpath, hd, decoded_char (by decide)]
        exact head_remove
      rw [hhead] at hc
      exact (Option.some.inj hc).symm
  path_of_none := by
    intro hnone
    have hnone : p.authority = none := by simpa [normalized] using hnone
    exact fun h => hstable.path hnone ((slashes_prefix_iff_doubled hvalid.path).1 h)
  path := by
    have hvalid := (normal_path hvalid.path).validText
    intro c hc hend
    have hend : c = '?'.toUInt8 ∨ c = '#'.toUInt8 := by simpa using hend
    rcases hend with rfl | rfl
    · exact hvalid.not_mem rfl (by decide) rfl hc
    · exact hvalid.not_mem rfl (by decide) rfl hc
  query_head := (decoded_tail (by decide) hwf.query_head).2
  query := by
    have htail := decoded_tail (by decide) hwf.query_head
    have hnormal : Normal (queryChar · = true) queryChar (decoded queryChar p.query.tail) :=
      normal_decoded (fun _ => queryChar_ne_percent) (fun _ hc => hc) hvalid.query
    have hnot : '#'.toUInt8 ∉ (decoded queryChar p.query).tail := by
      rw [htail.1]
      exact hnormal.validText.not_mem rfl (by decide) rfl
    intro hmem
    change '#'.toUInt8 ∈ decoded queryChar p.query at hmem
    cases hquery : decoded queryChar p.query with
    | nil => simp [hquery] at hmem
    | cons c query =>
      rw [hquery] at hmem hnot htail
      rcases List.mem_cons.1 hmem with hc | hc
      · exact absurd (hc.trans (htail.2 c rfl)) (by decide)
      · exact hnot hc
  fragment_head := (decoded_tail (by decide) hwf.fragment_head).2

end Parts

/-! ### Parsing again -/

/-- A text that is parsed again, and one that is unmarshalled, gives an object that reports the
    same. -/
structure Reparses (u : URI) : Prop where
  parse : ∃ u', ofString u.uri_ u.validate_ u.normalize_ = .ok u' ∧ u'.accessors = u.accessors
  unserialize : ∀ w : URI, w.validate_ = u.validate_ → w.normalize_ = u.normalize_ →
    ∃ u', unserialize w u.uri_ = .ok u' ∧ u'.accessors = u.accessors

theorem unserialize_eq (w : URI) (uri : List UInt8) :
    unserialize w uri = ofString uri w.validate_ w.normalize_ := rfl

theorem reparses_iff {u : URI} : u.Reparses ↔
    ∃ u', ofString u.uri_ u.validate_ u.normalize_ = .ok u' ∧ u'.accessors = u.accessors := by
  constructor
  · exact fun h => h.parse
  · intro h
    refine ⟨h, ?_⟩
    intro w hv hn
    rwa [unserialize_eq, hv, hn]

theorem accepted_of_wf {u : URI} (hwf : p.WF) (h : ofString p.text true true = .ok u)
    (hvalid : u.valid = true) : p.Valid ∧ u = p.normalized.toURI true true := by
  have hv : p.Valid := by
    by_contra hnot
    obtain ⟨err, hne, hrun⟩ := ofString_invalid true hwf hnot
    rw [hrun] at h
    obtain rfl := Except.ok.inj h
    exact hne (by simpa [URI.valid] using hvalid)
  refine ⟨hv, ?_⟩
  rw [ofString_accepted hwf (fun _ => hv) fun _ => hv.canDecode hwf] at h
  exact (Except.ok.inj h).symm

namespace Parts

theorem ofString_normalized (hwf : p.WF) (hvalid : p.Valid) (hstable : p.Stable) :
    ofString p.normalized.text true true = .ok (p.normalized.toURI true true) := by
  have hwf' := wf_normalized hwf hvalid hstable
  have hvalid' := valid_normalized hwf hvalid hstable
  have hrun : ofString p.normalized.text true true = _ :=
    ofString_accepted hwf' (fun _ => hvalid') fun _ => hvalid'.canDecode hwf'
  rw [hrun, accepted, if_pos rfl, normalized_normalized hwf hvalid]

theorem text_inj {q : Parts} (hp : ':'.toUInt8 ∉ p.scheme) (hq : ':'.toUInt8 ∉ q.scheme)
    (h : q.text = p.text) : q.scheme = p.scheme ∧ q.ssp = p.ssp := by
  have hlength : q.scheme.length = p.scheme.length := by
    have hfind : find (q.scheme ++ [':'.toUInt8] ++ q.ssp) ':'.toUInt8 0 = _ := find_scheme hq
    have hfind' : find (p.scheme ++ [':'.toUInt8] ++ p.ssp) ':'.toUInt8 0 = _ := find_scheme hp
    rw [← Parts.text] at hfind hfind'
    rw [h, hfind'] at hfind
    exact (Option.some.inj hfind).symm
  obtain ⟨hscheme, hssp⟩ := List.append_inj h (by simp [hlength])
  exact ⟨(List.append_left_inj _).1 hscheme, hssp⟩

theorem authority_eq_none {q : Parts} (h : q.normalized.authorityText = []) :
    q.authority = none := by
  cases ha : q.authority with
  | none => rfl
  | some a => simp [authorityText, normalized, ha, Authority.text, slashes] at h

theorem stable_of_reparses (hvalid : p.Valid)
    (h : (p.normalized.toURI true true).Reparses) : p.Stable := by
  obtain ⟨u', hu', hacc⟩ := h.parse
  have hvalid' : u'.valid = true := by
    have hstatus : u'.parse_err_ = .ok := congrArg Accessors.parse_status hacc
    simp [URI.valid, hstatus]
  have hrun : ofString p.normalized.text true true = .ok u' := hu'
  obtain ⟨q, hq, htext, hqvalid, -, rfl⟩ := exists_accepted hrun hvalid'
  have hqv := hqvalid rfl
  have hlower : ':'.toUInt8 ∉ p.normalized.scheme := by
    intro hmem
    obtain ⟨c, hc, heq⟩ := List.mem_map.1 hmem
    have hchar := schemeChar_tolower (hvalid.scheme c hc)
    rw [heq] at hchar
    exact absurd hchar (by decide)
  obtain ⟨hscheme, hssp⟩ := text_inj hlower hq.scheme htext
  have hauthority : q.normalized.authorityText = p.normalized.authorityText := by
    have hauthority := congrArg Accessors.authority hacc
    simpa [accessors, accepted] using hauthority
  constructor
  · intro heth
    by_contra hnot
    simp only [not_or, not_forall] at hnot
    obtain ⟨hne, a, ha, hnil, hopen⟩ := hnot
    have hhost : ValidHost (p.scheme = URI.eth) a.host := by
      have hhost := hvalid.host
      rwa [hostText, ha] at hhost
    have hahead : a.host.head? ≠ some '['.toUInt8 := by
      intro hhead
      exact hopen (by simp [List.head?_append, hhead])
    have hnot := hhost.not_mem hahead
    obtain ⟨b, hb⟩ : ∃ b, q.authority = some b := by
      cases hqa : q.authority with
      | none => simp [authorityText, normalized, hqa, ha, Authority.text, slashes] at hauthority
      | some b => exact ⟨b, rfl⟩
    have hbhost : ValidHost (q.scheme = URI.eth) b.host := by
      have hbhost := hqv.host
      rwa [hostText, hb] at hbhost
    have hqeth : q.scheme = URI.eth := hscheme.trans heth
    have hsame : normalHost b.host = normalHost a.host := by
      have hsame := congrArg Accessors.host hacc
      simpa [accessors, accepted, hostText, normalized, hb, ha, Authority.normalized,
        Authority.decoded, normalHost] using hsame
    have huserinfo : decoded userinfoChar b.userinfo = decoded userinfoChar a.userinfo := by
      have huserinfo := congrArg Accessors.userinfo hacc
      simpa [accessors, accepted, userinfoText, normalized, hb, ha, Authority.normalized,
        Authority.decoded] using huserinfo
    rcases (hq.authority b hb).host with ⟨x, hx, -⟩ | ⟨hbhead, hrest, -⟩
    · -- a literal is none of the names
      rw [hx] at hbhost hsame
      rw [normalHost_literal (validHost_literal.1 hbhost)] at hsame
      exact hnot.1 (by simp [← hsame])
    · -- all of the authority is read as the host, which has to be an address then
      have hbnil : b.portText = [] := hrest hqeth
      have hanil : a.portText = [] := by
        have hinner : decoded userinfoChar b.userinfo ++ (normalHost b.host ++ b.portText) =
            decoded userinfoChar a.userinfo ++ (normalHost a.host ++ a.portText) := by
          simpa [authorityText, normalized, hb, ha, Authority.text, Authority.inner,
            Authority.normalized, Authority.decoded, Authority.portText, normalHost]
            using hauthority
        rw [huserinfo, hsame, hbnil] at hinner
        simpa using hinner
      have hahost : a.host ≠ [] := by
        intro ha
        exact hnil (by simp [ha, hanil])
      have haname : ValidText hostChar a.host := by
        rcases (validHost_name hahost hahead).1 hhost with ⟨heth', -⟩ | ⟨-, h⟩
        · exact absurd heth' hne
        · exact h
      have hbne : b.host ≠ [] := by
        intro hbhost
        rw [hbhost] at hsame
        exact normalHost_ne_nil haname hahost hsame.symm
      have hbopen : b.host.head? ≠ some '['.toUInt8 := by
        intro hhead
        exact hbhead (by simp [List.head?_append, hhead])
      rcases (validHost_name hbne hbopen).1 hbhost with ⟨-, haddress⟩ | ⟨hne', -⟩
      · have hcolon := colon_mem_eth (validateEthLiteral_lower haddress)
        rw [← normalHost_eq_map (percent_notMem_eth haddress), hsame] at hcolon
        exact hnot.2 hne hcolon
      · exact hne' hqeth
  · -- what starts with two slashes is read as an authority
    intro hnone hdoubled
    have hslashes := (slashes_prefix_iff_doubled hvalid.path).2 hdoubled
    have hnil : p.normalized.authorityText = [] := by simp [authorityText, normalized, hnone]
    have hqnone := authority_eq_none (hauthority.trans hnil)
    have hqssp : q.path ++ (q.query ++ q.fragment) =
        p.normalized.path ++ (p.normalized.query ++ p.normalized.fragment) := by
      simpa [ssp, authorityText, hqnone, hnone, normalized, behindPath] using hssp
    apply hq.cut.not_slashes (hq.path_of_none hqnone)
    rw [hqssp]
    exact hslashes.trans (List.prefix_append _ _)

end Parts

end

/-- A URI that is accepted with validation and normalization is parsed again, and
    unmarshalled, as what it is if and only if its parts are stable. -/
theorem reparses_iff_stable {s : List UInt8} {u : URI} (h : ofString s true true = .ok u)
    (hvalid : u.valid = true) :
    u.Reparses ↔ ∀ p : Parts, p.WF → p.text = s → p.Stable := by
  constructor
  · rintro hu p hwf rfl
    obtain ⟨hv, rfl⟩ := accepted_of_wf hwf h hvalid
    exact Parts.stable_of_reparses hv hu
  · intro hstable
    obtain ⟨p, hwf, rfl, -⟩ := exists_accepted h hvalid
    obtain ⟨hv, rfl⟩ := accepted_of_wf hwf h hvalid
    rw [reparses_iff]
    exact ⟨_, Parts.ofString_normalized hwf hv (hstable p hwf rfl), rfl⟩

/-- The text `eth://`, which is found again. -/
theorem reparses_iff_stable_eth : ∃ u, ofString [101, 116, 104, 58, 47, 47] true true = .ok u ∧
    (u.Reparses ↔ ∀ p : Parts, p.WF → p.text = [101, 116, 104, 58, 47, 47] → p.Stable) := by
  have hvalid : (ofString [101, 116, 104, 58, 47, 47] true true).map valid = .ok true := by decide
  obtain ⟨u, hu, hvalid⟩ := map_eq_ok.1 hvalid
  exact ⟨u, hu, reparses_iff_stable hu hvalid⟩

/-- The text `ETH://host:80/`, whose normalized form is rejected. -/
theorem not_reparses : ¬∀ s u, ofString s true true = .ok u → u.valid = true → u.Reparses := by
  intro h
  have hvalid : (ofString [69, 84, 72, 58, 47, 47, 104, 111, 115, 116, 58, 56, 48, 47] true
      true).map (fun u => (u.valid, u.uri_, u.validate_, u.normalize_)) =
      .ok (true, [101, 116, 104, 58, 47, 47, 104, 111, 115, 116, 58, 56, 48, 47], true, true) := by
    decide
  have hagain : (ofString [101, 116, 104, 58, 47, 47, 104, 111, 115, 116, 58, 56, 48, 47] true
      true).map parse_err_ = .ok .badHost := by decide
  obtain ⟨u, hu, hvalid⟩ := map_eq_ok.1 hvalid
  simp only [Prod.mk.injEq] at hvalid
  obtain ⟨hok, huri, hv, hn⟩ := hvalid
  obtain ⟨u', hu', hacc⟩ := (h _ u hu hok).parse
  rw [huri, hv, hn] at hu'
  rw [hu'] at hagain
  have hstatus : u'.parse_err_ = u.parse_err_ := congrArg Accessors.parse_status hacc
  have hok : u.parse_err_ = .ok := by simpa [valid] using hok
  have hbad : u'.parse_err_ = .badHost := Except.ok.inj hagain
  rw [hbad, hok] at hstatus
  cases hstatus

end Oasys.URI
