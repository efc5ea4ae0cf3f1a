import Oasys.ForStd.Transition
import Oasys.Spec.URIStable

/-!
# Runs of setters

A URI is parsed and then changed by its setters, each with a text that fits its component. As
long as no call meets one of the places where a setter leaves undone what parsing does, the
accessors return what they return of a URI that is parsed from the string.
-/

namespace Oasys.URI

open StdString

/-- A call of a setter. -/
inductive Setter where
  | scheme (text : List UInt8)
  | ssp (text : List UInt8)
  | authority (text : List UInt8)
  | userinfo (text : List UInt8)
  | host (text : List UInt8)
  | port (text : List UInt8)
  | path (text : List UInt8)
  | query (text : List UInt8)
  | fragment (text : List UInt8)

/-- What the call does. -/
def Setter.run (u : URI) : Setter → Except Fault URI
  | scheme text => u.setScheme text
  | ssp text => u.setSsp text
  | authority text => u.setAuthority text
  | userinfo text => u.setUserinfo text
  | host text => u.setHost text
  | port text => u.setPort text
  | path text => u.setPath text
  | query text => u.setQuery text
  | fragment text => u.setFragment text

namespace Parts

/-- The component is there, and the text has its delimiters and none that would end it. -/
def Proper (p : Parts) : Setter → Prop
  | .scheme text => text ≠ [] ∧ ':'.toUInt8 ∉ text
  | .ssp _ => True
  | .authority text => p.authority ≠ none ∧
      ∃ inner, text = slashes ++ inner ∧ ∀ c ∈ inner, c ∉ authorityEnds
  | .userinfo text => p.authority ≠ none ∧
      (text = [] ∨ ∃ x, text = x ++ ['@'.toUInt8] ∧ '@'.toUInt8 ∉ x) ∧ ∀ c ∈ text, c ∉ authorityEnds
  | .host text => p.authority ≠ none ∧
      (Authority.IsLiteral text ∨ (text.head? ≠ some '['.toUInt8 ∧
        (p.scheme ≠ eth → ':'.toUInt8 ∉ text))) ∧ ∀ c ∈ text, c ∉ authorityEnds
  | .port text => (p.authority.bind Authority.port).isSome ∧ ∀ c ∈ text, c ∉ authorityEnds
  | .path text => (p.authority ≠ none → ∀ c ∈ text.head?, c = '/'.toUInt8) ∧
      ∀ c ∈ text, c ∉ pathEnds
  | .query text => (∀ c ∈ text.head?, c = '?'.toUInt8) ∧ '#'.toUInt8 ∉ text
  | .fragment text => ∀ c ∈ text.head?, c = '#'.toUInt8

variable (v n : Bool)

/-- Parsing with the two flags accepts the parts and leaves them as they are. -/
structure Left (p : Parts) : Prop where
  validate : v = true → p.Valid
  normalize : n = true → p.Valid ∧ p.normalized = p

end Parts

/-- Where a text is normalized it is stable, and without validation its parts are valid. -/
def Rereads (v n : Bool) (s : List UInt8) : Prop :=
  n = true → ∀ p : Parts, p.WF → p.text = s → (v = true ∨ p.Valid) ∧ (p.Valid → p.Stable)

namespace Parts

variable (v n : Bool)

/-- The call does not meet what its setter leaves undone.
    - `set_scheme` and `set_host` do not look at the authority again, whose host ends at its
      colon for the other schemes than `eth`;
    - `set_authority` does not look at the error of `parse_authority`, and leaves `port_num_`
      as it is without digits;
    - `set_userinfo`, `set_host` and `set_port` do not look for an `@`;
    - `set_path` does not look for an authority;
    - `set_ssp` parses, and what it normalizes has to be stable;
    - the others do not validate or normalize. -/
def Spared (p : Parts) : Setter → Prop
  | .scheme scheme => Left v n { p with scheme } ∧ ∀ a, p.authority = some a →
      a.host.head? = some '['.toUInt8 ∨
        ((scheme = eth → a.portText = []) ∧ (scheme ≠ eth → ':'.toUInt8 ∉ a.host))
  | .ssp text => Rereads v n (p.scheme ++ [':'.toUInt8] ++ text)
  | .authority text => ∃ b : Authority, text = b.text ∧ b.WF (p.scheme = eth) ∧
      Left v n { p with authority := some b } ∧ (b.port.getD [] = [] → p.number = 0)
  | .userinfo userinfo => ∀ a, p.authority = some a →
      Left v n { p with authority := some { a with userinfo } } ∧
        (userinfo = [] → '@'.toUInt8 ∉ a.host ++ a.portText)
  | .host host => ∀ a, p.authority = some a →
      Left v n { p with authority := some { a with host } } ∧
        ('@'.toUInt8 ∈ host → a.userinfo ≠ []) ∧
        (host.head? = some '['.toUInt8 ∨ (p.scheme = eth → a.portText = []))
  | .port port => ∀ a, p.authority = some a →
      Left v n { p with authority := some { a with port := some port } } ∧
        ('@'.toUInt8 ∈ port → a.userinfo ≠ [])
  | .path path => Left v n { p with path } ∧ (p.authority = none → ¬slashes <+: path)
  | .query query => Left v n { p with query }
  | .fragment fragment => Left v n { p with fragment }

end Parts

/-- The calls with a text that fits the component, from a URI. -/
def setters (v n : Bool) (u : URI) : TransitionSystem URI Setter where
  init w := w = u
  step w call w' := (∃ p : Parts, p.WF ∧ w = p.toURI v n ∧ p.Proper call) ∧ call.run w = .ok w'

/-- The condition on a call, in the state before it. -/
def Spares (v n : Bool) (u : URI) (call : Setter) : Prop :=
  ∀ p : Parts, p.WF → u = p.toURI v n → p.Spared v n call

/-- The accessors return what they return of a URI parsed from the string. -/
def Agrees (v n : Bool) (u : URI) : Prop :=
  ∃ w, ofString u.uri_ v n = .ok w ∧ u.accessors = w.accessors

/-- A state that is left by calls that are spared: one with parts that parsing leaves as they
    are, or one that parsing rejects. -/
def Good (v n : Bool) (u : URI) : Prop :=
  (∃ p : Parts, p.WF ∧ p.Left v n ∧ u = p.toURI v n) ∨
    (u.parse_err_ ≠ .ok ∧ ofString u.uri_ v n = .ok u)

section

variable {v n : Bool} {u u' : URI} {p : Parts} {s : List UInt8}

theorem Parts.Left.ofString_eq (hwf : p.WF) (h : p.Left v n) :
    ofString p.text v n = .ok (p.toURI v n) := by
  have haccepted : p.accepted n = p := by
    cases n with
    | false => rfl
    | true => exact (h.normalize rfl).2
  rw [ofString_accepted hwf h.validate fun hn => (h.normalize hn).1.canDecode hwf, haccepted]

theorem Good.agrees (h : Good v n u) : Agrees v n u := by
  rcases h with ⟨p, hwf, hleft, rfl⟩ | ⟨-, hparse⟩
  · exact ⟨_, hleft.ofString_eq hwf, rfl⟩
  · exact ⟨u, hparse, rfl⟩

theorem uri_of_rejected (h : ofString s v n = .ok u) (herr : u.parse_err_ ≠ .ok) : u.uri_ = s := by
  by_cases hparts : ∃ p : Parts, p.WF ∧ p.text = s
  · obtain ⟨p, hwf, rfl⟩ := hparts
    by_cases hvalid : v = true → p.Valid
    · have hdecode : n = true → p.CanDecode := by
        rintro rfl
        cases v with
        | true => exact (hvalid rfl).canDecode hwf
        | false => exact canDecode_of_ofString hwf h
      rw [ofString_accepted hwf hvalid hdecode] at h
      obtain rfl := Except.ok.inj h
      exact absurd rfl herr
    · obtain ⟨rfl, hnot⟩ := Classical.not_imp.1 hvalid
      obtain ⟨err, -, hrun⟩ := ofString_invalid n hwf hnot
      rw [hrun] at h
      obtain rfl := Except.ok.inj h
      rfl
  · obtain ⟨w, hw, -, huri, -⟩ := ofString_rejected v n
      fun p hwf htext => hparts ⟨p, hwf, htext⟩
    rw [hw] at h
    obtain rfl := Except.ok.inj h
    exact huri

theorem good_of_ofString (h : ofString s v n = .ok u) (hreads : Rereads v n s) : Good v n u := by
  by_cases hvalid : u.valid = true
  · obtain ⟨p, hwf, rfl, hv, hn, rfl⟩ := exists_accepted h hvalid
    left
    cases n with
    | false => exact ⟨p, hwf, ⟨hv, by simp⟩, rfl⟩
    | true =>
      obtain ⟨hpv, hstable⟩ := hreads rfl p hwf rfl
      have hpv : p.Valid := hpv.elim hv id
      have hvalid' := Parts.valid_normalized hwf hpv (hstable hpv)
      exact ⟨p.normalized, Parts.wf_normalized hwf hpv (hstable hpv),
        ⟨fun _ => hvalid', fun _ => ⟨hvalid', Parts.normalized_normalized hwf hpv⟩⟩, rfl⟩
  · right
    have herr : u.parse_err_ ≠ .ok := by simpa [valid] using hvalid
    exact ⟨herr, by rwa [uri_of_rejected h herr]⟩

theorem exists_ofString (hreads : Rereads v n s) : ∃ u, ofString s v n = .ok u := by
  by_cases hparts : ∃ p : Parts, p.WF ∧ p.text = s
  · obtain ⟨p, hwf, rfl⟩ := hparts
    by_cases hvalid : v = true → p.Valid
    · refine ⟨_, ofString_accepted hwf hvalid fun hn => ?_⟩
      exact ((hreads hn p hwf rfl).1.elim hvalid id).canDecode hwf
    · obtain ⟨rfl, hnot⟩ := Classical.not_imp.1 hvalid
      obtain ⟨err, -, hrun⟩ := ofString_invalid n hwf hnot
      exact ⟨_, hrun⟩
  · obtain ⟨u, hu, -⟩ := ofString_rejected v n fun p hwf htext => hparts ⟨p, hwf, htext⟩
    exact ⟨u, hu⟩

/-! ### One call -/

theorem Authority.head_portText (a : Authority) : a.portText.head? ≠ some '['.toUInt8 := by
  have hcolon : ':'.toUInt8 ≠ '['.toUInt8 := by decide
  unfold Authority.portText
  split <;> simp [hcolon]

theorem Authority.mem_inner {a : Authority} {c : UInt8} :
    c ∈ a.inner ↔ c ∈ a.userinfo ∨ c ∈ a.host ∨ c ∈ a.portText := by
  simp [Authority.inner]

theorem wf_setHost {a : Authority} {isEth : Prop} {host : List UInt8} (h : a.WF isEth)
    (hhost : Authority.IsLiteral host ∨ (host.head? ≠ some '['.toUInt8 ∧
      (¬isEth → ':'.toUInt8 ∉ host)))
    (hends : ∀ c ∈ host, c ∉ authorityEnds) (hat : '@'.toUInt8 ∈ host → a.userinfo ≠ [])
    (hport : host.head? = some '['.toUInt8 ∨ (isEth → a.portText = [])) :
    Authority.WF { a with host } isEth where
  userinfo := by
    rcases h.userinfo with ⟨hnil, hnot⟩ | hsome
    · left
      refine ⟨hnil, ?_⟩
      intro hmem
      rcases List.mem_append.1 hmem with hc | hc
      · exact hat hc hnil
      · exact hnot (List.mem_append_right _ hc)
    · exact .inr hsome
  host := by
    rcases hhost with hliteral | ⟨hhead, hcolon⟩
    · exact .inl hliteral
    · refine .inr ⟨?_, hport.resolve_left hhead, hcolon⟩
      cases hnil : host with
      | nil => exact a.head_portText
      | cons c host => simpa [hnil] using hhead
  ends := by
    intro c hc
    rcases Authority.mem_inner.1 hc with hc | hc | hc
    · exact h.ends c (Authority.mem_inner.2 (.inl hc))
    · exact hends c hc
    · exact h.ends c (Authority.mem_inner.2 (.inr (.inr hc)))

theorem wf_setPort {a : Authority} {isEth : Prop} {old port : List UInt8} (h : a.WF isEth)
    (hold : a.port = some old) (hends : ∀ c ∈ port, c ∉ authorityEnds)
    (hat : '@'.toUInt8 ∈ port → a.userinfo ≠ []) :
    Authority.WF { a with port := some port } isEth where
  userinfo := by
    rcases h.userinfo with ⟨hnil, hnot⟩ | hsome
    · left
      refine ⟨hnil, ?_⟩
      intro hmem
      rcases List.mem_append.1 hmem with hc | hc
      · exact hnot (List.mem_append_left _ hc)
      · rcases List.mem_cons.1 hc with hc | hc
        · exact absurd hc (by decide)
        · exact hat hc hnil
    · exact .inr hsome
  host := by
    have hold : a.portText = ':'.toUInt8 :: old := by simp [Authority.portText, hold]
    rcases h.host with hliteral | ⟨hhead, heth, hcolon⟩
    · exact .inl hliteral
    · refine .inr ⟨?_, fun he => absurd (heth he) (by simp [hold]), hcolon⟩
      rw [hold] at hhead
      cases hnil : a.host with
      | nil => exact Authority.head_portText { a with port := some port }
      | cons c host => simpa [hnil] using hhead
  ends := by
    intro c hc
    rcases Authority.mem_inner.1 hc with hc | hc | hc
    · exact h.ends c (Authority.mem_inner.2 (.inl hc))
    · exact h.ends c (Authority.mem_inner.2 (.inr (.inl hc)))
    · rcases List.mem_cons.1 hc with hc | hc
      · rw [hc]
        decide
      · exact hends c hc

theorem wf_setUserinfo {a : Authority} {isEth : Prop} {userinfo : List UInt8} (h : a.WF isEth)
    (huserinfo : userinfo = [] ∨ ∃ x, userinfo = x ++ ['@'.toUInt8] ∧ '@'.toUInt8 ∉ x)
    (hends : ∀ c ∈ userinfo, c ∉ authorityEnds)
    (hat : userinfo = [] → '@'.toUInt8 ∉ a.host ++ a.portText) :
    Authority.WF { a with userinfo } isEth where
  userinfo := by
    rcases huserinfo with hnil | hsome
    · exact .inl ⟨hnil, hat hnil⟩
    · exact .inr hsome
  host := h.host
  ends := by
    intro c hc
    rcases Authority.mem_inner.1 hc with hc | hc
    · exact hends c hc
    · exact h.ends c (Authority.mem_inner.2 (.inr hc))

theorem wf_setScheme {a : Authority} {isEth isEth' : Prop} (h : a.WF isEth)
    (hhost : a.host.head? = some '['.toUInt8 ∨
      ((isEth' → a.portText = []) ∧ (¬isEth' → ':'.toUInt8 ∉ a.host))) : a.WF isEth' where
  userinfo := h.userinfo
  host := by
    rcases h.host with hliteral | ⟨hhead, -, -⟩
    · exact .inl hliteral
    · rcases hhost with hopen | ⟨heth, hcolon⟩
      · exact absurd (by simp [List.head?_append, hopen]) hhead
      · exact .inr ⟨hhead, heth, hcolon⟩
  ends := h.ends

theorem wf_withAuthority {b : Authority} (hwf : p.WF) (hne : p.authority ≠ none)
    (hb : b.WF (p.scheme = eth)) : Parts.WF { p with authority := some b } :=
  { hwf with
    authority := by
      rintro a ha
      obtain rfl := Option.some.inj ha
      exact hb
    path_of_some := fun _ => hwf.path_of_some hne
    path_of_none := by simp }

theorem number_eq {b : Authority} {old : UInt32} (h : b.port.getD [] = [] → old = 0) :
    b.number old = b.number 0 := by
  unfold Authority.number
  cases hport : b.port with
  | none => exact h (by simp [hport])
  | some port =>
    by_cases hnil : port = []
    · simpa [hnil] using h (by simp [hport, hnil])
    · simp [hnil]

theorem setSsp_eq (p : Parts) (v n : Bool) (text : List UInt8) :
    (p.toURI v n).setSsp text = ofString (p.scheme ++ [':'.toUInt8] ++ text) v n := by
  have htext : p.text = (p.scheme ++ [':'.toUInt8]) ++ (p.ssp ++ []) := by simp [Parts.text]
  have hoffset : p.start = (p.scheme ++ [':'.toUInt8]).length := by simp [Parts.start]
  have hreplace := Parts.replace_text text htext hoffset
  rw [List.append_nil] at hreplace
  rw [setSsp]
  refine Eq.trans ?_ (unserialize_eq (p.toURI v n) (p.scheme ++ [':'.toUInt8] ++ text))
  simp only [Parts.toURI, hreplace, decide_true, assert_true, ok_bind]
  rfl

/-- A proper call that is spared returns, and leaves such a state. -/
theorem exists_run {call : Setter} (hwf : p.WF) (hproper : p.Proper call)
    (hspared : p.Spared v n call) :
    ∃ u', call.run (p.toURI v n) = .ok u' ∧ Good v n u' := by
  have hgood : ∀ {q : Parts}, q.WF → q.Left v n → Good v n (q.toURI v n) :=
    fun hq hleft => .inl ⟨_, hq, hleft, rfl⟩
  have hsome : p.authority ≠ none → ∃ a, p.authority = some a ∧ a.WF (p.scheme = eth) ∧
      p = { p with authority := some a } := by
    intro hne
    obtain ⟨a, ha⟩ := Option.ne_none_iff_exists'.1 hne
    refine ⟨a, ha, hwf.authority a ha, ?_⟩
    rw [← ha]
  cases call with
  | scheme text =>
    refine ⟨_, Parts.setScheme_eq p v n text, hgood ?_ hspared.1⟩
    exact { hwf with
      scheme_ne := hproper.1
      scheme := hproper.2
      authority := fun a ha => wf_setScheme (hwf.authority a ha) (hspared.2 a ha) }
  | ssp text =>
    obtain ⟨u', hu'⟩ := exists_ofString hspared
    refine ⟨u', ?_, good_of_ofString hu' hspared⟩
    exact (setSsp_eq p v n text).trans hu'
  | authority text =>
    obtain ⟨a, ha, -, hp⟩ := hsome hproper.1
    obtain ⟨b, rfl, hb, hleft, hnumber⟩ := hspared
    have hkept : b.number (a.number 0) = b.number 0 :=
      number_eq fun hnil => by simpa [Parts.number, ha] using hnumber hnil
    have hset := Parts.setAuthority_eq p v n a hb
    rw [← hp, hkept] at hset
    exact ⟨_, hset, hgood (wf_withAuthority hwf hproper.1 hb) hleft⟩
  | userinfo text =>
    obtain ⟨a, ha, hwfa, hp⟩ := hsome hproper.1
    obtain ⟨hleft, hat⟩ := hspared a ha
    have hset := Parts.setUserinfo_eq p v n a text
    rw [← hp] at hset
    refine ⟨_, hset, hgood (wf_withAuthority hwf hproper.1 ?_) hleft⟩
    exact wf_setUserinfo hwfa hproper.2.1 hproper.2.2 hat
  | host text =>
    obtain ⟨a, ha, hwfa, hp⟩ := hsome hproper.1
    obtain ⟨hleft, hat, hport⟩ := hspared a ha
    have hset := Parts.setHost_eq p v n a text
    rw [← hp] at hset
    refine ⟨_, hset, hgood (wf_withAuthority hwf hproper.1 ?_) hleft⟩
    exact wf_setHost hwfa hproper.2.1 hproper.2.2 hat hport
  | port text =>
    obtain ⟨hport, hends⟩ := hproper
    have hne : p.authority ≠ none := by
      intro hnone
      simp [hnone] at hport
    obtain ⟨a, ha, hwfa, hp⟩ := hsome hne
    obtain ⟨old, hold⟩ : ∃ old, a.port = some old := by
      simpa [ha, Option.isSome_iff_exists] using hport
    obtain ⟨hleft, hat⟩ := hspared a ha
    have hset := Parts.setPort_eq p v n a old text
    have ha' : { a with port := some old } = a := by rw [← hold]
    rw [ha', ← hp] at hset
    exact ⟨_, hset, hgood (wf_withAuthority hwf hne (wf_setPort hwfa hold hends hat)) hleft⟩
  | path text =>
    refine ⟨_, Parts.setPath_eq p v n text, hgood ?_ hspared.1⟩
    exact { hwf with
      path_of_some := hproper.1
      path_of_none := hspared.2
      path := hproper.2 }
  | query text =>
    refine ⟨_, Parts.setQuery_eq p v n text, hgood ?_ hspared⟩
    exact { hwf with
      query_head := hproper.1
      query := hproper.2 }
  | fragment text =>
    refine ⟨_, Parts.setFragment_eq p v n text, hgood ?_ hspared⟩
    exact { hwf with fragment_head := hproper }

end

/-- In every run of proper calls that are spared, from a text that is parsed and stable where it
    is normalized, the accessors return what they return of a URI parsed from the string, and
    every further such call returns. -/
theorem setters_agree {v n : Bool} {s : List UInt8} {u : URI} (h : ofString s v n = .ok u)
    (hreads : Rereads v n s) {w : URI} (hw : (setters v n u).ReachableWith (Spares v n) w) :
    Agrees v n w ∧ ∀ call, (∃ p : Parts, p.WF ∧ w = p.toURI v n ∧ p.Proper call) →
      Spares v n w call → ∃ w', call.run w = .ok w' := by
  refine ⟨Good.agrees ?_, ?_⟩
  · refine hw.invariant ?_ ?_
    · rintro _ rfl
      exact good_of_ofString h hreads
    · rintro _ call w' - hspares ⟨⟨p, hwf, rfl, hproper⟩, hrun⟩
      obtain ⟨w'', hrun', hgood⟩ := exists_run hwf hproper (hspares p hwf rfl)
      rw [hrun'] at hrun
      obtain rfl := Except.ok.inj hrun
      exact hgood
  · rintro call ⟨p, hwf, rfl, hproper⟩ hspares
    obtain ⟨w', hrun, -⟩ := exists_run hwf hproper (hspares p hwf rfl)
    exact ⟨w', hrun⟩

/-- The text `a:b` gets the query `?c`. -/
theorem setters_agree_query :
    ∃ u w, ofString [97, 58, 98] false false = .ok u ∧
      (Setter.query [63, 99]).run u = .ok w ∧ Agrees false false w := by
  have hwf : Parts.WF ⟨[97], none, [98], [], []⟩ :=
    ⟨by decide, by decide, by simp, by simp, by decide, by decide +kernel, by simp, by simp,
      by simp⟩
  have hreads : Rereads false false [97, 58, 98] := by
    intro hn
    cases hn
  have hset : (Setter.query [63, 99]).run (Parts.toURI ⟨[97], none, [98], [], []⟩ false false) =
      .ok (Parts.toURI ⟨[97], none, [98], [63, 99], []⟩ false false) :=
    Parts.setQuery_eq ⟨[97], none, [98], [], []⟩ false false [63, 99]
  have hu : ofString [97, 58, 98] false false =
      .ok (Parts.toURI ⟨[97], none, [98], [], []⟩ false false) := by decide
  refine ⟨_, _, hu, hset, (setters_agree hu hreads (.step (.init rfl) ?_ ⟨⟨_, hwf, rfl, ?_⟩,
    hset⟩)).1⟩
  · rintro p - -
    exact ⟨by simp, by simp⟩
  · exact ⟨by decide +kernel, by decide⟩

/-- The number of the port of `a://h:80/` stays when the authority `//h` is set. -/
theorem not_setters_agree : ¬∀ v n s u w, ofString s v n = .ok u → u.valid = true →
    (setters v n u).Reachable w → Agrees v n w := by
  intro h
  have hu : ofString [97, 58, 47, 47, 104, 58, 56, 48, 47] true true =
      .ok (Parts.toURI ⟨[97], some ⟨[], [104], some [56, 48]⟩, [47], [], []⟩ true true) := by decide
  have hauthority : Authority.WF ⟨[], [104], some [56, 48]⟩ ([97] = eth) :=
    ⟨.inl ⟨rfl, by decide⟩, .inr ⟨by decide, fun heth => absurd heth (by decide),
      fun _ => by decide⟩, by decide +kernel⟩
  have hwf : Parts.WF ⟨[97], some ⟨[], [104], some [56, 48]⟩, [47], [], []⟩ :=
    ⟨by decide, by decide, fun _ ha => Option.some.inj ha ▸ hauthority, by decide +kernel, by simp,
      by decide +kernel, by simp, by simp, by simp⟩
  have hproper : Parts.Proper ⟨[97], some ⟨[], [104], some [56, 48]⟩, [47], [], []⟩
      (.authority [47, 47, 104]) := ⟨by simp, [104], rfl, by decide +kernel⟩
  have hset : (Parts.toURI ⟨[97], some ⟨[], [104], some [56, 48]⟩, [47], [], []⟩ true
      true).setAuthority [47, 47, 104] = .ok { Parts.toURI ⟨[97], some ⟨[], [104], none⟩, [47], [],
        []⟩ true true with port_num_ := 80 } := by decide
  have hnumber : (ofString [97, 58, 47, 47, 104, 47] true true).map port_num_ = .ok 0 := by decide
  obtain ⟨w, hw, hacc⟩ := h true true _ _ _ hu rfl
    (.step (.init rfl) trivial ⟨⟨_, hwf, rfl, hproper⟩, hset⟩)
  have huri : ofString [97, 58, 47, 47, 104, 47] true true = .ok w := hw
  rw [huri] at hnumber
  have hsame : (80 : UInt32) = w.port_num_ := congrArg Accessors.port_num hacc
  have hzero : w.port_num_ = 0 := Except.ok.inj hnumber
  rw [hzero] at hsame
  exact absurd hsame (by decide)

end Oasys.URI
