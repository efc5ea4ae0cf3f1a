import Oasys.Util.URIValidate

/-!
# IP literals

The grammar of the IP literals of a URI in RFC 3986, section 3.2.2, and the scan of
`validate_ip_literal`, which reads one piece after another and counts them. A literal without
a double colon has eight pieces, of which an IPv4 address is two; with one it has at most
seven beside it.
-/

namespace Oasys.URI

open StdString

/-! ### The grammar -/

/-- `h16`: one to four hexadecimal digits. -/
structure H16 (g : List UInt8) : Prop where
  ne_nil : g ≠ []
  length_le : g.length ≤ 4
  digits : ∀ c ∈ g, isHexdig c = true

/-- `dec-octet`: the numbers up to 255 without leading zeros. -/
inductive DecOctet : List UInt8 → Prop
  | one {a : UInt8} (ha : isdigit a = true) : DecOctet [a]
  | two {a b : UInt8} (ha : 49 ≤ a.toNat ∧ a.toNat ≤ 57) (hb : isdigit b = true) : DecOctet [a, b]
  | hundred {b c : UInt8} (hb : isdigit b = true) (hc : isdigit c = true) : DecOctet [49, b, c]
  | twoHundred {b c : UInt8} (hb : 48 ≤ b.toNat ∧ b.toNat ≤ 52) (hc : isdigit c = true) :
      DecOctet [50, b, c]
  | twoHundredFifty {c : UInt8} (hc : 48 ≤ c.toNat ∧ c.toNat ≤ 53) : DecOctet [50, 53, c]

/-- Octets with dots between them. -/
inductive Octets : Nat → List UInt8 → Prop
  | last {digit : List UInt8} (h : DecOctet digit) : Octets 1 digit
  | cons {n : Nat} {digit rest : List UInt8} (h : DecOctet digit) (hrest : Octets n rest) :
      Octets (n + 1) (digit ++ '.'.toUInt8 :: rest)

/-- `IPv4address`. -/
abbrev IPv4 (text : List UInt8) : Prop := Octets 4 text

/-- `n( h16 ":" )`. -/
inductive Groups : Nat → List UInt8 → Prop
  | zero : Groups 0 []
  | succ {n : Nat} {g rest : List UInt8} (hg : H16 g) (hrest : Groups n rest) :
      Groups (n + 1) (g ++ ':'.toUInt8 :: rest)

/-- `ls32`: two pieces, or an IPv4 address. -/
inductive Ls32 : List UInt8 → Prop
  | pieces {g h : List UInt8} (hg : H16 g) (hh : H16 h) : Ls32 (g ++ ':'.toUInt8 :: h)
  | ipv4 {text : List UInt8} (h : IPv4 text) : Ls32 text

/-- `[ *m( h16 ":" ) h16 ]`. -/
inductive Before (m : Nat) : List UInt8 → Prop
  | none : Before m []
  | some {n : Nat} {groups g : List UInt8} (hn : n ≤ m) (hgroups : Groups n groups)
      (hg : H16 g) : Before m (groups ++ g)

/-- `IPv6address`. The alternatives from the third to the seventh are `before`, which has the
    fewer pieces in front of the double colon the more there are behind it. -/
inductive IPv6 : List UInt8 → Prop
  | full {groups last : List UInt8} (hgroups : Groups 6 groups) (hlast : Ls32 last) :
      IPv6 (groups ++ last)
  | double {groups last : List UInt8} (hgroups : Groups 5 groups) (hlast : Ls32 last) :
      IPv6 (':'.toUInt8 :: ':'.toUInt8 :: (groups ++ last))
  | before {m n : Nat} {front groups last : List UInt8} (hsum : m + n = 4)
      (hfront : Before m front) (hgroups : Groups n groups) (hlast : Ls32 last) :
      IPv6 (front ++ ':'.toUInt8 :: ':'.toUInt8 :: (groups ++ last))
  | piece {front g : List UInt8} (hfront : Before 5 front) (hg : H16 g) :
      IPv6 (front ++ ':'.toUInt8 :: ':'.toUInt8 :: g)
  | nothing {front : List UInt8} (hfront : Before 6 front) :
      IPv6 (front ++ [':'.toUInt8, ':'.toUInt8])

/-- `IPvFuture`; a literal of the grammar is of either case. -/
def IPvFuture (text : List UInt8) : Prop :=
  ∃ v version rest, text = v :: (version ++ '.'.toUInt8 :: rest) ∧
    (v = 'v'.toUInt8 ∨ v = 'V'.toUInt8) ∧ version ≠ [] ∧ (∀ c ∈ version, isHexdig c = true) ∧
    rest ≠ [] ∧ ∀ c ∈ rest, userinfoChar c = true

/-! ### Octets -/

theorem isdigit_iff {c : UInt8} : isdigit c = true ↔ 48 ≤ c.toNat ∧ c.toNat ≤ 57 := by
  simp [isdigit, UInt8.le_iff_toNat_le]

theorem decOctet_iff {digit : List UInt8} (hdigit : ∀ c ∈ digit, isdigit c = true)
    (hlength : digit.length ≤ 3) :
    DecOctet digit ↔
      digit ≠ [] ∧ ¬(digit.length > 1 ∧ digit.head? = some 48) ∧ Decimal.value digit ≤ 255 := by
  have hvalue : Decimal.value digit = digit.foldl (fun n c => 10 * n + (c.toNat - 48)) 0 := by
    have hall : digit.takeWhile Decimal.isDigit = digit := List.takeWhile_eq_self_iff.2 hdigit
    rw [Decimal.value, hall]
  rw [hvalue]
  rcases digit with _ | ⟨a, _ | ⟨b, _ | ⟨c, _ | ⟨d, rest⟩⟩⟩⟩
  · simp only [ne_eq, not_true_eq_false, false_and, iff_false]
    intro h
    cases h
  · -- one digit
    have ha := hdigit a (by simp)
    have hnat := isdigit_iff.1 ha
    simp only [List.foldl_cons, List.foldl_nil]
    exact iff_of_true (.one ha) ⟨by simp, by simp, by omega⟩
  · -- two, without a zero in front
    have hb := hdigit b (by simp)
    have ha := isdigit_iff.1 (hdigit a (by simp))
    have hnat := isdigit_iff.1 hb
    simp only [List.foldl_cons, List.foldl_nil]
    constructor
    · intro h
      cases h with
      | two ha _ =>
        refine ⟨by simp, ?_, by omega⟩
        simp only [List.head?_cons, Option.some.injEq, not_and]
        rintro - rfl
        exact absurd ha.1 (by decide)
    · rintro ⟨-, hzero, -⟩
      have hne : a.toNat ≠ 48 := fun h => hzero ⟨by simp, by simp [← UInt8.toNat_inj, h]⟩
      exact .two (by omega) hb
  · -- three, up to 255
    have hb := hdigit b (by simp)
    have hc := hdigit c (by simp)
    have ha := isdigit_iff.1 (hdigit a (by simp))
    have hbnat := isdigit_iff.1 hb
    have hcnat := isdigit_iff.1 hc
    simp only [List.foldl_cons, List.foldl_nil]
    constructor
    · intro h
      cases h with
      | hundred => exact ⟨by simp, by simp, by simp; omega⟩
      | twoHundred hb _ => exact ⟨by simp, by simp, by simp; omega⟩
      | twoHundredFifty hc => exact ⟨by simp, by simp, by simp; omega⟩
    · rintro ⟨-, hzero, hle⟩
      have hne : a.toNat ≠ 48 := fun h => hzero ⟨by simp, by simp [← UInt8.toNat_inj, h]⟩
      have hlead : a.toNat = 49 ∨ a.toNat = 50 := by omega
      rcases hlead with h | h
      · obtain rfl : a = 49 := UInt8.toNat_inj.1 h
        exact .hundred hb hc
      · obtain rfl : a = 50 := UInt8.toNat_inj.1 h
        by_cases hfifty : b.toNat = 53
        · obtain rfl : b = 53 := UInt8.toNat_inj.1 hfifty
          exact .twoHundredFifty (by omega)
        · exact .twoHundred (by omega) hc
  · simp only [List.length_cons] at hlength
    omega

theorem DecOctet.isdigit {digit : List UInt8} (h : DecOctet digit) :
    (∀ c ∈ digit, isdigit c = true) ∧ digit.length ≤ 3 := by
  cases h with
  | one ha => simp [ha]
  | two ha hb => simp [isdigit_iff.2 ⟨by omega, ha.2⟩, hb]
  | hundred hb hc => simp [hb, hc]; rfl
  | twoHundred hb hc => simp [isdigit_iff.2 ⟨hb.1, by omega⟩, hc]; rfl
  | twoHundredFifty hc => simp [isdigit_iff.2 ⟨hc.1, by omega⟩]; decide

theorem takeWhile_take {p : UInt8 → Bool} {k : Nat} {digits rest : List UInt8}
    (hdigits : ∀ c ∈ digits, p c = true) (hlength : digits.length ≤ k)
    (hrest : ∀ c ∈ rest.head?, p c = false) :
    ((digits ++ rest).take k).takeWhile p = digits := by
  rw [List.take_append, List.take_of_length_le hlength, List.takeWhile_append_of_pos hdigits]
  cases rest with
  | nil => simp
  | cons c rest =>
    have hc := hrest c (by simp)
    cases k - digits.length with
    | zero => simp
    | succ k => simp [hc]

theorem readOctets_succ {n : Nat} {digit rest : List UInt8}
    (hdigit : ((digit ++ rest).take 3).takeWhile StdString.isdigit = digit) :
    readOctets (n + 1) (digit ++ rest) = .ok ↔
      DecOctet digit ∧ ((n = 0 ∧ rest = []) ∨
        (n ≠ 0 ∧ ∃ rest', rest = '.'.toUInt8 :: rest' ∧ readOctets n rest' = .ok)) := by
  have hall : ∀ c ∈ digit, StdString.isdigit c = true := by
    rw [← hdigit]
    exact fun c hc => List.mem_takeWhile_imp hc
  have hlength : digit.length ≤ 3 := by
    rw [← hdigit]
    exact (List.takeWhile_prefix _).length_le.trans (List.length_take_le _ _)
  have hzero' : ('0'.toUInt8 : UInt8) = 48 := rfl
  simp only [readOctets, hdigit, List.drop_left, decOctet_iff hall hlength, hzero']
  by_cases hnil : digit = []
  · simp [hnil]
  by_cases hzero : digit.length > 1 ∧ digit.head? = some 48
  · simp [hnil, hzero]
  by_cases hvalue : Decimal.value digit > 255
  · simp only [if_neg hnil, if_neg hzero, if_pos hvalue]
    simp
    omega
  · simp only [if_neg hnil, if_neg hzero, if_neg hvalue]
    have hok : digit ≠ [] ∧ ¬(digit.length > 1 ∧ digit.head? = some 48) ∧
        Decimal.value digit ≤ 255 := ⟨hnil, hzero, by omega⟩
    simp only [eq_true hok, true_and]
    by_cases hn : n = 0
    · cases rest <;> simp [hn]
    · cases rest with
      | nil => simp [hn]
      | cons c rest => by_cases hc : c = '.'.toUInt8 <;> simp [hn, hc]

theorem exists_scan (p : UInt8 → Bool) (k : Nat) (host : List UInt8) :
    ∃ digits rest, host = digits ++ rest ∧ ((digits ++ rest).take k).takeWhile p = digits := by
  have hprefix : (host.take k).takeWhile p <+: host :=
    (List.takeWhile_prefix p).trans (List.take_prefix k host)
  obtain ⟨rest, hrest⟩ := hprefix
  exact ⟨_, rest, hrest.symm, by rw [hrest]⟩

theorem takeWhile_octet {digit rest : List UInt8} (h : DecOctet digit)
    (hrest : rest = [] ∨ ∃ rest', rest = '.'.toUInt8 :: rest') :
    ((digit ++ rest).take 3).takeWhile StdString.isdigit = digit := by
  apply takeWhile_take h.isdigit.1 h.isdigit.2
  rcases hrest with rfl | ⟨rest', rfl⟩
  · simp
  · simp
    decide

theorem readOctets_iff {n : Nat} {host : List UInt8} :
    readOctets (n + 1) host = .ok ↔ Octets (n + 1) host := by
  induction n generalizing host with
  | zero =>
    constructor
    · intro h
      obtain ⟨digit, rest, rfl, hdigit⟩ := exists_scan StdString.isdigit 3 host
      obtain ⟨hoctet, ⟨-, rfl⟩ | ⟨hn, -⟩⟩ := (readOctets_succ hdigit).1 h
      · rw [List.append_nil]
        exact .last hoctet
      · exact absurd rfl hn
    · intro h
      cases h with
      | last h =>
        have hstep := (readOctets_succ (takeWhile_octet h (.inl rfl))).2 ⟨h, .inl ⟨rfl, rfl⟩⟩
        rwa [List.append_nil] at hstep
      | cons _ hrest => nomatch hrest
  | succ n ih =>
    constructor
    · intro h
      obtain ⟨digit, rest, rfl, hdigit⟩ := exists_scan StdString.isdigit 3 host
      obtain ⟨hoctet, ⟨hn, -⟩ | ⟨-, rest', rfl, hrest⟩⟩ := (readOctets_succ hdigit).1 h
      · cases hn
      · exact .cons hoctet (ih.1 hrest)
    · intro h
      cases h with
      | cons h hrest =>
        exact (readOctets_succ (takeWhile_octet h (.inr ⟨_, rfl⟩))).2
          ⟨h, .inr ⟨by simp, _, rfl, ih.2 hrest⟩⟩

/-! ### Pieces -/

/-- What can be left when pieces are read and no double colon is still to come: so many pieces
    with colons between them, or the last two as an IPv4 address. -/
inductive Tail : Nat → List UInt8 → Prop
  | piece {g : List UInt8} (hg : H16 g) : Tail 1 g
  | ipv4 {text : List UInt8} (h : IPv4 text) : Tail 2 text
  | cons {n : Nat} {g rest : List UInt8} (hg : H16 g) (hrest : Tail n rest) :
      Tail (n + 1) (g ++ ':'.toUInt8 :: rest)

def Behind (n : Nat) (rest : List UInt8) : Prop := (n = 0 ∧ rest = []) ∨ Tail n rest

section

variable {digits rest : List UInt8} {dc prev : Bool}

theorem readPieces_nil (num_pieces : Int) (hdigits : (digits.take 4).takeWhile isHexdig = digits) :
    readPieces digits num_pieces dc prev =
      if digits = [] then (if prev then some ⟨none, num_pieces, dc⟩ else none)
      else some ⟨none, num_pieces + 1, dc⟩ := by
  rw [readPieces]
  simp only [hdigits]
  split
  · by_cases hnil : digits = [] <;> cases prev <;> simp [hnil]
  · rename_i heq
    rw [hdigits, List.drop_length] at heq
    cases heq

theorem readPieces_cons {c : UInt8} (num_pieces : Int)
    (hdigits : ((digits ++ c :: rest).take 4).takeWhile isHexdig = digits) :
    readPieces (digits ++ c :: rest) num_pieces dc prev =
      if c = ':' then
        if digits = [] then
          if num_pieces = 0 then
            if rest.head? = some ':'.toUInt8 ∧ dc = false then
              readPieces rest.tail (num_pieces + 1) true true
            else none
          else if dc then none else readPieces rest (num_pieces + 1) true true
        else readPieces rest (num_pieces + 1) dc false
      else if c = '.' then
        if digits = [] then none else some ⟨some (digits ++ c :: rest), num_pieces, dc⟩
      else none := by
  rw [readPieces]
  simp only [hdigits]
  split
  · rename_i heq
    rw [hdigits, List.drop_left] at heq
    cases heq
  · rename_i heq
    rw [hdigits, List.drop_left] at heq
    obtain ⟨rfl, rfl⟩ := List.cons.inj heq
    have hone : num_pieces + 1 = 1 ↔ num_pieces = 0 := by omega
    simp only [hone, add_sub_cancel_right]
    cases rest with
    | nil => simp
    | cons d rest => by_cases hd : d = ':'.toUInt8 <;> cases dc <;> simp [hd]

end

/-! ### What the scan finds -/

section

variable {digits rest : List UInt8} {l n r : Nat}

/-- The host is split into the digits of a piece and what is behind them. -/
def Scan (digits rest : List UInt8) : Prop :=
  ((digits ++ rest).take 4).takeWhile isHexdig = digits

theorem Scan.unique {digits' rest' : List UInt8} (h : Scan digits rest)
    (h' : Scan digits' rest') (heq : digits ++ rest = digits' ++ rest') :
    digits = digits' ∧ rest = rest' := by
  have hdigits : digits = digits' := by
    rw [← h, ← h', heq]
  subst hdigits
  exact ⟨rfl, List.append_cancel_left heq⟩

theorem H16.scan {g : List UInt8} (h : H16 g) (hrest : ∀ c ∈ rest.head?, isHexdig c = false) :
    Scan g rest :=
  takeWhile_take h.digits h.length_le hrest

theorem Scan.h16 (h : Scan digits rest) (hne : digits ≠ []) : H16 digits where
  ne_nil := hne
  length_le := by
    rw [← h]
    exact (List.takeWhile_prefix _).length_le.trans (List.length_take_le _ _)
  digits := by
    rw [← h]
    exact fun c hc => List.mem_takeWhile_imp hc

theorem DecOctet.h16 {digit : List UInt8} (h : DecOctet digit) : H16 digit where
  ne_nil := by cases h <;> simp
  length_le := h.isdigit.2.trans (by decide)
  digits := fun c hc => by simp [isHexdig, h.isdigit.1 c hc]

theorem tail_iff (h : Scan digits rest) :
    Tail n (digits ++ rest) ↔ digits ≠ [] ∧
      ((rest = [] ∧ n = 1) ∨
        (∃ rest' m, rest = ':'.toUInt8 :: rest' ∧ n = m + 1 ∧ Tail m rest') ∨
        (∃ rest', rest = '.'.toUInt8 :: rest' ∧ n = 2 ∧ IPv4 (digits ++ rest))) := by
  constructor
  · generalize hhost : digits ++ rest = host
    intro htail
    cases htail with
    | piece hg =>
      have hscan : Scan host [] := hg.scan (by simp)
      obtain ⟨rfl, rfl⟩ := h.unique hscan (by simpa using hhost)
      exact ⟨hg.ne_nil, .inl ⟨rfl, rfl⟩⟩
    | ipv4 hipv4 =>
      have hocts := hipv4
      cases hipv4 with
      | cons hdigit hrest =>
        obtain ⟨rfl, rfl⟩ := h.unique (hdigit.h16.scan (by simp; decide)) hhost
        exact ⟨hdigit.h16.ne_nil, .inr (.inr ⟨_, rfl, rfl, hocts⟩)⟩
    | cons hg hrest =>
      obtain ⟨rfl, rfl⟩ := h.unique (hg.scan (by simp; decide)) hhost
      exact ⟨hg.ne_nil, .inr (.inl ⟨_, _, rfl, rfl, hrest⟩)⟩
  · rintro ⟨hne, ⟨rfl, rfl⟩ | ⟨rest', m, rfl, rfl, htail⟩ | ⟨rest', rfl, rfl, hipv4⟩⟩
    · rw [List.append_nil]
      exact .piece (h.h16 hne)
    · exact .cons (h.h16 hne) htail
    · exact .ipv4 hipv4

/-- So many pieces with a colon behind each, a further colon, and what is behind it. -/
def Compressed (l r : Nat) (host : List UInt8) : Prop :=
  ∃ groups post, Groups l groups ∧ host = groups ++ ':'.toUInt8 :: post ∧ Behind r post

theorem compressed_iff (h : Scan digits rest) :
    Compressed l r (digits ++ rest) ↔
      (digits = [] ∧ l = 0 ∧ ∃ post, rest = ':'.toUInt8 :: post ∧ Behind r post) ∨
      (digits ≠ [] ∧ ∃ rest' m, rest = ':'.toUInt8 :: rest' ∧ l = m + 1 ∧
        Compressed m r rest') := by
  constructor
  · rintro ⟨groups, post, hgroups, hhost, hpost⟩
    cases hgroups with
    | zero =>
      have hscan : Scan [] (':'.toUInt8 :: post) := by
        simp [Scan]
        decide
      obtain ⟨rfl, rfl⟩ := h.unique hscan hhost
      exact .inl ⟨rfl, rfl, _, rfl, hpost⟩
    | succ hg hrest =>
      rw [List.append_assoc, List.cons_append] at hhost
      obtain ⟨rfl, rfl⟩ := h.unique (hg.scan (by simp; decide)) hhost
      exact .inr ⟨hg.ne_nil, _, _, rfl, rfl, _, _, hrest, rfl, hpost⟩
  · rintro (⟨rfl, rfl, post, rfl, hpost⟩ | ⟨hne, rest', m, rfl, rfl, groups, post, hgroups, rfl,
      hpost⟩)
    · exact ⟨[], post, .zero, rfl, hpost⟩
    · exact ⟨digits ++ ':'.toUInt8 :: groups, post, .succ (h.h16 hne) hgroups, by simp, hpost⟩

end

/-! ### The loop over the pieces -/

section

variable {n : Nat} {host : List UInt8}

theorem checkPieces_double (hn : 0 < n) :
    checkPieces (some ⟨none, n, true⟩) = .ok ↔ n ≤ 8 := by
  simp only [checkPieces]
  by_cases h : n ≤ 8
  · rw [if_neg (by simp; omega)]
    simp [h]
  · rw [if_pos (by simp; omega)]
    simp [h]

theorem checkPieces_full : checkPieces (some ⟨none, n, false⟩) = .ok ↔ n = 8 := by
  simp only [checkPieces]
  by_cases h : n = 8
  · rw [if_neg (by simp [h])]
    simp [h]
  · rw [if_pos (by simp; omega)]
    simp [h]

theorem checkPieces_ipv4 {decimal : List UInt8} {dc : Bool} (hn : 0 < n) :
    checkPieces (some ⟨some decimal, n, dc⟩) = .ok ↔
      (if dc then n ≤ 6 else n = 6) ∧ IPv4 decimal := by
  have hocts : readOctets 4 decimal = .ok ↔ IPv4 decimal := readOctets_iff
  rw [← hocts]
  simp only [checkPieces]
  by_cases h : if dc then n ≤ 6 else n = 6
  · have hfits : ¬((n : Int) ≤ 0 ∨ (dc = true ∧ (n : Int) > 6) ∨ (¬dc = true ∧ (n : Int) ≠ 6)) := by
      cases dc <;> simp at h ⊢ <;> omega
    have hfits' : ¬((n : Int) + 2 ≤ 0 ∨ (dc = true ∧ (n : Int) + 2 > 8) ∨
        (¬dc = true ∧ (n : Int) + 2 ≠ 8)) := by
      cases dc <;> simp at h ⊢ <;> omega
    rw [if_neg hfits]
    cases readOctets 4 decimal with
    | ok => simp only [if_neg hfits', h, and_self]
    | _ => simp
  · have hfits : (n : Int) ≤ 0 ∨ (dc = true ∧ (n : Int) > 6) ∨ (¬dc = true ∧ (n : Int) ≠ 6) := by
      cases dc <;> simp at h ⊢ <;> omega
    rw [if_pos hfits]
    simp [h]

theorem readPieces_double {prev : Bool} (hn : 0 < n) :
    checkPieces (readPieces host n true prev) = .ok ↔
      (prev = true ∧ host = [] ∧ n ≤ 8) ∨ ∃ r, Tail r host ∧ n + r ≤ 8 := by
  induction hlength : host.length using Nat.strong_induction_on generalizing host n prev with
  | _ k ih =>
    obtain ⟨digits, rest, rfl, hscan⟩ := exists_scan isHexdig 4 host
    simp only [tail_iff hscan]
    cases rest with
    | nil =>
      rw [List.append_nil] at hscan
      rw [List.append_nil, readPieces_nil n hscan]
      by_cases hnil : digits = []
      · cases prev
        · simp [hnil, checkPieces]
        · simp [hnil, checkPieces_double hn]
      · have hcast : (n : Int) + 1 = (n + 1 : Nat) := by simp
        rw [if_neg hnil, hcast, checkPieces_double (by omega)]
        simp [hnil]
    | cons c rest =>
      rw [readPieces_cons n hscan]
      by_cases hnil : digits = []
      · -- a second double colon, or no piece
        by_cases hc : c = ':'.toUInt8 <;> by_cases hdot : c = '.'.toUInt8 <;>
          simp [hnil, hc, hdot, checkPieces]
      · by_cases hc : c = ':'.toUInt8
        · have hcast : (n : Int) + 1 = (n + 1 : Nat) := by simp
          have hshort : rest.length < k := by simp [← hlength]; omega
          rw [if_pos hc, if_neg hnil, hcast, ih rest.length hshort (by omega) rfl, hc]
          constructor
          · rintro (⟨hprev, -⟩ | ⟨r, htail, hle⟩)
            · cases hprev
            · exact .inr ⟨r + 1, ⟨hnil, .inr (.inl ⟨rest, r, rfl, rfl, htail⟩)⟩, by omega⟩
          · rintro (⟨-, hhost, -⟩ | ⟨r, ⟨-, ⟨hrest, -⟩ | ⟨rest', m, hrest, rfl, htail⟩ |
              ⟨rest', hrest, -⟩⟩, hle⟩)
            · simp at hhost
            · cases hrest
            · obtain ⟨-, rfl⟩ := List.cons.inj hrest
              exact .inr ⟨m, htail, by omega⟩
            · exact absurd (List.cons.inj hrest).1 (by decide)
        · by_cases hdot : c = '.'.toUInt8
          · rw [if_neg hc, if_pos hdot, if_neg hnil, checkPieces_ipv4 hn, hdot]
            constructor
            · rintro ⟨hle, hipv4⟩
              have hle : n ≤ 6 := by simpa using hle
              exact .inr ⟨2, ⟨hnil, .inr (.inr ⟨rest, rfl, rfl, hipv4⟩)⟩, by omega⟩
            · rintro (⟨-, hhost, -⟩ | ⟨r, ⟨-, ⟨hrest, -⟩ | ⟨rest', m, hrest, -⟩ |
                ⟨rest', -, rfl, hipv4⟩⟩, hle⟩)
              · simp at hhost
              · cases hrest
              · exact absurd (List.cons.inj hrest).1 (by decide)
              · exact ⟨by simp; omega, hipv4⟩
          · simp [hnil, hc, hdot, checkPieces]

/-- Without a double colon so far, there are eight pieces in all, or a double colon is still to
    come. -/
theorem readPieces_full (hn : 0 < n) :
    checkPieces (readPieces host n false false) = .ok ↔
      (∃ r, Tail r host ∧ n + r = 8) ∨ ∃ l r, Compressed l r host ∧ n + l + r ≤ 7 := by
  induction hlength : host.length using Nat.strong_induction_on generalizing host n with
  | _ k ih =>
    obtain ⟨digits, rest, rfl, hscan⟩ := exists_scan isHexdig 4 host
    simp only [tail_iff hscan, compressed_iff hscan]
    cases rest with
    | nil =>
      rw [List.append_nil] at hscan
      rw [List.append_nil, readPieces_nil n hscan]
      by_cases hnil : digits = []
      · simp [hnil, checkPieces]
      · have hcast : (n : Int) + 1 = (n + 1 : Nat) := by simp
        rw [if_neg hnil, hcast, checkPieces_full]
        simp [hnil]
    | cons c rest =>
      rw [readPieces_cons n hscan]
      by_cases hnil : digits = []
      · by_cases hc : c = ':'.toUInt8
        · have hne : (n : Int) ≠ 0 := by omega
          have hcast : (n : Int) + 1 = (n + 1 : Nat) := by simp
          rw [if_pos hc, if_pos hnil, if_neg hne, if_neg (by simp), hcast,
            readPieces_double (by omega), hc]
          constructor
          · rintro (⟨-, rfl, hle⟩ | ⟨r, htail, hle⟩)
            · exact .inr ⟨0, 0, .inl ⟨hnil, rfl, [], rfl, .inl ⟨rfl, rfl⟩⟩, by omega⟩
            · exact .inr ⟨0, r, .inl ⟨hnil, rfl, rest, rfl, .inr htail⟩, by omega⟩
          · rintro (⟨r, ⟨hne, -⟩, -⟩ | ⟨l, r, ⟨-, rfl, post, hpost, hbehind⟩ | ⟨hne, -⟩, hle⟩)
            · exact absurd hnil hne
            · obtain ⟨-, rfl⟩ := List.cons.inj hpost
              rcases hbehind with ⟨rfl, rfl⟩ | htail
              · exact .inl ⟨rfl, rfl, by omega⟩
              · exact .inr ⟨r, htail, by omega⟩
            · exact absurd hnil hne
        · have hne : ∀ post, c :: rest ≠ ':'.toUInt8 :: post := fun post h => hc (List.cons.inj h).1
          simp [if_neg hc, hnil, hne, checkPieces]
      · by_cases hc : c = ':'.toUInt8
        · have hcast : (n : Int) + 1 = (n + 1 : Nat) := by simp
          have hshort : rest.length < k := by simp [← hlength]; omega
          rw [if_pos hc, if_neg hnil, hcast, ih rest.length hshort (by omega) rfl, hc]
          constructor
          · rintro (⟨r, htail, hsum⟩ | ⟨l, r, hcomp, hle⟩)
            · exact .inl ⟨r + 1, ⟨hnil, .inr (.inl ⟨rest, r, rfl, rfl, htail⟩)⟩, by omega⟩
            · exact .inr ⟨l + 1, r, .inr ⟨hnil, rest, l, rfl, rfl, hcomp⟩, by omega⟩
          · rintro (⟨r, ⟨-, ⟨hrest, -⟩ | ⟨rest', m, hrest, rfl, htail⟩ | ⟨rest', hrest, -⟩⟩, hsum⟩ |
              ⟨l, r, ⟨hne, -⟩ | ⟨-, rest', m, hrest, rfl, hcomp⟩, hle⟩)
            · cases hrest
            · obtain ⟨-, rfl⟩ := List.cons.inj hrest
              exact .inl ⟨m, htail, by omega⟩
            · exact absurd (List.cons.inj hrest).1 (by decide)
            · exact absurd hne hnil
            · obtain ⟨-, rfl⟩ := List.cons.inj hrest
              exact .inr ⟨m, r, hcomp, by omega⟩
        · have hne : ∀ post, c :: rest ≠ ':'.toUInt8 :: post := fun post h => hc (List.cons.inj h).1
          by_cases hdot : c = '.'.toUInt8
          · rw [if_neg hc, if_pos hdot, if_neg hnil, checkPieces_ipv4 hn, hdot]
            constructor
            · rintro ⟨hsix, hipv4⟩
              have hsix : n = 6 := by simpa using hsix
              exact .inl ⟨2, ⟨hnil, .inr (.inr ⟨rest, rfl, rfl, hipv4⟩)⟩, by omega⟩
            · rintro (⟨r, ⟨-, ⟨hrest, -⟩ | ⟨rest', m, hrest, -⟩ | ⟨rest', -, rfl, hipv4⟩⟩, hsum⟩ |
                ⟨l, r, ⟨hne, -⟩ | ⟨-, rest', m, hrest, -⟩, hle⟩)
              · cases hrest
              · exact absurd (List.cons.inj hrest).1 (by decide)
              · exact ⟨by simp; omega, hipv4⟩
              · exact absurd hne hnil
              · exact absurd (List.cons.inj hrest).1 (by decide)
          · have hne' : ∀ post, c :: rest ≠ '.'.toUInt8 :: post :=
              fun post h => hdot (List.cons.inj h).1
            simp [hnil, hc, hdot, hne, hne', checkPieces]

theorem readPieces_start :
    checkPieces (readPieces host 0 false false) = .ok ↔
      Tail 8 host ∨ (∃ r post, host = ':'.toUInt8 :: ':'.toUInt8 :: post ∧ Behind r post ∧ r ≤ 7) ∨
      ∃ l r, Compressed (l + 1) r host ∧ l + 1 + r ≤ 7 := by
  obtain ⟨digits, rest, rfl, hscan⟩ := exists_scan isHexdig 4 host
  have hdouble : digits ≠ [] → ∀ post, digits ++ rest ≠ ':'.toUInt8 :: post := by
    intro hne post heq
    -- the first digit of a piece is no colon
    obtain ⟨d, digits', rfl⟩ := List.exists_cons_of_ne_nil hne
    have hd := (Scan.h16 hscan hne).digits d (by simp)
    rw [(List.cons.inj heq).1] at hd
    exact absurd hd (by decide)
  rw [tail_iff hscan]
  simp only [compressed_iff hscan]
  cases rest with
  | nil =>
    rw [List.append_nil] at hscan hdouble
    have hcast : (0 : Int) = (0 : Nat) := rfl
    rw [List.append_nil, hcast, readPieces_nil _ hscan]
    by_cases hnil : digits = []
    · simp [hnil, checkPieces]
    · simp [hnil, checkPieces, hdouble hnil]
  | cons c rest =>
    rw [readPieces_cons 0 hscan]
    by_cases hnil : digits = []
    · subst hnil
      by_cases hc : c = ':'.toUInt8
      · rw [if_pos hc, if_pos rfl, if_pos rfl, hc]
        cases rest with
        | nil => simp [checkPieces]
        | cons d rest =>
          by_cases hd : d = ':'.toUInt8
          · have hread : checkPieces (readPieces rest (1 : Nat) true true) = .ok ↔ _ :=
              readPieces_double (by decide)
            have hone : (0 : Int) + 1 = (1 : Nat) := rfl
            rw [if_pos (by simp [hd]), List.tail_cons, hone, hread, hd]
            constructor
            · rintro (⟨-, rfl, -⟩ | ⟨r, htail, hle⟩)
              · exact .inr (.inl ⟨0, [], rfl, .inl ⟨rfl, rfl⟩, by omega⟩)
              · exact .inr (.inl ⟨r, rest, rfl, .inr htail, by omega⟩)
            · rintro (⟨hne, -⟩ | ⟨r, post, hpost, hbehind, hle⟩ | ⟨l, r, ⟨-, hl, -⟩ | ⟨hne, -⟩, -⟩)
              · exact absurd rfl hne
              · obtain rfl : rest = post := by simpa using hpost
                rcases hbehind with ⟨rfl, rfl⟩ | htail
                · exact .inl ⟨rfl, rfl, by omega⟩
                · exact .inr ⟨r, htail, by omega⟩
              · cases hl
              · exact absurd rfl hne
          · simp [hd, checkPieces]
      · have hne : ∀ post, c :: rest ≠ ':'.toUInt8 :: post := fun post h => hc (List.cons.inj h).1
        simp [if_neg hc, hne, checkPieces]
    · have hdouble := hdouble hnil
      by_cases hc : c = ':'.toUInt8
      · have hread : checkPieces (readPieces rest (1 : Nat) false false) = .ok ↔ _ :=
          readPieces_full (by decide)
        have hone : (0 : Int) + 1 = (1 : Nat) := rfl
        subst hc
        rw [if_pos rfl, if_neg hnil, hone, hread]
        constructor
        · rintro (⟨r, htail, hsum⟩ | ⟨l, r, hcomp, hle⟩)
          · exact .inl ⟨hnil, .inr (.inl ⟨rest, 7, rfl, rfl, (by omega : r = 7) ▸ htail⟩)⟩
          · exact .inr (.inr ⟨l, r, .inr ⟨hnil, rest, l, rfl, rfl, hcomp⟩, by omega⟩)
        · rintro (⟨-, ⟨hrest, -⟩ | ⟨rest', m, hrest, hm, htail⟩ | ⟨rest', -, htwo, -⟩⟩ |
            ⟨r, post, hpost, -⟩ | ⟨l, r, ⟨hne, -⟩ | ⟨-, rest', m, hrest, hm, hcomp⟩, hle⟩)
          · cases hrest
          · obtain ⟨-, rfl⟩ := List.cons.inj hrest
            exact .inl ⟨m, htail, by omega⟩
          · cases htwo
          · exact absurd hpost (hdouble _)
          · exact absurd hne hnil
          · obtain ⟨-, rfl⟩ := List.cons.inj hrest
            exact .inr ⟨m, r, hcomp, by omega⟩
      · have hne : ∀ post, c :: rest ≠ ':'.toUInt8 :: post := fun post h => hc (List.cons.inj h).1
        by_cases hdot : c = '.'.toUInt8
        · rw [if_neg hc, if_pos hdot, if_neg hnil]
          simp [checkPieces, hdouble, hne, hnil]
        · simp [hnil, hc, hdot, hne, hdouble, checkPieces]

end

/-! ### The grammar of the pieces -/

section

variable {n l r : Nat} {host : List UInt8}

theorem ls32_iff : Ls32 host ↔ Tail 2 host := by
  constructor
  · intro h
    cases h with
    | pieces hg hh => exact .cons hg (.piece hh)
    | ipv4 h => exact .ipv4 h
  · intro h
    cases h with
    | ipv4 h => exact .ipv4 h
    | cons hg hrest =>
      cases hrest with
      | piece hh => exact .pieces hg hh
      | cons _ hrest => nomatch hrest

theorem tail_add_iff : Tail (n + 2) host ↔
    ∃ groups last, Groups n groups ∧ Ls32 last ∧ host = groups ++ last := by
  induction n generalizing host with
  | zero =>
    rw [← ls32_iff]
    constructor
    · exact fun h => ⟨[], host, .zero, h, rfl⟩
    · rintro ⟨groups, last, hgroups, hlast, rfl⟩
      cases hgroups with
      | zero => exact hlast
  | succ n ih =>
    constructor
    · intro h
      cases h with
      | cons hg hrest =>
        obtain ⟨groups, last, hgroups, hlast, rfl⟩ := ih.1 hrest
        exact ⟨_, last, .succ hg hgroups, hlast, by simp⟩
    · rintro ⟨groups, last, hgroups, hlast, rfl⟩
      cases hgroups with
      | succ hg hrest =>
        rw [List.append_assoc, List.cons_append]
        exact .cons hg (ih.2 ⟨_, last, hrest, hlast, rfl⟩)

theorem tail_one_iff : Tail 1 host ↔ H16 host := by
  constructor
  · intro h
    cases h with
    | piece hg => exact hg
    | cons _ hrest => nomatch hrest
  · exact .piece

theorem groups_succ_iff {groups : List UInt8} : Groups (l + 1) groups ↔
    ∃ front g, Groups l front ∧ H16 g ∧ groups = front ++ (g ++ [':'.toUInt8]) := by
  induction l generalizing groups with
  | zero =>
    constructor
    · intro h
      cases h with
      | succ hg hrest =>
        cases hrest with
        | zero => exact ⟨[], _, .zero, hg, rfl⟩
    · rintro ⟨front, g, hfront, hg, rfl⟩
      cases hfront with
      | zero => exact .succ hg .zero
  | succ l ih =>
    constructor
    · intro h
      cases h with
      | succ hg hrest =>
        obtain ⟨front, g, hfront, hg', rfl⟩ := ih.1 hrest
        exact ⟨_, g, .succ hg hfront, hg', by simp⟩
    · rintro ⟨front, g, hfront, hg, rfl⟩
      cases hfront with
      | succ hg' hrest =>
        rw [List.append_assoc, List.cons_append]
        exact .succ hg' (ih.2 ⟨_, g, hrest, hg, rfl⟩)

theorem compressed_succ_iff : Compressed (l + 1) r host ↔
    ∃ groups g post, Groups l groups ∧ H16 g ∧ Behind r post ∧
      host = (groups ++ g) ++ ':'.toUInt8 :: ':'.toUInt8 :: post := by
  constructor
  · rintro ⟨all, post, hall, rfl, hpost⟩
    obtain ⟨groups, g, hgroups, hg, rfl⟩ := groups_succ_iff.1 hall
    exact ⟨groups, g, post, hgroups, hg, hpost, by simp⟩
  · rintro ⟨groups, g, post, hgroups, hg, hpost, rfl⟩
    exact ⟨_, post, groups_succ_iff.2 ⟨groups, g, hgroups, hg, rfl⟩, by simp, hpost⟩

theorem before_double {m : Nat} {front post : List UInt8} (hfront : Before m front)
    (hpost : Behind r post) (hsum : m + r ≤ 6) :
    (∃ r post', front ++ ':'.toUInt8 :: ':'.toUInt8 :: post =
        ':'.toUInt8 :: ':'.toUInt8 :: post' ∧ Behind r post' ∧ r ≤ 7) ∨
      ∃ l r, Compressed (l + 1) r (front ++ ':'.toUInt8 :: ':'.toUInt8 :: post) ∧
        l + 1 + r ≤ 7 := by
  cases hfront with
  | none => exact .inl ⟨r, post, rfl, hpost, by omega⟩
  | some hn hgroups hg =>
    exact .inr ⟨_, r, compressed_succ_iff.2 ⟨_, _, post, hgroups, hg, hpost, rfl⟩, by omega⟩

theorem ipv6_iff : IPv6 host ↔
    Tail 8 host ∨ (∃ r post, host = ':'.toUInt8 :: ':'.toUInt8 :: post ∧ Behind r post ∧ r ≤ 7) ∨
      ∃ l r, Compressed (l + 1) r host ∧ l + 1 + r ≤ 7 := by
  constructor
  · intro h
    cases h with
    | full hgroups hlast => exact .inl (tail_add_iff.2 ⟨_, _, hgroups, hlast, rfl⟩)
    | double hgroups hlast =>
      exact .inr (.inl ⟨7, _, rfl, .inr (tail_add_iff.2 ⟨_, _, hgroups, hlast, rfl⟩), by omega⟩)
    | before hsum hfront hgroups hlast =>
      exact .inr (before_double hfront (.inr (tail_add_iff.2 ⟨_, _, hgroups, hlast, rfl⟩))
        (by omega))
    | piece hfront hg => exact .inr (before_double hfront (.inr (.piece hg)) (by omega))
    | nothing hfront => exact .inr (before_double hfront (.inl ⟨rfl, rfl⟩) (by omega))
  · have hbehind : ∀ {m r front post}, Behind r post → Before m front → m + r = 6 →
        IPv6 (front ++ ':'.toUInt8 :: ':'.toUInt8 :: post) := by
      intro m r front post hpost hfront hsum
      match r, hpost with
      | 0, .inl ⟨_, hnil⟩ =>
        obtain rfl : m = 6 := by omega
        exact hnil ▸ .nothing hfront
      | 1, .inr hpost =>
        obtain rfl : m = 5 := by omega
        exact .piece hfront (tail_one_iff.1 hpost)
      | n + 2, .inr hpost =>
        obtain ⟨groups, last, hgroups, hlast, rfl⟩ := tail_add_iff.1 hpost
        exact .before (by omega) hfront hgroups hlast
    rintro (htail | ⟨r, post, rfl, hpost, hle⟩ | ⟨l, r, hcomp, hle⟩)
    · obtain ⟨groups, last, hgroups, hlast, rfl⟩ := tail_add_iff.1 htail
      exact .full hgroups hlast
    · by_cases hr : r = 7
      · subst hr
        rcases hpost with ⟨hr, -⟩ | hpost
        · cases hr
        · obtain ⟨groups, last, hgroups, hlast, rfl⟩ := tail_add_iff.1 hpost
          exact .double hgroups hlast
      · exact @hbehind (6 - r) r [] post hpost .none (by omega)
    · obtain ⟨groups, g, post, hgroups, hg, hpost, rfl⟩ := compressed_succ_iff.1 hcomp
      exact @hbehind (6 - r) r _ post hpost (.some (by omega) hgroups hg) (by omega)

end

/-! ### Literals -/

section

variable {host : List UInt8}

theorem validateIpFuture_eq_ok : validateIpFuture host = .ok ↔
    ∃ version rest, host = version ++ '.'.toUInt8 :: rest ∧ version ≠ [] ∧
      (∀ c ∈ version, isHexdig c = true) ∧ rest ≠ [] ∧ ∀ c ∈ rest, userinfoChar c = true := by
  constructor
  · intro h
    unfold validateIpFuture at h
    split at h
    · cases h
    · rename_i c host
      split at h
      · cases h
      · rename_i hc
        have hsplit := List.takeWhile_append_dropWhile (p := isHexdig) (l := host)
        split at h
        · cases h
        · rename_i d rest hdrop
          rw [hdrop] at hsplit
          split at h
          · cases h
          · rename_i hd
            split at h
            · cases h
            · rename_i hrest
              split at h
              · rename_i hall
                obtain rfl := not_not.1 hd
                refine ⟨c :: host.takeWhile isHexdig, rest, by rw [List.cons_append, hsplit],
                  by simp, ?_, hrest, by simpa using hall⟩
                rw [List.forall_mem_cons]
                exact ⟨by simpa using hc, fun c hc => List.mem_takeWhile_imp hc⟩
              · cases h
  · rintro ⟨version, rest, rfl, hne, hversion, hrest, hall⟩
    obtain ⟨c, version, rfl⟩ := List.exists_cons_of_ne_nil hne
    obtain ⟨hc, hversion⟩ := List.forall_mem_cons.1 hversion
    have hdot : isHexdig '.'.toUInt8 = false := by decide
    have hdrop : (version ++ '.'.toUInt8 :: rest).dropWhile isHexdig = '.'.toUInt8 :: rest := by
      rw [List.dropWhile_append_of_pos hversion]
      simp [hdot]
    have hchars : rest.all userinfoChar = true := by simpa using hall
    simp [validateIpFuture, hc, hdrop, hrest, hchars]

theorem checkPieces_iff : checkPieces (readPieces host 0 false false) = .ok ↔ IPv6 host :=
  readPieces_start.trans ipv6_iff.symm

theorem not_ipv6_cons {c : UInt8} {rest : List UInt8} (hdigit : isHexdig c = false)
    (hcolon : c ≠ ':'.toUInt8) : ¬IPv6 (c :: rest) := by
  have hscan : Scan [] (c :: rest) := by simp [Scan, hdigit]
  have hread := @readPieces_cons [] rest false false c 0 hscan
  rw [List.nil_append] at hread
  rw [← checkPieces_iff, hread, if_neg hcolon]
  simp [checkPieces]

theorem not_ipv6_nil : ¬IPv6 [] := by
  have hcast : (0 : Int) = (0 : Nat) := rfl
  rw [← checkPieces_iff, hcast, readPieces_nil _ rfl]
  simp [checkPieces]

def IsVersion (c : UInt8) : Prop := c = 'v'.toUInt8 ∨ c = 'V'.toUInt8

theorem validateIpLiteral_version {c : UInt8} (hc : IsVersion c) :
    validateIpLiteral (c :: host) = .ok ↔ IPvFuture (c :: host) := by
  have hor : c = 'v'.toUInt8 ∨ c = 'V'.toUInt8 := hc
  simp only [validateIpLiteral, Bool.or_eq_true, decide_eq_true_eq, if_pos hor,
    validateIpFuture_eq_ok]
  constructor
  · rintro ⟨version, rest, rfl, hrest⟩
    exact ⟨c, version, rest, rfl, hc, hrest⟩
  · rintro ⟨v, version, rest, heq, -, hrest⟩
    obtain ⟨rfl, rfl⟩ := List.cons.inj heq
    exact ⟨version, rest, rfl, hrest⟩

theorem validateIpLiteral_address (hhead : ∀ c ∈ host.head?, ¬IsVersion c) :
    validateIpLiteral host = .ok ↔ IPv6 host := by
  cases host with
  | nil => simp [validateIpLiteral, not_ipv6_nil]
  | cons c host =>
    have hc : ¬(c = 'v'.toUInt8 ∨ c = 'V'.toUInt8) := hhead c rfl
    simp only [validateIpLiteral, Bool.or_eq_true, decide_eq_true_eq, if_neg hc, checkPieces_iff]

theorem version_cases (text : List UInt8) :
    (∃ c rest, text = c :: rest ∧ IsVersion c) ∨ ∀ c ∈ text.head?, ¬IsVersion c := by
  cases text with
  | nil => simp
  | cons c rest =>
    by_cases hc : IsVersion c
    · exact .inl ⟨c, rest, rfl, hc⟩
    · exact .inr (by simpa using hc)

/-- `validate_ip_literal` accepts exactly the `IPv6address` and the `IPvFuture` of the
    grammar. -/
theorem validateIpLiteral_eq_ok_iff (s : List UInt8) :
    validateIpLiteral s = .ok ↔ IPv6 s ∨ IPvFuture s := by
  rcases version_cases s with ⟨c, rest, rfl, hc⟩ | hhead
  · have hnot : ¬IPv6 (c :: rest) := by
      rcases hc with rfl | rfl
      · exact not_ipv6_cons (by decide) (by decide)
      · exact not_ipv6_cons (by decide) (by decide)
    simp [validateIpLiteral_version hc, hnot]
  · have hnot : ¬IPvFuture s := by
      rintro ⟨v, version, rest, rfl, hv, -⟩
      exact hhead v rfl hv
    simp [validateIpLiteral_address hhead, hnot]

end

/-! ### Lower case -/

/-- A text of characters that `tolower` leaves in their class. -/
def Chars (text : List UInt8) : Prop := ∀ c ∈ text, userinfoChar c = true

theorem isHexdig_tolower {c : UInt8} (h : isHexdig c = true) : isHexdig (tolower c) = true := by
  obtain ⟨n, rfl⟩ := exists_byte c
  revert n
  decide +kernel

theorem userinfoChar_of_isHexdig {c : UInt8} (h : isHexdig c = true) : userinfoChar c = true := by
  obtain ⟨n, rfl⟩ := exists_byte c
  revert n
  decide +kernel

theorem userinfoChar_tolower {c : UInt8} (h : userinfoChar c = true) :
    userinfoChar (tolower c) = true := by
  obtain ⟨n, rfl⟩ := exists_byte c
  revert n
  decide +kernel

theorem tolower_of_isdigit {c : UInt8} (h : isdigit c = true) : tolower c = c := by
  obtain ⟨n, rfl⟩ := exists_byte c
  revert n
  decide +kernel

section

variable {n m : Nat} {text : List UInt8}

theorem H16.lower (h : H16 text) : H16 (text.map tolower) where
  ne_nil := by simpa using h.ne_nil
  length_le := by simpa using h.length_le
  digits := by simpa using fun c hc => isHexdig_tolower (h.digits c hc)

theorem H16.chars (h : H16 text) : Chars text :=
  fun c hc => userinfoChar_of_isHexdig (h.digits c hc)

theorem DecOctet.lower_eq (h : DecOctet text) : text.map tolower = text :=
  (List.map_congr_left fun c hc => tolower_of_isdigit (h.isdigit.1 c hc)).trans (List.map_id text)

theorem Octets.lower_eq (h : Octets n text) : text.map tolower = text := by
  induction h with
  | last h => exact h.lower_eq
  | cons h _ ih =>
    rw [List.map_append, h.lower_eq, List.map_cons, ih]
    rfl

theorem Octets.chars (h : Octets n text) : Chars text := by
  induction h with
  | last h => exact h.h16.chars
  | cons h _ ih => simpa [Chars, or_imp, forall_and] using ⟨h.h16.chars, by decide, ih⟩

theorem Groups.lower (h : Groups n text) : Groups n (text.map tolower) := by
  induction h with
  | zero => exact .zero
  | succ hg _ ih =>
    rw [List.map_append, List.map_cons]
    exact .succ hg.lower ih

theorem Groups.chars (h : Groups n text) : Chars text := by
  induction h with
  | zero => simp [Chars]
  | succ hg _ ih => simpa [Chars, or_imp, forall_and] using ⟨hg.chars, by decide, ih⟩

theorem Ls32.lower (h : Ls32 text) : Ls32 (text.map tolower) := by
  cases h with
  | pieces hg hh =>
    rw [List.map_append, List.map_cons]
    exact .pieces hg.lower hh.lower
  | ipv4 h => exact .ipv4 (h.lower_eq.symm ▸ h)

theorem Ls32.chars (h : Ls32 text) : Chars text := by
  cases h with
  | pieces hg hh => simpa [Chars, or_imp, forall_and] using ⟨hg.chars, by decide, hh.chars⟩
  | ipv4 h => exact h.chars

theorem Before.lower (h : Before m text) : Before m (text.map tolower) := by
  cases h with
  | none => exact .none
  | some hn hgroups hg =>
    rw [List.map_append]
    exact .some hn hgroups.lower hg.lower

theorem Before.chars (h : Before m text) : Chars text := by
  cases h with
  | none => simp [Chars]
  | some hn hgroups hg => simpa [Chars, or_imp, forall_and] using ⟨hgroups.chars, hg.chars⟩

theorem IPv6.lower (h : IPv6 text) : IPv6 (text.map tolower) := by
  cases h with
  | full hgroups hlast =>
    rw [List.map_append]
    exact .full hgroups.lower hlast.lower
  | double hgroups hlast =>
    rw [List.map_cons, List.map_cons, List.map_append]
    exact .double hgroups.lower hlast.lower
  | before hsum hfront hgroups hlast =>
    rw [List.map_append, List.map_cons, List.map_cons, List.map_append]
    exact .before hsum hfront.lower hgroups.lower hlast.lower
  | piece hfront hg =>
    rw [List.map_append, List.map_cons, List.map_cons]
    exact .piece hfront.lower hg.lower
  | nothing hfront =>
    rw [List.map_append]
    exact .nothing hfront.lower

theorem IPv6.chars (h : IPv6 text) : Chars text := by
  cases h with
  | full hgroups hlast => simpa [Chars, or_imp, forall_and] using ⟨hgroups.chars, hlast.chars⟩
  | double hgroups hlast =>
    simpa [Chars, or_imp, forall_and] using ⟨by decide, hgroups.chars, hlast.chars⟩
  | before hsum hfront hgroups hlast =>
    simpa [Chars, or_imp, forall_and] using ⟨hfront.chars, by decide, hgroups.chars, hlast.chars⟩
  | piece hfront hg => simpa [Chars, or_imp, forall_and] using ⟨hfront.chars, by decide, hg.chars⟩
  | nothing hfront => simpa [Chars, or_imp, forall_and] using ⟨hfront.chars, by decide⟩

theorem IPvFuture.lower (h : IPvFuture text) : IPvFuture (text.map tolower) := by
  obtain ⟨v, version, rest, rfl, hv, hne, hversion, hrest, hall⟩ := h
  refine ⟨tolower v, version.map tolower, rest.map tolower, by simp; rfl, ?_, by simpa using hne,
    by simpa using fun c hc => isHexdig_tolower (hversion c hc), by simpa using hrest,
    by simpa using fun c hc => userinfoChar_tolower (hall c hc)⟩
  left
  rcases hv with rfl | rfl <;> decide

theorem IPvFuture.chars (h : IPvFuture text) : Chars text := by
  obtain ⟨v, version, rest, rfl, hv, hne, hversion, hrest, hall⟩ := h
  have hv : userinfoChar v = true := by rcases hv with rfl | rfl <;> decide
  simpa [Chars, or_imp, forall_and] using
    ⟨hv, fun c hc => userinfoChar_of_isHexdig (hversion c hc), by decide, hall⟩

theorem isVersion_tolower {c : UInt8} : IsVersion (tolower c) ↔ IsVersion c := by
  unfold IsVersion
  obtain ⟨n, rfl⟩ := exists_byte c
  revert n
  decide +kernel

theorem validateIpLiteral_lower (h : validateIpLiteral text = .ok) :
    validateIpLiteral (text.map tolower) = .ok := by
  rcases version_cases text with ⟨c, rest, rfl, hc⟩ | hhead
  · have hlower := ((validateIpLiteral_version hc).1 h).lower
    exact (validateIpLiteral_version (isVersion_tolower.2 hc)).2 hlower
  · have hlower := ((validateIpLiteral_address hhead).1 h).lower
    refine (validateIpLiteral_address ?_).2 hlower
    intro c hc
    rw [List.head?_map] at hc
    obtain ⟨d, hd, rfl⟩ := Option.map_eq_some_iff.1 hc
    exact fun hv => hhead d hd (isVersion_tolower.1 hv)

theorem chars_of_validateIpLiteral (h : validateIpLiteral text = .ok) : Chars text := by
  rcases version_cases text with ⟨c, rest, rfl, hc⟩ | hhead
  · exact ((validateIpLiteral_version hc).1 h).chars
  · exact ((validateIpLiteral_address hhead).1 h).chars

end

end Oasys.URI
