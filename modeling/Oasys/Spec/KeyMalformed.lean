import Oasys.Spec.KeyRoundTrip

/-!
# KeyUnmarshal on any key

What `KeyUnmarshal` does with a key that nobody has written. `allAt` says what a key is to
look like: the fields one behind the other, each with a border behind it, and the integers
made of digits. `walkAll` is where the cursor goes: it counts in 32 bits, takes whatever
`strtoul` makes of a text for the length, and notices only an end behind the end of the key.
`action_tracks` ties the walk to the code, and `walkAll_reads` to what a key is to look like.
-/

namespace Oasys

/-- The number of characters in a key. -/
def FixedField.keyWidth : FixedField → Nat
  | .u64 _ => 16
  | .u32 _ => 8
  | .u16 _ => 4
  | .u8 _ => 2
  | .bool _ => 1
  | .buf bp => bp.bytes.length

def FixedField.isNumber : FixedField → Bool
  | .bool _ | .buf _ => false
  | _ => true

namespace KeyUnmarshal

/-! ### Well-formed keys -/

section Grammar

variable (key : List UInt8) (border : Nat)

/-- `n` characters from `p` on lie in the key; where they end. -/
def liesAt (n p : Nat) : Option Nat := if p + n ≤ key.length then some (p + n) else none

/-- They are digits; where they end, and their value. -/
def digitsAt (n p : Nat) : Option (Nat × Nat) :=
  if p + n ≤ key.length ∧ ((key.drop p).take n).all Hex.isDigit then
    some (p + n, Hex.value ((key.drop p).take n))
  else none

/-- A value that takes a fixed number of characters, and the border. -/
def fixedAt (x : FixedField) (p : Nat) : Option Nat :=
  (if x.isNumber then (digitsAt key x.keyWidth p).map Prod.fst else liesAt key x.keyWidth p).map
    (· + border)

/-- As many bytes as eight digits say, and the border. -/
def countedAt (p : Nat) : Option Nat :=
  (digitsAt key 8 p).bind fun r => (liesAt key r.2 r.1).map (· + border)

def eachAt (elem : Nat → Option Nat) : Nat → Nat → Option Nat
  | 0, p => some p
  | n + 1, p => (elem p).bind (eachAt elem n)

mutual

/-- The field is at `p`; where the next one is. -/
def fieldAt : Field → Nat → Option Nat
  | .fixed x, p => fixedAt key border x p
  | .carrier _, p => countedAt key border p
  | .terminated _ _, p => countedAt key border p
  | .string _, p => countedAt key border p
  | .object fields, p => (allAt fields p).map (· + border)
  | .vector builder _, p =>
    (digitsAt key 8 p).bind fun r =>
      (eachAt (fieldAt builder) r.2 (r.1 + border)).map (· + border)

def allAt : SerializableObject → Nat → Option Nat
  | [], p => some p
  | f :: o, p => (fieldAt f p).bind (allAt o)

end

end Grammar

/-! ### Where the cursor goes -/

/-- A walk over a key. -/
structure Walk where
  /-- The number of characters that were stepped over. -/
  pos : Nat
  /-- An end was behind the end of the key. -/
  noticed : Bool
  /-- What was read is not what a key is to look like. -/
  bad : Bool
  deriving DecidableEq, Repr

namespace Walk

variable (key : List UInt8) (border : Nat)

def cur (w : Walk) : Nat := w.pos % 2 ^ 32

/-- The next `n` characters, `none` where they are read outside of the key. -/
def look (n : Nat) (w : Walk) : Option (Walk × Option (List UInt8)) :=
  if key.length < (w.pos + n) % 2 ^ 32 then some ({ w with noticed := true }, none)
  else if w.cur + n ≤ key.length then
    some ({ w with pos := w.pos + n, bad := w.bad || decide (key.length < w.pos + n) },
      some ((key.drop w.cur).take n))
  else none

def skip (w : Walk) : Walk := { w with pos := w.pos + border }

def check : Walk × Option (List UInt8) → Walk
  | (w, none) => w
  | (w, some text) => { w with bad := w.bad || !text.all Hex.isDigit }

def number (n : Nat) (w : Walk) : Option Walk := (w.look key n).map check

/-- A number of eight characters, with what `strtoul` makes of it. -/
def count (w : Walk) : Option (Walk × Nat) :=
  (w.look key 8).map fun r =>
    (check r, r.2.elim 0 fun text => (strtoull (text ++ [0])).toUInt32.toNat)

/-- `n` bytes, and the border if they are there. -/
def bytes (n : Nat) (w : Walk) : Option Walk :=
  (w.look key n).map fun r => if r.2.isSome then r.1.skip border else r.1

/-- The bytes of a string: nothing looks for their end. -/
def unchecked (n : Nat) (w : Walk) : Option Walk :=
  if n ≤ key.length - w.cur then
    some (skip border { w with
      pos := w.pos + n, bad := w.bad || decide (key.length < w.pos + n) })
  else none

/-- A value that takes a fixed number of characters. -/
def fixed (x : FixedField) (w : Walk) : Option Walk :=
  if x.isNumber then (w.number key x.keyWidth).map (skip border)
  else if w.noticed then some w
  else w.bytes key border x.keyWidth

def each (elem : Walk → Option Walk) : Nat → Walk → Option Walk
  | 0, w => some w
  | n + 1, w => (elem w).bind (each elem n)

end Walk

section

variable (key : List UInt8) (border : Nat)

mutual

/-- A field. Once something was noticed, only numbers are read. -/
def walk : Field → Walk → Option Walk
  | .fixed x, w => w.fixed key border x
  | .carrier _, w =>
    if w.noticed then some w else (w.count key).bind fun r => r.1.bytes key border r.2
  | .terminated _ _, w =>
    if w.noticed then some w else (w.count key).bind fun r => r.1.bytes key border r.2
  | .string _, w =>
    if w.noticed then some w
    else (w.count key).bind fun r =>
      if r.1.noticed then some r.1 else r.1.unchecked key border r.2
  | .object fields, w =>
    if w.noticed then some w else (walkAll fields w).map (Walk.skip border)
  | .vector builder _, w =>
    if w.noticed then some w
    else (w.count key).bind fun r =>
      (Walk.each (walk builder) r.2 (r.1.skip border)).map (Walk.skip border)

def walkAll : SerializableObject → Walk → Option Walk
  | [], w => some w
  | f :: o, w => (walk f w).bind (walkAll o)

end

end

/-! ### A walk against the grammar -/

/-- A part of a walk where the grammar has `r`: if nothing is noticed, the walk is good exactly
    if there is something, and has then got to `x`. -/
structure Reads {β : Type} (w w' : Walk) (r : Option β) (x : β) : Prop where
  noticed : w.noticed = true → w'.noticed = true
  bad : w'.noticed = false → w.bad = true → w'.bad = true
  good : w'.noticed = false → w.bad = false → r = if w'.bad then none else some x

section Reads

variable {β γ : Type} {key : List UInt8} {border : Nat} {w w' w₁ w₂ : Walk} {r : Option β} {x y : β}

theorem Reads.refl (w : Walk) : Reads w w (some w.pos) w.pos :=
  ⟨id, fun _ => id, fun _ hgood => by rw [hgood]; rfl⟩

theorem Reads.bind {f : β → Option γ} {z : γ} (h : Reads w w₁ r x) (h' : Reads w₁ w₂ (f x) z) :
    Reads w w₂ (r.bind f) z := by
  have hquiet : w₂.noticed = false → w₁.noticed = false := by
    intro hn
    cases hn₁ : w₁.noticed with
    | false => rfl
    | true => rw [h'.noticed hn₁] at hn; cases hn
  refine ⟨fun hn => h'.noticed (h.noticed hn), fun hn hbad => ?_, fun hn hgood => ?_⟩
  · exact h'.bad hn (h.bad (hquiet hn) hbad)
  · have hr := h.good (hquiet hn) hgood
    cases hbad : w₁.bad with
    | true =>
      rw [hbad, if_pos rfl] at hr
      rw [hr, h'.bad hn hbad]
      rfl
    | false =>
      rw [hbad, if_neg Bool.false_ne_true] at hr
      rw [hr]
      exact h'.good hn hbad

theorem Reads.map (h : Reads w w' r x) (f : β → γ) : Reads w w' (r.map f) (f x) := by
  refine ⟨h.noticed, h.bad, fun hn hgood => ?_⟩
  rw [h.good hn hgood]
  cases w'.bad <;> rfl

theorem Reads.congr (h : Reads w w' r x) (hxy : w'.noticed = false → w'.bad = false → x = y) :
    Reads w w' r y := by
  refine ⟨h.noticed, h.bad, fun hn hgood => ?_⟩
  rw [h.good hn hgood]
  cases hbad : w'.bad with
  | true => rfl
  | false => rw [hxy hn hbad]

theorem Reads.skip {r : Option Nat} (h : Reads w w' r w'.pos) (border : Nat) :
    Reads w (w'.skip border) (r.map (· + border)) (w'.skip border).pos :=
  let hmap := h.map (· + border)
  ⟨hmap.noticed, hmap.bad, hmap.good⟩

theorem look_cases {n : Nat} {t : Option (List UInt8)} (h : w.look key n = some (w', t)) :
    (t = none ∧ w' = { w with noticed := true }) ∨
      (w.cur + n ≤ key.length ∧ t = some ((key.drop w.cur).take n) ∧
        w' = { w with pos := w.pos + n, bad := w.bad || decide (key.length < w.pos + n) }) := by
  unfold Walk.look at h
  split at h
  · cases h
    exact .inl ⟨rfl, rfl⟩
  · split at h
    · rename_i hle
      cases h
      exact .inr ⟨hle, rfl, rfl⟩
    · cases h

theorem look_reads {n : Nat} {t : Option (List UInt8)} (h : w.look key n = some (w', t)) :
    Reads w w' (liesAt key n w.pos) w'.pos := by
  rcases look_cases h with ⟨-, rfl⟩ | ⟨-, -, rfl⟩
  · exact ⟨fun _ => rfl, (fun hn => nomatch hn), fun hn => nomatch hn⟩
  · refine ⟨id, fun _ hbad => by simp [hbad], fun _ hgood => ?_⟩
    unfold liesAt
    by_cases hle : w.pos + n ≤ key.length
    · simp [hgood, hle, Nat.not_lt.2 hle]
    · simp [hgood, hle, Nat.lt_of_not_le hle]

theorem digits_reads (hkey : key.length < 2 ^ 32) {n : Nat} {t : Option (List UInt8)}
    (h : w.look key n = some (w', t)) :
    Reads w (Walk.check (w', t)) (digitsAt key n w.pos)
      ((Walk.check (w', t)).pos, Hex.value (t.getD [])) := by
  rcases look_cases h with ⟨rfl, rfl⟩ | ⟨-, rfl, rfl⟩
  · exact ⟨fun _ => rfl, (fun hn => nomatch hn), fun hn => nomatch hn⟩
  · refine ⟨id, fun _ hbad => by simp [Walk.check, hbad], fun _ hgood => ?_⟩
    unfold digitsAt Walk.check
    by_cases hle : w.pos + n ≤ key.length
    · have hcur : w.cur = w.pos := Nat.mod_eq_of_lt (by omega)
      cases hdigits : ((key.drop w.pos).take n).all Hex.isDigit with
      | true => simp [hgood, hle, hcur, hdigits, Nat.not_lt.2 hle]
      | false => simp [hgood, hle, hcur, hdigits, Nat.not_lt.2 hle]
    · simp [hgood, hle, Nat.lt_of_not_le hle]

theorem strtoull_eight {text : List UInt8} (hlen : text.length = 8)
    (hdigits : text.all Hex.isDigit = true) :
    (strtoull (text ++ [0])).toUInt32.toNat = Hex.value text := by
  have hall := List.all_eq_true.1 hdigits
  have hvalue : Hex.value (text ++ List.replicate 1 0) = Hex.value text :=
    Hex.value_append hall (takeWhile_zeros 1)
  have hlt := Hex.value_lt text
  rw [hlen] at hlt
  have hne : text ≠ [] := by
    rintro rfl
    cases hlen
  have hread := strtoull_digits hne hall 1 (by rw [hvalue]; omega)
  rw [hvalue] at hread
  show (strtoull (text ++ List.replicate 1 0)).toUInt32.toNat = _
  rw [hread, UInt64.toNat_toUInt32, UInt64.toNat_ofNat']
  omega

theorem count_reads (hkey : key.length < 2 ^ 32) {n : Nat} (h : w.count key = some (w', n)) :
    Reads w w' (digitsAt key 8 w.pos) (w'.pos, n) := by
  obtain ⟨⟨w₁, t⟩, hlook, heq⟩ := Option.map_eq_some_iff.1 h
  obtain ⟨rfl, rfl⟩ := Prod.mk.inj heq
  refine (digits_reads hkey hlook).congr fun hn hgood => ?_
  rcases look_cases hlook with ⟨rfl, rfl⟩ | ⟨hle, rfl, rfl⟩
  · cases hn
  · have hlen : ((key.drop w.cur).take 8).length = 8 :=
      List.length_take_of_le (by rw [List.length_drop]; omega)
    have hdigits : ((key.drop w.cur).take 8).all Hex.isDigit = true := by
      simpa [Walk.check] using (Bool.or_eq_false_iff.1 hgood).2
    show (_, Hex.value _) = (_, (strtoull _).toUInt32.toNat)
    rw [strtoull_eight hlen hdigits]
    rfl

theorem Reads.of_noticed (h : w.noticed = true) : Reads w w r x := by
  refine ⟨id, fun hn => ?_, fun hn => ?_⟩
  · rw [h] at hn
    cases hn
  · rw [h] at hn
    cases hn

theorem bytes_reads {n : Nat} (h : w.bytes key border n = some w') :
    Reads w w' ((liesAt key n w.pos).map (· + border)) w'.pos := by
  obtain ⟨⟨w₁, t⟩, hlook, rfl⟩ := Option.map_eq_some_iff.1 h
  cases t with
  | some text => exact (look_reads hlook).skip border
  | none =>
    rcases look_cases hlook with ⟨-, rfl⟩ | ⟨-, hnone, -⟩
    · exact ⟨fun _ => rfl, (fun hn => nomatch hn), fun hn => nomatch hn⟩
    · cases hnone

theorem unchecked_reads {n : Nat} (h : w.unchecked key border n = some w') :
    Reads w w' ((liesAt key n w.pos).map (· + border)) w'.pos := by
  unfold Walk.unchecked at h
  split at h
  · cases h
    refine ⟨id, fun _ hbad => by simp [Walk.skip, hbad], fun _ hgood => ?_⟩
    unfold liesAt Walk.skip
    by_cases hle : w.pos + n ≤ key.length
    · simp [hgood, hle, Nat.not_lt.2 hle]
    · simp [hgood, hle, Nat.lt_of_not_le hle]
  · cases h

theorem fixed_reads (hkey : key.length < 2 ^ 32) {v : FixedField}
    (h : w.fixed key border v = some w') : Reads w w' (fixedAt key border v w.pos) w'.pos := by
  unfold Walk.fixed at h
  unfold fixedAt
  cases hnumber : v.isNumber with
  | true =>
    rw [hnumber, if_pos rfl] at h
    obtain ⟨w₁, hnum, rfl⟩ := Option.map_eq_some_iff.1 h
    obtain ⟨⟨w₂, t⟩, hlook, rfl⟩ := Option.map_eq_some_iff.1 hnum
    exact ((digits_reads hkey hlook).map Prod.fst).skip border
  | false =>
    rw [hnumber, if_neg Bool.false_ne_true] at h
    split at h
    · rename_i hn
      cases h
      exact .of_noticed hn
    · exact bytes_reads h

theorem each_reads {elem : Walk → Option Walk} {elemAt : Nat → Option Nat}
    (helem : ∀ w w', elem w = some w' → Reads w w' (elemAt w.pos) w'.pos) (n : Nat)
    (h : Walk.each elem n w = some w') : Reads w w' (eachAt elemAt n w.pos) w'.pos := by
  induction n generalizing w with
  | zero =>
    cases h
    exact .refl _
  | succ n ih =>
    obtain ⟨w₁, hfirst, hrest⟩ := Option.bind_eq_some_iff.1 h
    exact (helem _ w₁ hfirst).bind (ih hrest)

private theorem walkAll_reads_of {o : SerializableObject}
    (hf : ∀ f ∈ o, ∀ w w', walk key border f w = some w' →
      Reads w w' (fieldAt key border f w.pos) w'.pos)
    (h : walkAll key border o w = some w') : Reads w w' (allAt key border o w.pos) w'.pos := by
  induction o generalizing w with
  | nil =>
    cases h
    exact .refl _
  | cons f o ih =>
    obtain ⟨w₁, hfirst, hrest⟩ := Option.bind_eq_some_iff.1 h
    exact (hf f List.mem_cons_self _ w₁ hfirst).bind
      (ih (fun g hg => hf g (List.mem_cons_of_mem _ hg)) hrest)

theorem walk_reads (hkey : key.length < 2 ^ 32) (f : Field) : ∀ w w',
    walk key border f w = some w' → Reads w w' (fieldAt key border f w.pos) w'.pos := by
  -- where something was noticed before, nothing but numbers is read
  induction f using Field.ind with
  | fixed x => exact fun w w' h => fixed_reads hkey h
  | carrier c | terminated c t =>
    intro w w' h
    simp only [walk] at h
    split at h
    · rename_i hn
      cases h
      exact .of_noticed hn
    · obtain ⟨⟨w₁, n⟩, hcount, hbytes⟩ := Option.bind_eq_some_iff.1 h
      exact (count_reads hkey hcount).bind (bytes_reads hbytes)
  | string str =>
    intro w w' h
    simp only [walk] at h
    split at h
    · rename_i hn
      cases h
      exact .of_noticed hn
    · obtain ⟨⟨w₁, n⟩, hcount, hbytes⟩ := Option.bind_eq_some_iff.1 h
      refine (count_reads hkey hcount).bind ?_
      split at hbytes
      · rename_i hn
        cases hbytes
        exact .of_noticed hn
      · exact unchecked_reads hbytes
  | object fields ih =>
    intro w w' h
    simp only [walk] at h
    split at h
    · rename_i hn
      cases h
      exact .of_noticed hn
    · obtain ⟨w₁, hall, rfl⟩ := Option.map_eq_some_iff.1 h
      exact (walkAll_reads_of ih hall).skip border
  | vector builder elems ihb _ =>
    intro w w' h
    simp only [walk] at h
    split at h
    · rename_i hn
      cases h
      exact .of_noticed hn
    · obtain ⟨⟨w₁, n⟩, hcount, hrest⟩ := Option.bind_eq_some_iff.1 h
      obtain ⟨w₂, heach, rfl⟩ := Option.map_eq_some_iff.1 hrest
      -- the border behind the count
      have helems := each_reads ihb n heach
      have hbehind : Reads w₁ w₂ (eachAt (fieldAt key border builder) n (w₁.pos + border)) w₂.pos :=
        ⟨helems.noticed, helems.bad, helems.good⟩
      exact (count_reads hkey hcount).bind (hbehind.skip border)

theorem walkAll_reads (hkey : key.length < 2 ^ 32) {o : SerializableObject}
    (h : walkAll key border o w = some w') : Reads w w' (allAt key border o w.pos) w'.pos :=
  walkAll_reads_of (fun f _ => walk_reads hkey f) h

end Reads

/-! ### The code against the walk -/

/-- The action has got where the walk has. -/
structure Follows (key : List UInt8) (border : Nat) (u : KeyUnmarshal) (w : Walk) : Prop where
  buf : u.buf_ = key
  buf_len : u.buf_len_.toNat = key.length
  border_len : u.border_len_.toNat = border % 2 ^ 32
  cur : u.cur_.toNat = w.cur
  error : u.error_ = w.noticed

/-- A part of the action returns where the walk goes on, and reads outside of the key where it
    does not. -/
def Tracks (key : List UInt8) (border : Nat) {α : Type} (r : Except Fault (KeyUnmarshal × α)) :
    Option Walk → Prop
  | none => r = .error .outOfBounds
  | some w => ∃ u x, r = .ok (u, x) ∧ Follows key border u w

section Follows

variable {key : List UInt8} {border : Nat} {u : KeyUnmarshal} {w w' : Walk}

theorem Follows.skip (h : Follows key border u w) (n : UInt32) (bad : Bool) :
    Follows key border (u.skip n) { w with pos := w.pos + n.toNat, bad := bad } := by
  refine ⟨h.buf, h.buf_len, h.border_len, ?_, h.error⟩
  show (u.cur_ + n).toNat = (w.pos + n.toNat) % 2 ^ 32
  rw [UInt32.toNat_add, h.cur, Walk.cur]
  omega

theorem Follows.overBorder (h : Follows key border u w) :
    Follows key border u.border (w.skip border) := by
  refine ⟨h.buf, h.buf_len, h.border_len, ?_, h.error⟩
  show (u.cur_ + u.border_len_).toNat = (w.pos + border) % 2 ^ 32
  rw [UInt32.toNat_add, h.cur, h.border_len, Walk.cur]
  omega

/-- What is looked for the next characters. -/
inductive Looked (key : List UInt8) (border : Nat) (u : KeyUnmarshal) (w : Walk) (n : UInt32) : Prop
  | behind (hlt : u.cur_ + n > u.buf_len_)
      (hlook : w.look key n.toNat = some ({ w with noticed := true }, none))
      (hat : Follows key border u.signalError { w with noticed := true })
  | there (hle : ¬ u.cur_ + n > u.buf_len_) (hlen : n.toNat ≤ u.pointee.length) (bad : Bool)
      (hlook : w.look key n.toNat =
        some ({ w with pos := w.pos + n.toNat, bad := bad }, some (u.pointee.take n.toNat)))
  | outside (hle : ¬ u.cur_ + n > u.buf_len_) (hlen : u.pointee.length < n.toNat)
      (hlook : w.look key n.toNat = none)

theorem Follows.length_pointee (h : Follows key border u w) :
    u.pointee = key.drop w.cur ∧ u.pointee.length = key.length - w.cur := by
  have hpointee : u.pointee = key.drop w.cur := by
    unfold KeyUnmarshal.pointee
    rw [h.buf, h.cur]
  rw [hpointee, List.length_drop]
  exact ⟨rfl, rfl⟩

theorem Follows.look (h : Follows key border u w) (n : UInt32) : Looked key border u w n := by
  obtain ⟨hpointee, hlen⟩ := h.length_pointee
  have hcur : w.cur < 2 ^ 32 := Nat.mod_lt _ (by decide)
  have hend : (u.cur_ + n).toNat = (w.pos + n.toNat) % 2 ^ 32 := by
    rw [UInt32.toNat_add, h.cur, Walk.cur]
    omega
  have hcompare : u.cur_ + n > u.buf_len_ ↔ key.length < (w.pos + n.toNat) % 2 ^ 32 := by
    rw [gt_iff_lt, UInt32.lt_iff_toNat_lt, hend, h.buf_len]
  by_cases hlt : u.cur_ + n > u.buf_len_
  · refine .behind hlt (if_pos (hcompare.1 hlt)) ⟨h.buf, h.buf_len, h.border_len, h.cur, rfl⟩
  · have hle := mt hcompare.2 hlt
    by_cases hfits : w.cur + n.toNat ≤ key.length
    · refine .there hlt (by omega) (w.bad || decide (key.length < w.pos + n.toNat)) ?_
      unfold Walk.look
      rw [if_neg hle, if_pos hfits, hpointee]
    · refine .outside hlt ?_ ?_
      · -- nothing is not outside of the key
        unfold Walk.cur at hfits hlen
        omega
      · unfold Walk.look
        rw [if_neg hle, if_neg hfits]

theorem readBytes_there {mem : List UInt8} {n : Nat} (h : n ≤ mem.length) :
    readBytes (some mem) n = .ok (mem.take n) := if_pos h

theorem readBytes_outside {mem : List UInt8} {n : Nat} (h : mem.length < n) :
    readBytes (some mem) n = .error .outOfBounds := if_neg (Nat.not_le.2 h)

/-- `process_int` against the walk. -/
inductive Number (key : List UInt8) (border : Nat) (u : KeyUnmarshal) (w : Walk) (size : UInt32) :
    Prop
  | behind (hint : u.processInt size = .ok (u.signalError, 0))
      (hlook : w.look key size.toNat = some ({ w with noticed := true }, none))
      (hat : Follows key border u.signalError { w with noticed := true })
  | there (bad : Bool) (text : List UInt8)
      (hint : u.processInt size = .ok (u.skip size,
        (strtoull (text ++ List.replicate (9 - size.toNat) 0)).toUInt32))
      (hlook : w.look key size.toNat =
        some ({ w with pos := w.pos + size.toNat, bad := bad }, some text))
  | outside (hint : u.processInt size = .error .outOfBounds)
      (hlook : w.look key size.toNat = none)

theorem Follows.number (h : Follows key border u w) (size : UInt32) :
    Number key border u w size := by
  cases h.look size with
  | behind hlt hlook hat =>
    refine .behind ?_ hlook hat
    unfold processInt
    rw [if_pos hlt]
    rfl
  | there hle hlen bad hlook =>
    refine .there bad _ ?_ hlook
    unfold processInt
    rw [if_neg hle, readBytes_there hlen]
    rfl
  | outside hle hlen hlook =>
    refine .outside ?_ hlook
    unfold processInt
    rw [if_neg hle, readBytes_outside hlen]
    rfl

private theorem number_tracks {α : Type} (h : Follows key border u w) (size : UInt32)
    (f : KeyUnmarshal → UInt32 → α) :
    Tracks key border (do
      let (u, val) ← u.processInt size
      pure (u.border, f u val)) ((w.number key size.toNat).map (Walk.skip border)) := by
  unfold Walk.number
  cases h.number size with
  | behind hint hlook hat =>
    rw [hint, hlook]
    exact ⟨_, _, rfl, hat.overBorder⟩
  | there bad text hint hlook =>
    rw [hint, hlook]
    exact ⟨_, _, rfl, (h.skip size _).overBorder⟩
  | outside hint hlook =>
    rw [hint, hlook]
    rfl

private theorem number64_tracks {α : Type} (h : Follows key border u w)
    (f : KeyUnmarshal → UInt64 → α) :
    Tracks key border (do
      let (u, val) ← u.processInt64
      pure (u.border, f u val)) ((w.number key 16).map (Walk.skip border)) := by
  unfold Walk.number processInt64
  cases h.look 16 with
  | behind hlt hlook hat =>
    rw [if_pos hlt, show (16 : Nat) = (16 : UInt32).toNat from rfl, hlook]
    exact ⟨_, _, rfl, hat.overBorder⟩
  | there hle hlen bad hlook =>
    rw [if_neg hle, show (16 : Nat) = (16 : UInt32).toNat from rfl, hlook,
      readBytes_there hlen]
    exact ⟨_, _, rfl, (h.skip 16 _).overBorder⟩
  | outside hle hlen hlook =>
    rw [if_neg hle, show (16 : Nat) = (16 : UInt32).toNat from rfl, hlook,
      readBytes_outside hlen]
    rfl

/-- The calls of `process` for values that take a fixed number of characters. -/
theorem fixed_tracks (h : Follows key border u w) (x : FixedField) :
    Tracks key border (u.processFixed x) (w.fixed key border x) := by
  unfold Walk.fixed
  cases x with
  | u64 i =>
    exact number64_tracks h fun u val => FixedField.u64 (if u.error_ then i else val)
  | u32 i =>
    exact number_tracks h 8 fun u val => FixedField.u32 (if u.error_ then i else val)
  | u16 i =>
    exact number_tracks h 4 fun u val => FixedField.u16 (if u.error_ then i else val.toUInt16)
  | u8 i =>
    exact number_tracks h 2 fun u val => FixedField.u8 (if u.error_ then i else val.toUInt8)
  | bool b =>
    show Tracks key border _ (if w.noticed = true then some w else w.bytes key border 1)
    unfold processFixed processBool Walk.bytes
    rw [h.error]
    cases hnoticed : w.noticed with
    | true =>
      simp only [if_true]
      exact ⟨u, _, rfl, h⟩
    | false =>
      simp only [Bool.false_eq_true, if_false]
      cases h.look 1 with
      | behind hlt hlook hat =>
        rw [if_pos hlt, show (1 : Nat) = (1 : UInt32).toNat from rfl, hlook]
        exact ⟨_, _, rfl, hat⟩
      | there hle hlen bad hlook =>
        rw [if_neg hle, show (1 : Nat) = (1 : UInt32).toNat from rfl, hlook]
        cases hpointee : u.pointee with
        | nil =>
          rw [hpointee] at hlen
          exact absurd hlen (by decide)
        | cons c rest => exact ⟨_, _, rfl, (h.skip 1 _).overBorder⟩
      | outside hle hlen hlook =>
        rw [if_neg hle, show (1 : Nat) = (1 : UInt32).toNat from rfl, hlook,
          List.length_eq_zero_iff.1 (Nat.lt_one_iff.1 hlen)]
        rfl
  | buf bp =>
    have hwidth : (UInt32.ofNat bp.bytes.length).toNat = bp.bytes.length :=
      UInt32.toNat_ofNat_of_lt' bp.fits
    show Tracks key border _
      (if w.noticed = true then some w else w.bytes key border bp.bytes.length)
    unfold processFixed processBuf Walk.bytes
    rw [h.error]
    cases hnoticed : w.noticed with
    | true =>
      simp only [if_true]
      exact ⟨u, _, rfl, h⟩
    | false =>
      simp only [Bool.false_eq_true, if_false]
      cases h.look (.ofNat bp.bytes.length) with
      | behind hlt hlook hat =>
        rw [hwidth] at hlook
        rw [if_pos hlt, hlook]
        exact ⟨_, _, rfl, hat⟩
      | there hle hlen bad hlook =>
        rw [hwidth] at hlen hlook
        have hat := (h.skip (.ofNat bp.bytes.length) bad).overBorder
        rw [hwidth] at hat
        rw [if_neg hle, hlook, Unmarshal.loadBuf, if_pos hlen]
        exact ⟨_, _, rfl, hat⟩
      | outside hle hlen hlook =>
        rw [hwidth] at hlen hlook
        rw [if_neg hle, hlook, Unmarshal.loadBuf, if_neg (Nat.not_le.2 hlen)]
        rfl

private theorem count_tracks (h : Follows key border u w) :
    (∃ u' n w', u.processInt 8 = .ok (u', n) ∧ w.count key = some (w', n.toNat) ∧
      Follows key border u' w' ∧ (w.noticed = false → w'.noticed = true → n = 0)) ∨
    u.processInt 8 = .error .outOfBounds ∧ w.count key = none := by
  unfold Walk.count
  cases h.number 8 with
  | behind hint hlook hat =>
    rw [show (8 : Nat) = (8 : UInt32).toNat from rfl, hlook]
    exact .inl ⟨_, _, _, hint, rfl, hat, fun _ _ => rfl⟩
  | there bad text hint hlook =>
    rw [show (8 : Nat) = (8 : UInt32).toNat from rfl, hlook]
    refine .inl ⟨_, _, _, hint, rfl, h.skip 8 _, fun hquiet hn => ?_⟩
    rw [show (Walk.check _).noticed = w.noticed from rfl, hquiet] at hn
    cases hn
  | outside hint hlook =>
    rw [show (8 : Nat) = (8 : UInt32).toNat from rfl, hlook]
    exact .inr ⟨hint, rfl⟩

theorem fillCarrier_tracks (h : Follows key border u w) {c : BufferCarrier} (hc : c.buf_ = none)
    (tail : List UInt8) : Tracks key border (u.fillCarrier c tail)
      (if w.noticed then some w else (w.count key).bind fun r => r.1.bytes key border r.2) := by
  have hempty : assert c.buf_.isNone = .ok () := by
    rw [hc]
    rfl
  unfold fillCarrier
  rw [hempty, ok_bind, h.error]
  cases hnoticed : w.noticed with
  | true =>
    simp only [if_true]
    exact ⟨u, _, rfl, h⟩
  | false =>
    simp only [Bool.false_eq_true, if_false]
    rcases count_tracks h with ⟨u₁, n, w₁, hint, hcount, h₁, -⟩ | ⟨hint, hcount⟩
    · rw [hint, ok_bind, hcount, Option.bind_some]
      unfold Walk.bytes
      cases h₁.look n with
      | behind hlt hlook hat =>
        rw [if_pos hlt, hlook]
        exact ⟨_, _, rfl, hat⟩
      | there hle hlen bad hlook =>
        rw [if_neg hle, hlook, readBytes_there hlen]
        exact ⟨_, _, rfl, (h₁.skip _ _).overBorder⟩
      | outside hle hlen hlook =>
        rw [if_neg hle, hlook, readBytes_outside hlen]
        rfl
    · rw [hint, hcount]
      rfl

theorem processString_tracks (h : Follows key border u w) (str : List UInt8) :
    Tracks key border (u.processString str)
      (if w.noticed then some w
      else (w.count key).bind fun r =>
        if r.1.noticed then some r.1 else r.1.unchecked key border r.2) := by
  unfold processString
  rw [h.error]
  cases hnoticed : w.noticed with
  | true =>
    simp only [if_true]
    exact ⟨u, _, rfl, h⟩
  | false =>
    simp only [Bool.false_eq_true, if_false]
    rcases count_tracks h with ⟨u₁, n, w₁, hint, hcount, h₁, -⟩ | ⟨hint, hcount⟩
    · rw [hint, ok_bind, hcount, Option.bind_some]
      dsimp only
      rw [h₁.error]
      cases hnoticed₁ : w₁.noticed with
      | true =>
        simp only [if_true]
        exact ⟨u₁, _, rfl, h₁⟩
      | false =>
        simp only [Bool.false_eq_true, if_false]
        obtain ⟨-, hlen⟩ := h₁.length_pointee
        unfold Walk.unchecked
        by_cases hle : n.toNat ≤ key.length - w₁.cur
        · rw [if_pos hle, readBytes_there (by omega)]
          exact ⟨_, _, rfl, (h₁.skip _ _).overBorder⟩
        · rw [if_neg hle, readBytes_outside (by omega)]
          rfl
    · rw [hint, hcount]
      rfl

theorem each_tracks {proc : KeyUnmarshal → Except Fault (KeyUnmarshal × Field)}
    {elem : Walk → Option Walk}
    (helem : ∀ u w, Follows key border u w → Tracks key border (proc u) (elem w)) (n : Nat)
    (h : Follows key border u w) :
    Tracks key border (processEach proc n u) (Walk.each elem n w) := by
  induction n generalizing u w with
  | zero => exact ⟨u, [], rfl, h⟩
  | succ n ih =>
    have hfirst := helem u w h
    unfold processEach Walk.each
    cases hwalk : elem w with
    | none =>
      rw [hwalk] at hfirst
      rw [show proc u = _ from hfirst]
      rfl
    | some w₁ =>
      rw [hwalk] at hfirst
      obtain ⟨u₁, e, hproc, h₁⟩ := hfirst
      have hrest := ih h₁
      rw [hproc, ok_bind, Option.bind_some]
      dsimp only
      cases hwalk₂ : Walk.each elem n w₁ with
      | none =>
        rw [hwalk₂] at hrest
        rw [show processEach proc n u₁ = _ from hrest]
        rfl
      | some w₂ =>
        rw [hwalk₂] at hrest
        obtain ⟨u₂, es, hes, h₂⟩ := hrest
        rw [hes]
        exact ⟨u₂, e :: es, rfl, h₂⟩

private theorem processAll_tracks_of {o : SerializableObject}
    (hf : ∀ f ∈ o, ∀ u w, Follows key border u w →
      Tracks key border (u.process f) (walk key border f w)) (h : Follows key border u w) :
    Tracks key border (u.processAll o) (walkAll key border o w) := by
  induction o generalizing u w with
  | nil => exact ⟨u, [], rfl, h⟩
  | cons f o ih =>
    have hfirst := hf f List.mem_cons_self u w h
    unfold processAll walkAll
    cases hwalk : walk key border f w with
    | none =>
      rw [hwalk] at hfirst
      rw [show u.process f = _ from hfirst]
      rfl
    | some w₁ =>
      rw [hwalk] at hfirst
      obtain ⟨u₁, e, hproc, h₁⟩ := hfirst
      have hrest := ih (fun g hg => hf g (List.mem_cons_of_mem _ hg)) h₁
      rw [hproc, ok_bind, Option.bind_some]
      dsimp only
      cases hwalk₂ : walkAll key border o w₁ with
      | none =>
        rw [hwalk₂] at hrest
        rw [show u₁.processAll o = _ from hrest]
        rfl
      | some w₂ =>
        rw [hwalk₂] at hrest
        obtain ⟨u₂, es, hes, h₂⟩ := hrest
        rw [hes]
        exact ⟨u₂, e :: es, rfl, h₂⟩

private theorem Tracks.map {α β : Type} {r : Except Fault (KeyUnmarshal × α)} {o : Option Walk}
    (h : Tracks key border r o) (f : α → β) :
    Tracks key border (r >>= fun q => pure (q.1, f q.2)) o := by
  cases o with
  | none =>
    rw [show r = _ from h]
    rfl
  | some w =>
    obtain ⟨u, x, rfl, hat⟩ := h
    exact ⟨u, f x, rfl, hat⟩

theorem processObject_tracks {α : Type} (h : Follows key border u w) (x : α)
    {serialize : KeyUnmarshal → Except Fault (KeyUnmarshal × α)} {inner : Option Walk}
    (hinner : w.noticed = false → Tracks key border (serialize u) inner) :
    Tracks key border (u.processObject x serialize)
      (if w.noticed then some w else inner.map (Walk.skip border)) := by
  unfold processObject
  rw [h.error]
  cases hnoticed : w.noticed with
  | true =>
    simp only [if_true]
    exact ⟨u, x, rfl, h⟩
  | false =>
    simp only [Bool.false_eq_true, if_false]
    -- no error was signalled before
    have hu : { u with error_ := false } = u := by
      rw [← hnoticed, ← h.error]
    have hserialize := hinner hnoticed
    rw [hu]
    cases inner with
    | none =>
      rw [show serialize u = _ from hserialize]
      rfl
    | some w₁ =>
      obtain ⟨u₁, y, hrun, h₁⟩ := hserialize
      rw [hrun]
      exact ⟨_, y, rfl, h₁.overBorder⟩

theorem process_tracks (f : Field) (hf : f.Blank) : ∀ u w, Follows key border u w →
    Tracks key border (u.process f) (walk key border f w) := by
  induction f using Field.ind with
  | fixed x => exact fun u w h => (fixed_tracks h x).map Field.fixed
  | carrier c => exact fun u w h => (fillCarrier_tracks h hf []).map Field.carrier
  | terminated c t =>
    exact fun u w h => (fillCarrier_tracks h hf [t]).map fun c => Field.terminated c t
  | string str => exact fun u w h => (processString_tracks h str).map Field.string
  | object fields ih =>
    intro u w h
    refine (processObject_tracks h fields fun _ => ?_).map Field.object
    exact processAll_tracks_of (fun f hmem => ih f hmem (AllBlank.mem hf f hmem)) h
  | vector builder elems ihb _ =>
    intro u w h
    obtain ⟨hbuilder, rfl⟩ := hf
    have hwalk : walk key border (.vector builder []) w = if w.noticed then some w else
        ((w.count key).bind fun r =>
          Walk.each (walk key border builder) r.2 (r.1.skip border)).map (Walk.skip border) := by
      unfold walk
      rw [Option.map_bind]
      rfl
    rw [hwalk]
    refine (processObject_tracks h ([] : List Field) fun hquiet => ?_).map
      (Field.vector builder)
    rcases count_tracks h with ⟨u₁, n, w₁, hint, hcount, h₁, hzero⟩ | ⟨hint, hcount⟩
    · rw [hint, ok_bind, hcount, Option.bind_some]
      dsimp only
      -- after an error there are no elements, as in the walk
      have hsz : (if u₁.error_ = true then UInt32.ofNat ([] : List Field).length else n) = n := by
        rw [h₁.error]
        cases hnoticed : w₁.noticed with
        | true =>
          rw [hzero hquiet hnoticed]
          rfl
        | false => rfl
      rw [hsz]
      have heach := each_tracks (ihb hbuilder) n.toNat h₁.overBorder
      cases hwalked : Walk.each (walk key border builder) n.toNat (w₁.skip border) with
      | none =>
        rw [hwalked] at heach
        rw [show processEach _ n.toNat u₁.border = _ from heach]
        rfl
      | some w₂ =>
        rw [hwalked] at heach
        obtain ⟨u₂, es, hes, h₂⟩ := heach
        have hlen : assert (([] ++ es).length = n.toNat) = .ok () := by
          rw [List.nil_append, Unmarshal.length_of_processEach hes]
          exact if_pos (decide_eq_true rfl)
        rw [hes, ok_bind]
        dsimp only
        rw [hlen]
        exact ⟨u₂, _, rfl, h₂⟩
    · rw [hint, hcount]
      rfl

theorem processAll_tracks {o : SerializableObject} (ho : AllBlank o)
    (h : Follows key border u w) :
    Tracks key border (u.processAll o) (walkAll key border o w) :=
  processAll_tracks_of (fun f hmem => process_tracks f (ho.mem f hmem)) h

end Follows

/-! ### Malformed keys -/

section

open Key (borderText)

variable {key : List UInt8} {border : Option (List UInt8)} {o : SerializableObject}

def Walk.start : Walk := ⟨0, false, false⟩

theorem follows_new (border : Option (List UInt8)) (hkey : key.length < 2 ^ 32) :
    Follows key (borderText border).length (.new key (.ofNat key.length) border) Walk.start where
  buf := rfl
  buf_len := UInt32.toNat_ofNat_of_lt' hkey
  border_len := by
    cases border with
    | none => rfl
    | some border =>
      have hle : (UInt32.ofNat border.length).toNat ≤ border.length := by
        rw [UInt32.toNat_ofNat']
        exact Nat.mod_le _ _
      show (UInt32.ofNat border.length).toNat = (border.take _).length % 2 ^ 32
      rw [List.length_take_of_le hle, Nat.mod_eq_of_lt (UInt32.toNat_lt _)]
  cur := rfl
  error := rfl

/-- What is to be the case for any key: nothing is read outside of it, and there is an error
    unless the fields are there, one behind the other, and the integers are made of digits. -/
def Guarded (key : List UInt8) (border : Option (List UInt8)) (o : SerializableObject) : Prop :=
  (KeyUnmarshal.new key (.ofNat key.length) border).action o ≠ .error .outOfBounds ∧
    (allAt key (borderText border).length o 0 = none → ∃ u o',
      (KeyUnmarshal.new key (.ofNat key.length) border).action o = .ok (-1, u, o'))

/-- The cursor stays in the key, and what it reads is what a key is to look like, or it comes to
    an end behind the end of the key. -/
def WellWalked (key : List UInt8) (border : Nat) (o : SerializableObject) : Prop :=
  match walkAll key border o Walk.start with
  | none => False
  | some w => w.bad = true → w.noticed = true

instance (key : List UInt8) (border : Nat) (o : SerializableObject) :
    Decidable (WellWalked key border o) := by
  unfold WellWalked
  cases walkAll key border o Walk.start with
  | none => exact .isFalse id
  | some w => exact inferInstanceAs (Decidable (_ → _))

/-- What `KeyUnmarshal` makes of any bytes, in any border, for any object that has nothing in it
    yet: it reads only in the key, and reports what is wrong with it, exactly if the key is well
    walked. -/
theorem action_guarded_iff (hkey : key.length < 2 ^ 32) (ho : AllBlank o) :
    Guarded key border o ↔ WellWalked key (borderText border).length o := by
  have htracks := processAll_tracks ho (follows_new border hkey)
  unfold Guarded WellWalked
  cases hwalk : walkAll key (borderText border).length o Walk.start with
  | none =>
    rw [hwalk] at htracks
    have haction : (KeyUnmarshal.new key (.ofNat key.length) border).action o =
        .error .outOfBounds := by
      show ((KeyUnmarshal.new key (.ofNat key.length) border).processAll o >>= _) = _
      rw [show KeyUnmarshal.processAll _ o = _ from htracks]
      rfl
    exact iff_of_false (fun h => h.1 haction) id
  | some w =>
    rw [hwalk] at htracks
    obtain ⟨u, o', hrun, hat⟩ := htracks
    have haction : (KeyUnmarshal.new key (.ofNat key.length) border).action o =
        .ok (if w.noticed then -1 else 0, u, o') := by
      show ((KeyUnmarshal.new key (.ofNat key.length) border).processAll o >>= _) = _
      rw [hrun, ← hat.error]
      rfl
    have hreads := walkAll_reads hkey hwalk
    rw [haction]
    show _ ↔ (w.bad = true → w.noticed = true)
    cases hnoticed : w.noticed with
    | true => exact iff_of_true ⟨nofun, fun _ => ⟨u, o', rfl⟩⟩ fun _ => rfl
    | false =>
      -- nothing was noticed, so that the walk says whether the fields are there
      have hgrammar : allAt key (borderText border).length o 0 = _ := hreads.good hnoticed rfl
      cases hbad : w.bad with
      | true =>
        rw [hbad] at hgrammar
        refine iff_of_false ?_ fun h => Bool.false_ne_true (h rfl)
        rintro ⟨-, herror⟩
        obtain ⟨_, _, hcode⟩ := herror hgrammar
        cases hcode
      | false =>
        rw [hbad] at hgrammar
        refine iff_of_true ⟨nofun, fun hnone => ?_⟩ id
        rw [hgrammar] at hnone
        cases hnone

theorem action_guarded_iff_byte :
    Guarded [50, 97, 45] (some [45]) [.fixed (.u8 0)] :=
  (action_guarded_iff (by decide) (show AllBlank [.fixed (.u8 0)] from ⟨trivial, trivial⟩)).2
    (by decide +kernel)

/-- A byte is read from a text that has no digits, and a string of five bytes from a key that
    ends behind its length. -/
theorem not_action_guarded :
    ¬ Guarded [122, 122] (some [45]) [.fixed (.u8 0)] ∧
      ¬ Guarded [48, 48, 48, 48, 48, 48, 48, 53] (some [45]) [.string []] ∧
      ((KeyUnmarshal.new [122, 122] 2 (some [45])).action [.fixed (.u8 0)]).map
        (fun r => r.1) = .ok 0 ∧
      ((KeyUnmarshal.new [48, 48, 48, 48, 48, 48, 48, 53] 8 (some [45])).action [.string []]).map
        (fun r => r.1) = .error .outOfBounds := by
  have hbyte : ((KeyUnmarshal.new [122, 122] 2 (some [45])).action [.fixed (.u8 0)]).map
      (fun r => r.1) = .ok 0 := by decide +kernel
  have hstring : ((KeyUnmarshal.new [48, 48, 48, 48, 48, 48, 48, 53] 8 (some [45])).action
      [.string []]).map (fun r => r.1) = .error .outOfBounds := by decide +kernel
  refine ⟨?_, ?_, hbyte, hstring⟩
  · rintro ⟨-, herror⟩
    obtain ⟨u, o', haction⟩ := herror (by decide +kernel)
    rw [show (KeyUnmarshal.new [122, 122] 2 (some [45])).action [.fixed (.u8 0)] = _ from haction]
      at hbyte
    cases hbyte
  · rintro ⟨hinside, -⟩
    apply hinside
    cases haction : (KeyUnmarshal.new [48, 48, 48, 48, 48, 48, 48, 53] (.ofNat 8)
        (some [45])).action [.string []] with
    | error fault =>
      rw [show (KeyUnmarshal.new _ 8 _).action _ = _ from haction] at hstring
      cases hstring
      rfl
    | ok r =>
      rw [show (KeyUnmarshal.new _ 8 _).action _ = _ from haction] at hstring
      cases hstring

end

end KeyUnmarshal

end Oasys

/-!
### The memory of a key

Which memory each piece of a key asks for, and which it uses. The buffer is left alone outside
of what was asked for, and no assertion about it fails, exactly where every piece uses no more
than the caller's buffer has or a piece up to it has asked for.
-/

namespace Oasys

namespace Key

variable {border : Option (List UInt8)} {p : Piece} {ps : List Piece} {len cap : Nat}

/-- The memory that is reserved for a piece behind `len` bytes. -/
def Piece.asks (border : Option (List UInt8)) (len : Nat) : Piece → Nat
  | int text => len + text.length + 1
  | data bytes => len + bytes.length
  | .border => (borderText border).length
  | nul => 1

/-- The memory that it uses: its bytes, and the one that `end` points at. -/
def Piece.uses (border : Option (List UInt8)) (len : Nat) : Piece → Nat
  | int text => len + text.length + 1
  | data bytes => max (len + bytes.length) (len + 1)
  | .border =>
    match border with
    | none => 0
    | some _ => max (len + (borderText border).length) (len + 1)
  | nul => len + 1

def asked (border : Option (List UInt8)) (len : Nat) : List Piece → Nat
  | [] => 0
  | p :: ps => max (p.asks border len) (asked border (len + (p.text border).length) ps)

/-- Every piece uses no more than `cap` bytes, or than a piece up to it has asked for. -/
def Covered (border : Option (List UInt8)) (len cap : Nat) (ps : List Piece) : Prop :=
  ∀ before p behind, ps = before ++ p :: behind →
    p.uses border (len + (texts border before).length) ≤
      max cap (asked border len (before ++ [p]))

theorem room_eq (p : Piece) :
    p.room border len cap =
      if p.uses border len ≤ max cap (p.asks border len) then some (max cap (p.asks border len))
      else none := by
  cases p with
  | int text => simp [Piece.room, Piece.uses, Piece.asks]
  | data bytes =>
    simp only [Piece.room, Piece.uses, Piece.asks]
    congr 1
    simp only [eq_iff_iff]
    omega
  | border =>
    cases border with
    | none => simp [Piece.room, Piece.uses, Piece.asks, borderText]
    | some text =>
      simp only [Piece.room, Piece.uses, Piece.asks]
      congr 1
      simp only [eq_iff_iff]
      omega
  | nul =>
    simp only [Piece.room, Piece.uses, Piece.asks]
    congr 1

theorem covered_cons :
    Covered border len cap (p :: ps) ↔ p.uses border len ≤ max cap (p.asks border len) ∧
      Covered border (len + (p.text border).length) (max cap (p.asks border len)) ps := by
  constructor
  · intro h
    refine ⟨?_, ?_⟩
    · have hfirst := h [] p ps rfl
      simpa [asked] using hfirst
    · intro before q behind hps
      have hnext := h (p :: before) q behind (by rw [hps, List.cons_append])
      simpa [asked, Nat.add_assoc, Nat.max_assoc] using hnext
  · rintro ⟨hfirst, hrest⟩ before q behind hps
    cases before with
    | nil =>
      obtain ⟨rfl, -⟩ := List.cons.inj hps
      simpa [asked] using hfirst
    | cons p' before =>
      rw [List.cons_append] at hps
      obtain ⟨rfl, hbehind⟩ := List.cons.inj hps
      have hnext := hrest before q behind hbehind
      simpa [asked, Nat.add_assoc, Nat.max_assoc] using hnext

theorem isSome_room (ps : List Piece) :
    (room border ps len cap).isSome ↔ Covered border len cap ps := by
  induction ps generalizing len cap with
  | nil => simp [room, Covered]
  | cons p ps ih =>
    rw [covered_cons, room, room_eq]
    split
    · rename_i huses
      rw [Option.bind_some, ih]
      simp [huses]
    · rename_i huses
      simp [huses]

end Key

namespace KeyMarshal

open Key

/-- `KeyMarshal` stays in the memory it has reserved, and meets no assertion, if and only if
    every piece of the key uses no more than the buffer had, or than was asked for up to it. -/
theorem action_safe_iff {o : SerializableObject} (ho : AllCopyable o)
    (border : Option (List UInt8)) {b : ExpandableBuffer} (hb : b.len_ ≤ b.buf_len_) :
    (∃ r, (new b border).action o = .ok r) ↔
      Covered border b.len_ b.buf_len_ (allPieces o ++ [.nul]) := by
  have hout := action_outcome ho border hb
  rw [← isSome_room]
  cases hroom : room border (allPieces o ++ [.nul]) b.len_ b.buf_len_ with
  | some cap =>
    rw [hroom] at hout
    obtain ⟨r, hr, -⟩ := hout
    simp [hr]
  | none =>
    rw [hroom] at hout
    obtain ⟨e, he⟩ := hout
    simp [he]

/-- A string of four bytes in a buffer with sixteen. -/
theorem action_safe_iff_string :
    (∃ r, (new ⟨some (List.replicate 16 0), 0⟩ none).action [.string [97, 98, 99, 100]] = .ok r) ↔
      Covered none 0 16 (allPieces [.string [97, 98, 99, 100]] ++ [.nul]) := by
  have ho : AllCopyable [.string [97, 98, 99, 100]] := ⟨trivial, trivial⟩
  have hb : (ExpandableBuffer.mk (some (List.replicate 16 0)) 0).len_ ≤
      (ExpandableBuffer.mk (some (List.replicate 16 0)) 0).buf_len_ := Nat.zero_le _
  exact action_safe_iff ho none hb

/-- A string in a buffer for which nothing has been reserved: its bytes fill the buffer exactly,
    and `end_action` finds no byte for its NUL. -/
theorem not_action_safe : ¬∀ (o : SerializableObject) (border : Option (List UInt8))
    (b : ExpandableBuffer), AllCopyable o → b.len_ ≤ b.buf_len_ →
      ∃ r, (new b border).action o = .ok r := by
  intro h
  have ho : AllCopyable [.string [97]] := ⟨trivial, trivial⟩
  obtain ⟨r, hr⟩ := h [.string [97]] none .new ho (Nat.le_refl 0)
  have herror : (new .new none).action [.string [97]] = .error .assertFailed := rfl
  rw [herror] at hr
  cases hr

end KeyMarshal

end Oasys
