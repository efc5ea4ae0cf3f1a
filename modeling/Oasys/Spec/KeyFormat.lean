import Oasys.Serialize.KeySerialize
import Oasys.Spec.WireRoundTrip

/-!
# The key format

What the bytes of a key are, and what memory `KeyMarshal` needs for them. A field is put into
the buffer in pieces: text of a number, bytes, the border, and the NUL that ends an action.
Each of them asks for memory in its own way, so that how much there is after some pieces is a
matter of their lengths alone. `processAll_outcome` is the result of the module: an object is
appended to the key where there is memory for its pieces, and otherwise the run stops.
-/

namespace Oasys

/-! ### Pieces -/

namespace Key

/-- What a field is put into the buffer as. -/
inductive Piece where
  /-- A number, for which `process_int` reserves memory. -/
  | int (text : List UInt8)
  /-- Bytes. -/
  | data (bytes : List UInt8)
  | border
  /-- The NUL of `end_action`, which is not counted. -/
  | nul
  deriving DecidableEq, Repr

/-- The border, as far as a `u_int32_t` counts its bytes. -/
def borderText : Option (List UInt8) → List UInt8
  | none => []
  | some border => border.take (UInt32.ofNat border.length).toNat

/-- The bytes that a piece adds to the key. -/
def Piece.text (border : Option (List UInt8)) : Piece → List UInt8
  | int text => text
  | data bytes => bytes
  | .border => borderText border
  | nul => []

def texts (border : Option (List UInt8)) (ps : List Piece) : List UInt8 :=
  ps.flatMap (Piece.text border)

def lenText (n : Nat) : List UInt8 := (Format.zeroHex 8).print (.ofNat n)

/-- The piece of a value of fixed size. -/
def fixedPiece : FixedField → Piece
  | .u64 i => .int ((Format.spaceHex 16).print i.toUInt32)
  | .u32 i => .int ((Format.zeroHex 8).print i)
  | .u16 i => .int ((Format.zeroHex 4).print i.toUInt32)
  | .u8 i => .int ((Format.zeroHex 2).print i.toUInt32)
  | .bool b => .int ((Format.dec 1).print (if b then 1 else 0))
  | .buf bp => .data bp.bytes

def countedPieces (bytes : List UInt8) : List Piece :=
  [.int (lenText bytes.length), .data bytes, .border]

mutual

/-- The pieces of a field. -/
def pieces : Field → List Piece
  | .fixed x => [fixedPiece x, .border]
  | .carrier c => countedPieces ((c.buf_.getD []).take c.len_)
  | .terminated c t => countedPieces ((c.buf_.getD []).takeWhile (· != t))
  | .string str => countedPieces str
  | .object fields => allPieces fields ++ [.nul, .border]
  | .vector _ elems =>
    [.int (lenText elems.length), .border] ++ (allPieces elems ++ [.nul, .border])

def allPieces : SerializableObject → List Piece
  | [] => []
  | f :: o => pieces f ++ allPieces o

end

def encodeAll (border : Option (List UInt8)) (o : SerializableObject) : List UInt8 :=
  texts border (allPieces o)

@[simp] theorem texts_nil (border : Option (List UInt8)) : texts border [] = [] := rfl

@[simp] theorem texts_cons (border : Option (List UInt8)) (p : Piece) (ps : List Piece) :
    texts border (p :: ps) = p.text border ++ texts border ps := rfl

@[simp] theorem texts_append (border : Option (List UInt8)) (ps qs : List Piece) :
    texts border (ps ++ qs) = texts border ps ++ texts border qs := List.flatMap_append

/-! ### Room -/

/-- The memory that there is after a piece was added behind `len` bytes, where there were
    `cap`; `none` where the piece does not fit. A border only reserves its own length. -/
def Piece.room (border : Option (List UInt8)) (len cap : Nat) : Piece → Option Nat
  | int text => some (max cap (len + text.length + 1))
  | data bytes =>
    let cap := max cap (len + bytes.length)
    if len < cap then some cap else none
  | .border =>
    match border with
    | none => some cap
    | some _ =>
      let cap := max cap (borderText border).length
      if len < cap ∧ len + (borderText border).length ≤ cap then some cap else none
  | nul => if len < max cap 1 then some (max cap 1) else none

def room (border : Option (List UInt8)) : List Piece → Nat → Nat → Option Nat
  | [], _, cap => some cap
  | p :: ps, len, cap =>
    (p.room border len cap).bind (room border ps (len + (p.text border).length))

/-- There is memory for the key of an object in a buffer of `cap` bytes. -/
def Roomy (border : Option (List UInt8)) (cap : Nat) (o : SerializableObject) : Prop :=
  (room border (allPieces o ++ [.nul]) 0 cap).isSome

instance (border : Option (List UInt8)) (cap : Nat) (o : SerializableObject) :
    Decidable (Roomy border cap o) := inferInstanceAs (Decidable (_ = true))

theorem room_append (border : Option (List UInt8)) (ps qs : List Piece) (len cap : Nat) :
    room border (ps ++ qs) len cap =
      (room border ps len cap).bind (room border qs (len + (texts border ps).length)) := by
  induction ps generalizing len cap with
  | nil => rfl
  | cons p ps ih =>
    rw [List.cons_append, room, room, Option.bind_assoc]
    congr 1
    funext cap'
    rw [ih, texts_cons, List.length_append, Nat.add_assoc]

theorem room_singleton (border : Option (List UInt8)) (p : Piece) (len cap : Nat) :
    room border [p] len cap = p.room border len cap := by
  rw [room]
  cases p.room border len cap <;> rfl

theorem room_of_lt (border : Option (List UInt8)) (ps : List Piece) {len cap : Nat}
    (h : len + (texts border ps).length < cap) : room border ps len cap = some cap := by
  induction ps generalizing len with
  | nil => rfl
  | cons p ps ih =>
    rw [texts_cons, List.length_append, ← Nat.add_assoc] at h
    -- what each piece reserves is there, and the byte it leaves free keeps `end` in range
    have hpiece : p.room border len cap = some cap := by
      cases p with
      | int text =>
        have hle : len + text.length + 1 ≤ cap := by
          simp only [Piece.text] at h
          omega
        rw [Piece.room, Nat.max_eq_left hle]
      | data bytes =>
        simp only [Piece.text] at h
        rw [Piece.room, Nat.max_eq_left (by omega), if_pos (by omega)]
      | border =>
        simp only [Piece.text] at h
        cases border with
        | none => rfl
        | some text =>
          rw [Piece.room, Nat.max_eq_left (by omega), if_pos ⟨by omega, by omega⟩]
      | nul =>
        simp only [Piece.text, List.length_nil] at h
        rw [Piece.room, Nat.max_eq_left (by omega), if_pos (by omega)]
    rw [room, hpiece]
    exact ih h

theorem roomy_of_lt {border : Option (List UInt8)} {cap : Nat} {o : SerializableObject}
    (h : (encodeAll border o).length < cap) : Roomy border cap o := by
  have hnul : (texts border (allPieces o ++ [.nul])).length = (encodeAll border o).length := by
    rw [texts_append, List.length_append]
    rfl
  unfold Roomy
  rw [room_of_lt border _ (by omega)]
  rfl

end Key

/-! ### What can be copied -/

mutual

/-- The carriers have the bytes that are copied out of them, or the terminator behind these. -/
def Field.Copyable : Field → Prop
  | .fixed _ => True
  | .carrier c => ∃ data, readBytes c.buf_ c.len_ = .ok data
  | .terminated c t => ∃ data mem, c.buf_ = some (data ++ t :: mem) ∧ t ∉ data
  | .string _ => True
  | .object fields => AllCopyable fields
  | .vector _ elems => AllCopyable elems

def AllCopyable : SerializableObject → Prop
  | [] => True
  | f :: o => Field.Copyable f ∧ AllCopyable o

end

variable {o : SerializableObject}

theorem AllCopyable.mem (h : AllCopyable o) : ∀ f ∈ o, f.Copyable := by
  induction o with
  | nil => simp
  | cons g o ih =>
    intro f hf
    cases List.mem_cons.mp hf with
    | inl hfg => exact hfg ▸ h.1
    | inr hfo => exact ih h.2 f hfo

private theorem AllFit.copyable_of
    (h : ∀ f ∈ o, f.Fits → f.Copyable) (ho : AllFit o) : AllCopyable o := by
  induction o with
  | nil => trivial
  | cons f o ih =>
    exact ⟨h f List.mem_cons_self ho.1, ih (fun g hg => h g (List.mem_cons_of_mem f hg)) ho.2⟩

theorem Field.Fits.copyable (f : Field) (hf : f.Fits) : f.Copyable := by
  induction f using Field.ind with
  | fixed x => trivial
  | carrier c => exact hf.2
  | terminated c t =>
    obtain ⟨data, mem, hbuf, hdata, -⟩ := hf
    exact ⟨data, mem, hbuf, hdata⟩
  | string str => trivial
  | object fields ih => exact AllFit.copyable_of ih hf
  | vector builder elems _ ih => exact AllFit.copyable_of ih hf.2

theorem AllFit.copyable (ho : AllFit o) : AllCopyable o :=
  AllFit.copyable_of (fun f _ hf => Field.Fits.copyable f hf) ho

/-! ### What KeyMarshal writes -/

namespace KeyMarshal

open Key

variable {m : KeyMarshal} {border : Option (List UInt8)} {key : List UInt8} {cap : Nat}

/-- A run in which no error was signalled has put `key` into a buffer of `cap` bytes. -/
structure Stands (m : KeyMarshal) (border : Option (List UInt8)) (key : List UInt8) (cap : Nat) :
    Prop where
  error : m.error_ = false
  border : m.border_ = border
  len : m.buf_.len_ = key.length
  key : m.buf_.bytes.take key.length = key
  cap : m.buf_.buf_len_ = cap

theorem Stands.le (h : Stands m border key cap) : key.length ≤ cap := by
  have hlen := congrArg List.length h.key
  rw [List.length_take] at hlen
  have hcap : m.buf_.bytes.length = cap := h.cap
  omega

/-- A computation that leaves a marshaller gives one that stands at `key`, where there is
    memory for it, and otherwise stops. -/
def Outcome {α : Type} (get : α → KeyMarshal) (border : Option (List UInt8)) (key : List UInt8)
    (r : Except Fault α) : Option Nat → Prop
  | some cap => ∃ a, r = .ok a ∧ Stands (get a) border key cap
  | none => ∃ e, r = .error e

variable {α : Type}

theorem Outcome.bind {β : Type} {get : α → KeyMarshal} {get' : β → KeyMarshal}
    {key' : List UInt8} {r : Except Fault α} {f : α → Except Fault β} {oc : Option Nat}
    {g : Nat → Option Nat} (h : Outcome get border key r oc)
    (hf : ∀ a cap, Stands (get a) border key cap → Outcome get' border key' (f a) (g cap)) :
    Outcome get' border key' (r >>= f) (oc.bind g) := by
  cases oc with
  | some cap =>
    obtain ⟨a, rfl, hat⟩ := h
    exact hf a cap hat
  | none =>
    obtain ⟨e, rfl⟩ := h
    exact ⟨e, rfl⟩

theorem Outcome.map {β : Type} {get : α → KeyMarshal} {get' : β → KeyMarshal}
    {r : Except Fault α} {f : α → β} {oc : Option Nat} (h : Outcome get border key r oc)
    (hf : ∀ a, get' (f a) = get a) :
    Outcome get' border key (r >>= fun a => pure (f a)) oc := by
  have hbind : Outcome get' border key (r >>= fun a => pure (f a)) (oc.bind some) :=
    h.bind fun a cap hat => ⟨f a, rfl, (hf a).symm ▸ hat⟩
  cases oc <;> exact hbind

theorem Stands.reserve (h : Stands m border key cap) (n : Nat) :
    (m.buf_.reserve n).len_ = key.length ∧ (m.buf_.reserve n).buf_len_ = max cap n ∧
      (m.buf_.reserve n).bytes.take key.length = key := by
  obtain ⟨more, hmore, hcap, hlen⟩ := m.buf_.bytes_reserve n
  have hle : key.length ≤ m.buf_.bytes.length := by
    have := h.le
    have hcap : m.buf_.bytes.length = cap := h.cap
    omega
  refine ⟨hlen.trans h.len, by rw [hcap, h.cap], ?_⟩
  rw [hmore, List.take_append_of_le_length hle, h.key]

/-- What `process_int`, the stores of bytes and `border` do with the buffer: memory for `n`
    bytes is reserved, and `bytes` are put behind the key, with `tail` after them. -/
theorem append_outcome (h : Stands m border key cap) (n : Nat) (bytes tail : List UInt8)
    (data : Except Fault (List UInt8)) (check : Bool) (hdata : data = .ok (bytes ++ tail))
    (hcheck : check = true) :
    Outcome id border (key ++ bytes)
      (do let p ← (m.buf_.reserve n).endBuf
          let data ← data
          let b ← (m.buf_.reserve n).store p data
          assert check
          let b ← b.setLen (b.len_ + bytes.length)
          pure { m with buf_ := b })
      (if key.length < max cap n ∧ key.length + (bytes ++ tail).length ≤ max cap n
        then some (max cap n) else none) := by
  obtain ⟨hlen, hcap, hkey⟩ := h.reserve n
  subst hdata hcheck
  by_cases hlt : key.length < max cap n
  · -- `end` asks for a byte of memory, and `memcpy` for as many as it copies
    have hend : (m.buf_.reserve n).endBuf = .ok (m.buf_.reserve n).len_ :=
      ExpandableBuffer.endBuf_eq (by omega)
    by_cases hfit : key.length + (bytes ++ tail).length ≤ max cap n
    · obtain ⟨b', hstore, hlen', hcap', hkey'⟩ :=
        ExpandableBuffer.store_eq bytes tail hlen hkey (hcap.symm ▸ hfit)
      have hset : b'.setLen (b'.len_ + bytes.length) =
          .ok { b' with len_ := b'.len_ + bytes.length } := by
        have hle : b'.len_ + bytes.length ≤ b'.buf_len_ := by
          rw [List.length_append] at hfit
          omega
        unfold ExpandableBuffer.setLen
        rw [decide_eq_true hle]
        rfl
      rw [if_pos ⟨hlt, hfit⟩, hend]
      refine ⟨{ m with buf_ := { b' with len_ := b'.len_ + bytes.length } }, ?_, ?_⟩
      · show ((m.buf_.reserve n).store (m.buf_.reserve n).len_ (bytes ++ tail) >>= _) = _
        rw [hstore]
        show (b'.setLen (b'.len_ + bytes.length) >>= _) = _
        rw [hset]
        rfl
      · refine ⟨h.error, h.border, ?_, hkey', hcap'.trans hcap⟩
        show b'.len_ + bytes.length = (key ++ bytes).length
        rw [hlen', hlen, List.length_append]
    · have hout : ¬ (m.buf_.reserve n).len_ + (bytes ++ tail).length ≤
          (m.buf_.reserve n).buf_len_ := by
        rw [hlen, hcap]
        exact hfit
      rw [if_neg fun h => hfit h.2, hend]
      refine ⟨.outOfBounds, ?_⟩
      show ((m.buf_.reserve n).store (m.buf_.reserve n).len_ (bytes ++ tail) >>= _) = _
      rw [ExpandableBuffer.store, if_neg hout]
      rfl
  · rw [if_neg fun h => hlt h.1, ExpandableBuffer.endBuf_error (by omega)]
    exact ⟨_, rfl⟩

theorem processInt_outcome (h : Stands m border key cap) (i : UInt32) {size : UInt32}
    {format : Format} (hsize : (format.print i).length = size.toNat) :
    Outcome id border (key ++ (format.print i)) (m.processInt i size format)
      ((Piece.int (format.print i)).room border key.length cap) := by
  have hout := append_outcome h (key.length + size.toNat + 1) (format.print i) [0]
    (.ok ((format.print i).take size.toNat ++ [0]))
    (decide ((format.print i).length = size.toNat)) (by rw [List.take_of_length_le hsize.le])
    (decide_eq_true hsize)
  -- the NUL behind the digits was reserved too
  have hroom : key.length < max cap (key.length + size.toNat + 1) ∧
      key.length + (format.print i ++ [0]).length ≤ max cap (key.length + size.toNat + 1) := by
    rw [List.length_append, List.length_singleton, hsize]
    omega
  rw [if_pos hroom] at hout
  unfold processInt
  rw [h.error, h.len]
  rw [hsize, h.error] at hout
  rw [Piece.room, hsize]
  exact hout

theorem putBytes_outcome (h : Stands m border key cap) {bp : Option (List UInt8)}
    {bytes : List UInt8} (hread : readBytes bp bytes.length = .ok bytes) :
    Outcome id border (key ++ bytes) (m.putBytes bp bytes.length)
      ((Piece.data bytes).room border key.length cap) := by
  have hout := append_outcome h (key.length + bytes.length) bytes []
    (readBytes bp bytes.length) true (by rw [hread, List.append_nil]) rfl
  have hroom : key.length + (bytes ++ []).length ≤ max cap (key.length + bytes.length) := by
    rw [List.append_nil]
    omega
  simp only [hroom, and_true] at hout
  unfold putBytes
  rw [h.len]
  exact hout

theorem border_outcome (h : Stands m border key cap) :
    Outcome id border (key ++ borderText border) m.border
      (Piece.border.room border key.length cap) := by
  unfold KeyMarshal.border
  rw [h.error, h.border]
  match border with
  | none => exact ⟨m, rfl, (List.append_nil key).symm ▸ h⟩
  | some text =>
    -- the length is counted in 32 bits
    have hlength : (text.take (UInt32.ofNat text.length).toNat).length =
        (UInt32.ofNat text.length).toNat := by
      rw [List.length_take, UInt32.toNat_ofNat']
      exact Nat.min_eq_left (Nat.mod_le ..)
    have hread : readBytes (some text) (UInt32.ofNat text.length).toNat =
        .ok (text.take (UInt32.ofNat text.length).toNat) := by
      apply if_pos
      rw [UInt32.toNat_ofNat']
      exact Nat.mod_le ..
    have hout := append_outcome h (UInt32.ofNat text.length).toNat
      (text.take (UInt32.ofNat text.length).toNat) []
      (readBytes (some text) (UInt32.ofNat text.length).toNat) true
      (by rw [hread, List.append_nil]) rfl
    rw [List.append_nil, hlength, h.error, h.border] at hout
    show Outcome id _ (key ++ text.take (UInt32.ofNat text.length).toNat) _ _
    simp only [Piece.room, borderText, hlength]
    exact hout

theorem endAction_outcome (h : Stands m border key cap) :
    Outcome id border key m.endAction (Piece.nul.room border key.length cap) := by
  obtain ⟨hlen, hcap, hkey⟩ := h.reserve 1
  unfold endAction Piece.room
  by_cases hlt : key.length < max cap 1
  · have hend : (m.buf_.reserve 1).endBuf = .ok (m.buf_.reserve 1).len_ :=
      ExpandableBuffer.endBuf_eq (by omega)
    obtain ⟨b', hstore, hlen', hcap', hkey'⟩ :=
      ExpandableBuffer.store_eq [] [0] hlen hkey (by simp; omega)
    rw [if_pos hlt]
    refine ⟨{ m with buf_ := b' }, ?_, h.error, h.border, hlen'.trans hlen, ?_, hcap'.trans hcap⟩
    · simp only [hend, bind, Except.bind]
      rw [List.nil_append] at hstore
      rw [hstore]
      rfl
    · rw [List.append_nil] at hkey'
      exact hkey'
  · rw [if_neg hlt]
    have hend : (m.buf_.reserve 1).endBuf = .error .assertFailed :=
      ExpandableBuffer.endBuf_error (by omega)
    exact ⟨.assertFailed, by simp only [hend]; rfl⟩

/-! ### Fields -/

theorem length_zeroHex {width : Nat} (hpos : 0 < width) {i : UInt32} (h : i.toNat < 16 ^ width) :
    ((Format.zeroHex width).print i).length = width :=
  Hex.length_pad (Hex.length_digits_le hpos h)

theorem length_zeroHex_eight (i : UInt32) : ((Format.zeroHex 8).print i).length = 8 :=
  length_zeroHex (by decide) i.toNat_lt

theorem length_zeroHex_four (i : UInt16) :
    ((Format.zeroHex 4).print i.toUInt32).length = 4 := by
  apply length_zeroHex (by decide)
  rw [UInt16.toNat_toUInt32]
  exact i.toNat_lt

theorem length_zeroHex_two (i : UInt8) : ((Format.zeroHex 2).print i.toUInt32).length = 2 := by
  apply length_zeroHex (by decide)
  rw [UInt8.toNat_toUInt32]
  exact i.toNat_lt

theorem length_spaceHex (i : UInt32) : ((Format.spaceHex 16).print i).length = 16 :=
  Hex.length_pad (Hex.length_digits_le (by decide) (Nat.lt_of_lt_of_le i.toNat_lt (by decide)))

private theorem then_border {p : Piece} {r : Except Fault KeyMarshal}
    (h : Outcome id border (key ++ p.text border) r (p.room border key.length cap)) :
    Outcome id border (key ++ texts border [p, .border]) (r >>= fun m => m.border)
      (room border [p, .border] key.length cap) := by
  have hkey : key ++ texts border [p, .border] = key ++ p.text border ++ borderText border := by
    rw [texts_cons, texts_cons, texts_nil, List.append_nil, List.append_assoc]
    rfl
  rw [hkey]
  apply h.bind
  intro m' cap' hat
  rw [← List.length_append, room_singleton]
  exact border_outcome hat

theorem processFixed_outcome (h : Stands m border key cap) (x : FixedField) :
    Outcome id border (key ++ texts border [fixedPiece x, .border]) (m.processFixed x)
      (room border [fixedPiece x, .border] key.length cap) := by
  cases x with
  | u64 i => exact then_border (processInt_outcome h _ (length_spaceHex i.toUInt32))
  | u32 i => exact then_border (processInt_outcome h _ (length_zeroHex_eight i))
  | u16 i => exact then_border (processInt_outcome h _ (length_zeroHex_four i))
  | u8 i => exact then_border (processInt_outcome h _ (length_zeroHex_two i))
  | bool b =>
    have hlength : ((Format.dec 1).print (if b then 1 else 0)).length = 1 := by cases b <;> rfl
    exact then_border (processInt_outcome h _ hlength)
  | buf bp =>
    unfold processFixed
    rw [h.error]
    exact then_border (putBytes_outcome h (readBytes_self bp.bytes))

theorem counted_outcome (h : Stands m border key cap) {bp : Option (List UInt8)}
    {bytes : List UInt8} (hread : readBytes bp bytes.length = .ok bytes) :
    Outcome id border (key ++ texts border (countedPieces bytes))
      (do let m ← m.processInt (.ofNat bytes.length) 8 (.zeroHex 8)
          let m ← m.putBytes bp bytes.length
          m.border)
      (room border (countedPieces bytes) key.length cap) := by
  rw [countedPieces, texts_cons, ← List.append_assoc]
  apply (processInt_outcome h _ (length_zeroHex_eight _)).bind
  intro m' cap' hat
  rw [← List.length_append]
  exact then_border (putBytes_outcome hat hread)

theorem processCarrier_outcome (h : Stands m border key cap) {c : BufferCarrier}
    {bytes : List UInt8} (hlen : c.len_ = bytes.length)
    (hread : readBytes c.buf_ c.len_ = .ok bytes) :
    Outcome id border (key ++ texts border (countedPieces bytes)) (m.processCarrier c)
      (room border (countedPieces bytes) key.length cap) := by
  unfold processCarrier
  rw [h.error, hlen]
  exact counted_outcome h (hlen ▸ hread)

theorem takeWhile_terminator {t : UInt8} {data : List UInt8} (hdata : t ∉ data)
    (mem : List UInt8) : (data ++ t :: mem).takeWhile (· != t) = data := by
  rw [List.takeWhile_append_of_pos, List.takeWhile_cons_of_neg (by simp), List.append_nil]
  intro b hb
  simpa using fun hbt : b = t => hdata (hbt ▸ hb)

private theorem processObject_outcome (h : Stands m border key cap) {x : α}
    {serialize : KeyMarshal → Except Fault (KeyMarshal × α)} {ps : List Piece}
    (hserialize : Outcome Prod.fst border (key ++ texts border ps)
      (serialize { m with error_ := false }) (room border ps key.length cap)) :
    Outcome Prod.fst border (key ++ texts border (ps ++ [.nul, .border]))
      (m.processObject x serialize) (room border (ps ++ [.nul, .border]) key.length cap) := by
  unfold processObject
  rw [h.error, room_append, texts_append, ← List.append_assoc]
  apply hserialize.bind
  intro a cap' hat
  rw [← List.length_append]
  apply (endAction_outcome hat).bind
  intro m' cap'' hat'
  rw [Piece.text, List.length_nil, Nat.add_zero, room_singleton, texts_cons, texts_cons, texts_nil,
    List.append_nil]
  exact (border_outcome hat').map fun _ => rfl

variable {o : SerializableObject}

private theorem processAll_outcome_of
    (hfields : ∀ f ∈ o, ∀ (m : KeyMarshal) key cap, Stands m border key cap →
      Outcome Prod.fst border (key ++ texts border (pieces f)) (m.process f)
        (room border (pieces f) key.length cap)) (h : Stands m border key cap) :
    Outcome Prod.fst border (key ++ texts border (allPieces o)) (m.processAll o)
      (room border (allPieces o) key.length cap) := by
  induction o generalizing m key cap with
  | nil =>
    refine ⟨(m, []), rfl, ?_⟩
    rw [allPieces, texts_nil, List.append_nil]
    exact h
  | cons f o ih =>
    rw [allPieces, texts_append, room_append, ← List.append_assoc]
    apply (hfields f List.mem_cons_self m key cap h).bind
    intro a cap' hat
    rw [← List.length_append]
    apply (ih (fun g hg => hfields g (List.mem_cons_of_mem f hg)) hat).map
    exact fun _ => rfl

/-- A field is appended to the key where there is memory for its pieces. -/
theorem process_outcome (f : Field) (hf : f.Copyable) : ∀ (m : KeyMarshal) key cap,
    Stands m border key cap →
      Outcome Prod.fst border (key ++ texts border (pieces f)) (m.process f)
        (room border (pieces f) key.length cap) := by
  induction f using Field.ind with
  | fixed x => exact fun m key cap h => (processFixed_outcome h x).map fun _ => rfl
  | carrier c =>
    intro m key cap h
    obtain ⟨data, hread⟩ := hf
    have hdata : (c.buf_.getD []).take c.len_ = data := bytes_of_readBytes hread
    rw [pieces, hdata]
    exact (processCarrier_outcome h (length_of_readBytes hread).symm hread).map fun _ => rfl
  | terminated c t =>
    intro m key cap h
    obtain ⟨data, mem, hbuf, hdata⟩ := hf
    have hset : readBytes (c.setLen data.length).buf_ data.length = .ok data := by
      show readBytes c.buf_ data.length = _
      rw [hbuf, readBytes_append]
    have hcarrier : Outcome id border (key ++ texts border (countedPieces data))
        (m.processCarrier (c.setLen data.length))
        (room border (countedPieces data) key.length cap) := processCarrier_outcome h rfl hset
    rw [pieces, hbuf, Option.getD_some, takeWhile_terminator hdata]
    have hpair : Outcome Prod.fst border (key ++ texts border (countedPieces data))
        (m.processCarrier (c.setLen data.length) >>= fun m' => pure (m', c.setLen data.length))
        (room border (countedPieces data) key.length cap) := hcarrier.map fun _ => rfl
    unfold process processTerminated
    simp only [h.error, hbuf, Marshal.findTerminator_append hdata]
    exact hpair.map fun _ => rfl
  | string str =>
    intro m key cap h
    unfold process processString
    rw [h.error]
    exact (counted_outcome h (readBytes_self str)).map fun _ => rfl
  | object fields ih =>
    intro m key cap h
    have hfields := processAll_outcome_of (fun f hmem => ih f hmem (hf.mem f hmem))
      (show Stands { m with error_ := false } border key cap from
        ⟨rfl, h.border, h.len, h.key, h.cap⟩)
    exact (processObject_outcome h hfields).map fun _ => rfl
  | vector builder elems _ ih =>
    intro m key cap h
    have hstart : Stands { m with error_ := false } border key cap :=
      ⟨rfl, h.border, h.len, h.key, h.cap⟩
    have hvector : pieces (.vector builder elems) =
        ([.int (lenText elems.length), .border] ++ allPieces elems) ++ [.nul, .border] :=
      (List.append_assoc ..).symm
    -- the number of elements, and then the elements
    have hserialize : Outcome Prod.fst border
        (key ++ texts border ([.int (lenText elems.length), .border] ++ allPieces elems))
        (({ m with error_ := false } : KeyMarshal).processFixed (.u32 (.ofNat elems.length)) >>=
          fun m => m.processAll elems)
        (room border ([.int (lenText elems.length), .border] ++ allPieces elems) key.length
          cap) := by
      rw [room_append, texts_append, ← List.append_assoc]
      apply (processFixed_outcome hstart (.u32 (.ofNat elems.length))).bind
      intro m' cap' hat
      rw [← List.length_append]
      exact processAll_outcome_of (fun f hmem => ih f hmem (hf.mem f hmem)) hat
    rw [hvector]
    exact (processObject_outcome h hserialize).map fun _ => rfl

theorem processAll_outcome (ho : AllCopyable o) (h : Stands m border key cap) :
    Outcome Prod.fst border (key ++ encodeAll border o) (m.processAll o)
      (room border (allPieces o) key.length cap) :=
  processAll_outcome_of (fun f hf => process_outcome f (ho.mem f hf)) h

theorem action_outcome (ho : AllCopyable o)
    (border : Option (List UInt8)) {b : ExpandableBuffer} (hb : b.len_ ≤ b.buf_len_) :
    Outcome (fun r => r.2.1) border (b.bytes.take b.len_ ++ encodeAll border o)
      ((new b border).action o) (room border (allPieces o ++ [.nul]) b.len_ b.buf_len_) := by
  have hlen : (b.bytes.take b.len_).length = b.len_ := by
    rw [List.length_take]
    exact Nat.min_eq_left hb
  have hstart : Stands { new b border with error_ := false } border (b.bytes.take b.len_)
      b.buf_len_ := ⟨rfl, rfl, hlen.symm, by rw [hlen]; rfl, rfl⟩
  have hout := processAll_outcome ho hstart
  rw [hlen] at hout
  -- the object, and the NUL behind it
  rw [room_append]
  apply hout.bind
  intro a cap hat
  have hend := endAction_outcome hat
  rw [List.length_append, hlen] at hend
  rw [room_singleton]
  exact hend.map fun _ => rfl

private theorem action_outcome_empty (ho : AllFit o)
    (border : Option (List UInt8)) (mem : Option (List UInt8)) :
    Outcome (fun r => r.2.1) border (encodeAll border o) ((new ⟨mem, 0⟩ border).action o)
      (room border (allPieces o ++ [.nul]) 0 (mem.getD []).length) := by
  have hb : (ExpandableBuffer.mk mem 0).len_ ≤ (ExpandableBuffer.mk mem 0).buf_len_ :=
    Nat.zero_le _
  exact action_outcome ho.copyable border hb

theorem action_of_roomy (ho : AllFit o) {mem : Option (List UInt8)}
    (h : Roomy border (mem.getD []).length o) :
    ∃ m' o', (new ⟨mem, 0⟩ border).action o = .ok (0, m', o') ∧ m'.key = encodeAll border o := by
  obtain ⟨cap, hcap⟩ := Option.isSome_iff_exists.1 h
  have hout := action_outcome_empty ho border mem
  rw [hcap] at hout
  obtain ⟨⟨code, m', o'⟩, haction, hat⟩ := hout
  have hkey : m'.key = encodeAll border o := by
    rw [key, hat.len]
    exact hat.key
  have hcode : code = 0 := by
    obtain ⟨⟨m₁, o₁⟩, -, hend⟩ := bind_eq_ok.1 haction
    obtain ⟨m₂, -, hres⟩ := bind_eq_ok.1 hend
    cases hres
    have herr : m'.error_ = false := hat.error
    rw [herr]
    rfl
  exact ⟨m', o', hcode ▸ haction, hkey⟩

theorem roomy_of_action (ho : AllFit o) {mem : Option (List UInt8)}
    {r : Int × KeyMarshal × SerializableObject}
    (h : (new ⟨mem, 0⟩ border).action o = .ok r) : Roomy border (mem.getD []).length o := by
  have hout := action_outcome_empty ho border mem
  unfold Roomy
  cases hroom : room border (allPieces o ++ [.nul]) 0 (mem.getD []).length with
  | some cap => rfl
  | none =>
    rw [hroom, h] at hout
    obtain ⟨e, herror⟩ := hout
    cases herror

end KeyMarshal

end Oasys
