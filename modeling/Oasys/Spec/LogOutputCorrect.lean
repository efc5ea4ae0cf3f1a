import Oasys.Debug.LogOutput

/-!
# Correctness of the log output

`gen_prefix` writes as much of the prefix as there is room for, and returns the length of all of
it (`genPrefix_spec`). `log` takes that length for what is in its buffer, so its output is right
exactly where the prefix fits (`log_exact_iff`). `vlogf` keeps within its buffer, but the marker
of a line that it cuts off is cut off as well (`vlogf_bounded`).
-/

namespace Oasys.Log

/-! ### gen_prefix -/

section Memory

variable {mem : List UInt8} {room : Nat}

theorem store_eq {bytes : List UInt8} {ptr : Nat} (h : ptr + bytes.length ≤ mem.length) :
    store mem ptr bytes = .ok (mem.take ptr ++ bytes ++ mem.drop (ptr + bytes.length)) := by
  rw [store, if_pos h]
  rfl

theorem load_eq {ptr len : Nat} (h : ptr + len ≤ mem.length) :
    load mem ptr len = .ok ((mem.drop ptr).take len) := by
  rw [load, if_pos h]
  rfl

/-- What `gen_prefix` has made of a text so far, with some room for it. -/
structure After (mem : List UInt8) (room : Nat) (text : List UInt8) (g : Prefix) : Prop where
  length : g.mem.length = mem.length
  prefix_len : g.prefix_len = text.length
  ptr : g.ptr = min text.length room
  buflen : g.buflen = room - text.length
  written : g.mem.take (min text.length (room - 1)) = text.take (room - 1)
  behind : g.mem.drop room = mem.drop room

theorem after_nil (mem : List UInt8) (room : Nat) :
    After mem room [] { mem, ptr := 0, buflen := room, prefix_len := 0 } :=
  ⟨rfl, rfl, by simp, rfl, by simp, rfl⟩

theorem After.put {text : List UInt8} {g : Prefix} (h : After mem room text g)
    (hfits : room ≤ mem.length) (more : List UInt8) :
    ∃ g', g.put more = .ok g' ∧ After mem room (text ++ more) g' := by
  have hlength : (text ++ more).length = text.length + more.length := List.length_append
  have hptr := h.ptr
  have hbuflen := h.buflen
  have hmem := h.length
  have hnext : ∀ mem', mem'.length = mem.length →
      mem'.take (min (text ++ more).length (room - 1)) = (text ++ more).take (room - 1) →
      mem'.drop room = mem.drop room →
      After mem room (text ++ more)
        { mem := mem'
          ptr := g.ptr + (if more.length > g.buflen then g.buflen else more.length)
          buflen := g.buflen - (if more.length > g.buflen then g.buflen else more.length)
          prefix_len := g.prefix_len + more.length } := by
    intro mem' hlength' hwritten hbehind
    refine ⟨hlength', ?_, ?_, ?_, hwritten, hbehind⟩
    · rw [h.prefix_len, hlength]
    · rw [hlength]
      dsimp only
      split <;> omega
    · rw [hlength]
      dsimp only
      split <;> omega
  by_cases hroom : g.buflen = 0
  · -- there is no room any more
    refine ⟨_, ?_, hnext g.mem h.length ?_ h.behind⟩
    · rw [Prefix.put, snprintf, if_pos hroom]
      rfl
    · have hwritten := h.written
      rw [Nat.min_eq_right (by omega)] at hwritten ⊢
      rw [hwritten, List.take_append_of_le_length (by omega)]
  · have hprinted : (more.take (g.buflen - 1) ++ [0]).length =
        min (g.buflen - 1) more.length + 1 := by
      rw [List.length_append, List.length_take]
      rfl
    have hwritten := h.written
    rw [Nat.min_eq_left (by omega), List.take_of_length_le (by omega : text.length ≤ room - 1)]
      at hwritten
    have hstored : g.ptr + (more.take (g.buflen - 1) ++ [0]).length ≤ g.mem.length := by omega
    have hfront : g.mem.take g.ptr = text := by
      rw [hptr, Nat.min_eq_left (by omega), hwritten]
    refine ⟨_, ?_, hnext (text ++ (more.take (g.buflen - 1) ++ [0]) ++
      g.mem.drop (g.ptr + (more.take (g.buflen - 1) ++ [0]).length)) ?_ ?_ ?_⟩
    · rw [Prefix.put, snprintf, if_neg hroom, store_eq hstored, hfront]
      rfl
    · rw [List.length_append, List.length_append, List.length_drop]
      omega
    · have htext : (text ++ more).take (room - 1) = text ++ more.take (g.buflen - 1) := by
        rw [List.take_append, List.take_of_length_le (by omega)]
        congr 2
        omega
      have hcount : min (text ++ more).length (room - 1) =
          (text ++ more.take (g.buflen - 1)).length := by
        rw [List.length_append, List.length_append, List.length_take]
        omega
      rw [htext, hcount, ← List.append_assoc, List.append_assoc (text ++ _), List.take_left]
    · have hcount : (text ++ (more.take (g.buflen - 1) ++ [0])).length =
          g.ptr + (more.take (g.buflen - 1) ++ [0]).length := by
        rw [List.length_append]
        omega
      rw [← h.behind, List.drop_append, hcount, List.drop_of_length_le (by omega), List.nil_append,
        List.drop_drop]
      congr 1
      omega

/-- The prefix of a message. -/
def prefixText (o : Logger) (path : List UInt8) (level : LogLevel)
    (classname : Option (List UInt8)) (obj : Nat) (t : Time) : List UInt8 :=
  o.beginText ++ (if o.outputs OUTPUT_TIME then timeText t else []) ++
    (if o.outputs OUTPUT_PATH then o.nameText path else []) ++
    (if o.outputs OUTPUT_CLASSNAME then o.nameText (classname.getD (ascii "(No_Class)")) else []) ++
    (if o.outputs OUTPUT_OBJ && obj ≠ 0 then objText obj else []) ++
    (if o.outputs OUTPUT_LEVEL then o.levelText level else []) ++
    (ascii "]" ++ o.colorEnd ++ ascii " ")

theorem After.putIf {text : List UInt8} {g : Prefix} (h : After mem room text g)
    (hfits : room ≤ mem.length) (cond : Bool) (more : List UInt8) :
    ∃ g', g.putIf cond more = .ok g' ∧ After mem room (text ++ if cond then more else []) g' := by
  cases cond with
  | false => exact ⟨g, rfl, by simpa using h⟩
  | true => exact h.put hfits more

/-- `gen_prefix` writes as much as there is room for, and nothing behind that, and returns the
    length of all of it. -/
theorem genPrefix_spec (o : Logger) (path : List UInt8) (level : LogLevel)
    (classname : Option (List UInt8)) (obj : Nat) (t : Time) (hfits : room ≤ mem.length) :
    ∃ mem', o.genPrefix mem room path level classname obj t =
        .ok (mem', (prefixText o path level classname obj t).length) ∧
      mem'.length = mem.length ∧
      mem'.take (min (prefixText o path level classname obj t).length (room - 1)) =
        (prefixText o path level classname obj t).take (room - 1) ∧
      mem'.drop room = mem.drop room := by
  obtain ⟨g₁, h₁, hafter⟩ := (after_nil mem room).put hfits o.beginText
  obtain ⟨g₂, h₂, hafter⟩ := hafter.putIf hfits (o.outputs OUTPUT_TIME) (timeText t)
  obtain ⟨g₃, h₃, hafter⟩ := hafter.putIf hfits (o.outputs OUTPUT_PATH) (o.nameText path)
  obtain ⟨g₄, h₄, hafter⟩ := hafter.putIf hfits (o.outputs OUTPUT_CLASSNAME)
    (o.nameText (classname.getD (ascii "(No_Class)")))
  obtain ⟨g₅, h₅, hafter⟩ := hafter.putIf hfits (o.outputs OUTPUT_OBJ && obj ≠ 0) (objText obj)
  obtain ⟨g₆, h₆, hafter⟩ := hafter.putIf hfits (o.outputs OUTPUT_LEVEL) (o.levelText level)
  obtain ⟨g₇, h₇, hafter⟩ := hafter.put hfits (ascii "]" ++ o.colorEnd ++ ascii " ")
  rw [List.nil_append] at hafter
  refine ⟨g₇.mem, ?_, hafter.length, hafter.written, hafter.behind⟩
  rw [Logger.genPrefix, h₁, ok_bind, h₂, ok_bind, h₃, ok_bind, h₄, ok_bind, h₅, ok_bind, h₆,
    ok_bind, h₇, ok_bind, hafter.prefix_len]
  rfl

end Memory

/-! ### log -/

/-- The lines of a message, each with its newline. -/
def linesOf : List UInt8 → List (List UInt8)
  | [] => []
  | c :: msg =>
    if c = 10 then [c] :: linesOf msg
    else
      match linesOf msg with
      | [] => [[c]]
      | line :: lines => (c :: line) :: lines

theorem flatten_linesOf (msg : List UInt8) : (linesOf msg).flatten = msg := by
  induction msg with
  | nil => rfl
  | cons c msg ih =>
    rw [linesOf]
    split
    · rw [List.flatten_cons, ih]
      rfl
    · split
      · rename_i hnil
        rw [hnil] at ih
        rw [← ih]
        rfl
      · rename_i line lines hlines
        rw [hlines, List.flatten_cons] at ih
        rw [List.flatten_cons, List.cons_append, ih]

theorem linesOf_of_mem {msg : List UInt8} (h : 10 ∈ msg) :
    linesOf msg = (msg.takeWhile (· ≠ 10) ++ [10]) ::
      linesOf (msg.drop (msg.takeWhile (· ≠ 10) ++ [10]).length) := by
  induction msg with
  | nil => cases h
  | cons c msg ih =>
    rw [linesOf]
    by_cases hc : c = 10
    · subst hc
      rw [if_pos rfl, List.takeWhile_cons_of_neg (by decide)]
      rfl
    · have hmem := (List.mem_cons.1 h).resolve_left fun heq => hc heq.symm
      rw [if_neg hc, ih hmem, List.takeWhile_cons_of_pos (by simp [hc])]
      rfl

def Entry.text (e : Entry) : List UInt8 := e.iov_base.take e.iov_len

def Entry.Fits (e : Entry) : Prop := e.iov_len ≤ e.iov_base.length

/-- The vectors that have been accumulated for some lines. -/
def vectors (pre : Entry) (es : List Entry) : List Entry := es.flatMap fun e => [pre, e]

def vectorsText (pre : Entry) (es : List Entry) : List UInt8 :=
  es.flatMap fun e => pre.text ++ e.text

section Output

variable {B : Build} {o : Logger} {pre : Entry} {es : List Entry} {msg data : List UInt8}
  {rval ret : Int} {fuel IOV_MAX : Nat}

theorem Entry.Fits.load {e : Entry} (h : e.Fits) :
    Log.load e.iov_base 0 e.iov_len = .ok e.text := by
  rw [load_eq (by rw [Nat.zero_add]; exact h)]
  rfl

theorem Entry.Fits.length_text {e : Entry} (h : e.Fits) : e.text.length = e.iov_len := by
  rw [Entry.text, List.length_take, Nat.min_eq_left h]

theorem vectors_concat (pre : Entry) (es : List Entry) (e : Entry) :
    vectors pre es ++ [pre, e] = vectors pre (es ++ [e]) := by
  simp [vectors]

theorem length_vectors (pre : Entry) (es : List Entry) :
    (vectors pre es).length = 2 * es.length := by
  induction es with
  | nil => rfl
  | cons e es ih =>
    have hcons : vectors pre (e :: es) = pre :: e :: vectors pre es := rfl
    rw [hcons, List.length_cons, List.length_cons, ih, List.length_cons]
    omega

theorem mapM_load (hpre : pre.Fits) (hes : ∀ e ∈ es, e.Fits) :
    ∃ ds, (vectors pre es).mapM (fun e => load e.iov_base 0 e.iov_len) = .ok ds ∧
      ds.flatten = vectorsText pre es ∧
      iovecSize (vectors pre es) = (vectorsText pre es).length := by
  induction es with
  | nil => exact ⟨[], rfl, rfl, rfl⟩
  | cons e es ih =>
    obtain ⟨he, hes⟩ := List.forall_mem_cons.1 hes
    obtain ⟨ds, hds, hflat, hsize⟩ := ih hes
    have hcons : vectors pre (e :: es) = pre :: e :: vectors pre es := rfl
    have htext : vectorsText pre (e :: es) = (pre.text ++ e.text) ++ vectorsText pre es := rfl
    refine ⟨pre.text :: e.text :: ds, ?_, ?_, ?_⟩
    · rw [hcons, List.mapM_cons, hpre.load, ok_bind, List.mapM_cons, he.load, ok_bind, hds]
      rfl
    · rw [htext, ← hflat, List.append_assoc]
      rfl
    · rw [htext, List.length_append, List.length_append, ← hsize, hpre.length_text, he.length_text,
        hcons, iovecSize, iovecSize]
      simp only [List.map_cons, List.sum_cons]
      omega

theorem output_vectors (hshutdown : o.shutdown_ = false) (hpre : pre.Fits)
    (hes : ∀ e ∈ es, e.Fits) :
    o.output (vectors pre es) =
      .ok (IntType.int.conv (vectorsText pre es).length, vectorsText pre es) := by
  obtain ⟨ds, hds, hflat, hsize⟩ := mapM_load hpre hes
  rw [Logger.output, if_neg (by simp [hshutdown]), hds, ok_bind, hflat, hsize]
  rfl

theorem output_unfit (hshutdown : o.shutdown_ = false) (hpre : ¬ pre.Fits) (hne : es ≠ []) :
    ∀ r, o.output (vectors pre es) ≠ .ok r := by
  intro r hr
  obtain ⟨e, es', rfl⟩ := List.exists_cons_of_ne_nil hne
  have hcons : vectors pre (e :: es') = pre :: e :: vectors pre es' := rfl
  rw [Logger.output, if_neg (by simp [hshutdown]), hcons, List.mapM_cons] at hr
  obtain ⟨ds, hds, -⟩ := bind_eq_ok.1 hr
  obtain ⟨d, hd, -⟩ := bind_eq_ok.1 hds
  rw [load, if_neg (by rw [Nat.zero_add]; exact hpre)] at hd
  cases hd

def lineEntry (msg : List UInt8) : Entry :=
  { iov_base := msg, iov_len := (msg.takeWhile (· ≠ 10) ++ [10]).length }

theorem lineEntry_spec (h : 10 ∈ msg) :
    (lineEntry msg).Fits ∧ (lineEntry msg).text = msg.takeWhile (· ≠ 10) ++ [10] := by
  have hfront : msg.takeWhile (· ≠ 10) ++ [10] <+: msg := by
    have hflat := flatten_linesOf msg
    rw [linesOf_of_mem h, List.flatten_cons] at hflat
    exact ⟨_, hflat⟩
  exact ⟨hfront.length_le, (List.prefix_iff_eq_take.1 hfront).symm⟩

theorem getLast?_rest {n : Nat} (h : msg = [] ∨ msg.getLast? = some 10) :
    msg.drop n = [] ∨ (msg.drop n).getLast? = some 10 := by
  rw [List.getLast?_drop]
  rcases h with rfl | h
  · exact .inl List.drop_nil
  · by_cases hn : msg.length ≤ n
    · exact .inl (List.drop_of_length_le hn)
    · rw [if_neg hn]
      exact .inr h

theorem logLines_of_mem (h : 10 ∈ msg)
    (hne : (vectors pre (es ++ [lineEntry msg])).length ≤ IOV_MAX) :
    o.logLines B IOV_MAX pre (fuel + 1) msg rval (vectors pre es) =
      if (vectors pre (es ++ [lineEntry msg])).length = IOV_MAX then do
        let (size, data) ← o.output (vectors pre (es ++ [lineEntry msg]))
        let rval ← IntType.int.arith B (rval + size)
        let (rval, rest) ←
          o.logLines B IOV_MAX pre fuel (msg.drop (lineEntry msg).iov_len) rval []
        pure (rval, data ++ rest)
      else
        o.logLines B IOV_MAX pre fuel (msg.drop (lineEntry msg).iov_len) rval
          (vectors pre (es ++ [lineEntry msg])) := by
  rw [Logger.logLines, if_pos h]
  by_cases hfull : (vectors pre (es ++ [lineEntry msg])).length = IOV_MAX
  · rw [if_pos hfull]
    simp only [vectors_concat, lineEntry] at hfull ⊢
    rw [if_pos hfull]
  · rw [if_neg hfull]
    simp only [vectors_concat, lineEntry] at hfull hne ⊢
    rw [if_neg hfull, if_neg (by omega)]

theorem logLines_of_not_mem (h : 10 ∉ msg) :
    o.logLines B IOV_MAX pre (fuel + 1) msg rval (vectors pre es) = (do
      let (size, data) ← o.output (vectors pre es)
      let rval ← IntType.int.arith B (rval + size)
      pure (rval, data)) := by
  rw [Logger.logLines, if_neg h]

theorem arith_lt {z z' : Int} (h : IntType.int.arith B z = .ok z') : z' < 2 ^ 31 := by
  have hrange : ∀ x, IntType.int.InRange x → x < 2 ^ 31 := by
    intro x hx
    simp only [IntType.InRange, IntType.max, IntType.min, IntType.size, IntType.int, if_true] at hx
    omega
  by_cases hwrapv : B.wrapv = true
  · rw [IntType.arith_of_wraps (by decide) (by simp [IntType.Undefined, hwrapv])] at h
    obtain rfl := Except.ok.inj h
    exact hrange _ (IntType.inRange_conv _ _)
  · rw [Bool.not_eq_true] at hwrapv
    by_cases hz : IntType.int.InRange z
    · rw [IntType.arith_of_inRange B hz] at h
      obtain rfl := Except.ok.inj h
      exact hrange _ hz
    · rw [IntType.arith_of_undefined ⟨by decide, rfl, hwrapv⟩ hz] at h
      cases h

theorem arith_add_eq {n : Nat} (hpos : 0 ≤ rval) (h : rval + n < 2 ^ 31) :
    IntType.int.arith B (rval + IntType.int.conv n) = .ok (rval + n) := by
  rw [IntType.int_conv_of_lt (by omega)]
  apply IntType.arith_of_inRange
  simp only [IntType.InRange, IntType.max, IntType.min, IntType.size, IntType.int, if_true]
  omega

def linesText (pre : Entry) (msg : List UInt8) : List UInt8 :=
  (linesOf msg).flatMap fun line => pre.text ++ line

/-- What the loop puts out, and what it returns where that is an `int`. -/
theorem logLines_spec (rval : Int) (es : List Entry) (hshutdown : o.shutdown_ = false)
    (hpre : pre.Fits) (heven : IOV_MAX % 2 = 0) (hmsg : msg = [] ∨ msg.getLast? = some 10)
    (hes : ∀ e ∈ es, e.Fits) (hlen : (vectors pre es).length < IOV_MAX)
    (hfuel : msg.length < fuel) :
    (∀ ret data, o.logLines B IOV_MAX pre fuel msg rval (vectors pre es) = .ok (ret, data) →
      data = vectorsText pre es ++ linesText pre msg ∧ ret < 2 ^ 31) ∧
    (0 ≤ rval → rval + (vectorsText pre es ++ linesText pre msg).length < 2 ^ 31 →
      o.logLines B IOV_MAX pre fuel msg rval (vectors pre es) =
        .ok (rval + (vectorsText pre es ++ linesText pre msg).length,
          vectorsText pre es ++ linesText pre msg)) := by
  -- the induction is on the lines that are left, with the vectors that are accumulated
  induction fuel generalizing msg rval es with
  | zero => exact absurd hfuel (Nat.not_lt_zero _)
  | succ fuel ih =>
    by_cases hmem : 10 ∈ msg
    · obtain ⟨hfits, htext⟩ := lineEntry_spec hmem
      have hlines : linesText pre msg = (pre.text ++ (lineEntry msg).text) ++
          linesText pre (msg.drop (lineEntry msg).iov_len) := by
        rw [linesText, linesOf_of_mem hmem, List.flatMap_cons, htext]
        rfl
      have hes' : ∀ e ∈ es ++ [lineEntry msg], e.Fits := by
        intro e he
        rcases List.mem_append.1 he with he | he
        · exact hes e he
        · rw [List.mem_singleton.1 he]
          exact hfits
      have hvectors : vectorsText pre (es ++ [lineEntry msg]) =
          vectorsText pre es ++ (pre.text ++ (lineEntry msg).text) := by simp [vectorsText]
      have hlength := length_vectors pre es
      have hlength' := length_vectors pre (es ++ [lineEntry msg])
      rw [List.length_append, List.length_singleton] at hlength'
      have hrest : (msg.drop (lineEntry msg).iov_len).length < fuel := by
        have hpos : 0 < (lineEntry msg).iov_len := by simp [lineEntry]
        rw [List.length_drop]
        have hmsgpos := List.length_pos_of_mem hmem
        omega
      rw [logLines_of_mem hmem (by omega), hlines, ← List.append_assoc, ← hvectors]
      by_cases hfull : (vectors pre (es ++ [lineEntry msg])).length = IOV_MAX
      · -- a batch is put out
        rw [if_pos hfull, output_vectors hshutdown hpre hes', ok_bind]
        have hnext := fun rval => ih rval [] (getLast?_rest hmsg) nofun
          (by rw [length_vectors, List.length_nil]; omega) hrest
        have hempty : vectors pre [] = [] := rfl
        have hemptyText : vectorsText pre [] = [] := rfl
        simp only [hempty, hemptyText, List.nil_append] at hnext
        constructor
        · intro ret data hok
          obtain ⟨rval', -, hok⟩ := bind_eq_ok.1 hok
          obtain ⟨⟨ret', rest⟩, hloop, hok⟩ := bind_eq_ok.1 hok
          obtain ⟨rfl, rfl⟩ := Prod.mk.inj (Except.ok.inj hok)
          obtain ⟨hdata, hret⟩ := (hnext rval').1 _ _ hloop
          exact ⟨by rw [hdata], hret⟩
        · intro hpos hlt
          rw [List.length_append] at hlt
          dsimp only
          rw [arith_add_eq hpos (by omega), ok_bind, (hnext _).2 (by omega) (by omega), ok_bind]
          rw [List.length_append]
          push_cast
          rw [Int.add_assoc]
          rfl
      · rw [if_neg hfull]
        exact ih rval _ (getLast?_rest hmsg) hes' (by omega) hrest
    · have hnil : msg = [] := by
        apply hmsg.resolve_right
        intro hlast
        exact hmem (List.mem_of_getLast? hlast)
      subst hnil
      have hlines : linesText pre [] = [] := rfl
      rw [logLines_of_not_mem hmem, output_vectors hshutdown hpre hes, ok_bind, hlines,
        List.append_nil]
      dsimp only
      constructor
      · intro ret data hok
        obtain ⟨rval', harith, hok⟩ := bind_eq_ok.1 hok
        obtain ⟨rfl, rfl⟩ := Prod.mk.inj (Except.ok.inj hok)
        exact ⟨rfl, arith_lt harith⟩
      · intro hpos hlt
        rw [arith_add_eq hpos hlt]
        rfl

theorem logLines_unfit (hshutdown : o.shutdown_ = false) (hpre : ¬ pre.Fits)
    (heven : IOV_MAX % 2 = 0) (hlen : (vectors pre es).length < IOV_MAX)
    (hne : 10 ∈ msg ∨ es ≠ []) (r : Int × List UInt8) :
    o.logLines B IOV_MAX pre fuel msg rval (vectors pre es) ≠ .ok r := by
  induction fuel generalizing msg es with
  | zero => exact nofun
  | succ fuel ih =>
    intro hok
    by_cases hmem : 10 ∈ msg
    · have hlength := length_vectors pre es
      have hlength' := length_vectors pre (es ++ [lineEntry msg])
      rw [List.length_append, List.length_singleton] at hlength'
      have hne' : es ++ [lineEntry msg] ≠ [] := by simp
      rw [logLines_of_mem hmem (by omega)] at hok
      split at hok
      · obtain ⟨x, hx, -⟩ := bind_eq_ok.1 hok
        exact output_unfit hshutdown hpre hne' x hx
      · exact ih (by omega) (.inr hne') hok
    · rw [logLines_of_not_mem hmem] at hok
      obtain ⟨x, hx, -⟩ := bind_eq_ok.1 hok
      exact output_unfit hshutdown hpre (hne.resolve_left hmem) x hx

/-- A message for the path is put out. -/
structure Puts (o : Logger) (path : List UInt8) (level : LogLevel)
    (classname : Option (List UInt8)) : Prop where
  inited : o.rules.inited_ = true
  running : o.shutdown_ = false
  enabled : o.putsOut level path classname = .ok true

/-- Each line of a message, after as much of the prefix as its buffer holds. -/
def prefixedLines (text msg : List UInt8) : List UInt8 :=
  (linesOf msg).flatMap fun line => text.take (sizeofPrefix - 1) ++ line

/-- Each line after the prefix, and the number of all bytes. -/
def Exact (text msg : List UInt8) (r : Int × List UInt8) : Prop :=
  r.2 = prefixedLines text msg ∧ r.1 = (prefixedLines text msg).length

theorem length_flatMap_lines (text msg : List UInt8) :
    ((linesOf msg).flatMap fun line => text ++ line).length =
      (linesOf msg).length * text.length + msg.length := by
  have hlength : ∀ lines : List (List UInt8), (lines.flatMap fun line => text ++ line).length =
      lines.length * text.length + lines.flatten.length := by
    intro lines
    induction lines with
    | nil => simp
    | cons line lines ih =>
      rw [List.flatMap_cons, List.length_append, ih, List.length_append, List.length_cons,
        List.flatten_cons, List.length_append, Nat.add_one_mul]
      omega
  rw [hlength, flatten_linesOf]

variable {buf path : List UInt8} {level : LogLevel} {classname : Option (List UInt8)} {obj : Nat}
  {t : Time}

/-- `log` with `prefix_each_line` puts out each line after its prefix, and returns the number of
    bytes, exactly where the prefix fits into its buffer and the number is an `int`. -/
theorem log_exact_iff (hputs : Puts o path level classname) (hbuf : buf.length = sizeofPrefix)
    (heven : IOV_MAX % 2 = 0) (hiov : 0 < IOV_MAX) (hmsg : msg.getLast? = some 10) :
    (∃ r, o.log B IOV_MAX buf path level classname obj t msg true = .ok r ∧
      Exact (prefixText o path level classname obj t) msg r) ↔
      (prefixText o path level classname obj t).length < sizeofPrefix ∧
        (linesOf msg).length * (prefixText o path level classname obj t).length + msg.length <
          2 ^ 31 := by
  obtain ⟨mem, hgen, hlength, hwritten, -⟩ :=
    genPrefix_spec o path level classname obj t (hbuf.ge : sizeofPrefix ≤ buf.length)
  generalize prefixText o path level classname obj t = text at *
  have hlog : o.log B IOV_MAX buf path level classname obj t msg true =
      o.logLines B IOV_MAX ⟨mem, text.length⟩ (msg.length + 1) msg 0 [] := by
    rw [Logger.log, hputs.inited, assert_true, ok_bind, if_neg (by simp [hputs.running]),
      hputs.enabled, ok_bind]
    simp only [Bool.not_true, Bool.false_eq_true, if_false, hgen, ok_bind, hmsg, if_true,
      decide_true, assert_true]
  have hmem : (10 : UInt8) ∈ msg := List.mem_of_getLast? hmsg
  have hsome : 0 < (linesOf msg).length := by
    rw [linesOf_of_mem hmem]
    exact Nat.succ_pos _
  have hspec := fun hpre : Entry.Fits ⟨mem, text.length⟩ =>
    logLines_spec (B := B) 0 [] hputs.running hpre heven (.inr hmsg) nofun hiov
      (Nat.lt_succ_self msg.length)
  have hempty : vectorsText ⟨mem, text.length⟩ [] = [] := rfl
  have hempty' : vectors ⟨mem, text.length⟩ [] = [] := rfl
  simp only [hempty, hempty', List.nil_append, Int.zero_add] at hspec
  rw [hlog]
  by_cases hfits : text.length < sizeofPrefix
  · have hpre : Entry.Fits ⟨mem, text.length⟩ := by
      show text.length ≤ mem.length
      omega
    have htake : text.take (sizeofPrefix - 1) = text := List.take_of_length_le (by omega)
    have htext : Entry.text ⟨mem, text.length⟩ = text := by
      rw [Nat.min_eq_left (by omega), htake] at hwritten
      exact hwritten
    have hlines : linesText ⟨mem, text.length⟩ msg = prefixedLines text msg := by
      rw [linesText, htext, prefixedLines, htake]
    have hcount : (prefixedLines text msg).length =
        (linesOf msg).length * text.length + msg.length := by
      rw [prefixedLines, htake, length_flatMap_lines]
    obtain ⟨hany, hreturns⟩ := hspec hpre
    rw [hlines] at hany hreturns
    rw [← hcount]
    constructor
    · rintro ⟨⟨ret, data⟩, hok, -, hret⟩
      have hlt := (hany ret data hok).2
      exact ⟨hfits, by dsimp only at hret; omega⟩
    · rintro ⟨-, hlt⟩
      exact ⟨_, hreturns (by omega) (by omega), rfl, rfl⟩
  · refine iff_of_false ?_ fun h => hfits h.1
    rintro ⟨⟨ret, data⟩, hok, hdata, -⟩
    by_cases hpre : Entry.Fits ⟨mem, text.length⟩
    · -- the terminator is put out with the prefix
      have hpos : 0 < sizeofPrefix := by decide
      have hshort : (prefixedLines text msg).length =
          (linesOf msg).length * (sizeofPrefix - 1) + msg.length := by
        rw [prefixedLines, length_flatMap_lines, List.length_take, Nat.min_eq_left (by omega)]
      have hlong : (linesText ⟨mem, text.length⟩ msg).length =
          (linesOf msg).length * text.length + msg.length := by
        rw [linesText, length_flatMap_lines, hpre.length_text]
      have hcount := congrArg List.length ((hspec hpre).1 ret data hok).1
      dsimp only at hdata
      rw [hdata, hshort, hlong] at hcount
      have hless := Nat.mul_lt_mul_of_pos_left (by omega : sizeofPrefix - 1 < text.length) hsome
      omega
    · have hzero : (vectors ⟨mem, text.length⟩ []).length < IOV_MAX := hiov
      exact logLines_unfit hputs.running hpre heven hzero (.inl hmem) _ hok

/-- So does `log_multiline`. -/
theorem log_multiline_exact_iff (hputs : Puts o path level classname)
    (hbuf : buf.length = sizeofPrefix) (heven : IOV_MAX % 2 = 0) (hiov : 0 < IOV_MAX)
    (hmsg : msg.getLast? = some 10) :
    ((∃ r, o.log B IOV_MAX buf path level classname obj t msg true = .ok r ∧
      Exact (prefixText o path level classname obj t) msg r) ↔
      (prefixText o path level classname obj t).length < sizeofPrefix ∧
        (linesOf msg).length * (prefixText o path level classname obj t).length + msg.length <
          2 ^ 31) ∧
    ((∃ r, o.logMultiline B IOV_MAX buf path level classname obj t msg = .ok r ∧
      Exact (prefixText o path level classname obj t) msg r) ↔
      (prefixText o path level classname obj t).length < sizeofPrefix ∧
        (linesOf msg).length * (prefixText o path level classname obj t).length + msg.length <
          2 ^ 31) :=
  ⟨log_exact_iff hputs hbuf heven hiov hmsg, log_exact_iff hputs hbuf heven hiov hmsg⟩

end Output

/-- A `Log` without rules that shows the paths. -/
def pathLogger : Logger :=
  { rules := ⟨[], .info, true⟩, output_flags_ := OUTPUT_PATH, prefix_ := [], shutdown_ := false }

theorem puts_pathLogger (path : List UInt8) : Puts pathLogger path .info none :=
  ⟨rfl, rfl, rfl⟩

/-- Two lines, with a batch for each. -/
theorem log_multiline_exact_iff_two :
    ∃ r, pathLogger.log ⟨true, false⟩ 2 (List.replicate 1024 0) (ascii "/dtn") .info none 0 ⟨0, 0⟩
      (ascii "up\ndown\n") true = .ok r ∧
        Exact (prefixText pathLogger (ascii "/dtn") .info none 0 ⟨0, 0⟩) (ascii "up\ndown\n") r :=
  (log_multiline_exact_iff (puts_pathLogger _) List.length_replicate rfl (by decide)
    (by decide)).1.2 ⟨by decide, by decide⟩

/-- A path that is longer than the buffer: what is behind the buffer is put out. -/
theorem not_log_exact_long_path :
    ¬ ∃ r, pathLogger.log ⟨true, false⟩ 1024 (List.replicate 1024 0)
      (47 :: List.replicate 1100 97) .info none 0 ⟨0, 0⟩ [120, 10] true = .ok r ∧
        Exact (prefixText pathLogger (47 :: List.replicate 1100 97) .info none 0 ⟨0, 0⟩)
          [120, 10] r := by
  intro h
  have hfits := ((log_exact_iff (puts_pathLogger _) List.length_replicate rfl (by decide)
    (by decide)).1 h).1
  exact absurd hfits (by decide +kernel)

/-! ### vlogf -/

section Vlogf

variable {B : Build} {o : Logger} {no_panic : Bool} {buf mem bytes : List UInt8} {ptr : Nat}

theorem store_spec (h : ptr + bytes.length ≤ mem.length) :
    ∃ mem', store mem ptr bytes = .ok mem' ∧ mem'.length = mem.length ∧
      mem'.take (ptr + bytes.length) = mem.take ptr ++ bytes ∧
      ∀ k, ptr + bytes.length ≤ k → mem'.drop k = mem.drop k := by
  have hcount : (mem.take ptr ++ bytes).length = ptr + bytes.length := by
    rw [List.length_append, List.length_take]
    omega
  refine ⟨_, store_eq h, ?_, ?_, ?_⟩
  · rw [List.length_append, hcount, List.length_drop]
    omega
  · rw [← hcount, List.take_left]
  · intro k hk
    rw [List.drop_append, List.drop_of_length_le (by omega), hcount, List.nil_append,
      List.drop_drop]
    congr 1
    omega

/-- The buffer of `vlogf`, with the guard in its place. -/
structure Guarded (buf : List UInt8) : Prop where
  length : buf.length = LOG_MAX_LINELEN + 1 + guard.length
  guard : buf.drop (LOG_MAX_LINELEN + 1) = guard

theorem Guarded.store (h : Guarded buf) (hptr : ptr + bytes.length ≤ LOG_MAX_LINELEN + 1) :
    ∃ buf', store buf ptr bytes = .ok buf' ∧ Guarded buf' ∧
      buf'.take (ptr + bytes.length) = buf.take ptr ++ bytes := by
  have hlength := h.length
  have hfits : ptr + bytes.length ≤ buf.length := by omega
  obtain ⟨buf', hstore, hlength', htake, hdrop⟩ := store_spec hfits
  exact ⟨buf', hstore, ⟨hlength'.trans hlength, (hdrop _ hptr).trans h.guard⟩, htake⟩

def withNewline (text : List UInt8) : List UInt8 :=
  if text.getLast? = some 10 then text else text ++ [10]

/-- A line is put out that is no longer than `LOG_MAX_LINELEN` and ends in a newline, and the guard
    is as it was. -/
structure PutsLine (r : Vlogged) (line : List UInt8) : Prop where
  lines : r.lines = [line]
  ret : r.ret = line.length
  newline : line.getLast? = some 10
  length : line.length ≤ LOG_MAX_LINELEN
  guard : r.buf.drop (LOG_MAX_LINELEN + 1) = guard

theorem output_one (hshutdown : o.shutdown_ = false) {n : Nat} (h : n ≤ buf.length)
    (hn : n < 2 ^ 31) :
    o.output [{ iov_base := buf, iov_len := n }] = .ok ((n : Int), buf.take n) := by
  have hload : load buf 0 n = .ok (buf.take n) := load_eq (by omega)
  have hsize : iovecSize [{ iov_base := buf, iov_len := n }] = n := by simp [iovecSize]
  rw [Logger.output, if_neg (by simp [hshutdown]), List.mapM_cons, hload, ok_bind, hsize,
    IntType.int_conv_of_lt hn]
  simp

theorem load_last (hpos : 0 < ptr) (hptr : ptr ≤ buf.length) :
    ∃ c, load buf (ptr - 1) 1 = .ok [c] ∧ (buf.take ptr).getLast? = some c := by
  have hlt : ptr - 1 < buf.length := by omega
  refine ⟨buf[ptr - 1], ?_, ?_⟩
  · rw [load_eq (by omega), List.drop_eq_getElem_cons hlt]
    rfl
  · rw [List.getLast?_take, if_neg (by omega), List.getElem?_eq_getElem hlt]
    rfl

theorem putsLine_of_guarded (B : Build) (no_panic : Bool) (hshutdown : o.shutdown_ = false)
    (h : Guarded buf)
    {line : List UInt8} (hline : buf.take line.length = line)
    (hnewline : line.getLast? = some 10) (hlen : line.length ≤ LOG_MAX_LINELEN) :
    ∃ r, (do
      let buf ← store buf line.length [0]
      if !B.ndebug && buf.drop (LOG_MAX_LINELEN + 1) ≠ guard then
        if no_panic then pure { ret := -1, lines := [], buf } else throw .panic
      else do
        let (ret, line) ← o.output [{ iov_base := buf, iov_len := line.length }]
        pure { ret, lines := [line], buf }) = (.ok r : Except Fault Vlogged) ∧ PutsLine r line := by
  have hmax : LOG_MAX_LINELEN = 512 := rfl
  have hzero : line.length + [(0 : UInt8)].length ≤ LOG_MAX_LINELEN + 1 := by
    rw [List.length_singleton]
    omega
  obtain ⟨buf', hstore, hguarded, htake⟩ := h.store hzero
  have hlength := hguarded.length
  have hline' : buf'.take line.length = line := by
    have hfront := congrArg (List.take line.length) htake
    rw [List.take_take, Nat.min_eq_left (Nat.le_add_right _ _), hline, List.take_left] at hfront
    exact hfront
  have hout := output_one hshutdown (by omega : line.length ≤ buf'.length) (by omega)
  rw [hstore, ok_bind, if_neg (by simp [hguarded.guard]), hout, ok_bind, hline']
  exact ⟨_, rfl, rfl, rfl, hnewline, hlen, hguarded.guard⟩

theorem vlogfLine_spec (hshutdown : o.shutdown_ = false) (h : Guarded buf) (hpos : 0 < ptr)
    (hptr : ptr < LOG_MAX_LINELEN) :
    ∃ r, o.vlogfLine B no_panic buf ptr = .ok r ∧ PutsLine r (withNewline (buf.take ptr)) := by
  have hlength := h.length
  have htaken : (buf.take ptr).length = ptr := by
    rw [List.length_take]
    omega
  obtain ⟨c, hload, hlast⟩ := load_last hpos (by omega : ptr ≤ buf.length)
  rw [Logger.vlogfLine, if_pos hpos, hload, ok_bind, withNewline, hlast]
  by_cases hc : c = 10
  · subst hc
    have hrest := putsLine_of_guarded B no_panic hshutdown h (by rw [htaken]) hlast (by omega)
    rw [htaken] at hrest
    rw [if_pos rfl]
    simpa using hrest
  · have hone : ptr + [(10 : UInt8)].length ≤ LOG_MAX_LINELEN + 1 := by
      rw [List.length_singleton]
      omega
    have hcount : (buf.take ptr ++ [10]).length = ptr + 1 := by
      rw [List.length_append, htaken]
      rfl
    obtain ⟨buf', hstore, hguarded, htake⟩ := h.store hone
    have hrest := putsLine_of_guarded B no_panic hshutdown hguarded
      (by rw [hcount]; exact htake) List.getLast?_concat (by omega)
    rw [hcount] at hrest
    rw [if_pos (by simpa using hc : [c] ≠ [10]), if_neg (by simpa using hc)]
    simpa [hstore] using hrest

theorem store_guard (hbuf : buf.length = LOG_MAX_LINELEN + 1 + guard.length) :
    ∃ buf', store buf (LOG_MAX_LINELEN + 1) guard = .ok buf' ∧ Guarded buf' := by
  obtain ⟨buf', hstore, hlength, htake, -⟩ := store_spec hbuf.ge
  refine ⟨buf', hstore, hlength.trans hbuf, ?_⟩
  rw [List.take_of_length_le (by omega)] at htake
  rw [htake, List.drop_left']
  rw [List.length_take]
  omega

theorem Guarded.store_front (h : Guarded buf) {str : List UInt8}
    (hstr : str.length ≤ LOG_MAX_LINELEN + 1) :
    ∃ buf', Log.store buf 0 str = .ok buf' ∧ Guarded buf' ∧ buf'.take str.length = str := by
  obtain ⟨buf', hstore, hguarded, htake⟩ := h.store (by omega : 0 + str.length ≤ _)
  refine ⟨buf', hstore, hguarded, ?_⟩
  rwa [Nat.zero_add] at htake

def cutMark : List UInt8 := trunc.take (sizeofTrunc - 1) ++ [10]

theorem vlogf_cut (B : Build) (no_panic : Bool) (hshutdown : o.shutdown_ = false)
    (h : Guarded buf) :
    ∃ r line, (do
      let chars_to_copy := if LOG_MAX_LINELEN > sizeofTrunc then sizeofTrunc else LOG_MAX_LINELEN
      let buf ← store buf (LOG_MAX_LINELEN - chars_to_copy) (trunc.take (chars_to_copy - 1))
      let ptr := LOG_MAX_LINELEN - 1
      let buf ← store buf ptr [0]
      o.vlogfLine B no_panic buf ptr) = (.ok r : Except Fault Vlogged) ∧ PutsLine r line ∧
        cutMark <:+ line := by
  have hmax : LOG_MAX_LINELEN = 512 := rfl
  have hsize : (if LOG_MAX_LINELEN > sizeofTrunc then sizeofTrunc else LOG_MAX_LINELEN) =
      sizeofTrunc := if_pos (by decide)
  have hcopied : LOG_MAX_LINELEN - sizeofTrunc + (trunc.take (sizeofTrunc - 1)).length =
      LOG_MAX_LINELEN - 1 := by decide
  have hcopy : LOG_MAX_LINELEN - sizeofTrunc + (trunc.take (sizeofTrunc - 1)).length ≤
      LOG_MAX_LINELEN + 1 := by omega
  have hzero : LOG_MAX_LINELEN - 1 + [(0 : UInt8)].length ≤ LOG_MAX_LINELEN + 1 := by decide
  obtain ⟨buf₁, hstore₁, hguarded₁, htake₁⟩ := h.store hcopy
  obtain ⟨buf₂, hstore₂, hguarded₂, htake₂⟩ := hguarded₁.store hzero
  have htext : buf₂.take (LOG_MAX_LINELEN - 1) =
      buf.take (LOG_MAX_LINELEN - sizeofTrunc) ++ trunc.take (sizeofTrunc - 1) := by
    have hfront := congrArg (List.take (LOG_MAX_LINELEN - 1)) htake₂
    rw [List.take_take, Nat.min_eq_left (Nat.le_add_right _ _), List.take_append_of_le_length,
      List.take_take, Nat.min_self] at hfront
    · rw [hfront, ← htake₁, hcopied]
    · rw [List.length_take, hguarded₁.length]
      decide
  obtain ⟨r, hline, hputs⟩ := vlogfLine_spec (B := B) hshutdown hguarded₂
    (by decide : 0 < LOG_MAX_LINELEN - 1) (by decide)
  have hnewline : withNewline (buf₂.take (LOG_MAX_LINELEN - 1)) =
      buf.take (LOG_MAX_LINELEN - sizeofTrunc) ++ cutMark := by
    rw [htext, withNewline, if_neg, List.append_assoc]
    · rfl
    · have hlast : (trunc.take (sizeofTrunc - 1)).getLast? = some 114 := by decide
      rw [List.getLast?_append, hlast]
      simp
  rw [hnewline] at hputs
  refine ⟨r, _, ?_, hputs, List.suffix_append _ _⟩
  simp only [hsize, hstore₁, ok_bind, hstore₂]
  exact hline

/-- A line is what `vlogf` documents: the text with a newline where it is short enough, and one
    that ends in the marker otherwise. -/
def Documented (text message line : List UInt8) : Prop :=
  if text.length + message.length < LOG_MAX_LINELEN then line = withNewline (text ++ message)
  else trunc ++ [10] <:+ line

theorem not_trunc_suffix {line : List UInt8} (h : cutMark <:+ line) : ¬ trunc ++ [10] <:+ line := by
  intro hsuffix
  have hless : cutMark <:+ trunc ++ [10] :=
    List.suffix_of_suffix_length_le h hsuffix (by decide)
  exact absurd hless (by decide)

theorem prefixText_concat (o : Logger) (path : List UInt8) (level : LogLevel)
    (classname : Option (List UInt8)) (obj : Nat) (t : Time) :
    ∃ front, prefixText o path level classname obj t = front ++ [32] := by
  rw [prefixText]
  exact ⟨_, (List.append_assoc _ _ _).symm.trans (congrArg _ rfl)⟩

variable {path : List UInt8} {level : LogLevel} {classname : Option (List UInt8)} {obj : Nat}
  {t : Time} {fmt : List Conversion}

theorem vlogf_eq (B : Build) (no_panic : Bool) (obj : Nat) (t : Time) (fmt : List Conversion)
    (hputs : Puts o (pathBuf path) level classname)
    (hbuf : buf.length = LOG_MAX_LINELEN + 1 + guard.length) :
    ∃ buf', Guarded buf' ∧
      buf'.take (min (prefixText o (pathBuf path) level classname obj t).length
        (LOG_MAX_LINELEN - 1)) =
          (prefixText o (pathBuf path) level classname obj t).take (LOG_MAX_LINELEN - 1) ∧
      o.vlogf B no_panic buf (some path) level classname obj t (some fmt) = (do
        let prefix_len := (prefixText o (pathBuf path) level classname obj t).length
        let buflen := LOG_MAX_LINELEN
        let (ptr, buflen) :=
          if prefix_len < buflen then (prefix_len, buflen - prefix_len) else (buflen, 0)
        let (str, data_len) ← logVsnprintf (buf'.take ptr) buflen fmt
        let buf ← store buf' 0 str
        let data_len := (IntType.u64.conv data_len).toNat
        if data_len < buflen then o.vlogfLine B no_panic buf (ptr + data_len)
        else do
          let chars_to_copy :=
            if LOG_MAX_LINELEN > sizeofTrunc then sizeofTrunc else LOG_MAX_LINELEN
          let buf ← store buf (LOG_MAX_LINELEN - chars_to_copy) (trunc.take (chars_to_copy - 1))
          let ptr := LOG_MAX_LINELEN - 1
          let buf ← store buf ptr [0]
          o.vlogfLine B no_panic buf ptr) := by
  obtain ⟨buf₁, hstore, hguarded⟩ := store_guard hbuf
  have hroom : LOG_MAX_LINELEN ≤ buf₁.length := by
    rw [hguarded.length]
    decide
  obtain ⟨buf₂, hgen, hlength, hwritten, hbehind⟩ :=
    genPrefix_spec o (pathBuf path) level classname obj t hroom
  refine ⟨buf₂, ⟨hlength.trans hguarded.length, ?_⟩, hwritten, ?_⟩
  · rw [← hguarded.guard, ← List.drop_drop, ← List.drop_drop, hbehind]
  · rw [Logger.vlogf, hputs.inited, assert_true, ok_bind, if_neg (by simp [hputs.running])]
    simp only [hputs.enabled, ok_bind, hstore, hgen, Bool.not_true, Bool.false_eq_true, if_false]

/-- What `vlogf` puts out, where the line is as documented: exactly if the text fits. -/
def Right (fmt : List Conversion) (text line : List UInt8) : Prop :=
  (text.length < LOG_MAX_LINELEN →
    Conversion.Scanned (LOG_MAX_LINELEN - text.length - 1) fmt) →
  (Documented text (Conversion.expandAll fmt) line ↔
    Conversion.Fits (LOG_MAX_LINELEN - text.length - 1) [] fmt ∧
      text.length + (Conversion.expandAll fmt).length < LOG_MAX_LINELEN)

theorem right_of_cut {text line : List UInt8} (hcut : cutMark <:+ line)
    (hlong : ¬ (Conversion.Fits (LOG_MAX_LINELEN - text.length - 1) [] fmt ∧
      text.length + (Conversion.expandAll fmt).length < LOG_MAX_LINELEN)) :
    Right fmt text line := by
  intro hscan
  refine iff_of_false ?_ hlong
  have hnot := not_trunc_suffix hcut
  rw [Documented]
  split
  · rename_i hshort
    -- the format is short, so its text does not overflow
    intro _
    rcases hscan (by omega) with hfits | hover
    · exact hlong ⟨hfits, hshort⟩
    · have hmax : LOG_MAX_LINELEN = 512 := rfl
      have hle := hover.le_length
      omega
  · exact hnot

/-- `vlogf` keeps in front of its guard and puts out one line, whatever the format is; and that
    line is as documented exactly where the prefix and the message are shorter than
    `LOG_MAX_LINELEN`. -/
theorem vlogf_putsLine (hputs : Puts o (pathBuf path) level classname)
    (hbuf : buf.length = LOG_MAX_LINELEN + 1 + guard.length) :
    ∃ r line, o.vlogf B no_panic buf (some path) level classname obj t (some fmt) = .ok r ∧
      PutsLine r line ∧ Right fmt (prefixText o (pathBuf path) level classname obj t) line := by
  have hmax : LOG_MAX_LINELEN = 512 := rfl
  obtain ⟨buf₁, hguarded, hwritten, hvlogf⟩ := vlogf_eq B no_panic obj t fmt hputs hbuf
  obtain ⟨front, hconcat⟩ := prefixText_concat o (pathBuf path) level classname obj t
  generalize prefixText o (pathBuf path) level classname obj t = text at *
  rw [hvlogf]
  dsimp only
  by_cases hshort : text.length < LOG_MAX_LINELEN
  · have hbase : buf₁.take text.length = front ++ [32] := by
      rw [Nat.min_eq_left (by omega), List.take_of_length_le (by omega : _ ≤ _ - 1)] at hwritten
      rw [hwritten, hconcat]
    have hcount : text.length = front.length + 1 := by rw [hconcat, List.length_append]; rfl
    obtain ⟨more, len, hprint, hmore⟩ := logVsnprintf_bounded (by decide : (32 : UInt8) ≠ 42) front
      (by omega : 0 < LOG_MAX_LINELEN - text.length) fmt
    have hstr : (front ++ 32 :: more ++ [0]).length ≤ LOG_MAX_LINELEN + 1 := by
      simp only [List.length_append, List.length_cons, List.length_nil]
      omega
    obtain ⟨buf₂, hstore, hguarded₂, htake⟩ := hguarded.store_front hstr
    rw [if_pos hshort]
    simp only [hbase, hprint, ok_bind, hstore]
    by_cases hroom : (IntType.u64.conv len).toNat < LOG_MAX_LINELEN - text.length
    · rw [if_pos hroom]
      have hpos : 0 < text.length + (IntType.u64.conv len).toNat := by omega
      have hless : text.length + (IntType.u64.conv len).toNat < LOG_MAX_LINELEN := by omega
      obtain ⟨r, hline, hr⟩ := vlogfLine_spec (B := B) hputs.running hguarded₂ hpos hless
      refine ⟨r, _, hline, hr, fun hscan => ?_⟩
      rcases hscan hshort with hfits | hover
      · have heq := logVsnprintf_eq (front ++ [32])
          (by omega : 0 < LOG_MAX_LINELEN - text.length) hfits
        rw [hprint] at heq
        obtain ⟨hstr, rfl⟩ := Prod.mk.inj (Except.ok.inj heq)
        have hconv : (IntType.u64.conv ((Conversion.expandAll fmt).length : Nat)).toNat =
            (Conversion.expandAll fmt).length := by
          have hlt : (Conversion.expandAll fmt).length < 2 ^ 31 := hfits.length_lt (by decide)
          rw [IntType.u64_conv]
          omega
        rw [hconv] at hroom hless ⊢
        rw [List.take_of_length_le (by omega), ← hconcat] at hstr
        rw [hstr] at htake
        have hcount : (text ++ Conversion.expandAll fmt).length =
            text.length + (Conversion.expandAll fmt).length := List.length_append
        have hfront := congrArg (List.take (text ++ Conversion.expandAll fmt).length) htake
        rw [List.take_left, List.take_take, Nat.min_eq_left (by simp), hcount] at hfront
        rw [hfront, Documented, if_pos hless]
        exact iff_of_true rfl ⟨hfits, hless⟩
      · obtain ⟨mem, hover⟩ := logVsnprintf_overflows (front ++ [32]) hover
        rw [hprint] at hover
        obtain ⟨-, rfl⟩ := Prod.mk.inj (Except.ok.inj hover)
        rw [IntType.u64_conv] at hroom
        omega
    · rw [if_neg hroom]
      obtain ⟨r, line, hline, hr, hcut⟩ := vlogf_cut B no_panic hputs.running hguarded₂
      refine ⟨r, line, hline, hr, right_of_cut hcut ?_⟩
      rintro ⟨hfits, hless⟩
      have heq :=
        logVsnprintf_eq (front ++ [32]) (by omega : 0 < LOG_MAX_LINELEN - text.length) hfits
      rw [hprint] at heq
      obtain ⟨-, rfl⟩ := Prod.mk.inj (Except.ok.inj heq)
      rw [IntType.u64_conv] at hroom
      omega
  · rw [if_neg hshort]
    have hnone : logVsnprintf (buf₁.take LOG_MAX_LINELEN) 0 fmt =
        .ok (buf₁.take LOG_MAX_LINELEN, -1) := rfl
    have hcount : (buf₁.take LOG_MAX_LINELEN).length ≤ LOG_MAX_LINELEN + 1 := by
      rw [List.length_take]
      omega
    obtain ⟨buf₂, hstore, hguarded₂, -⟩ := hguarded.store_front hcount
    simp only [hnone, ok_bind, hstore]
    rw [if_neg (Nat.not_lt_zero _)]
    obtain ⟨r, line, hline, hr, hcut⟩ := vlogf_cut B no_panic hputs.running hguarded₂
    exact ⟨r, line, hline, hr, right_of_cut hcut fun h => by omega⟩

end Vlogf

/-- A short message. -/
theorem vlogf_putsLine_short :
    ∃ r, pathLogger.vlogf ⟨true, false⟩ false (List.replicate 521 0) (some (ascii "/dtn")) .info
      none 0 ⟨0, 0⟩ (some [.printed (ascii "up")]) = .ok r ∧ PutsLine r (ascii "[/dtn ] up\n") := by
  have hfront : prefixText pathLogger (pathBuf (ascii "/dtn")) .info none 0 ⟨0, 0⟩ =
      ascii "[/dtn ] " := by decide
  have hbuf : (List.replicate 521 (0 : UInt8)).length = LOG_MAX_LINELEN + 1 + guard.length :=
    List.length_replicate
  obtain ⟨r, line, hr, hputs, hright⟩ :=
    vlogf_putsLine (B := ⟨true, false⟩) (puts_pathLogger (pathBuf (ascii "/dtn"))) hbuf
  rw [hfront] at hright
  have hfits : ∀ room, Conversion.Fits room [] [.printed (ascii "up")] :=
    fun _ => ⟨nofun, by decide, trivial⟩
  have hline := (hright fun _ => .inl (hfits _)).2 ⟨hfits _, by decide⟩
  rw [Documented, if_pos (by decide)] at hline
  refine ⟨r, hr, ?_⟩
  have htext : withNewline (ascii "[/dtn ] " ++ Conversion.expandAll [.printed (ascii "up")]) =
      ascii "[/dtn ] up\n" := by decide
  rwa [hline, htext] at hputs

def emptyBuffer : List UInt8 :=
  List.replicate 521 0

def longMessage : List UInt8 :=
  List.replicate 600 120

theorem vlogf_longMessage :
    (pathLogger.vlogf ⟨true, false⟩ false emptyBuffer (some (ascii "/dtn")) .info none 0 ⟨0, 0⟩
      (some [.printed longMessage])).toOption.map (fun r => r.lines.map fun l => l.drop 504) =
        some [cutMark] := by
  decide +kernel

/-- A message that is too long: the line does not end in the marker. -/
theorem not_documented_long_message :
    ¬ ∃ r line, pathLogger.vlogf ⟨true, false⟩ false emptyBuffer (some (ascii "/dtn")) .info none 0
        ⟨0, 0⟩ (some [.printed longMessage]) = .ok r ∧ PutsLine r line ∧
      Documented (prefixText pathLogger (ascii "/dtn") .info none 0 ⟨0, 0⟩) longMessage line := by
  simp only [not_exists, not_and]
  intro r line hr hputs
  have hrun := vlogf_longMessage
  rw [hr] at hrun
  have hlines : r.lines.map (fun l => l.drop 504) = [cutMark] := Option.some.inj hrun
  rw [hputs.lines] at hlines
  have hcut : cutMark <:+ line := by
    rw [← (List.cons.inj hlines).1]
    exact List.drop_suffix _ _
  have hlong : ¬ (prefixText pathLogger (ascii "/dtn") .info none 0 ⟨0, 0⟩).length +
      longMessage.length < LOG_MAX_LINELEN := by
    decide +kernel
  rw [Documented, if_neg hlong]
  exact not_trunc_suffix hcut

end Oasys.Log
