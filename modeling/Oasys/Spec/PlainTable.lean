import Mathlib.Data.Option.Basic
import Mathlib.Data.Set.Function
import Oasys.Storage.DurableStore
import Oasys.ForStd.Answering

/-!
# Plain tables

What a table is for: a map from keys to values, with the result codes that the interface of
`storage/DurableStoreImpl.h` gives its calls. `Sim` says that a store of any kind holds a
plain table, each key under a name of its own; lemmas say what happens to it when a value is
stored or removed.
-/

namespace Oasys

/-- A plain map. -/
abbrev PlainTable (Key Val : Type) := Key → Option Val

namespace PlainTable

variable {Key Val : Type}

def empty : PlainTable Key Val := fun _ => none

def get (m : PlainTable Key Val) (key : Key) : DurableStoreResult × Option Val :=
  match m key with
  | none => (.DS_NOTFOUND, none)
  | some v => (.DS_OK, some v)

variable [DecidableEq Key]

/-- A value for a key: a new key needs `DS_CREATE`, and `DS_EXCL` only a new one gets. -/
def put (m : PlainTable Key Val) (key : Key) (val : Val) (flags : DurableStoreFlags) :
    DurableStoreResult × PlainTable Key Val :=
  match m key with
  | none =>
    if flags.DS_CREATE then (.DS_OK, Function.update m key (some val)) else (.DS_NOTFOUND, m)
  | some _ =>
    if flags.DS_EXCL then (.DS_EXISTS, m) else (.DS_OK, Function.update m key (some val))

def del (m : PlainTable Key Val) (key : Key) : DurableStoreResult × PlainTable Key Val :=
  match m key with
  | none => (.DS_NOTFOUND, m)
  | some _ => (.DS_OK, Function.update m key none)

omit [DecidableEq Key] in
def Lists (m : PlainTable Key Val) (ks : List Key) : Prop :=
  ks.Nodup ∧ ∀ k, k ∈ ks ↔ (m k).isSome

/-! ### Stores that hold a table -/

/-- Under the names of the keys the store has what stands for the values of the map. The
    keys of the table are those of `dom`. -/
structure Sim {Name Stored : Type} (dom : Set Key) (name : Key → Name)
    (Holds : Key → Val → Stored → Prop) (m : PlainTable Key Val) (store : Name → Option Stored) :
    Prop where
  rel : ∀ k ∈ dom, Option.Rel (Holds k) (m k) (store (name k))
  outside : ∀ k, k ∉ dom → m k = none

section Sim

variable {Name Stored : Type} {dom : Set Key} {name : Key → Name}
  {Holds : Key → Val → Stored → Prop} {m : PlainTable Key Val}
  {store store' : Name → Option Stored} {key : Key}

omit [DecidableEq Key] in
theorem Sim.none (h : Sim dom name Holds m store) (hdom : key ∈ dom) (hkey : m key = none) :
    store (name key) = none := by
  have hrel := h.rel key hdom
  rw [hkey] at hrel
  cases hstore : store (name key) with
  | none => rfl
  | some w =>
    rw [hstore] at hrel
    cases hrel

omit [DecidableEq Key] in
theorem Sim.some (h : Sim dom name Holds m store) {v : Val} (hkey : m key = some v) :
    key ∈ dom ∧ ∃ w, store (name key) = some w ∧ Holds key v w := by
  have hdom : key ∈ dom := by
    by_contra hnot
    rw [h.outside key hnot] at hkey
    cases hkey
  refine ⟨hdom, ?_⟩
  have hrel := h.rel key hdom
  rw [hkey] at hrel
  cases hstore : store (name key) with
  | none =>
    rw [hstore] at hrel
    cases hrel
  | some w =>
    rw [hstore] at hrel
    cases hrel with
    | some hw => exact ⟨w, rfl, hw⟩

theorem Sim.update (h : Sim dom name Holds m store) (hinj : Set.InjOn name dom)
    (hdom : key ∈ dom) {v : Option Val} (hkey : Option.Rel (Holds key) v (store' (name key)))
    (hothers : ∀ other, other ≠ name key → store' other = store other) :
    Sim dom name Holds (Function.update m key v) store' where
  rel k hk := by
    by_cases hsame : k = key
    · rw [hsame, Function.update_self]
      exact hkey
    · -- other keys have other names
      have hne : name k ≠ name key := fun heq => hsame (hinj hk hdom heq)
      rw [Function.update_of_ne hsame, hothers _ hne]
      exact h.rel k hk
  outside k hk := by
    have hne : k ≠ key := fun heq => hk (heq ▸ hdom)
    rw [Function.update_of_ne hne]
    exact h.outside k hk

end Sim

end PlainTable

end Oasys

/-!
### Calls of a table

The calls that a client makes of one table, and what a plain map answers to them. A table of
any kind is compared with the plain map by `Answering.Refines`, and its answers by
`TableAnswer.Agrees`.
-/

namespace Oasys

/-- A call. A `get` reads into a target. -/
inductive TableCall (Key Val Target : Type) where
  | put (key : Key) (val : Val) (flags : DurableStoreFlags)
  | get (key : Key) (target : Target)
  | del (key : Key)

/-- What a call returns: the code and, where that is `DS_OK`, what a `get` has read. -/
structure TableAnswer (Got : Type) where
  code : DurableStoreResult
  got : Option Got

/-- The same code, and the object that the map has. -/
def TableAnswer.Agrees {Val Got : Type} (Same : Val → Got → Prop) (a : TableAnswer Val)
    (b : TableAnswer Got) : Prop :=
  a.code = b.code ∧ Option.Rel Same a.got b.got

namespace PlainTable

variable {Key Name Val Target Got : Type} [DecidableEq Name]

/-- A call of a plain map that knows the keys by their names. -/
def call (name : Key → Name) (m : PlainTable Name Val) :
    TableCall Key Val Target → TableAnswer Val × PlainTable Name Val
  | .put key val flags => (⟨(m.put (name key) val flags).1, none⟩, (m.put (name key) val flags).2)
  | .get key _ => (⟨(m.get (name key)).1, (m.get (name key)).2⟩, m)
  | .del key => (⟨(m.del (name key)).1, none⟩, (m.del (name key)).2)

omit [DecidableEq Name] in
theorem agrees_get_iff {Same : Val → Got → Prop} {m : PlainTable Name Val} {n : Name} {v : Val}
    (hm : m n = some v) {a : TableAnswer Got} :
    TableAnswer.Agrees Same ⟨(m.get n).1, (m.get n).2⟩ a ↔
      ∃ r, a = ⟨.DS_OK, some r⟩ ∧ Same v r := by
  obtain ⟨code, got⟩ := a
  simp only [TableAnswer.Agrees, get, hm]
  constructor
  · intro ⟨hcode, hgot⟩
    cases hgot with
    | some hsame => exact ⟨_, by rw [← hcode], hsame⟩
  · rintro ⟨r, ⟨⟩, hsame⟩
    exact ⟨rfl, .some hsame⟩

end PlainTable

end Oasys
