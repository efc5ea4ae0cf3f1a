import Oasys.Debug.DebugUtils
import Oasys.ForStd.Find

/-!
# std::string

The members of `std::string` and the functions of `ctype.h` that `util/URI.cc` calls. A
string is the list of its bytes, and a literal character stands for its byte. `at`, `substr`,
`replace` and `erase` throw for a position behind the end; a search returns `none` for `npos`.
The locale is the one of C, in which the bytes from 128 on are in no class.
-/

namespace Oasys

instance coeCharUInt8 : Coe Char UInt8 := ⟨Char.toUInt8⟩

namespace StdString

def isdigit (c : UInt8) : Bool := 48 ≤ c && c ≤ 57

def isupper (c : UInt8) : Bool := 65 ≤ c && c ≤ 90

def islower (c : UInt8) : Bool := 97 ≤ c && c ≤ 122

def isalpha (c : UInt8) : Bool := isupper c || islower c

def isalnum (c : UInt8) : Bool := isalpha c || isdigit c

def tolower (c : UInt8) : UInt8 := if isupper c then c + 32 else c

def toupper (c : UInt8) : UInt8 := if islower c then c - 32 else c

/-- `at`. -/
def charAt (s : List UInt8) (pos : Nat) : Except Fault UInt8 :=
  match s[pos]? with
  | some c => return c
  | none => throw .outOfBounds

def substr (s : List UInt8) (pos len : Nat) : Except Fault (List UInt8) :=
  if pos ≤ s.length then return (s.drop pos).take len else throw .outOfBounds

/-- `replace`, for a part of the string. -/
def replace (s : List UInt8) (pos len : Nat) (str : List UInt8) : Except Fault (List UInt8) :=
  if pos ≤ s.length then return s.take pos ++ str ++ s.drop (pos + len) else throw .outOfBounds

/-- `erase`, for a part of the string. -/
def erase (s : List UInt8) (pos len : Nat) : Except Fault (List UInt8) := replace s pos len []

/-- `find`, for a character. -/
def find (s : List UInt8) (c : UInt8) (pos : Nat) : Option Nat := Find.first (· == c) s pos

/-- `find`, for a string. -/
def findStr (s str : List UInt8) (pos : Nat) : Option Nat := Find.firstSub str s pos

def findFirstOf (s str : List UInt8) (pos : Nat) : Option Nat :=
  Find.first (fun c => str.contains c) s pos

/-- `find_last_of`, for a character. -/
def findLastOf (s : List UInt8) (c : UInt8) (pos : Nat) : Option Nat := Find.last (· == c) s pos

theorem exists_byte (c : UInt8) : ∃ n : Fin 256, c = .ofFin n := ⟨c.toFin, rfl⟩

/-! ### What the calls do -/

variable (front : List UInt8) {mid rest : List UInt8}

@[simp] theorem charAt_append (c : UInt8) :
    charAt (front ++ c :: rest) front.length = .ok c := by
  simp [charAt]

@[simp] theorem substr_append :
    substr (front ++ (mid ++ rest)) front.length mid.length = .ok mid := by
  simp [substr]

@[simp] theorem replace_append (str : List UInt8) :
    replace (front ++ (mid ++ rest)) front.length mid.length str =
      .ok (front ++ (str ++ rest)) := by
  have hdrop : (front ++ (mid ++ rest)).drop (front.length + mid.length) = rest := by
    rw [← List.drop_drop, List.drop_left, List.drop_left]
  simp [replace, hdrop]

theorem getD_findFirstOf {str : List UInt8} (hmid : ∀ c ∈ mid, c ∉ str)
    (hrest : ∀ c ∈ rest.head?, c ∈ str) :
    (findFirstOf (front ++ (mid ++ rest)) str front.length).getD (front ++ (mid ++ rest)).length =
      front.length + mid.length := by
  apply Find.getD_first
  · simpa using hmid
  · intro c hc
    simpa using hrest c hc

theorem getD_find {c : UInt8} (hmid : c ∉ mid) (hrest : ∀ d ∈ rest.head?, d = c) :
    (find (front ++ (mid ++ rest)) c front.length).getD (front ++ (mid ++ rest)).length =
      front.length + mid.length := by
  apply Find.getD_first
  · intro a ha
    simpa using fun h : a = c => hmid (h ▸ ha)
  · intro a ha
    simpa using hrest a ha

theorem find_eq_some {c : UInt8} (hmid : c ∉ mid) :
    find (front ++ (mid ++ c :: rest)) c front.length = some (front.length + mid.length) := by
  apply Find.first_eq_some
  · intro a ha
    simpa using fun h : a = c => hmid (h ▸ ha)
  · simp

theorem find_eq_none {c : UInt8} (hmid : c ∉ mid) :
    find (front ++ mid) c front.length = none := by
  apply Find.first_eq_none
  intro a ha
  simpa using fun h : a = c => hmid (h ▸ ha)

theorem findFirstOf_eq_some {str : List UInt8} {c : UInt8} (hmid : ∀ d ∈ mid, d ∉ str)
    (hc : c ∈ str) :
    findFirstOf (front ++ (mid ++ c :: rest)) str front.length =
      some (front.length + mid.length) := by
  apply Find.first_eq_some
  · simpa using hmid
  · simpa using hc

theorem le_of_findFirstOf {str : List UInt8} {pos : Nat} (hmid : ∀ d ∈ mid, d ∉ str)
    (h : findFirstOf (front ++ (mid ++ rest)) str front.length = some pos) :
    front.length + mid.length ≤ pos := by
  refine Find.le_of_first ?_ h
  simpa using hmid

theorem le_of_find {c : UInt8} {pos : Nat} (hmid : c ∉ mid)
    (h : find (front ++ (mid ++ rest)) c front.length = some pos) :
    front.length + mid.length ≤ pos := by
  refine Find.le_of_first ?_ h
  intro a ha
  simpa using fun h : a = c => hmid (h ▸ ha)

theorem exists_split_of (str s : List UInt8) :
    ∃ mid rest, s = mid ++ rest ∧ (∀ c ∈ mid, c ∉ str) ∧ ∀ c ∈ rest.head?, c ∈ str := by
  obtain ⟨mid, rest, hs, hmid, hrest⟩ := Find.exists_split (fun c => str.contains c) s
  refine ⟨mid, rest, hs, ?_, ?_⟩
  · simpa using hmid
  · intro c hc
    simpa using hrest c hc

theorem exists_split (c : UInt8) (s : List UInt8) :
    ∃ mid rest, s = mid ++ rest ∧ c ∉ mid ∧ ∀ d ∈ rest.head?, d = c := by
  obtain ⟨mid, rest, hs, hmid, hrest⟩ := Find.exists_split (· == c) s
  refine ⟨mid, rest, hs, ?_, ?_⟩
  · intro hc
    simpa using hmid c hc
  · intro d hd
    simpa using hrest d hd

end StdString

end Oasys
