import Oasys.Util.Glob
import Oasys.Util.IntType

/-!
# RuleSet

`util/RuleSet.cc`: rules in a storage of a fixed size, each in a slot of a fixed size. A
slot is an array of characters that is a string only where it has a zero in it; `strstr` and
`fixed_glob` read on behind one that has none.
-/

namespace Oasys

/-- The flags of a rule. -/
inductive RuleFlags where
  | PREFIX
  | GLOB
  deriving DecidableEq, Repr

namespace RuleStorage

def MAX_RULES : Nat := 128

def MAX_RULE_LENGTH : Nat := 256

structure Item where
  flags_ : RuleFlags
  log_level_ : Int
  /-- An `int`. -/
  priority_ : Int
  rule_ : List Char
  length_rule_ : rule_.length = MAX_RULE_LENGTH

end RuleStorage

open RuleStorage (MAX_RULES MAX_RULE_LENGTH)

/-- The storage, whatever is in it at first. -/
structure RuleStorage where
  items_ : List RuleStorage.Item
  length_items_ : items_.length = MAX_RULES

/-- The set with the storage that it is given. -/
structure RuleSet where
  rules_ : RuleStorage
  num_rules_ : Nat

namespace RuleSet

def new (rs : RuleStorage) : RuleSet := ⟨rs, 0⟩

/-- `memcpy` of the characters of a rule, as many as there is room for, over a slot. -/
def copyRule (item : RuleStorage.Item) (rule : List Char) : List Char :=
  rule.take MAX_RULE_LENGTH ++ item.rule_.drop (min MAX_RULE_LENGTH rule.length)

theorem length_copyRule (item : RuleStorage.Item) (rule : List Char) :
    (copyRule item rule).length = MAX_RULE_LENGTH := by
  rw [copyRule, List.length_append, List.length_take, List.length_drop, item.length_rule_]
  omega

def addRule (s : RuleSet) (flags : RuleFlags) (rule : List Char) (log_level priority : Int) :
    Except Fault RuleSet :=
  if s.num_rules_ > MAX_RULES then
    pure s
  else
    match s.rules_.items_[s.num_rules_]? with
    | none => throw .outOfBounds
    | some item =>
      let item := ⟨flags, log_level, priority, copyRule item rule, length_copyRule item rule⟩
      pure {
        rules_ := ⟨s.rules_.items_.set s.num_rules_ item, by
          rw [List.length_set, s.rules_.length_items_]⟩
        num_rules_ := s.num_rules_ + 1 }

/-- `add_prefix_rule`. The length is converted to an `int`. -/
def addPrefixRule (s : RuleSet) (rule : List Char) (log_level : Int) : Except Fault RuleSet :=
  s.addRule .PREFIX rule log_level (IntType.int.conv rule.length)

def addGlobRule (s : RuleSet) (rule : List Char) (log_level priority : Int) :
    Except Fault RuleSet :=
  s.addRule .GLOB rule log_level priority

/-- A slot as a string: what is before the first zero. -/
def cString (slot : List Char) : Except Fault (List Char) :=
  if '\x00' ∈ slot then pure (slot.takeWhile (· ≠ '\x00')) else throw .outOfBounds

/-- `do_match`. A string is found at the start of another one if it is a prefix. -/
def doMatch (rule : List Char) (item : RuleStorage.Item) : Except Fault Bool := do
  let text ← cString item.rule_
  match item.flags_ with
  | .PREFIX => pure (text.isPrefixOf rule)
  | .GLOB => Glob.fixedGlob text rule

/-- The loop of `match_rule`, from the item with index `i` on. -/
def matchFrom (rule : List Char) : Nat → List RuleStorage.Item → Option Nat → Int →
    Except Fault (Option Nat)
  | _, [], found, _ => pure found
  | i, item :: items, found, cur_priority => do
    let matched ← doMatch rule item
    if matched && item.priority_ > cur_priority then
      matchFrom rule (i + 1) items (some i) item.priority_
    else
      matchFrom rule (i + 1) items found cur_priority

/-- `match_rule`: the index of the item. -/
def matchRule (s : RuleSet) (rule : List Char) : Except Fault (Option Nat) :=
  matchFrom rule 0 (s.rules_.items_.take s.num_rules_) none (-1000)

end RuleSet

end Oasys
