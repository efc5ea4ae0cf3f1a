import Oasys.Util.Glob

/-!
# Log

The rules of `debug/Log.cc`: `parse_debug_file` reads them from a file, and `find_rule` looks
for the one that decides at which level a path is logged. The options in lines with `%`,
which only change how a message is printed, and the two buffers for the list are left out.
-/

namespace Oasys.Log

/-- The levels of a message. -/
inductive LogLevel where
  | invalid
  | debug
  | info
  | notice
  | warn
  | err
  | crit
  | always
  deriving DecidableEq, Repr

/-- The values of the enumeration. -/
def LogLevel.value : LogLevel → Int
  | invalid => -1
  | debug => 1
  | info => 2
  | notice => 3
  | warn => 4
  | err => 5
  | crit => 6
  | always => 7

def logLevelnames : List (String × LogLevel) :=
  [("debug", .debug), ("info", .info), ("notice", .notice), ("warning", .warn), ("warn", .warn),
    ("error", .err), ("err", .err), ("critical", .crit), ("crit", .crit), ("always", .always)]

/-- `str2level`, which does not mind the case. -/
def str2level (level : List Char) : LogLevel :=
  match logLevelnames.find? fun entry => entry.1.toList = level.map Char.toLower with
  | some entry => entry.2
  | none => .invalid

/-- A rule as parsed from the debug file. -/
structure Rule where
  path_ : List Char
  level_ : LogLevel
  deriving DecidableEq, Repr

/-- The part of a `Log` that is about rules. -/
structure Log where
  rule_list_ : List Rule
  default_threshold_ : LogLevel
  inited_ : Bool
  deriving DecidableEq, Repr

def isspace (c : Char) : Bool :=
  c = ' ' || c = '\t' || c = '\n' || c = '\x0b' || c = '\x0c' || c = '\r'

/-- `fgets` into a buffer of `sz` characters: up to the end of the line, or as much as the
    buffer holds before the terminator; and what is left of the file. -/
def fgets (sz : Nat) (fp : List Char) : List Char × List Char :=
  let line := (fp.takeWhile (· ≠ '\n')) ++ ((fp.dropWhile (· ≠ '\n')).take 1)
  (line.take (sz - 1), fp.drop (line.take (sz - 1)).length)

/-- What `parse_debug_file` does with a line: the rule that it gives. Lines without a level
    make it look for the level behind the end of the line. -/
def parseLine (build : Build) (buf : List Char) : Except Fault (Option Rule) :=
  let logpath := buf.dropWhile isspace
  match logpath with
  | [] => pure none
  | c :: _ =>
    if c = '\x00' || c = '#' || c = '%' then pure none
    else
      let isPath := fun c => c ≠ '\x00' && !isspace c
      match logpath.dropWhile isPath with
      | [] => throw .outOfBounds
      | _ :: rest =>
        let level := rest.dropWhile isspace
        if level.any isspace then
          let word := (level.takeWhile fun c => !isspace c).takeWhile (· ≠ '\x00')
          let threshold := str2level word
          -- a line with an error, or one for another build
          if threshold = .invalid || build.ndebug && threshold = .debug then pure none
          else pure (some ⟨logpath.takeWhile isPath, threshold⟩)
        else throw .outOfBounds

/-- The loop of `parse_debug_file`. -/
def parseLines (build : Build) : Nat → List Char → List Rule → Except Fault (List Rule)
  | _, [], rule_list => pure rule_list
  | 0, _ :: _, _ => throw .outOfFuel
  | fuel + 1, fp, rule_list => do
    let (buf, rest) := fgets 1024 fp
    match ← parseLine build buf with
    | none => parseLines build fuel rest rule_list
    | some rule => parseLines build fuel rest (rule_list ++ [rule])

/-- `parse_debug_file`, with the text of the file where it can be opened. -/
def parseDebugFile (build : Build) (log : Log) (fp : Option (List Char)) : Except Fault Log :=
  match fp with
  | none => pure log
  | some fp => do
    let rule_list_ ← parseLines build fp.length fp []
    return { log with rule_list_ }

def doInit (build : Build) (defaultlvl : LogLevel) (fp : Option (List Char)) :
    Except Fault Log := do
  let default_threshold_ := if build.ndebug && defaultlvl = .debug then .info else defaultlvl
  let log ← parseDebugFile build ⟨[], default_threshold_, false⟩ fp
  return { log with inited_ := true }

def ruleCompare (rule1 rule2 : Rule) : Bool :=
  rule1.path_.length > rule2.path_.length ||
    (rule1.path_.length = rule2.path_.length && rule1.level_.value < rule2.level_.value)

/-- The loop of `find_rule`. -/
def findRuleLoop (path : List Char) : List Rule → Except Fault (Option Rule)
  | [] => pure none
  | rule :: rule_list =>
    if rule.path_.length > path.length then findRuleLoop path rule_list
    else if rule.path_ = path.take rule.path_.length then pure (some rule)
    else
      match rule.path_ with
      | '+' :: pat => do
        if ← Glob.fixedGlob pat path then pure (some rule)
        else findRuleLoop path rule_list
      | _ => findRuleLoop path rule_list

def findRule (log : Log) (path : List Char) : Except Fault (Option Rule) := do
  assert log.inited_
  findRuleLoop path log.rule_list_

/-- `log_level`: the level in force for a path. -/
def logLevel (log : Log) (path : List Char) : Except Fault LogLevel := do
  match ← findRule log path with
  | some r => pure r.level_
  | none => pure log.default_threshold_

end Oasys.Log
