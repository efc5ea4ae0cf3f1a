import Oasys.Debug.Log

/-!
# The buffer of parse_debug_file

`parse_debug_file` of `debug/Log.cc` as it goes over the buffer that `fgets` reads the lines of
the file into. A pointer is an index, and behind a line there is what earlier lines have left in
the buffer. What the loops find in lines that they stay in is the rules of `parseLines`.
-/

namespace Oasys.Log

/-! ### Options -/

def OUTPUT_PATH : UInt32 := (1 : UInt32) <<< 0

def OUTPUT_TIME : UInt32 := (1 : UInt32) <<< 1

def OUTPUT_LEVEL : UInt32 := (1 : UInt32) <<< 2

def OUTPUT_CLASSNAME : UInt32 := (1 : UInt32) <<< 3

def OUTPUT_OBJ : UInt32 := (1 : UInt32) <<< 4

def OUTPUT_SHORT : UInt32 := (1 : UInt32) <<< 10

def OUTPUT_COLOR : UInt32 := (1 : UInt32) <<< 11

/-- `strstr`, as a test. -/
def strstr : List Char → List Char → Bool
  | [], needle => needle.isEmpty
  | c :: haystack, needle => needle.isPrefixOf (c :: haystack) || strstr haystack needle

/-- The options of a line, with what they clear and what they set. -/
def printingOptions : List (String × UInt32 × UInt32) :=
  [("no_path", OUTPUT_PATH, 0), ("no_time", OUTPUT_TIME, 0), ("no_level", OUTPUT_LEVEL, 0),
    ("brief", 0, OUTPUT_SHORT), ("color", 0, OUTPUT_COLOR), ("object", 0, OUTPUT_OBJ),
    ("classname", 0, OUTPUT_CLASSNAME)]

/-- The flags after a line with `%`. -/
def setOptions (output_flags_ : UInt32) (logpath : List Char) : UInt32 :=
  printingOptions.foldl
    (fun flags (name, clear, set) =>
      if strstr logpath name.toList then (flags &&& ~~~clear) ||| set else flags)
    output_flags_

/-! ### The buffer -/

/-- The buffer: the characters that have been given a value. -/
abbrev Buffer := List (Option Char)

/-- The size of the buffer. -/
def BUFSIZE : Nat := 1024

/-- The buffer after `fgets` has read a line into it. -/
def Buffer.fill (buf : Buffer) (line : List Char) : Buffer :=
  line.map some ++ some '\x00' :: buf.drop (line.length + 1)

/-- `while (p(*ptr)) ++ptr`, in the memory from `ptr` on. -/
def scan (p : Char → Bool) : Buffer → Nat → Except Fault Nat
  | [], _ => throw .outOfBounds
  | none :: _, _ => throw .indeterminate
  | some c :: buf, ptr => if p c then scan p buf (ptr + 1) else pure ptr

/-- The string in the memory. -/
def cString : Buffer → Except Fault (List Char)
  | [] => throw .outOfBounds
  | none :: _ => throw .indeterminate
  | some c :: buf => if c = '\x00' then pure [] else (c :: ·) <$> cString buf

/-- The object and the buffer after a line, with the rule that the line adds, the message that it
    gives, and the last character that is read or written. -/
structure Parsed where
  buf : Buffer
  output_flags_ : UInt32
  rule : Option Rule
  message : List Char
  last : Nat

/-- The message of `parse_err`. -/
def parseErr (debug_path : List Char) (linenum : Nat) : List Char :=
  "Error in log configuration ".toList ++ debug_path ++ " line ".toList ++
    (toString linenum).toList ++ ['\n']

/-- The message for a rule that a build without debugging ignores. -/
def ignoredRule (logpath : List Char) : List Char :=
  "WARNING: debug level log rule for path ".toList ++ logpath ++
    " ignored in non-debugging build\n".toList

/-- The body of the loop, with a line in the buffer. -/
def parseBuffer (build : Build) (debug_path : List Char) (linenum : Nat) (output_flags_ : UInt32)
    (buf : Buffer) : Except Fault Parsed := do
  let skipped : Parsed := { buf, output_flags_, rule := none, message := [], last := 0 }
  let logpath ← scan (fun c => c ≠ '\x00' && isspace c) buf 0
  let path ← cString (buf.drop logpath)
  match path with
  -- a blank line
  | [] => pure { skipped with last := logpath }
  | '#' :: _ => pure { skipped with last := logpath }
  | '%' :: _ =>
    pure
      { skipped with
        output_flags_ := setOptions output_flags_ path, last := logpath + path.length }
  | _ => do
    -- the end of the path
    let level ← scan (fun c => c ≠ '\x00' && !isspace c) (buf.drop logpath) logpath
    let buf := buf.set level (some '\x00')
    let level := level + 1
    let level ← scan isspace (buf.drop level) level
    -- the end of the level
    let rest ← scan (fun c => !isspace c) (buf.drop level) level
    let buf := buf.set rest (some '\x00')
    let threshold := str2level (← cString (buf.drop level))
    let path ← cString (buf.drop logpath)
    let parsed := { skipped with buf, last := rest }
    if threshold = .invalid then pure { parsed with message := parseErr debug_path linenum }
    else if build.ndebug && threshold = .debug then
      pure { parsed with message := ignoredRule path }
    else pure { parsed with rule := some ⟨path, threshold⟩ }

/-- The loop: the lines of the file, with what is done with each. -/
def parseFile (build : Build) (debug_path : List Char) :
    Nat → List Char → Nat → UInt32 → Buffer → Except Fault (List (List Char × Nat × Parsed))
  | _, [], _, _, _ => pure []
  | 0, _ :: _, _, _, _ => throw .outOfFuel
  | fuel + 1, fp, linenum, output_flags_, buf => do
    let (line, rest) := fgets BUFSIZE fp
    let linenum := linenum + 1
    let p ← parseBuffer build debug_path linenum output_flags_ (buf.fill line)
    let ps ← parseFile build debug_path fuel rest linenum p.output_flags_ p.buf
    pure ((line, linenum, p) :: ps)

end Oasys.Log
