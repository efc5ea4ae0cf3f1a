import Oasys.Util.Options

/-!
# OptParser

`util/OptParser.cc`. What the options store is kept by the client: the parser is given a state
and how a value is stored in it for the option with an index, the flag at `setp_` included.
-/

namespace Oasys

variable {D σ : Type}

/-- `strcspn`: how many characters there are before one of some others. -/
def strcspn (str : List UInt8) (reject : List UInt8) : Nat :=
  (str.takeWhile fun c => c ∉ reject).length

/-- `strspn`: how many characters of a kind there are at the start. -/
def strspn (str : List UInt8) (accept : List UInt8) : Nat :=
  (str.takeWhile fun c => c ∈ accept).length

/-- `strncmp(a, b, n) == 0`. -/
def strncmp (a b : List UInt8) (n : Nat) : Bool := a.take n = b.take n

namespace OptParser

/-- `" \t\r\n"`. -/
def whitespace : List UInt8 := [32, 9, 13, 10]

/-- The registered options, and what they store. -/
structure Parser (D σ : Type) where
  allopts_ : List Opt
  env : Platform D
  /-- The value is stored for the option with an index. -/
  store : σ → Nat → OptValue D → σ

/-- What `parse_opt` returns, and `*invalid_value`. -/
structure Verdict where
  valid : Bool
  invalid_value : Bool
  deriving DecidableEq, Repr

/-- The loop over the options: the first one whose name starts with the `opt_len` characters. -/
def findOpt (opt_str : List UInt8) (opt_len : Nat) : List Opt → Nat → Option (Nat × Opt)
  | [], _ => none
  | opt :: allopts, i =>
    if strncmp opt_str opt.longopt_ opt_len then some (i, opt)
    else findOpt opt_str opt_len allopts (i + 1)

/-- What the loop does with the option that it stops at. -/
def applyOpt (p : Parser D σ) (i : Nat) (opt : Opt) (val_str : Option (List UInt8))
    (val_len : Nat) (s : σ) : Except Fault (Verdict × σ) :=
  if opt.kind.needval_ && val_str.isNone then
    pure (⟨false, true⟩, s)
  else do
    match ← opt.kind.set p.env val_str val_len with
    | none => pure (⟨false, true⟩, s)
    | some value => pure (⟨true, false⟩, p.store s i value)

/-- The loop, and what is behind it. -/
def matchOpt (p : Parser D σ) (opt_str : List UInt8) (opt_len : Nat)
    (val_str : Option (List UInt8)) (val_len : Nat) (s : σ) : Except Fault (Verdict × σ) :=
  match findOpt opt_str opt_len p.allopts_ 0 with
  | none => pure (⟨false, false⟩, s)
  | some (i, opt) => applyOpt p i opt val_str val_len s

def parseOpt (p : Parser D σ) (opt_str : List UInt8) (len : Nat) (s : σ) :
    Except Fault (Verdict × σ) :=
  let opt_len := strcspn opt_str (61 :: whitespace)
  if opt_len = 0 || opt_len > len then pure (⟨false, false⟩, s)
  else if opt_str[opt_len]? ≠ some 61 then
    matchOpt p opt_str opt_len none 0 s
  else
    let val_len := len - (opt_len + 1)
    if val_len = 0 then pure (⟨false, true⟩, s)
    else matchOpt p opt_str opt_len (some (opt_str.drop (opt_len + 1))) val_len s

/-- What `parse` leaves: the state, and where `*invalidp` points if it returns false. -/
structure Outcome (σ : Type) where
  state : σ
  invalid : Option (List UInt8)
  deriving DecidableEq, Repr

/-- `parse(args, invalidp)`, from `opt` on. -/
def parseFrom (p : Parser D σ) : Nat → List UInt8 → σ → Except Fault (Outcome σ)
  | 0, _, _ => throw .outOfFuel
  | fuel + 1, opt, s => do
    let opt_len := strcspn opt whitespace
    if opt_len = 0 then
      return ⟨s, none⟩ -- all done
    let (verdict, s) ← parseOpt p opt opt_len s
    if verdict.valid then
      -- skip past the arg and all other whitespace
      let opt := opt.drop opt_len
      parseFrom p fuel (opt.drop (strspn opt whitespace)) s
    else
      return ⟨s, some opt⟩

def parse (p : Parser D σ) (args : List UInt8) (s : σ) : Except Fault (Outcome σ) :=
  parseFrom p (args.length + 1) args s

/-- `parse(args, invalidp)` of a vector, which writes through `invalidp` without a look at it. -/
def parseVector (p : Parser D σ) (invalidp : Bool) : List (List UInt8) → σ →
    Except Fault (Outcome σ)
  | [], s => pure ⟨s, none⟩
  | arg :: args, s => do
    let (verdict, s) ← parseOpt p arg arg.length s
    if verdict.valid then
      parseVector p invalidp args s
    else if invalidp then
      return ⟨s, some arg⟩
    else
      throw .nullDeref

/-- The loop of `parse_and_shift`, over the `n` arguments from `argv[i]` on. -/
def shiftFrom (p : Parser D σ) : Nat → Nat → List (List UInt8) → Nat → Int → σ →
    Except Fault (Int × List (List UInt8) × σ)
  | 0, _, argv, _, valid_count, s => pure (valid_count, argv, s)
  | n + 1, i, argv, last_slot, valid_count, s =>
    match argv[i]? with
    | none => throw .outOfBounds
    | some arg => do
      let (verdict, s) ← parseOpt p arg arg.length s
      if verdict.valid then
        shiftFrom p n (i + 1) argv last_slot (valid_count + 1) s
      else
        let argv := argv.set last_slot arg
        if verdict.invalid_value then
          return (-1, argv, s) -- stop parsing
        else
          shiftFrom p n (i + 1) argv (last_slot + 1) valid_count s

def parseAndShift (p : Parser D σ) (argv : List (List UInt8)) (s : σ) :
    Except Fault (Int × List (List UInt8) × σ) :=
  shiftFrom p argv.length 0 argv 0 0 s

end OptParser

end Oasys
