import Oasys.Debug.DebugUtils

/-!
# SMTP

Both sides of the protocol of `smtp/SMTP.cc`. The connection is faithful: what one side writes
the other reads, in lines, and then it ends. The members of the handler and of the sender are
parameters. A session keeps a trace of the lines it has read, of the calls it has made and of
the responses it has sent.
-/

namespace Oasys.Smtp

/-- The bytes of a text. -/
def bytes (s : String) : List UInt8 := s.toList.map fun c => UInt8.ofNat c.toNat

/-- The string of C in a buffer. -/
def cstr (buf : List UInt8) : List UInt8 := buf.takeWhile (· ≠ 0)

def nl : List UInt8 := [13, 10]

/-! ### Lines of a connection -/

/-- The lines that `read_line` returns from a stream one after the other, without their
    terminators. `line` has the bytes of the first one that are already read. Bytes behind the
    last terminator are not a line. -/
def readLines (line : List UInt8) : List UInt8 → List (List UInt8)
  | [] => []
  | c :: rest =>
    if line.getLast? = some 13 ∧ c = 10 then line.dropLast :: readLines [] rest
    else readLines (line ++ [c]) rest

/-- How `read_line` ends when there is no further line. -/
inductive Ending where
  | eof
  | error (n : Nat)
  deriving DecidableEq, Repr

/-- Its result. -/
def Ending.ret : Ending → Int
  | .eof => 0
  | .error n => -(n + 1)

/-- The result of `read_line` for a line. A line fails if an `int` does not count its bytes. -/
def count (line : List UInt8) : Int :=
  if (line ++ nl).length < 2 ^ 31 then (line ++ nl).length else -1

/-- The NUL at the place of the terminator, and the assertion before it. -/
def terminate (line : List UInt8) : Except Fault (List UInt8) := do
  assert (line.getD (line.length - nl.length) 0 = nl.headD 0)
  pure (line.set (line.length - nl.length) 0)

/-! ### The server -/

/-- The calls of a `SMTPHandler`. -/
inductive Call where
  | helo (domain : List UInt8)
  | mail (sender : List UInt8)
  | rcpt (recipient : List UInt8)
  | rset
  | quit
  | dataBegin
  | dataLine (line : List UInt8)
  | dataEnd
  deriving DecidableEq, Repr

/-- A `SMTPHandler`: what a call does to its state, and the result. -/
def SMTPHandler (σ : Type) : Type := σ → Call → σ × Int

/-- What happens in a session: `process_cmd` reads a line for a command, its loop reads a line
    of a message, the handler returns, a response is sent. -/
inductive Event where
  | command (line : List UInt8)
  | data (line : List UInt8)
  | call (c : Call) (ret : Int)
  | response (code : Int)
  deriving DecidableEq, Repr

/-- The server's side of a session. -/
structure Session (σ : Type) where
  handler : σ
  out_ : List UInt8
  trace : List Event

/-- What a member leaves: its result, or the fault that ends the process, the lines that are not
    read yet, and the session. -/
structure Result (σ : Type) where
  ret : Except Fault Int
  lines : List (List UInt8)
  session : Session σ

namespace Session

variable {σ : Type}

/-- A further event. -/
def log (s : Session σ) (e : Event) : Session σ := { s with trace := s.trace ++ [e] }

/-- `out_->write`. -/
def write (s : Session σ) (data : List UInt8) : Session σ := { s with out_ := s.out_ ++ data }

end Session

def responseCode (code : Int) : Option String :=
  match code with
  | 211 => some "System status, or system help reply\r\n"
  | 214 => some "Help message\r\n"
  | 220 => some "%s Service ready\r\n"
  | 221 => some "%s Service closing transmission channel\r\n"
  | 250 => some "Requested mail action okay, completed\r\n"
  | 251 => some "User not local; will forward to nowhere.net\r\n"
  | 354 => some "Start mail input; end with <CRLF>.<CRLF>\r\n"
  | 421 => some "tierstore Service not available, closing transmission channel\r\n"
  | 450 => some "Requested mail action not taken: mailbox unavailable\r\n"
  | 451 => some "Requested action aborted: local error in processing\r\n"
  | 452 => some "Requested action not taken: insufficient system storage\r\n"
  | 500 => some "Syntax error, command unrecognized\r\n"
  | 501 => some "Syntax error in parameters or arguments\r\n"
  | 502 => some "Command not implemented\r\n"
  | 503 => some "Bad sequence of commands\r\n"
  | 504 => some "Command parameter not implemented\r\n"
  | 550 => some "Requested action not taken: mailbox unavailable\r\n"
  | 551 => some "User not local; please try nowhere.net\r\n"
  | 552 => some "Requested mail action aborted: exceeded storage allocation\r\n"
  | 553 => some "Requested action not taken: mailbox name not allowed\r\n"
  | 554 => some "Transaction failed\r\n"
  | _ => none

/-- The output of a format whose only directive is `%s`. -/
def format (arg : List UInt8) : List UInt8 → List UInt8
  | 37 :: 115 :: fmt => arg ++ format arg fmt
  | c :: fmt => c :: format arg fmt
  | [] => []

section Server

variable {σ : Type} (ending : Ending) (domain_ : List UInt8) (h : SMTPHandler σ)

/-- `send_response`. A code without a text makes `printf` read through a null pointer. -/
def sendResponse (code : Int) (s : Session σ) : Except Fault Int × Session σ :=
  let s := (s.log (.response code)).write (bytes (toString code ++ " "))
  match responseCode code with
  | none => (.error .nullDeref, s)
  | some fmt =>
    let text := format (cstr domain_) (bytes fmt)
    (.ok text.length, s.write text)

/-- A call of the handler. -/
def call (c : Call) (s : Session σ) : Int × Session σ :=
  let (handler, ret) := h s.handler c
  (ret, { s with handler }.log (.call c ret))

/-- A call of the handler whose result `process_cmd` returns. -/
def callHandler (c : Call) (lines : List (List UInt8)) (s : Session σ) : Result σ :=
  let (ret, s) := call h c s
  { ret := .ok ret, lines, session := s }

/-- The loop of `process_cmd` that reads a message. -/
def dataLoop : List (List UInt8) → Session σ → Result σ
  | [], s => { ret := .ok (-1), lines := [], session := s }
  | line :: lines, s =>
    if count line ≤ 0 then { ret := .ok (-1), lines, session := s }
    else
      let s := s.log (.data line)
      match terminate (line ++ nl) with
      | .error f => { ret := .error f, lines, session := s }
      | .ok mail_line =>
        if mail_line.headD 0 = 46 ∧ (cstr mail_line).length = 1 then
          callHandler h .dataEnd lines s
        else
          let mail_line := if mail_line.headD 0 = 46 then mail_line.tail else mail_line
          let (err, s) := call h (.dataLine (cstr mail_line)) s
          if err ≠ 0 then { ret := .ok err, lines, session := s }
          else dataLoop lines s

def toLower (c : UInt8) : UInt8 := if 65 ≤ c ∧ c ≤ 90 then c + 32 else c

/-- `strncasecmp` of a buffer and a text finds them equal. -/
def strncasecmp (buf : List UInt8) (text : String) (n : Nat) : Bool :=
  ((cstr buf).take n).map toLower = ((bytes text).take n).map toLower

/-- `strcasecmp` of a buffer and a text finds them equal. -/
def strcasecmp (buf : List UInt8) (text : String) : Bool :=
  (cstr buf).map toLower = (bytes text).map toLower

/-- `SKIP_WS`: what follows the blanks, if the string does not end there. -/
def skipWs : List UInt8 → Option (List UInt8)
  | [] => none
  | c :: rest => if c = 0 then none else if c ≠ 32 then some (c :: rest) else skipWs rest

/-- A command with an argument that blanks may precede. -/
def callWithArg (c : List UInt8 → Call) (buf : List UInt8) (lines : List (List UInt8))
    (s : Session σ) : Result σ :=
  match skipWs buf with
  | none => { ret := .ok 501, lines, session := s }
  | some arg => callHandler h (c (cstr arg)) lines s

/-- The branches of `process_cmd`, for a line that has been terminated. -/
def command (line : List UInt8) (lines : List (List UInt8)) (s : Session σ) : Result σ :=
  let cmd := line.take 4
  if strcasecmp cmd "HELO" then
    if line.getD 4 0 ≠ 32 then { ret := .ok 501, lines, session := s }
    else callWithArg h .helo (line.drop 5) lines s
  else if strcasecmp cmd "MAIL" then
    if !strncasecmp line "MAIL FROM:" 10 then { ret := .ok 501, lines, session := s }
    else callWithArg h .mail (line.drop 10) lines s
  else if strcasecmp cmd "RCPT" then
    if !strncasecmp line "RCPT TO:" 8 then { ret := .ok 501, lines, session := s }
    else callWithArg h .rcpt (line.drop 8) lines s
  else if strcasecmp cmd "DATA" then
    let (err, s) := call h .dataBegin s
    if err ≠ 0 then { ret := .ok err, lines, session := s }
    else
      match sendResponse domain_ 354 s with
      | (.error f, s) => { ret := .error f, lines, session := s }
      | (.ok _, s) => dataLoop h lines s
  else if strcasecmp cmd "RSET" then callHandler h .rset lines s
  else if strcasecmp cmd "NOOP" then { ret := .ok 220, lines, session := s }
  else if strcasecmp cmd "QUIT" then
    let (_, s) := call h .quit s
    { ret := .ok 221, lines, session := s }
  else if ["TURN", "SEND", "SOML", "SAML", "VRFY", "EXPN", "EHLO"].any (strcasecmp cmd) then
    { ret := .ok 502, lines, session := s }
  else { ret := .ok 500, lines, session := s }

def processCmd : List (List UInt8) → Session σ → Result σ
  | [], s => { ret := .ok (if ending.ret < 0 then -1 else 0), lines := [], session := s }
  | line :: lines, s =>
    let cc := count line
    if cc < 0 then { ret := .ok (-1), lines, session := s }
    else if cc = 0 then { ret := .ok 0, lines, session := s }
    else
      let s := s.log (.command line)
      if cc < 4 then { ret := .ok 500, lines, session := s }
      else
        match terminate (line ++ nl) with
        | .error f => { ret := .error f, lines, session := s }
        | .ok line => command domain_ h line lines s

/-- The loop of `server_session`, whose variable `err` is the result. -/
def sessionLoop : Nat → Int → List (List UInt8) → Session σ → Result σ
  | 0, _, lines, s => { ret := .error .outOfFuel, lines, session := s }
  | fuel + 1, err, lines, s =>
    let r := processCmd ending domain_ h lines s
    match r.ret with
    | .error f => { r with ret := .error f }
    | .ok resp =>
      if resp > 0 then
        match sendResponse domain_ resp r.session with
        | (.error f, s) => { r with ret := .error f, session := s }
        | (.ok err, s) =>
          if resp = 221 then { r with ret := .ok err, session := s }
          else sessionLoop fuel err r.lines s
      else { r with ret := .ok err }

/-- `server_session`, on the lines that come in. -/
def serverSession (lines : List (List UInt8)) (s : Session σ) : Result σ :=
  match sendResponse domain_ 220 s with
  | (.error f, s) => { ret := .error f, lines, session := s }
  | (.ok err, s) =>
    if err < 0 then { ret := .ok err, lines, session := s }
    else sessionLoop ending domain_ h (lines.length + 1) err lines s

end Server

/-! ### The client -/

/-- What the members of a `SMTPSender` return. `received` is empty by default. -/
structure SMTPSender where
  domain : List UInt8
  sender : List UInt8
  recipients : List (List UInt8)
  received : List UInt8
  message : List UInt8
  deriving DecidableEq, Repr

def isspace (c : UInt8) : Bool := c = 32 || (9 ≤ c && c ≤ 13)

/-- `strtoul` of a buffer in base 10, converted to `int`, and the number of bytes up to `end`. -/
def strtoul (buf : List UInt8) : Int × Nat :=
  let rest := buf.dropWhile isspace
  let (sign, rest) : Int × List UInt8 :=
    match rest with
    | 43 :: rest => (1, rest)
    | 45 :: rest => (-1, rest)
    | rest => (1, rest)
  let digits := rest.takeWhile fun c => 48 ≤ c && c ≤ 57
  if digits = [] then (0, 0)
  else
    (sign * (digits.foldl (fun n c => 10 * n + (c.toNat - 48)) 0 : Nat),
      buf.length - rest.length + digits.length)

/-- The client's side of a session: the lines of responses that come in, and what is written. -/
structure Client where
  replies : List (List UInt8)
  out_ : List UInt8
  deriving DecidableEq, Repr

section Client

variable (ending : Ending)

def processResponse (expected_code : Int) (c : Client) : Int × Client :=
  match c.replies with
  | [] => (if ending.ret < 0 then -1 else 221, c)
  | line :: replies =>
    let c := { c with replies }
    let cc := count line
    if cc < 0 then (-1, c)
    else if cc = 0 then (221, c)
    else if cc < 3 then (500, c)
    else
      let (code, len) := strtoul ((line ++ nl).take 3)
      if len ≠ 3 then (501, c)
      else if code ≠ expected_code then (503, c)
      else (0, c)

/-- `out_->write`. -/
def Client.write (c : Client) (data : List UInt8) : Client := { c with out_ := c.out_ ++ data }

/-- `process_response`, and the rest of the session if the response is the expected one. -/
def expect (expected_code : Int) (rest : Client → Int × Client) (c : Client) : Int × Client :=
  let (err, c) := processResponse ending expected_code c
  if err ≠ 0 then (err, c) else rest c

/-- The loop of `client_session` over the recipients, and the rest of the session. -/
def rcptLoop (rest : Client → Int × Client) : List (List UInt8) → Client → Int × Client
  | [], c => rest c
  | recipient :: recipients, c =>
    expect ending 250 (rcptLoop rest recipients)
      (c.write (bytes "RCPT TO: " ++ cstr recipient ++ nl))

/-- A round of the loop of `client_session` over the message from `start` on: the line, and the
    message from the next `start` on if there is a next round. -/
def nextLine (message : List UInt8) : List UInt8 × Option (List UInt8) :=
  let line := message.takeWhile fun c => c ≠ 13 && c ≠ 10
  match message.drop line.length with
  | [] => (line, none)
  | _ :: rest =>
    -- a line feed is skipped after any terminator, not only after a carriage return
    let rest := if rest.head? = some 10 then rest.tail else rest
    (line, if rest = [] then none else some rest)

/-- A round makes the message shorter. -/
theorem nextLine_lt {message line rest : List UInt8} (h : nextLine message = (line, some rest)) :
    rest.length < message.length := by
  unfold nextLine at h
  dsimp only at h
  split at h
  · cases h
  · rename_i tail hdrop
    have hlength := congrArg List.length hdrop
    rw [List.length_drop, List.length_cons] at hlength
    have hskip : (if tail.head? = some 10 then tail.tail else tail).length ≤ tail.length := by
      split <;> simp
    generalize (if tail.head? = some 10 then tail.tail else tail) = tail' at h hskip
    split at h
    · cases h
    · cases h
      omega

/-- What a round writes. -/
def writeLine (message line : List UInt8) : List UInt8 :=
  (if message.headD 0 = 46 then [46] else []) ++ line ++ nl

/-- The loop of `client_session` over the message. -/
def sendLines (message : List UInt8) : List UInt8 :=
  match _h : nextLine message with
  | (line, none) => writeLine message line
  | (line, some rest) => writeLine message line ++ sendLines rest
termination_by message.length
decreasing_by exact nextLine_lt _h

/-- What `client_session` writes when it may go ahead. -/
def mailData (sender : SMTPSender) : List UInt8 :=
  sender.received ++ sendLines sender.message ++ bytes ".\r\n"

/-- `client_session`, from the MAIL command on. -/
def sendMail (sender : SMTPSender) (c : Client) : Int × Client :=
  expect ending 250
    (rcptLoop ending
      (fun c => expect ending 354
        (fun c => expect ending 250 (fun c => (0, c)) (c.write (mailData sender)))
        (c.write (bytes "DATA\r\n")))
      sender.recipients)
    (c.write (bytes "MAIL FROM: " ++ cstr sender.sender ++ nl))

def clientSession (sender : SMTPSender) (first_session : Bool) (c : Client) : Int × Client :=
  if first_session then
    expect ending 220
      (fun c => expect ending 250 (sendMail ending sender)
        (c.write (bytes "HELO " ++ cstr sender.domain ++ nl))) c
  else sendMail ending sender c

end Client

end Oasys.Smtp
