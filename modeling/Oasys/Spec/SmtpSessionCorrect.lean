import Oasys.Spec.SmtpBodyCorrect

/-!
# Commands and data

A client that has been told to go ahead sends the lines of a message, and a lone dot. `Mode` is
where that leaves the session, computed from the trace alone; `Separated` says that the server
takes none of these lines for a command. It does where the handler gives a line an error code,
since `process_cmd` then goes back to the commands, and where a NUL stands right behind a dot.
-/

namespace Oasys.Smtp

/-! ### The specification -/

def isData (line : List UInt8) : Bool := strcasecmp (line.take 4) "DATA"

/-- Where a session is: among the commands, after a DATA command that has not been answered, or
    in a message. -/
inductive Mode where
  | command
  | asked
  | body
  deriving DecidableEq, Repr

/-- What an event changes. The go-ahead is the response 354 to DATA. A message ends with the lone
    dot, whoever reads it. -/
def Mode.next : Mode → Event → Mode
  | .body, .command line => if line = [46] then .command else .body
  | .body, .data line => if line = [46] then .command else .body
  | .body, _ => .body
  | _, .command line => if isData line then .asked else .command
  | .asked, .response code => if code = 354 then .body else .command
  | m, _ => m

def mode (trace : List Event) : Mode := trace.foldl Mode.next .command

/-- No line of a message before the lone dot is read as a command. -/
def Separated (trace : List Event) : Prop :=
  ∀ before line after, trace = before ++ .command line :: after → mode before = .body →
    line = [46]

/-- The handler does not give a line of a message an error code other than 221, which ends the
    session, nor the go-ahead for an answer to DATA, and no line of a message has a NUL behind a
    dot at its start. -/
def Event.Careful : Event → Prop
  | .call (.dataLine _) ret => ret ≤ 0 ∨ ret = 221
  | .call .dataBegin ret => ret ≠ 354
  | .data line => ¬ [46, 0] <+: line
  | _ => True

/-! ### Traces -/

@[simp] theorem mode_concat (trace : List Event) (e : Event) :
    mode (trace ++ [e]) = (mode trace).next e := by
  simp [mode]

theorem separated_nil : Separated [] := by
  intro before line after heq
  simp at heq

theorem Separated.concat {trace : List Event} {e : Event} (h : Separated trace)
    (he : ∀ line, e = .command line → mode trace = .body → line = [46]) :
    Separated (trace ++ [e]) := by
  intro before line after heq hbody
  obtain rfl | ⟨after', last, rfl⟩ := List.eq_nil_or_concat after
  · obtain ⟨rfl, hlast⟩ := List.append_inj' heq rfl
    exact he line (List.cons.inj hlast).1 hbody
  · have heq' : trace ++ [e] = (before ++ .command line :: after') ++ [last] := by
      simpa using heq
    obtain ⟨htrace, -⟩ := List.append_inj' heq' rfl
    exact h before line after' htrace hbody

section Server

variable {σ : Type} {h : SMTPHandler σ} {ending : Ending} {domain_ : List UInt8}

/-- If the events so far are careful, they are separated, and the session is where `m` says. -/
def Holds (m : Mode → Prop) (s : Session σ) : Prop :=
  (∀ e ∈ s.trace, e.Careful) → Separated s.trace ∧ m (mode s.trace)

theorem Holds.mono {m m' : Mode → Prop} {s : Session σ} (hs : Holds m s)
    (hm : ∀ x, m x → m' x) : Holds m' s :=
  fun hcareful => ⟨(hs hcareful).1, hm _ (hs hcareful).2⟩

theorem Holds.log {m m' : Mode → Prop} {s : Session σ} {e : Event} (hs : Holds m s)
    (hcommand : ∀ line, e = .command line → m .body → line = [46])
    (hm : ∀ x, m x → e.Careful → m' (x.next e)) : Holds m' (s.log e) := by
  intro hcareful
  simp only [Session.log, List.forall_mem_append, List.forall_mem_singleton] at hcareful ⊢
  obtain ⟨hseparated, hmode⟩ := hs hcareful.1
  refine ⟨hseparated.concat fun line heq hbody => hcommand line heq (hbody ▸ hmode), ?_⟩
  rw [mode_concat]
  exact hm _ hmode hcareful.2

/-- What `process_cmd` leaves: a session that goes on is among the commands, but for an answer to
    DATA that is not the go-ahead. -/
def Ends (r : Result σ) : Prop :=
  Holds (fun m => ∀ resp, r.ret = .ok resp → 0 < resp → resp ≠ 221 →
    m = .command ∨ m = .asked ∧ resp ≠ 354) r.session

theorem Ends.of_nonpos {m : Mode → Prop} {s : Session σ} {ret : Int} {lines : List (List UInt8)}
    (hs : Holds m s) (hret : ret ≤ 0) : Ends { ret := .ok ret, lines, session := s } := by
  refine hs.mono fun x _ resp heq hpos _ => ?_
  have := Except.ok.inj heq
  omega

theorem Ends.of_command {s : Session σ} {ret : Except Fault Int} {lines : List (List UInt8)}
    (hs : Holds (· = .command) s) : Ends { ret, lines, session := s } :=
  hs.mono fun _ hx _ _ _ _ => .inl hx

@[simp] theorem Mode.next_call (m : Mode) (c : Call) (ret : Int) : m.next (.call c ret) = m := by
  cases m <;> rfl

theorem Holds.call {m m' : Mode → Prop} {s : Session σ} (hs : Holds m s) (c : Call)
    (hm : ∀ x, m x → Event.Careful (.call c (call h c s).1) → m' x) :
    Holds m' (call h c s).2 := by
  have hs' : Holds m { s with handler := (h s.handler c).1 } := hs
  refine hs'.log (fun _ heq => nomatch heq) fun x hx hcareful => ?_
  rw [Mode.next_call]
  exact hm x hx hcareful

theorem Holds.sendResponse {m m' : Mode → Prop} {s : Session σ} (hs : Holds m s) (code : Int)
    (hm : ∀ x, m x → m' (x.next (.response code))) :
    Holds m' (sendResponse domain_ code s).2 := by
  have htrace : (Smtp.sendResponse domain_ code s).2.trace = (s.log (.response code)).trace := by
    unfold Smtp.sendResponse
    cases responseCode code <;> rfl
  have hs' : Holds m' (s.log (.response code)) :=
    hs.log (fun _ heq => nomatch heq) fun x hx _ => hm x hx
  intro hcareful
  rw [htrace] at hcareful ⊢
  exact hs' hcareful

theorem callHandler_ends {s : Session σ} (hs : Holds (· = .command) s) (c : Call)
    (lines : List (List UInt8)) : Ends (callHandler h c lines s) :=
  .of_command (hs.call c fun _ hx _ => hx)

theorem dot_cases {line : List UInt8} (hdot : (line ++ [0, 10]).headD 0 = 46)
    (hlength : (cstr (line ++ [0, 10])).length = 1) : line = [46] ∨ [46, 0] <+: line := by
  rw [cstr_nul] at hlength
  cases line with
  | nil => simp at hdot
  | cons c rest =>
    obtain rfl : c = 46 := by simpa using hdot
    cases rest with
    | nil => exact .inl rfl
    | cons d rest =>
      by_cases hd : d = 0
      · subst hd
        exact .inr ⟨rest, rfl⟩
      · simp [cstr, hd] at hlength

theorem dataLoop_ends (lines : List (List UInt8)) : ∀ {s : Session σ},
    Holds (· = .body) s → Ends (dataLoop h lines s) := by
  -- the induction is on the lines, of which a round of the loop reads one
  induction lines with
  | nil =>
    intro s hs
    exact .of_nonpos hs (by decide)
  | cons line lines ih =>
    intro s hs
    unfold dataLoop
    split
    · exact .of_nonpos hs (by decide)
    · simp only [terminate_line]
      split
      · -- the end of the message
        rename_i hdot
        have hs' : Holds (· = .command) (s.log (.data line)) := by
          refine hs.log (fun _ heq => by cases heq) ?_
          rintro x rfl hcareful
          obtain rfl | hnul := dot_cases hdot.1 hdot.2
          · rfl
          · exact absurd hnul hcareful
        exact callHandler_ends hs' .dataEnd lines
      · rename_i hdot
        have hs' : Holds (· = .body) (s.log (.data line)) := by
          refine hs.log (fun _ heq => by cases heq) ?_
          rintro x rfl -
          have hne : line ≠ [46] := by
            rintro rfl
            exact hdot (by decide)
          simp [Mode.next, hne]
        generalize cstr (if (line ++ [0, 10]).headD 0 = 46 then (line ++ [0, 10]).tail
          else line ++ [0, 10]) = mail_line
        split
        · -- an error code: a careful one does not go on with the session
          rename_i herr
          refine hs'.call (.dataLine mail_line) fun x _ hcareful resp heq hpos hquit => ?_
          obtain rfl := Except.ok.inj heq
          obtain hnonpos | hquit' := hcareful
          · omega
          · exact absurd hquit' hquit
        · exact ih (hs'.call (.dataLine mail_line) fun x hx _ => hx)

theorem strcasecmp_line (line : List UInt8) :
    strcasecmp ((line ++ [0, 10]).take 4) "DATA" = isData line := by
  have hcstr : cstr ((line ++ [0, 10]).take 4) = cstr (line.take 4) := by
    by_cases hlength : 4 ≤ line.length
    · rw [List.take_append_of_le_length hlength]
    · have hn : 4 - line.length = 3 - line.length + 1 := by omega
      rw [List.take_append, hn, List.take_succ_cons, cstr_nul]
  unfold isData strcasecmp
  rw [hcstr]

theorem strcasecmp_unique {buf : List UInt8} {a b : String} (ha : strcasecmp buf a = true)
    (hb : strcasecmp buf b = true) : (bytes a).map toLower = (bytes b).map toLower := by
  simp only [strcasecmp, decide_eq_true_eq] at ha hb
  rw [← ha, hb]

theorem command_ends {line : List UInt8} (hline : strcasecmp (line.take 4) "DATA" = false)
    {s : Session σ} (hs : Holds (· = .command) s) (lines : List (List UInt8)) :
    Ends (command domain_ h line lines s) := by
  have harg : ∀ (c : List UInt8 → Call) (buf : List UInt8), Ends (callWithArg h c buf lines s) := by
    intro c buf
    unfold callWithArg
    cases skipWs buf with
    | none => exact .of_command hs
    | some arg => exact callHandler_ends hs _ lines
  unfold command
  simp only [hline, Bool.false_eq_true, if_false]
  repeat' split
  all_goals
    first
    | exact .of_command hs
    | exact harg _ _
    | exact callHandler_ends hs _ lines
    | exact .of_command (hs.call _ fun _ hx _ => hx)

theorem command_data_ends {line : List UInt8} (hline : strcasecmp (line.take 4) "DATA" = true)
    {s : Session σ} (hs : Holds (· = .asked) s) (lines : List (List UInt8)) :
    Ends (command domain_ h line lines s) := by
  have hother : ∀ text, (bytes text).map toLower ≠ (bytes "DATA").map toLower →
      strcasecmp (line.take 4) text = false := by
    intro text hne
    rw [Bool.eq_false_iff]
    exact fun htext => hne (strcasecmp_unique htext hline)
  unfold command
  simp only [hother "HELO" (by decide), hother "MAIL" (by decide), hother "RCPT" (by decide), hline,
    Bool.false_eq_true, if_false, if_true]
  split
  · -- the answer is not the go-ahead
    refine hs.call .dataBegin fun x hx hcareful resp heq _ _ => .inr ⟨hx, ?_⟩
    obtain rfl := Except.ok.inj heq
    exact hcareful
  · have hbegin : Holds (· = .asked) (call h .dataBegin s).2 := hs.call .dataBegin fun _ hx _ => hx
    have hsent : Holds (· = .body) (sendResponse domain_ 354 (call h .dataBegin s).2).2 := by
      refine hbegin.sendResponse 354 ?_
      rintro x rfl
      rfl
    exact dataLoop_ends lines hsent

theorem processCmd_ends {s : Session σ} (hs : Holds (· = .command) s) (lines : List (List UInt8)) :
    Ends (processCmd ending domain_ h lines s) := by
  cases lines with
  | nil => exact .of_command hs
  | cons line lines =>
    have hread : Holds (· = if isData line then .asked else .command) (s.log (.command line)) := by
      refine hs.log (fun _ _ hbody => nomatch hbody) ?_
      rintro x rfl -
      rfl
    unfold processCmd
    dsimp only
    split
    · exact .of_command hs
    · split
      · exact .of_command hs
      · split
        · -- too short for a command
          refine hread.mono fun x hx resp heq _ _ => ?_
          obtain rfl := Except.ok.inj heq
          cases hdata : isData line <;> simp [hdata, hx]
        · simp only [terminate_line]
          cases hdata : isData line with
          | true =>
            rw [hdata] at hread
            exact command_data_ends ((strcasecmp_line line).trans hdata) hread lines
          | false =>
            rw [hdata] at hread
            exact command_ends ((strcasecmp_line line).trans hdata) hread lines

theorem sessionLoop_holds (fuel : Nat) : ∀ {err : Int} {lines : List (List UInt8)} {s : Session σ},
    Holds (· = .command) s →
    Holds (fun _ => True) (sessionLoop ending domain_ h fuel err lines s).session := by
  -- in front of every round the next event may be a command
  induction fuel with
  | zero => exact fun hs => hs.mono fun _ _ => trivial
  | succ fuel ih =>
    intro err lines s hs
    have hends : Ends (processCmd ending domain_ h lines s) := processCmd_ends hs lines
    unfold sessionLoop
    generalize processCmd ending domain_ h lines s = r at hends
    dsimp only
    cases hret : r.ret with
    | error f => exact hends.mono fun _ _ => trivial
    | ok resp =>
      dsimp only
      split
      · rename_i hpos
        have hany : Holds (fun _ => True) (sendResponse domain_ resp r.session).2 :=
          hends.sendResponse resp fun _ _ => trivial
        -- the response goes to a command or ends the message, unless the session ends
        have hnext : resp ≠ 221 →
            Holds (· = .command) (sendResponse domain_ resp r.session).2 := by
          intro hquit
          refine hends.sendResponse resp fun x hx => ?_
          obtain rfl | ⟨rfl, hne⟩ := hx resp hret hpos hquit
          · rfl
          · simp [Mode.next, hne]
        generalize sendResponse domain_ resp r.session = sent at hany hnext
        obtain ⟨ret, s'⟩ := sent
        cases ret with
        | error f => exact hany
        | ok err =>
          dsimp only
          split
          · exact hany
          · rename_i hquit
            exact ih (hnext hquit)
      · exact hends.mono fun _ _ => trivial

/-- In every session whose events are careful, whatever the client sends, the server takes no line
    of a message before the lone dot for a command. -/
theorem separated_of_careful (ending : Ending) (domain_ : List UInt8) (h : SMTPHandler σ)
    (stream : List UInt8) (st : σ)
    (hcareful : ∀ e ∈ (serverSession ending domain_ h
      (readLines [] stream) ⟨st, [], []⟩).session.trace, e.Careful) :
    Separated (serverSession ending domain_ h
      (readLines [] stream) ⟨st, [], []⟩).session.trace := by
  have hinit : Holds (· = .command) (⟨st, [], []⟩ : Session σ) := fun _ => ⟨separated_nil, rfl⟩
  have hsent : Holds (· = .command) (sendResponse domain_ 220 ⟨st, [], []⟩).2 := by
    refine hinit.sendResponse 220 ?_
    rintro x rfl
    rfl
  have hholds : Holds (fun _ => True) (serverSession ending domain_ h
      (readLines [] stream) ⟨st, [], []⟩).session := by
    unfold serverSession
    generalize sendResponse domain_ 220 ⟨st, [], []⟩ = sent at hsent
    obtain ⟨ret, s⟩ := sent
    cases ret with
    | error f => exact hsent.mono fun _ _ => trivial
    | ok err =>
      dsimp only
      split
      · exact hsent.mono fun _ _ => trivial
      · exact sessionLoop_holds _ hsent
  exact (hholds hcareful).1

end Server

/-- A message with a line that is a command, taken whole. -/
theorem separated_of_careful_quit :
    (serverSession .eof [] acceptAll (readLines [] (bytes "DATA\r\nQUIT\r\n.\r\nQUIT\r\n"))
      ⟨(), [], []⟩).session.trace =
        [.response 220, .command (bytes "DATA"), .call .dataBegin 0, .response 354,
          .data (bytes "QUIT"), .call (.dataLine (bytes "QUIT")) 0, .data [46], .call .dataEnd 250,
          .response 250, .command (bytes "QUIT"), .call .quit 221, .response 221] ∧
    Separated (serverSession .eof [] acceptAll
      (readLines [] (bytes "DATA\r\nQUIT\r\n.\r\nQUIT\r\n")) ⟨(), [], []⟩).session.trace := by
  have htrace : (serverSession .eof [] acceptAll
      (readLines [] (bytes "DATA\r\nQUIT\r\n.\r\nQUIT\r\n")) ⟨(), [], []⟩).session.trace =
        [.response 220, .command (bytes "DATA"), .call .dataBegin 0, .response 354,
          .data (bytes "QUIT"), .call (.dataLine (bytes "QUIT")) 0, .data [46], .call .dataEnd 250,
          .response 250, .command (bytes "QUIT"), .call .quit 221, .response 221] := by
    decide +kernel
  refine ⟨htrace, separated_of_careful _ _ _ _ _ ?_⟩
  rw [htrace]
  simp [Event.Careful]
  decide

/-- A handler that refuses the lines of a message. -/
def refuse : SMTPHandler Unit := fun st c =>
  (st, match c with
    | .dataLine _ => 552
    | _ => (acceptAll st c).2)

/-- Without the condition a line of a message is read as a command. -/
theorem not_separated_refused : ¬ ∀ (h : SMTPHandler Unit) (stream : List UInt8),
    Separated (serverSession .eof [] h (readLines [] stream) ⟨(), [], []⟩).session.trace := by
  intro hall
  have htrace : (serverSession .eof [] refuse
      (readLines [] (bytes "DATA\r\na\r\nQUIT\r\n.\r\n")) ⟨(), [], []⟩).session.trace =
        [.response 220, .command (bytes "DATA"), .call .dataBegin 0, .response 354,
          .data (bytes "a"), .call (.dataLine (bytes "a")) 552, .response 552] ++
        .command (bytes "QUIT") :: [.call .quit 221, .response 221] := by
    decide +kernel
  have hline := hall refuse _ _ _ _ htrace (by decide)
  exact absurd hline (by decide)

end Oasys.Smtp
