import Oasys.Smtp.SMTP
import Oasys.Spec.BufferedInputCorrect
import Mathlib.Data.List.TakeWhile

/-!
# The body of a message

The lines that the client sends (`split`), the lines that the server passes on, and the lines
that a message has (`lines`). The server passes on what the client sends as far as a string of C
and an `int` go; the client loses an empty line where a line feed follows a line feed that has no
carriage return. `Preserved` says which messages arrive.
-/

namespace Oasys.Smtp

/-! ### Lines of a stream -/

theorem readLines_cons (line : List UInt8) (c : UInt8) (rest : List UInt8) :
    readLines line (c :: rest) =
      if line.getLast? = some 13 ∧ c = 10 then line.dropLast :: readLines [] rest
      else readLines (line ++ [c]) rest := rfl

theorem readLines_append {line : List UInt8} (hline : 13 ∉ line) (rest : List UInt8) :
    ∀ read : List UInt8, 13 ∉ read →
      readLines read (line ++ rest) = readLines (read ++ line) rest := by
  induction line with
  | nil => intro read _; simp
  | cons c line ih =>
    intro read hread
    have hc : ¬ (read.getLast? = some 13 ∧ c = 10) := fun h => hread (List.mem_of_getLast? h.1)
    have hread' : 13 ∉ read ++ [c] := by
      simp only [List.mem_cons, not_or] at hline
      simp [hread, hline.1]
    rw [List.cons_append, readLines_cons, if_neg hc, ih (by simp_all) _ hread']
    simp

theorem readLines_line {line : List UInt8} (hline : 13 ∉ line) (rest : List UInt8) :
    readLines [] (line ++ nl ++ rest) = line :: readLines [] rest := by
  rw [List.append_assoc, readLines_append hline _ [] (by simp)]
  simp [nl, readLines]

/-- What is read from a stream is what `read_line` returns, where it returns a line. -/
theorem readLines_isLine {stream : List UInt8} {k : Nat} : ∀ {read : List UInt8},
    Io.NoLine nl read → Io.FirstAt nl (read ++ stream) k →
    readLines read stream =
      (read ++ stream).take k :: readLines [] ((read ++ stream).drop (k + nl.length)) := by
  -- the induction is on the bytes that are not collected yet
  induction stream with
  | nil =>
    intro read hnone hfirst
    rw [List.append_nil] at hfirst
    exact absurd hfirst.1 (hnone k)
  | cons c rest ih =>
    intro read hnone hfirst
    rw [readLines_cons]
    split
    · rename_i hends
      obtain ⟨hlast, rfl⟩ := hends
      obtain ⟨line, rfl⟩ := List.getLast?_eq_some_iff.1 hlast
      -- the line ends here, and it does not end before
      have hk : k = line.length := by
        have hle : ¬ line.length < k := fun hlt => hfirst.2 _ hlt (by simp [nl])
        have hge : ¬ k < line.length := by
          intro hlt
          have hprefix := hfirst.1
          rw [List.append_assoc, List.drop_append_of_le_length (by omega)] at hprefix
          have hlen : nl.length ≤ ((line.drop k) ++ [13]).length := by simp [nl]; omega
          refine hnone k ?_
          rw [List.drop_append_of_le_length (by omega)]
          refine List.prefix_of_prefix_length_le hprefix ⟨10 :: rest, ?_⟩ hlen
          simp
        omega
      subst hk
      simp [nl]
    · rename_i hends
      have hnone' : Io.NoLine nl (read ++ [c]) := by
        intro j hprefix
        by_cases hj : j + 2 ≤ read.length
        · rw [List.drop_append_of_le_length (by omega)] at hprefix
          refine hnone j (List.prefix_of_prefix_length_le hprefix ⟨[c], rfl⟩ ?_)
          simp [nl]; omega
        · -- the terminator would be the last byte collected and this one
          have hlen := hprefix.length_le
          simp [nl] at hlen
          have hj' : j + 1 = read.length := by omega
          apply hends
          obtain ⟨d, hd⟩ : ∃ d, read.drop j = [d] := by
            apply List.length_eq_one_iff.1
            rw [List.length_drop]; omega
          rw [List.drop_append_of_le_length (by omega), hd] at hprefix
          simp [nl] at hprefix
          refine ⟨?_, hprefix.2.symm⟩
          rw [← List.take_append_drop j read, hd, hprefix.1]
          simp
      rw [ih hnone' (by simpa using hfirst)]
      simp

/-- `BufferedInput` reads the first of the lines of the stream, and leaves the others. -/
theorem readLines_readLine {i : Io.BufferedInput} {ds : List Io.Delivery}
    (hfits : i.buf_.fullbytes + Io.BufferedInput.sizes ds < 2 ^ 31) {r : Io.Input}
    (hread : i.readLine nl ds = .ok r) (hret : 0 < r.ret) (later : List UInt8) :
    ∃ line, r.out = line ++ nl ∧ r.ret = (line ++ nl).length ∧
      readLines [] (i.unread ++ r.delivered ++ later) =
        line :: readLines [] (r.input.unread ++ later) := by
  obtain ⟨htakes, hline | ⟨hnone, -⟩⟩ :=
    (Io.BufferedInput.readLine_spec (by simp [nl]) hfits).2 r hread
  swap
  · omega
  obtain ⟨k, hfirst, hout⟩ := hline
  have hle := hfirst.length_le.resolve_right (by simp [nl])
  -- what is delivered later does not make an earlier terminator
  have hfirst' : Io.FirstAt nl ([] ++ (i.unread ++ r.delivered ++ later)) k := by
    refine ⟨?_, fun j hj hprefix => hfirst.2 j hj ?_⟩
    · rw [List.nil_append, List.drop_append_of_le_length (by omega)]
      exact hfirst.1.trans (List.prefix_append _ _)
    · rw [List.nil_append, List.drop_append_of_le_length (by omega)] at hprefix
      refine List.prefix_of_prefix_length_le hprefix (List.prefix_append _ _) ?_
      rw [List.length_drop]
      omega
  have hout' : r.out = (i.unread ++ r.delivered).take k ++ nl := by
    obtain ⟨tail, htail⟩ := hfirst.1
    rw [hout, List.take_add, ← htail]
    simp
  have hunread : r.input.unread = (i.unread ++ r.delivered).drop (k + nl.length) := by
    have hstream := htakes.stream
    rw [hout] at hstream
    exact List.append_cancel_left (hstream.trans (List.take_append_drop _ _).symm)
  refine ⟨(i.unread ++ r.delivered).take k, hout', ?_, ?_⟩
  · rw [← hout', ← htakes.count]
    omega
  · rw [readLines_isLine (Io.noLine_of_length (by simp [nl])) hfirst', hunread, List.nil_append,
      List.take_append_of_le_length (by omega), List.drop_append_of_le_length hle]

/-- A line, and a byte of the next one, arrive at once. -/
theorem readLines_readLine_one :
    ∃ r, Io.BufferedInput.new.readLine nl [.bytes [97, 13, 10, 98]] = .ok r ∧
      ∃ line, r.out = line ++ nl ∧ r.ret = (line ++ nl).length ∧
        readLines [] (Io.BufferedInput.new.unread ++ r.delivered ++ [99]) =
          line :: readLines [] (r.input.unread ++ [99]) := by
  have hfits : Io.BufferedInput.new.buf_.fullbytes +
      Io.BufferedInput.sizes [.bytes [97, 13, 10, 98]] < 2 ^ 31 := by decide
  have hread : ((Io.BufferedInput.new.readLine nl [.bytes [97, 13, 10, 98]]).toOption.map
      Io.Input.ret) = some 3 := by decide +kernel
  obtain ⟨r, hr, hret⟩ := Option.map_eq_some_iff.1 hread
  have hok : Io.BufferedInput.new.readLine nl [.bytes [97, 13, 10, 98]] = .ok r := by
    cases hrun : Io.BufferedInput.new.readLine nl [.bytes [97, 13, 10, 98]] with
    | error f =>
      rw [hrun] at hr
      cases hr
    | ok r' =>
      rw [hrun] at hr
      rw [Option.some.inj hr]
  exact ⟨r, hok, readLines_readLine hfits hok (by omega) [99]⟩

/-! ### The lines of a message -/

/-- The lines of a message: a line feed ends a line, with the carriage return before it if there
    is one, and so does the end of the message. `line` has the bytes of the first one that have
    been seen. -/
def linesFrom (line : List UInt8) : List UInt8 → List (List UInt8)
  | [] => if line = [] then [] else [line]
  | c :: rest =>
    if c = 10 then
      (if line.getLast? = some 13 then line.dropLast else line) :: linesFrom [] rest
    else linesFrom (line ++ [c]) rest

def lines (message : List UInt8) : List (List UInt8) := linesFrom [] message

theorem linesFrom_append {line : List UInt8} (hline : 10 ∉ line) (seen rest : List UInt8) :
    linesFrom seen (line ++ rest) = linesFrom (seen ++ line) rest := by
  induction line generalizing seen with
  | nil => simp
  | cons c line ih =>
    simp only [List.mem_cons, not_or] at hline
    rw [List.cons_append, linesFrom, if_neg (Ne.symm hline.1), ih hline.2]
    simp

theorem lines_last {line : List UInt8} (hline : 10 ∉ line) :
    lines line = if line = [] then [] else [line] := by
  have h := linesFrom_append hline [] []
  rwa [List.append_nil] at h

theorem lines_lf {line : List UInt8} (hline : 10 ∉ line) (rest : List UInt8) :
    lines (line ++ 10 :: rest) =
      (if line.getLast? = some 13 then line.dropLast else line) :: lines rest := by
  unfold lines
  rw [linesFrom_append hline]
  rfl

theorem lf_cases (message : List UInt8) :
    10 ∉ message ∨ ∃ line rest, message = line ++ 10 :: rest ∧ 10 ∉ line := by
  by_cases h : 10 ∈ message
  · exact .inr (List.eq_append_cons_of_mem h)
  · exact .inl h

/-! ### What the client sends -/

def split (message : List UInt8) : List (List UInt8) :=
  match _h : nextLine message with
  | (line, none) => [line]
  | (line, some rest) => line :: split rest
termination_by message.length
decreasing_by exact nextLine_lt _h

def stuff (line : List UInt8) : List UInt8 := if line.headD 0 = 46 then 46 :: line else line

theorem split_none {message line : List UInt8} (h : nextLine message = (line, none)) :
    split message = [line] := by
  rw [split]
  split <;> simp_all

theorem split_some {message line rest : List UInt8} (h : nextLine message = (line, some rest)) :
    split message = line :: split rest := by
  rw [split]
  split <;> simp_all

theorem nextLine_line (message : List UInt8) :
    (∀ c ∈ (nextLine message).1, c ≠ 13 ∧ c ≠ 10) ∧ writeLine message (nextLine message).1 =
      stuff (nextLine message).1 ++ nl := by
  have hfst : (nextLine message).1 = message.takeWhile fun c => c ≠ 13 && c ≠ 10 := by
    unfold nextLine
    dsimp only
    split <;> rfl
  rw [hfst]
  refine ⟨fun c hc => ?_, ?_⟩
  · simpa using List.mem_takeWhile_imp hc
  · -- a terminator is not a dot
    cases message with
    | nil => rfl
    | cons c rest =>
      by_cases hc : c = 46
      · simp [writeLine, stuff, hc]
      · by_cases hends : c ≠ 13 ∧ c ≠ 10 <;> simp [writeLine, stuff, hc, hends]

theorem sendLines_eq (message : List UInt8) :
    sendLines message = ((split message).map fun line => stuff line ++ nl).flatten := by
  induction message using split.induct with
  | case1 message line h =>
    have hline := (nextLine_line message).2
    rw [h] at hline
    rw [split_none h, sendLines]
    split <;> simp_all
  | case2 message line rest h ih =>
    have hline := (nextLine_line message).2
    rw [h] at hline
    rw [split_some h, sendLines]
    split <;> simp_all

theorem split_clean (message : List UInt8) : ∀ line ∈ split message, 13 ∉ line ∧ 10 ∉ line := by
  have hclean : ∀ {message line next}, nextLine message = (line, next) → 13 ∉ line ∧ 10 ∉ line := by
    intro message line next h
    have hline := (nextLine_line message).1
    rw [h] at hline
    exact ⟨fun hmem => (hline _ hmem).1 rfl, fun hmem => (hline _ hmem).2 rfl⟩
  induction message using split.induct with
  | case1 message line h =>
    rw [split_none h]
    simpa using hclean h
  | case2 message line rest h ih =>
    rw [split_some h]
    simpa using ⟨hclean h, ih⟩

theorem readLines_split (message rest : List UInt8) :
    readLines [] (sendLines message ++ rest) =
      (split message).map stuff ++ readLines [] rest := by
  have hclean := split_clean message
  rw [sendLines_eq]
  generalize split message = ls at hclean
  induction ls with
  | nil => rfl
  | cons line ls ih =>
    simp only [List.forall_mem_cons] at hclean
    have hstuff : 13 ∉ stuff line := by
      unfold stuff
      split <;> simp [hclean.1.1]
    rw [List.map_cons, List.flatten_cons, List.append_assoc, readLines_line hstuff, ih hclean.2]
    rfl

/-! ### What the server passes on -/

/-- The lines that are passed to `smtp_DATA_line`. -/
def dataLines (trace : List Event) : List (List UInt8) :=
  trace.filterMap fun
    | .call (.dataLine line) _ => some line
    | _ => none

def SMTPHandler.Accepts {σ : Type} (h : SMTPHandler σ) : Prop :=
  ∀ st, (h st .dataBegin).2 = 0 ∧ ∀ line, (h st (.dataLine line)).2 = 0

/-- An `int` counts the bytes of the line that the client sends. -/
def Fits (line : List UInt8) : Prop := (stuff line ++ nl).length < 2 ^ 31

instance (line : List UInt8) : Decidable (Fits line) := inferInstanceAs (Decidable (_ < _))

theorem terminate_line (line : List UInt8) : terminate (line ++ nl) = .ok (line ++ [0, 10]) := by
  simp [terminate, nl, assert]

theorem count_nonpos_iff (line : List UInt8) : count (stuff line) ≤ 0 ↔ ¬ Fits line := by
  have hpos : 0 < (stuff line ++ nl).length := by simp [nl]
  unfold count Fits
  split <;> omega

theorem cstr_nul (line rest : List UInt8) : cstr (line ++ 0 :: rest) = cstr line := by
  induction line with
  | nil => rfl
  | cons c line ih =>
    unfold cstr at ih ⊢
    simp only [List.cons_append, List.takeWhile_cons, ih]

/-- What is sent of a line does not end the message, and the server takes off the dot that the
    client has put before it. -/
theorem unstuff (line : List UInt8) :
    ¬ ((stuff line ++ [0, 10]).headD 0 = 46 ∧ (cstr (stuff line ++ [0, 10])).length = 1) ∧
      (if (stuff line ++ [0, 10]).headD 0 = 46 then (stuff line ++ [0, 10]).tail
        else stuff line ++ [0, 10]) = line ++ [0, 10] := by
  cases line with
  | nil => simp [stuff]
  | cons c rest =>
    by_cases hc : c = 46
    · simp [stuff, hc, cstr]
    · simp [stuff, hc]

section Server

variable {σ : Type} {h : SMTPHandler σ} {ending : Ending} {domain_ : List UInt8}

/-- The loop of `process_cmd` on what the client sends of a message passes on the strings of C
    in its lines, up to a line that is too long, and it stops behind the message or ends the
    session. -/
theorem dataLoop_spec (haccepts : h.Accepts) (after ls : List (List UInt8)) : ∀ s : Session σ,
    let r := dataLoop h (ls.map stuff ++ [46] :: after) s
    dataLines r.session.trace = dataLines s.trace ++ (ls.takeWhile (Fits ·)).map cstr ∧
      (r.ret = .ok (-1) ∨ r.lines = after) := by
  -- the induction is on the lines, of which a round of the loop reads one
  induction ls with
  | nil =>
    intro s
    simp [dataLoop, count, nl, terminate, assert, cstr, callHandler, call, Session.log, dataLines]
  | cons line ls ih =>
    intro s
    rw [List.map_cons, List.cons_append]
    unfold dataLoop
    by_cases hfits : Fits line
    · rw [if_neg (by rw [count_nonpos_iff]; simpa using hfits),
        List.takeWhile_cons_of_pos (by simpa)]
      obtain ⟨hgoes, hrest⟩ := unstuff line
      obtain ⟨-, hline⟩ := haccepts s.handler
      simp only [terminate_line]
      rw [if_neg hgoes, hrest]
      simp only [call, Session.log, hline, cstr_nul, ne_eq, not_true_eq_false, if_false]
      refine ⟨?_, (ih _).2⟩
      rw [(ih _).1]
      simp [dataLines]
    · rw [if_pos ((count_nonpos_iff line).2 hfits), List.takeWhile_cons_of_neg (by simpa)]
      simp

theorem processCmd_line {line : List UInt8} (hcc : 4 ≤ count line) (lines : List (List UInt8))
    (s : Session σ) :
    processCmd ending domain_ h (line :: lines) s =
      command domain_ h (line ++ [0, 10]) lines (s.log (.command line)) := by
  unfold processCmd
  dsimp only
  rw [if_neg (by omega), if_neg (by omega), if_neg (by omega), terminate_line]

theorem command_data (lines : List (List UInt8)) (s : Session σ) :
    command domain_ h (bytes "DATA" ++ [0, 10]) lines s =
      let (err, s) := call h .dataBegin s
      if err ≠ 0 then { ret := .ok err, lines, session := s }
      else
        match sendResponse domain_ 354 s with
        | (.error f, s) => { ret := .error f, lines, session := s }
        | (.ok _, s) => dataLoop h lines s := rfl

theorem processCmd_data (ending : Ending) (domain_ : List UInt8) (haccepts : h.Accepts)
    (after ls : List (List UInt8)) (s : Session σ) :
    let r := processCmd ending domain_ h (bytes "DATA" :: (ls.map stuff ++ [46] :: after)) s
    dataLines r.session.trace = dataLines s.trace ++ (ls.takeWhile (Fits ·)).map cstr ∧
      (r.ret = .ok (-1) ∨ r.lines = after) := by
  obtain ⟨hbegin, -⟩ := haccepts s.handler
  rw [processCmd_line (by decide), command_data]
  simp only [call, Session.log, hbegin, ne_eq, not_true_eq_false, if_false, sendResponse,
    responseCode, Session.write]
  refine ⟨?_, (dataLoop_spec haccepts after ls _).2⟩
  rw [(dataLoop_spec haccepts after ls _).1]
  simp [dataLines]

theorem sendResponse_dataLines (domain_ : List UInt8) (code : Int) (s : Session σ) :
    dataLines (sendResponse domain_ code s).2.trace = dataLines s.trace := by
  unfold sendResponse
  cases responseCode code <;> simp [Session.log, Session.write, dataLines]

theorem sessionLoop_nil (fuel : Nat) (err : Int) (s : Session σ) :
    (sessionLoop ending domain_ h fuel err [] s).session = s := by
  cases fuel with
  | zero => rfl
  | succ fuel =>
    have hret : ¬ (0 : Int) < if ending.ret < 0 then -1 else 0 := by split <;> omega
    simp [sessionLoop, processCmd, hret]

/-- The loop of `server_session` on DATA and what the client sends of a message. -/
theorem sessionLoop_data (haccepts : h.Accepts) (ls : List (List UInt8)) (s : Session σ)
    (fuel : Nat) (err : Int) :
    dataLines (sessionLoop ending domain_ h (fuel + 1) err
      (bytes "DATA" :: (ls.map stuff ++ [[46]])) s).session.trace =
        dataLines s.trace ++ (ls.takeWhile (Fits ·)).map cstr := by
  -- the command takes the whole message, so that nothing is left for the loop
  obtain ⟨hlines, hends⟩ := processCmd_data ending domain_ haccepts [] ls s
  rw [← hlines]
  unfold sessionLoop
  generalize processCmd ending domain_ h _ s = r at hends
  dsimp only
  cases hret : r.ret with
  | error f => simp
  | ok resp =>
    rw [hret] at hends
    dsimp only
    split
    · rename_i hpos
      obtain hend | hnil := hends
      · cases hend
        omega
      · have hsent := sendResponse_dataLines domain_ resp r.session
        cases hresponse : sendResponse domain_ resp r.session with
        | mk ret s' =>
          rw [hresponse] at hsent
          rw [← hsent, hnil]
          cases ret with
          | error f => rfl
          | ok err =>
            dsimp only
            split
            · rfl
            · rw [sessionLoop_nil]
    · rfl

end Server

/-! ### What the client writes -/

section Client

variable {ending : Ending} {sender : SMTPSender}

/-- The commands of a client session before DATA. -/
def commands (sender : SMTPSender) (first_session : Bool) : List UInt8 :=
  (if first_session then bytes "HELO " ++ cstr sender.domain ++ nl else []) ++
    (bytes "MAIL FROM: " ++ cstr sender.sender ++ nl) ++
    (sender.recipients.map fun recipient => bytes "RCPT TO: " ++ cstr recipient ++ nl).flatten

theorem expect_eq_zero {code : Int} {rest : Client → Int × Client} {c : Client}
    (hret : (expect ending code rest c).1 = 0) :
    ∃ c', c'.out_ = c.out_ ∧ expect ending code rest c = rest c' := by
  have hout : (processResponse ending code c).2.out_ = c.out_ := by
    unfold processResponse
    split
    · rfl
    · dsimp only
      repeat' split
      all_goals rfl
  unfold expect at hret ⊢
  generalize processResponse ending code c = r at hret hout ⊢
  obtain ⟨err, c'⟩ := r
  dsimp only at hret hout ⊢
  by_cases herr : err = 0
  · exact ⟨c', hout, by simp [herr]⟩
  · simp [herr] at hret

theorem rcptLoop_eq_zero {rest : Client → Int × Client} {recipients : List (List UInt8)} :
    ∀ {c : Client}, (rcptLoop ending rest recipients c).1 = 0 →
    ∃ c', c'.out_ = c.out_ ++
        (recipients.map fun recipient => bytes "RCPT TO: " ++ cstr recipient ++ nl).flatten ∧
      rcptLoop ending rest recipients c = rest c' := by
  induction recipients with
  | nil =>
    intro c _
    exact ⟨c, by simp, rfl⟩
  | cons recipient recipients ih =>
    intro c hret
    obtain ⟨c₁, hout₁, hgoes₁⟩ := expect_eq_zero hret
    unfold rcptLoop at hret ⊢
    rw [hgoes₁] at hret ⊢
    obtain ⟨c₂, hout₂, hgoes₂⟩ := ih hret
    exact ⟨c₂, by simp [hout₂, hout₁, Client.write], hgoes₂⟩

theorem clientSession_eq_zero {first_session : Bool} {c : Client}
    (hret : (clientSession ending sender first_session c).1 = 0) :
    (clientSession ending sender first_session c).2.out_ =
      c.out_ ++ commands sender first_session ++ bytes "DATA\r\n" ++ mailData sender := by
  -- every `expect` has returned 0, and its command is written
  have hmail : ∀ {c : Client}, (sendMail ending sender c).1 = 0 →
      (sendMail ending sender c).2.out_ =
        c.out_ ++ commands sender false ++ bytes "DATA\r\n" ++ mailData sender := by
    intro c hret
    unfold sendMail at hret ⊢
    obtain ⟨c₁, hout₁, hgoes₁⟩ := expect_eq_zero hret
    rw [hgoes₁] at hret ⊢
    obtain ⟨c₂, hout₂, hgoes₂⟩ := rcptLoop_eq_zero hret
    rw [hgoes₂] at hret ⊢
    obtain ⟨c₃, hout₃, hgoes₃⟩ := expect_eq_zero hret
    rw [hgoes₃] at hret ⊢
    obtain ⟨c₄, hout₄, hgoes₄⟩ := expect_eq_zero hret
    rw [hgoes₄]
    simp [hout₄, hout₃, hout₂, hout₁, Client.write, commands]
  cases first_session with
  | false => exact hmail hret
  | true =>
    unfold clientSession at hret ⊢
    rw [if_pos rfl] at hret ⊢
    obtain ⟨c₁, hout₁, hgoes₁⟩ := expect_eq_zero hret
    rw [hgoes₁] at hret ⊢
    obtain ⟨c₂, hout₂, hgoes₂⟩ := expect_eq_zero hret
    rw [hgoes₂] at hret ⊢
    rw [hmail hret]
    simp [hout₂, hout₁, Client.write, commands]

end Client

/-! ### The messages that arrive -/

/-- Each carriage return is before a line feed. -/
def ReturnsPaired (message : List UInt8) : Prop :=
  ∀ before after, message = before ++ 13 :: after → after.head? = some 10

/-- A line feed right behind another one is there only if that one has its carriage return. -/
def FeedsPaired (message : List UInt8) : Prop :=
  ∀ before after, message = before ++ 10 :: 10 :: after → before.getLast? = some 13

/-- The messages whose lines arrive: they have a line, they have no NUL, each carriage return is
    before a line feed, no empty line that a line feed ends follows a line that has no carriage
    return, and an `int` counts each line. -/
structure Preserved (message : List UInt8) : Prop where
  ne_nil : message ≠ []
  no_nul : 0 ∉ message
  returns : ReturnsPaired message
  feeds : FeedsPaired message
  fits : ∀ line ∈ lines message, Fits line

theorem append_cons_cases {line rest before after : List UInt8} {c d : UInt8} (hd : d ∉ line)
    (h : line ++ c :: rest = before ++ d :: after) :
    (before = line ∧ c = d ∧ rest = after) ∨
      ∃ before', before = line ++ c :: before' ∧ rest = before' ++ d :: after := by
  obtain ⟨more, rfl, hmore⟩ | ⟨more, rfl, hmore⟩ := List.append_eq_append_iff.1 h
  · cases more with
    | nil =>
      obtain ⟨rfl, rfl⟩ := List.cons.inj hmore
      exact .inl ⟨List.append_nil _, rfl, rfl⟩
    | cons c' before' =>
      rw [List.cons_append] at hmore
      obtain ⟨rfl, rfl⟩ := List.cons.inj hmore
      exact .inr ⟨before', rfl, rfl⟩
  · cases more with
    | nil =>
      obtain ⟨rfl, rfl⟩ := List.cons.inj hmore
      exact .inl ⟨(List.append_nil _).symm, rfl, rfl⟩
    | cons d' more =>
      obtain ⟨rfl, -⟩ := List.cons.inj hmore
      simp at hd

theorem feedsPaired_lf {line rest : List UInt8} (hline : 10 ∉ line) :
    FeedsPaired (line ++ 10 :: rest) ↔
      (rest.head? = some 10 → line.getLast? = some 13) ∧ FeedsPaired rest := by
  constructor
  · intro h
    refine ⟨fun hhead => ?_, fun before after heq => ?_⟩
    · obtain ⟨rest', rfl⟩ := List.head?_eq_some_iff.1 hhead
      exact h line rest' rfl
    · have hlast := h (line ++ 10 :: before) after (by simp [heq])
      cases before with
      | nil => simp at hlast
      | cons c before => simpa [List.getLast?_append] using hlast
  · rintro ⟨hfirst, hrest⟩ before after heq
    obtain ⟨rfl, -, rfl⟩ | ⟨before', rfl, rfl⟩ := append_cons_cases hline heq
    · exact hfirst rfl
    · have hlast := hrest before' after rfl
      simp [List.getLast?_append, List.getLast?_cons, hlast]

/-- A line feed behind a first line whose carriage return is at its end, if it has one. -/
theorem returnsPaired_lf {line rest : List UInt8} (hline : 10 ∉ line) :
    ReturnsPaired (line ++ 10 :: rest) ↔
      13 ∉ (if line.getLast? = some 13 then line.dropLast else line) ∧ ReturnsPaired rest := by
  have hrest : ReturnsPaired (line ++ 10 :: rest) → ReturnsPaired rest := by
    intro h before after heq
    exact h (line ++ 10 :: before) after (by simp [heq])
  split
  · -- the carriage return at the end of the line is paired with the line feed
    rename_i hlast
    obtain ⟨body, rfl⟩ := List.getLast?_eq_some_iff.1 hlast
    rw [List.dropLast_concat]
    refine ⟨fun h => ⟨fun hmem => ?_, hrest h⟩, ?_⟩
    · obtain ⟨before, after, rfl, -⟩ := List.eq_append_cons_of_mem hmem
      have hhead := h before (after ++ [13] ++ 10 :: rest) (by simp)
      cases after with
      | nil => simp at hhead
      | cons c after => simp_all
    · rintro ⟨hbody, hrest⟩ before after heq
      rw [List.append_assoc] at heq
      obtain ⟨-, -, rfl⟩ | ⟨before', -, hmore⟩ := append_cons_cases hbody heq
      · rfl
      · cases before' with
        | nil => simp at hmore
        | cons c before' => exact hrest before' after (List.cons.inj hmore).2
  · rename_i hlast
    refine ⟨fun h => ⟨fun hmem => ?_, hrest h⟩, ?_⟩
    · obtain ⟨before, after, rfl, -⟩ := List.eq_append_cons_of_mem hmem
      have hhead := h before (after ++ 10 :: rest) (by simp)
      cases after with
      | nil => simp at hlast
      | cons c after => simp_all
    · rintro ⟨hbody, hrest⟩ before after heq
      obtain ⟨-, hc, -⟩ | ⟨before', -, hmore⟩ := append_cons_cases hbody heq
      · cases hc
      · exact hrest before' after hmore

theorem takeWhile_line {line : List UInt8} (h13 : 13 ∉ line) (h10 : 10 ∉ line)
    (rest : List UInt8) :
    (line ++ rest).takeWhile (fun c => c ≠ 13 && c ≠ 10) =
      line ++ rest.takeWhile fun c => c ≠ 13 && c ≠ 10 := by
  apply List.takeWhile_append_of_pos
  intro c hc
  have hne : c ≠ 13 ∧ c ≠ 10 := ⟨fun h => h13 (h ▸ hc), fun h => h10 (h ▸ hc)⟩
  simp [hne]

theorem nextLine_last {line : List UInt8} (h13 : 13 ∉ line) (h10 : 10 ∉ line) :
    nextLine line = (line, none) := by
  have htake := takeWhile_line h13 h10 []
  rw [List.takeWhile_nil, List.append_nil] at htake
  unfold nextLine
  dsimp only
  rw [htake, List.drop_length]

/-- Where the next round starts, behind a terminator. -/
def skip (rest : List UInt8) : List UInt8 := if rest.head? = some 10 then rest.tail else rest

theorem nextLine_cons {line : List UInt8} {c : UInt8} (h13 : 13 ∉ line) (h10 : 10 ∉ line)
    (hc : c = 13 ∨ c = 10) (rest : List UInt8) :
    nextLine (line ++ c :: rest) = (line, if skip rest = [] then none else some (skip rest)) := by
  have htake := takeWhile_line h13 h10 (c :: rest)
  rw [List.takeWhile_cons_of_neg (by obtain rfl | rfl := hc <;> simp), List.append_nil] at htake
  unfold nextLine
  dsimp only
  rw [htake, List.drop_left]
  rfl

/-- The lines that the client sends of a rest of the message that it goes on with. -/
def sent (message : List UInt8) : List (List UInt8) := if message = [] then [] else split message

theorem split_cons {line rest : List UInt8} {c : UInt8} (h13 : 13 ∉ line) (h10 : 10 ∉ line)
    (hc : c = 13 ∨ c = 10) : split (line ++ c :: rest) = line :: sent (skip rest) := by
  have hnext := nextLine_cons h13 h10 hc rest
  unfold sent
  split at hnext
  · rw [split_none hnext, if_pos (by assumption)]
  · rw [split_some hnext, if_neg (by assumption)]

/-- The client sends the lines of the message where each line feed behind another one has its
    carriage return before it, and fewer otherwise. -/
theorem sent_cases {message : List UInt8} (hreturns : ReturnsPaired message) :
    (sent message = lines message ∧ FeedsPaired message) ∨
      ((sent message).length < (lines message).length ∧ ¬ FeedsPaired message) := by
  obtain h10 | ⟨line, rest, rfl, h10⟩ := lf_cases message
  · -- one line, or none
    have h13 : 13 ∉ message := by
      intro hmem
      obtain ⟨before, after, rfl, -⟩ := List.eq_append_cons_of_mem hmem
      have hhead := hreturns before after rfl
      cases after <;> simp_all
    refine .inl ⟨?_, fun before after heq => absurd h10 (by simp [heq])⟩
    rw [lines_last h10, sent, split_none (nextLine_last h13 h10)]
  · obtain ⟨hbody, hrest⟩ := (returnsPaired_lf h10).1 hreturns
    have hne : line ++ 10 :: rest ≠ [] := by simp
    rw [feedsPaired_lf h10, lines_lf h10, sent, if_neg hne]
    by_cases hlast : line.getLast? = some 13
    · -- the line has its carriage return
      rw [if_pos hlast] at hbody ⊢
      obtain ⟨body, rfl⟩ := List.getLast?_eq_some_iff.1 hlast
      rw [List.dropLast_concat] at hbody ⊢
      have hsplit : split (body ++ [13] ++ 10 :: rest) = body :: sent rest := by
        rw [List.append_assoc, List.singleton_append, split_cons hbody (by simp_all) (.inl rfl)]
        rfl
      rw [hsplit]
      simpa [hlast] using sent_cases hrest
    · rw [if_neg hlast] at hbody ⊢
      rw [split_cons hbody h10 (.inr rfl)]
      by_cases hhead : rest.head? = some 10
      · -- an empty line follows, and it is lost
        obtain ⟨rest', rfl⟩ := List.head?_eq_some_iff.1 hhead
        have hnone : (10 : UInt8) ∉ [] := by simp
        obtain ⟨-, hrest'⟩ := (returnsPaired_lf hnone).1 hrest
        have hlines : lines (10 :: rest') = [] :: lines rest' :=
          lines_lf hnone rest'
        have hle : (sent rest').length ≤ (lines rest').length := by
          obtain ⟨heq, -⟩ | ⟨hlt, -⟩ := sent_cases hrest'
          · rw [heq]
          · omega
        refine .inr ⟨?_, fun h => hlast (h.1 rfl)⟩
        simp only [skip, hlines, List.head?_cons, if_true, List.tail_cons, List.length_cons]
        omega
      · simpa [skip, hhead] using sent_cases hrest
termination_by message.length
decreasing_by
  all_goals
    subst_vars
    simp only [List.length_append, List.length_cons]
    omega

theorem not_mem_of_lines {message : List UInt8} (h : ∀ line ∈ lines message, 0 ∉ line ∧ 13 ∉ line) :
    0 ∉ message ∧ ReturnsPaired message := by
  -- by recursion on what follows the first line feed
  obtain h10 | ⟨line, rest, rfl, h10⟩ := lf_cases message
  · rw [lines_last h10] at h
    by_cases hnil : message = []
    · subst hnil
      exact ⟨by simp, fun before after heq => by simp at heq⟩
    · rw [if_neg hnil, List.forall_mem_singleton] at h
      exact ⟨h.1, fun before after heq => absurd h.2 (by simp [heq])⟩
  · rw [lines_lf h10, List.forall_mem_cons] at h
    obtain ⟨⟨hnul, hreturn⟩, hlines⟩ := h
    obtain ⟨hrest, hreturns⟩ := not_mem_of_lines hlines
    refine ⟨?_, (returnsPaired_lf h10).2 ⟨hreturn, hreturns⟩⟩
    have hline : 0 ∉ line := by
      split at hnul
      · rename_i hlast
        obtain ⟨body, rfl⟩ := List.getLast?_eq_some_iff.1 hlast
        simpa using hnul
      · exact hnul
    simp [hline, hrest]
termination_by message.length
decreasing_by
  subst_vars
  simp only [List.length_append, List.length_cons]
  omega

theorem mem_of_mem_lines {message line : List UInt8} {c : UInt8} (hline : line ∈ lines message)
    (hc : c ∈ line) : c ∈ message := by
  obtain h10 | ⟨first, rest, rfl, h10⟩ := lf_cases message
  · rw [lines_last h10] at hline
    split at hline <;> simp_all
  · rw [lines_lf h10, List.mem_cons] at hline
    obtain rfl | hline := hline
    · have hmem : c ∈ first := by
        split at hc
        · exact List.mem_of_mem_dropLast hc
        · exact hc
      simp [hmem]
    · have hmem := mem_of_mem_lines hline hc
      simp [hmem]
termination_by message.length
decreasing_by
  subst_vars
  simp only [List.length_append, List.length_cons]
  omega

theorem cstr_of_not_mem {line : List UInt8} (h : 0 ∉ line) : cstr line = line := by
  unfold cstr
  rw [List.takeWhile_eq_self_iff]
  intro c hc
  simpa using fun heq : c = 0 => h (heq ▸ hc)

/-- The lines that are passed on are the lines of the message where the message is preserved. -/
theorem passed_iff (message : List UInt8) :
    ((split message).takeWhile (Fits ·)).map cstr = lines message ↔ Preserved message := by
  constructor
  · intro heq
    have hne : message ≠ [] := by
      rintro rfl
      exact absurd heq (by decide +kernel)
    -- a line that is passed on has no NUL and no carriage return
    have hclean : ∀ line ∈ lines message, 0 ∉ line ∧ 13 ∉ line := by
      rw [← heq, List.forall_mem_map]
      intro line hline
      have hsplit := (List.takeWhile_sublist _).subset hline
      refine ⟨fun h => by simpa using List.mem_takeWhile_imp h, fun h => ?_⟩
      exact (split_clean message line hsplit).1 ((List.takeWhile_sublist _).subset h)
    obtain ⟨hnul, hreturns⟩ := not_mem_of_lines hclean
    -- as many lines are passed on as the message has, so all that are sent
    have hlength := congrArg List.length heq
    have hsublist : ((split message).takeWhile (Fits ·)).Sublist (split message) :=
      List.takeWhile_sublist _
    have hle := hsublist.length_le
    rw [List.length_map] at hlength
    obtain ⟨hsent, hfeeds⟩ | ⟨hlt, -⟩ := sent_cases hreturns
    · rw [sent, if_neg hne] at hsent
      rw [← hsent] at hlength
      have hall := List.takeWhile_eq_self_iff.1 (hsublist.eq_of_length hlength)
      rw [hsent] at hall
      exact ⟨hne, hnul, hreturns, hfeeds, by simpa using hall⟩
    · rw [sent, if_neg hne] at hlt
      omega
  · intro h
    obtain ⟨hsent, -⟩ | ⟨-, hfeeds⟩ := sent_cases h.returns
    · rw [sent, if_neg h.ne_nil] at hsent
      rw [hsent, List.takeWhile_eq_self_iff.2 (by simpa using h.fits)]
      refine (List.map_congr_left fun line hline => ?_).trans (List.map_id _)
      exact cstr_of_not_mem fun hmem => h.no_nul (mem_of_mem_lines hline hmem)
    · exact absurd h.feeds hfeeds

/-! ### A session -/

section Session

variable {σ : Type} {h : SMTPHandler σ} {sender : SMTPSender}

theorem readLines_mailData (hreceived : sender.received = []) :
    readLines [] (bytes "DATA\r\n" ++ mailData sender) =
      bytes "DATA" :: ((split sender.message).map stuff ++ [[46]]) := by
  have hDATA : bytes "DATA\r\n" = bytes "DATA" ++ nl := by decide
  have hdot : readLines [] (bytes ".\r\n") = [[46]] := by decide
  rw [hDATA, readLines_line (by decide), mailData, hreceived, List.nil_append, readLines_split,
    hdot]

/-- What a client session writes behind its commands makes a server session pass on the strings
    of C in the lines that the client sends, up to a line that is too long. -/
theorem session_passes (haccepts : h.Accepts) (hreceived : sender.received = [])
    {ending : Ending} {first_session : Bool} {replies : List (List UInt8)} {c : Client}
    (hsession : clientSession ending sender first_session ⟨replies, []⟩ = (0, c)) :
    ∃ data, c.out_ = commands sender first_session ++ data ∧
      ∀ (ending : Ending) (domain_ : List UInt8) (s : Session σ) (fuel : Nat) (err : Int),
        dataLines (sessionLoop ending domain_ h (fuel + 1) err
          (readLines [] data) s).session.trace =
            dataLines s.trace ++ ((split sender.message).takeWhile (Fits ·)).map cstr := by
  have hret : (clientSession ending sender first_session ⟨replies, []⟩).1 = 0 := by rw [hsession]
  have hout := clientSession_eq_zero hret
  rw [hsession] at hout
  refine ⟨bytes "DATA\r\n" ++ mailData sender, by simpa using hout, ?_⟩
  intro ending domain_ s fuel err
  rw [readLines_mailData hreceived, sessionLoop_data haccepts]

/-- A client session that succeeds has written its commands and then something that makes a
    server session, wherever it is, pass on exactly the lines of the message to a handler that
    takes them, if and only if the message is one that is preserved. -/
theorem preserved_iff (haccepts : h.Accepts) (hreceived : sender.received = [])
    {ending : Ending} {first_session : Bool} {replies : List (List UInt8)} {c : Client}
    (hsession : clientSession ending sender first_session ⟨replies, []⟩ = (0, c)) :
    ∃ data, c.out_ = commands sender first_session ++ data ∧
      ∀ (ending : Ending) (domain_ : List UInt8) (s : Session σ) (fuel : Nat) (err : Int),
        dataLines (sessionLoop ending domain_ h (fuel + 1) err
          (readLines [] data) s).session.trace = dataLines s.trace ++ lines sender.message ↔
            Preserved sender.message := by
  obtain ⟨data, hout, hpasses⟩ := session_passes haccepts hreceived hsession
  refine ⟨data, hout, fun ending domain_ s fuel err => ?_⟩
  rw [hpasses, List.append_cancel_left_eq, passed_iff]

end Session

/-- A handler that takes everything. -/
def acceptAll : SMTPHandler Unit := fun st c =>
  (st, match c with
    | .dataBegin | .dataLine _ => 0
    | .quit => 221
    | _ => 250)

theorem acceptAll_accepts : acceptAll.Accepts := fun _ => ⟨rfl, fun _ => rfl⟩

def senderOf (message : List UInt8) : SMTPSender :=
  { domain := [], sender := bytes "<a>", recipients := [bytes "<b>"], received := [], message }

def responses : List (List UInt8) := [bytes "250 ", bytes "250 ", bytes "354 ", bytes "250 "]

/-- A message with lines of dots, an empty line, and both terminators. -/
theorem preserved_iff_dots :
    ∃ c data,
      clientSession .eof (senderOf (bytes "..a\r\n\r\n.\nb")) false ⟨responses, []⟩ = (0, c) ∧
      c.out_ = commands (senderOf (bytes "..a\r\n\r\n.\nb")) false ++ data ∧
      dataLines (sessionLoop .eof [] acceptAll 2 0 (readLines [] data) ⟨(), [], []⟩).session.trace =
        [bytes "..a", [], bytes ".", bytes "b"] := by
  have hsession : clientSession .eof (senderOf (bytes "..a\r\n\r\n.\nb")) false ⟨responses, []⟩ =
      (0, (clientSession .eof (senderOf (bytes "..a\r\n\r\n.\nb")) false ⟨responses, []⟩).2) := by
    decide +kernel
  obtain ⟨data, hout, hiff⟩ := preserved_iff acceptAll_accepts rfl hsession
  have hpreserved : Preserved (bytes "..a\r\n\r\n.\nb") := (passed_iff _).1 (by decide +kernel)
  refine ⟨_, data, hsession, hout, ?_⟩
  rw [(hiff .eof [] ⟨(), [], []⟩ 1 0).2 hpreserved]
  decide +kernel

/-- Not every message is preserved: the empty line in `"a\n\nb"` is lost. -/
theorem not_preserved_blank : ¬ ∀ (sender : SMTPSender) (replies : List (List UInt8)) (c : Client),
    sender.received = [] → clientSession .eof sender false ⟨replies, []⟩ = (0, c) →
    ∃ data, c.out_ = commands sender false ++ data ∧
      dataLines (sessionLoop .eof [] acceptAll 2 0
        (readLines [] data) ⟨(), [], []⟩).session.trace = lines sender.message := by
  intro hall
  have hsession : clientSession .eof (senderOf (bytes "a\n\nb")) false ⟨responses, []⟩ =
      (0, (clientSession .eof (senderOf (bytes "a\n\nb")) false ⟨responses, []⟩).2) := by
    decide +kernel
  obtain ⟨data, hout, hlines⟩ := hall _ _ _ rfl hsession
  obtain ⟨data', hout', hpasses⟩ := session_passes acceptAll_accepts rfl hsession
  obtain rfl := List.append_cancel_left (hout.symm.trans hout')
  rw [hpasses .eof [] ⟨(), [], []⟩ 1 0] at hlines
  exact absurd hlines (by decide +kernel)

end Oasys.Smtp
