import QuoteLisp.Proofs.Dialogue

/-!
# Sinks that fill up

A sink that fills up holds the first bytes of what a sink without limit holds, and a write fails
exactly if there was more to write. A program and a single line are evaluated before anything is
written, so the session they leave is the same. The interactive loop evaluates a line as soon as its
prompt is written: it leaves the session after those lines whose results begin where the sink was
cut, or before.

`Console.script` is what the loop says if nothing keeps it from writing, also when it never ends
because the evaluation of some line does not finish.
-/

namespace QuoteLisp

/-! ## Writing -/

namespace Sink

variable {written bytes : Bytes} {room : Nat}

theorem write_unlimited (written bytes : Bytes) :
    write ⟨written, none⟩ bytes = .ok ⟨written ++ bytes, none⟩ := rfl

theorem write_of_le (h : bytes.length ≤ room) (written : Bytes) :
    write ⟨written, some room⟩ bytes = .ok ⟨written ++ bytes, some (room - bytes.length)⟩ :=
  if_pos h

theorem write_of_lt (h : room < bytes.length) (written : Bytes) :
    write ⟨written, some room⟩ bytes = .error ⟨written ++ bytes.take room, some 0⟩ :=
  if_neg (Nat.not_le.2 h)

theorem write_nil (sink : Sink) : sink.write [] = .ok sink := by
  obtain ⟨written, _ | room⟩ := sink
  · rw [write_unlimited, List.append_nil]
  · rw [write_of_le (Nat.zero_le room), List.append_nil, List.length_nil, Nat.sub_zero]

/-- Bytes can be written in pieces. -/
theorem write_append (sink : Sink) (as bs : Bytes) :
    sink.write (as ++ bs) = (sink.write as).bind fun sink => sink.write bs := by
  obtain ⟨written, _ | room⟩ := sink
  · simp only [write_unlimited, Except.bind, List.append_assoc]
  · by_cases has : as.length ≤ room
    · rw [write_of_le has, Except.bind]
      by_cases hbs : bs.length ≤ room - as.length
      · rw [write_of_le hbs, write_of_le (by rw [List.length_append]; omega), List.append_assoc,
          List.length_append, Nat.sub_sub]
      · rw [write_of_lt (Nat.not_le.1 hbs), write_of_lt (by rw [List.length_append]; omega),
          List.append_assoc, List.take_append, List.take_of_length_le has]
    · rw [write_of_lt (Nat.not_le.1 has), Except.bind,
        write_of_lt (by rw [List.length_append]; omega),
        List.take_append_of_le_length (Nat.le_of_not_le has)]

end Sink

namespace Console

/-- The lines that are printed about results. -/
def shown (results : List Value) : List Bytes :=
  (results.filter fun r => !r.isUnit).map fun r => Utf8.encode (r.chars ++ ['\n'])

theorem printResults_eq_write (results : List Value) (sink : Sink) :
    printResults results sink = sink.write (shown results).flatten := by
  induction results generalizing sink with
  | nil => exact sink.write_nil.symm
  | cons r results ih =>
    rw [printResults, shown]
    by_cases hunit : r.isUnit = true
    · rw [if_pos hunit, List.filter_cons_of_neg (by simp [hunit]), ih]
      rfl
    · rw [if_neg hunit, List.filter_cons_of_pos (by simp [hunit]), List.map_cons,
        List.flatten_cons, Sink.write_append, Sink.printLine, Sink.print]
      cases sink.write (Utf8.encode (r.chars ++ ['\n'])) with
      | error full => rfl
      | ok sink => exact ih sink

/-! ## Reports that are cut -/

/-- The second report is about the exchange of the first with a sink that took `n` bytes. -/
structure Report.CutsAt {α : Type} (n : Nat) (whole cut : Report α) : Prop where
  written : cut.sink.written = whole.sink.written.take n
  full : cut.outcome = .error .sinkFull ↔ n < whole.sink.written.length
  outcome : whole.sink.written.length ≤ n → cut.outcome = whole.outcome

theorem cutsAt_ofWrite {α : Type} (n : Nat) (answer : α) (session : Session) (bytes : Bytes) :
    Report.CutsAt n (.ofWrite answer session (Sink.unlimited.write bytes))
      (.ofWrite answer session ((Sink.limited n).write bytes)) := by
  rw [Sink.unlimited, Sink.write_unlimited, Sink.limited, List.nil_append]
  by_cases hn : bytes.length ≤ n
  · rw [Sink.write_of_le hn]
    exact ⟨(List.take_of_length_le hn).symm, by simpa [Report.ofWrite] using hn, fun _ => rfl⟩
  · rw [Sink.write_of_lt (Nat.not_le.1 hn)]
    exact ⟨rfl, by simpa [Report.ofWrite] using hn, fun h => absurd h hn⟩

theorem session_ofWrite {α : Type} (answer : α) (session : Session) (write : Except Sink Sink) :
    (Report.ofWrite answer session write).session = session := by
  cases write <;> rfl

/-! ## What the loop says -/

inductive Utterance where
  | prompt
  /-- The result of a source, and the session behind its evaluation. -/
  | result (source : String) (r : Value) (after : Session)
  | closing (cs : List Char)

namespace Utterance

def bytes : Utterance → Bytes
  | prompt => Utf8.encode Console.prompt
  | result _ r _ => Utf8.encode (r.chars ++ ['\n'])
  | closing cs => Utf8.encode (cs ++ ['\n'])

/-- The session in which it is said, given the session of what is said before. -/
def session (before : Session) : Utterance → Session
  | prompt => before
  | result _ _ after => after
  | closing _ => before

end Utterance

/-- The bytes of utterances. -/
def transcript (said : List Utterance) : Bytes := said.flatMap Utterance.bytes

theorem transcript_cons (u : Utterance) (said : List Utterance) :
    transcript (u :: said) = u.bytes ++ transcript said :=
  List.flatMap_cons

/-- What the loop says as long as it can write, and how it ends. Where the evaluation of a line does
not finish, it says no more and does not end. -/
structure Script where
  said : List Utterance
  outcome : Option (Except Failure Unit)

/-- The script of the loop on some lines. -/
def script (depth : Nat) : List Bytes → Session → Script
  | [], _ => ⟨[.prompt, .closing ('\n' :: farewell)], some (.ok ())⟩
  | line :: lines, session =>
    match source? line with
    | none => ⟨[.prompt], some (.error .notUtf8)⟩
    | some source =>
      if source = exitCommand then ⟨[.prompt, .closing farewell], some (.ok ())⟩
      else if source = "" then
        let rest := script depth lines session
        ⟨.prompt :: rest.said, rest.outcome⟩
      else
        match session.evalLine depth source with
        | none => ⟨[.prompt], none⟩
        | some (r, after) =>
          let rest := script depth lines after
          ⟨.prompt :: .result source r after :: rest.said, rest.outcome⟩

/-- Says one thing after the other. -/
def speak (outcome : Option (Except Failure Unit)) :
    List Utterance → Session → Sink → Option (Report Unit)
  | [], session, sink => outcome.map fun outcome => ⟨outcome, sink, session⟩
  | u :: said, session, sink =>
    match sink.write u.bytes with
    | .error full => some ⟨.error .sinkFull, full, u.session session⟩
    | .ok sink => speak outcome said (u.session session) sink

/-- A last utterance is a last write. -/
theorem speak_closing (cs : List Char) (session : Session) (sink : Sink) :
    speak (some (.ok ())) [.closing cs] session sink =
      some (.ofWrite () session (sink.printLine cs)) := by
  rw [speak, Utterance.bytes, Sink.printLine, Sink.print]
  cases sink.write (Utf8.encode (cs ++ ['\n'])) <;> rfl

theorem repl_eq_speak (depth : Nat) (lines : List Bytes) (session : Session) (sink : Sink) :
    repl depth lines session sink =
      speak (script depth lines session).outcome (script depth lines session).said session
        sink := by
  induction lines generalizing session sink with
  | nil =>
    simp only [repl, script, speak, Sink.print, Utterance.bytes, Utterance.session]
    cases sink.write (Utf8.encode prompt) with
    | error full => rfl
    | ok sink => exact (speak_closing _ session sink).symm
  | cons line lines ih =>
    have hturn := turn_respond depth line session
    rw [repl, Sink.print]
    generalize respond depth line session = reply at hturn ⊢
    cases hturn with
    | garbled hline =>
      simp only [script, hline, speak, Utterance.bytes, Utterance.session]
      cases sink.write (Utf8.encode prompt) <;> rfl
    | leave hline =>
      simp only [script, hline, if_true, speak, Utterance.bytes, Utterance.session]
      cases sink.write (Utf8.encode prompt) with
      | error full => rfl
      | ok sink => exact (speak_closing _ session sink).symm
    | skip hline =>
      have hexit : "" ≠ exitCommand := by decide
      simp only [script, hline, if_neg hexit, if_true, speak, Utterance.bytes, Utterance.session]
      cases sink.write (Utf8.encode prompt) with
      | error full => rfl
      | ok sink => exact ih session sink
    | @answer source r after hline hexit hblank heval =>
      simp only [script, hline, if_neg hexit, if_neg hblank, heval, speak, Utterance.bytes,
        Utterance.session]
      cases sink.write (Utf8.encode prompt) with
      | error full => rfl
      | ok sink =>
        dsimp only
        rw [Sink.printLine, Sink.print]
        cases sink.write (Utf8.encode (r.chars ++ ['\n'])) with
        | error full => rfl
        | ok sink => exact ih after sink
    | unfinished hline hexit hblank heval =>
      simp only [script, hline, if_neg hexit, if_neg hblank, heval, speak, Utterance.bytes,
        Utterance.session]
      cases sink.write (Utf8.encode prompt) <;> rfl

/-! ## Speaking to a sink that fills up -/

theorem speak_unlimited (outcome : Option (Except Failure Unit)) (said : List Utterance)
    (session : Session) (written : Bytes) :
    speak outcome said session ⟨written, none⟩ =
      outcome.map fun outcome =>
        ⟨outcome, ⟨written ++ transcript said, none⟩, said.foldl Utterance.session session⟩ := by
  induction said generalizing session written with
  | nil => simp [speak, transcript]
  | cons u said ih =>
    rw [speak, Sink.write_unlimited]
    simp only [ih, transcript_cons, List.append_assoc, List.foldl_cons]

/-- The session in which the byte behind the first `n` is written. -/
def sessionAt (n : Nat) (session : Session) : List Utterance → Session
  | [] => session
  | u :: said =>
    if u.bytes.length ≤ n then sessionAt (n - u.bytes.length) (u.session session) said
    else u.session session

theorem speak_of_le {said : List Utterance} {room : Nat} (h : (transcript said).length ≤ room)
    (outcome : Option (Except Failure Unit)) (session : Session) (written : Bytes) :
    speak outcome said session ⟨written, some room⟩ =
      outcome.map fun outcome =>
        ⟨outcome, ⟨written ++ transcript said, some (room - (transcript said).length)⟩,
          sessionAt room session said⟩ := by
  induction said generalizing session written room with
  | nil => simp [speak, transcript, sessionAt]
  | cons u said ih =>
    rw [transcript_cons, List.length_append] at h
    have hu : u.bytes.length ≤ room := by omega
    have hrest : (transcript said).length ≤ room - u.bytes.length := by omega
    rw [speak, Sink.write_of_le hu]
    simp only [ih hrest, transcript_cons, List.append_assoc, List.length_append, Nat.sub_sub,
      sessionAt, if_pos hu]

theorem speak_of_lt {said : List Utterance} {room : Nat} (h : room < (transcript said).length)
    (outcome : Option (Except Failure Unit)) (session : Session) (written : Bytes) :
    speak outcome said session ⟨written, some room⟩ =
      some ⟨.error .sinkFull, ⟨written ++ (transcript said).take room, some 0⟩,
        sessionAt room session said⟩ := by
  induction said generalizing session written room with
  | nil => exact absurd h (Nat.not_lt_zero room)
  | cons u said ih =>
    rw [transcript_cons, List.length_append] at h
    by_cases hu : u.bytes.length ≤ room
    · have hrest : room - u.bytes.length < (transcript said).length := by omega
      rw [speak, Sink.write_of_le hu]
      simp only [ih hrest, transcript_cons, List.append_assoc, List.take_append,
        List.take_of_length_le hu, sessionAt, if_pos hu]
    · rw [speak, Sink.write_of_lt (Nat.not_le.1 hu), transcript_cons,
        List.take_append_of_le_length (Nat.le_of_not_le hu), sessionAt, if_neg hu]

/-! ## The loop and sinks that fill up -/

section Loop

variable {depth n : Nat} {lines : List Bytes} {session : Session}

theorem repl_unlimited (depth : Nat) (lines : List Bytes) (session : Session) :
    repl depth lines session .unlimited =
      (script depth lines session).outcome.map fun outcome =>
        ⟨outcome, ⟨transcript (script depth lines session).said, none⟩,
          (script depth lines session).said.foldl Utterance.session session⟩ :=
  (repl_eq_speak depth lines session .unlimited).trans (speak_unlimited _ _ session [])

theorem repl_limited_of_le (h : (transcript (script depth lines session).said).length ≤ n) :
    repl depth lines session (.limited n) =
      (script depth lines session).outcome.map fun outcome =>
        ⟨outcome, ⟨transcript (script depth lines session).said,
          some (n - (transcript (script depth lines session).said).length)⟩,
          sessionAt n session (script depth lines session).said⟩ :=
  (repl_eq_speak depth lines session (.limited n)).trans (speak_of_le h _ session [])

theorem repl_limited_of_lt (h : n < (transcript (script depth lines session).said).length) :
    repl depth lines session (.limited n) =
      some ⟨.error .sinkFull, ⟨(transcript (script depth lines session).said).take n, some 0⟩,
        sessionAt n session (script depth lines session).said⟩ :=
  (repl_eq_speak depth lines session (.limited n)).trans (speak_of_lt h _ session [])

end Loop

/-! ## Where results begin -/

/-- Where the results begin, counted in bytes from an offset on, with their sources. -/
def resultStarts (offset : Nat) : List Utterance → List (Nat × String)
  | [] => []
  | .result source r after :: said =>
    (offset, source) :: resultStarts (offset + (Utterance.result source r after).bytes.length) said
  | u :: said => resultStarts (offset + u.bytes.length) said

/-- The sources whose results begin within the first `n` bytes or right behind them. -/
def answeredBy (n : Nat) (said : List Utterance) : List String :=
  ((resultStarts 0 said).filter fun start => start.1 ≤ n).map Prod.snd

theorem resultStarts_add (offset k : Nat) (said : List Utterance) :
    resultStarts (offset + k) said =
      (resultStarts offset said).map fun start => (start.1 + k, start.2) := by
  induction said generalizing offset with
  | nil => rfl
  | cons u said ih => cases u <;> simp [resultStarts, Nat.add_right_comm offset k, ih]

/-- Of what is said behind `k` bytes, the results that begin by `n`. -/
theorem filter_resultStarts (k n : Nat) (said : List Utterance) :
    ((resultStarts (0 + k) said).filter fun start => start.1 ≤ n).map Prod.snd =
      if k ≤ n then answeredBy (n - k) said else [] := by
  rw [resultStarts_add, List.filter_map, List.map_map]
  split
  · refine congrArg (List.map Prod.snd) (List.filter_congr fun start _ => ?_)
    simp only [Function.comp, decide_eq_decide]
    omega
  · rw [List.map_eq_nil_iff, List.filter_eq_nil_iff]
    intro start _
    simp only [Function.comp, decide_eq_true_eq]
    omega

theorem answeredBy_prompt (n : Nat) (said : List Utterance) :
    answeredBy n (.prompt :: said) =
      if Utterance.prompt.bytes.length ≤ n then answeredBy (n - Utterance.prompt.bytes.length) said
      else [] :=
  filter_resultStarts _ n said

theorem answeredBy_closing (n : Nat) (cs : List Char) (said : List Utterance) :
    answeredBy n (.closing cs :: said) =
      if (Utterance.closing cs).bytes.length ≤ n then
        answeredBy (n - (Utterance.closing cs).bytes.length) said
      else [] :=
  filter_resultStarts _ n said

theorem answeredBy_result (n : Nat) (source : String) (r : Value) (after : Session)
    (said : List Utterance) :
    answeredBy n (.result source r after :: said) =
      source ::
        if (Utterance.result source r after).bytes.length ≤ n then
          answeredBy (n - (Utterance.result source r after).bytes.length) said
        else [] := by
  rw [answeredBy, resultStarts, List.filter_cons_of_pos (by simp), List.map_cons,
    filter_resultStarts]

/-- Every result is that of its source in the session of what is said before. -/
inductive Replays (depth : Nat) : Session → List Utterance → Prop
  | nil (session : Session) : Replays depth session []
  | prompt {session : Session} {said : List Utterance} (h : Replays depth session said) :
    Replays depth session (.prompt :: said)
  | result {session after : Session} {source : String} {r : Value} {said : List Utterance}
    (heval : session.evalLine depth source = some (r, after)) (h : Replays depth after said) :
    Replays depth session (.result source r after :: said)
  | closing {session : Session} {cs : List Char} {said : List Utterance}
    (h : Replays depth session said) : Replays depth session (.closing cs :: said)

theorem replays_script (depth : Nat) (lines : List Bytes) (session : Session) :
    Replays depth session (script depth lines session).said := by
  induction lines generalizing session with
  | nil => exact .prompt (.closing (.nil session))
  | cons line lines ih =>
    rw [script]
    split
    · exact .prompt (.nil session)
    · split
      · exact .prompt (.closing (.nil session))
      · split
        · exact .prompt (ih session)
        · split
          · exact .prompt (.nil session)
          · rename_i heval
            exact .prompt (.result heval (ih _))

theorem script_outcome_ne_sinkFull (depth : Nat) (lines : List Bytes) (session : Session) :
    (script depth lines session).outcome ≠ some (.error .sinkFull) := by
  induction lines generalizing session with
  | nil => simp [script]
  | cons line lines ih =>
    rw [script]
    split
    · simp
    · split
      · simp
      · split
        · exact ih session
        · split
          · simp
          · exact ih _

theorem Replays.evalLines_answeredBy {depth : Nat} {session : Session} {said : List Utterance}
    (h : Replays depth session said) (n : Nat) :
    ∃ results, session.evalLines depth (answeredBy n said) =
      some (results, sessionAt n session said) := by
  induction h generalizing n with
  | nil => exact ⟨[], rfl⟩
  | prompt _ ih =>
    rw [answeredBy_prompt, sessionAt]
    split
    · exact ih _
    · exact ⟨[], rfl⟩
  | result heval _ ih =>
    rw [answeredBy_result, sessionAt]
    split
    · obtain ⟨results, hresults⟩ := ih _
      exact ⟨_, Session.evalLines_cons heval hresults⟩
    · exact ⟨_, Session.evalLines_cons heval rfl⟩
  | closing _ ih =>
    rw [answeredBy_closing, sessionAt]
    split
    · exact ih _
    · exact ⟨[], rfl⟩

/-! ## Cut output -/

section Cut

variable {depth n : Nat} {lines : List Bytes} {session : Session} {whole cut : Report Unit}

/-- Where the loop ends for a sink without limit, it ends for one with a limit. -/
theorem cutsAt_repl (h : repl depth lines session .unlimited = some whole) :
    whole.sink.written = transcript (script depth lines session).said ∧
      ∃ cut, repl depth lines session (.limited n) = some cut ∧ Report.CutsAt n whole cut := by
  rw [repl_unlimited] at h
  obtain ⟨outcome, houtcome, rfl⟩ := Option.map_eq_some_iff.1 h
  refine ⟨rfl, ?_⟩
  by_cases hn : (transcript (script depth lines session).said).length ≤ n
  · have hne : outcome ≠ .error .sinkFull := by
      rintro rfl
      exact script_outcome_ne_sinkFull depth lines session houtcome
    rw [repl_limited_of_le hn, houtcome]
    exact ⟨_, rfl, (List.take_of_length_le hn).symm, iff_of_false hne (Nat.not_lt.2 hn),
      fun _ => rfl⟩
  · have hlt := Nat.not_le.1 hn
    exact ⟨_, repl_limited_of_lt hlt, rfl, iff_of_true rfl hlt, fun h => absurd h hn⟩

/-- Where the loop never ends for a sink without limit, one with a limit may still end it. -/
theorem repl_limited_eq_none_iff (h : repl depth lines session .unlimited = none) :
    repl depth lines session (.limited n) = none ↔
      (transcript (script depth lines session).said).length ≤ n := by
  rw [repl_unlimited, Option.map_eq_none_iff] at h
  by_cases hn : (transcript (script depth lines session).said).length ≤ n
  · rw [repl_limited_of_le hn, h]
    exact iff_of_true rfl hn
  · rw [repl_limited_of_lt (Nat.not_le.1 hn)]
    exact iff_of_false (Option.some_ne_none _) hn

theorem repl_limited_eq_some (h : repl depth lines session (.limited n) = some cut) :
    cut.sink.written = (transcript (script depth lines session).said).take n ∧
      (cut.outcome = .error .sinkFull ↔
        n < (transcript (script depth lines session).said).length) ∧
      ∃ results, session.evalLines depth (answeredBy n (script depth lines session).said) =
        some (results, cut.session) := by
  have hanswered := (replays_script depth lines session).evalLines_answeredBy n
  by_cases hn : (transcript (script depth lines session).said).length ≤ n
  · rw [repl_limited_of_le hn] at h
    obtain ⟨outcome, houtcome, rfl⟩ := Option.map_eq_some_iff.1 h
    have hne : outcome ≠ .error .sinkFull := by
      rintro rfl
      exact script_outcome_ne_sinkFull depth lines session houtcome
    exact ⟨(List.take_of_length_le hn).symm, iff_of_false hne (Nat.not_lt.2 hn), hanswered⟩
  · have hlt := Nat.not_le.1 hn
    cases (repl_limited_of_lt hlt).symm.trans h
    exact ⟨rfl, iff_of_true rfl hlt, hanswered⟩

end Cut

/-- Output to a sink that takes `n` bytes is an exact prefix. A program and a single line finish for
it as they do for a sink without limit, and leave the same session. The loop gets as far as it can
write: where it says more than `n` bytes, the sink holds the first `n` of them and the loop fails,
even if some later line would never have finished; otherwise it does all that it does for a sink
without limit. It leaves the session after the lines whose results begin within those bytes or right
behind them. -/
theorem output_is_cut_exactly (depth n : Nat) (session : Session) :
    (∀ source, Option.Rel (fun whole cut => Report.CutsAt n whole cut ∧ cut.session = whole.session)
      (run depth source session .unlimited) (run depth source session (.limited n))) ∧
    (∀ source, Option.Rel (fun whole cut => Report.CutsAt n whole cut ∧ cut.session = whole.session)
      (eval depth source session .unlimited) (eval depth source session (.limited n))) ∧
    ∀ input,
      let said := (script depth (lines input) session).said
      let whole? := repl depth (lines input) session .unlimited
      let cut? := repl depth (lines input) session (.limited n)
      (∀ whole, whole? = some whole → whole.sink.written = transcript said ∧
        ∃ cut, cut? = some cut ∧ Report.CutsAt n whole cut) ∧
      (whole? = none → (cut? = none ↔ (transcript said).length ≤ n)) ∧
      ∀ cut, cut? = some cut → cut.sink.written = (transcript said).take n ∧
        (cut.outcome = .error .sinkFull ↔ n < (transcript said).length) ∧
        ∃ results, session.evalLines depth (answeredBy n said) = some (results, cut.session) := by
  refine ⟨fun source => ?_, fun source => ?_, fun input => ?_⟩
  · rw [run, run]
    cases session.evalProgram depth source with
    | none => exact .none
    | some answer =>
      refine .some ⟨?_, by rw [session_ofWrite, session_ofWrite]⟩
      rw [printResults_eq_write, printResults_eq_write]
      exact cutsAt_ofWrite n _ _ _
  · rw [eval, eval]
    cases session.evalLine depth source with
    | none => exact .none
    | some answer =>
      exact .some ⟨cutsAt_ofWrite n _ _ _, by rw [session_ofWrite, session_ofWrite]⟩
  · exact ⟨fun whole => cutsAt_repl, repl_limited_eq_none_iff, fun cut => repl_limited_eq_some⟩

/-- A definition, and a line whose evaluation needs more depth than there is, so that the loop never
ends. A sink that is full one byte into the result of the definition makes it end, with the name
bound. -/
theorem output_is_cut_exactly_before_endless_line :
    let input := Utf8.encode "def \x7by\x7d 5\n((y))\n".toList
    let after : Session := ⟨Session.new.store.define 0 "y" (.number 5), 0⟩
    repl 3 (lines input) .new .unlimited = none ∧
      ∃ cut, repl 3 (lines input) .new (.limited 9) = some cut ∧
        cut.outcome = .error .sinkFull ∧ cut.sink.written = Utf8.encode (prompt ++ ['(']) ∧
        cut.session = after := by
  intro input after
  let first := Utf8.encode "def \x7by\x7d 5\n".toList
  let second := Utf8.encode "((y))\n".toList
  have hlines : lines input = [first, second] := by decide +kernel
  have hfirst : source? first = some "def \x7by\x7d 5" :=
    source?_eq_some_iff.2 ⟨[], ['\n'], by decide, rfl⟩
  have hsecond : source? second = some "((y))" :=
    source?_eq_some_iff.2 ⟨[], ['\n'], by decide, rfl⟩
  have hdefinition : Session.new.evalLine 3 "def \x7by\x7d 5" = some (.unit, after) := by
    let items : List Value := [.symbol "def", .qexpr [.symbol "y"], .number 5]
    have hitems : ∀ v ∈ items, v.IsWritable := by
      simp only [items, List.forall_mem_cons, List.not_mem_nil, false_imp_iff, implies_true,
        Value.isWritable_number, Value.isWritable_symbol, Value.isWritable_qexpr]
      decide
    exact Session.evalLine_of_readSource (readSource_spaced hitems rfl)
  have hendless : after.evalLine 3 "((y))" = none := by
    have hitems : ∀ v ∈ [Value.sexpr [.sexpr [.symbol "y"]]], v.IsWritable := by
      simp only [List.forall_mem_cons, List.not_mem_nil, false_imp_iff, implies_true,
        Value.isWritable_symbol, Value.isWritable_sexpr]
      decide
    exact Session.evalLine_of_readSource (readSource_spaced hitems rfl)
  have hscript : script 3 (lines input) .new =
      ⟨[.prompt, .result "def \x7by\x7d 5" .unit after, .prompt], none⟩ := by
    rw [hlines, script, hfirst]
    simp only
    rw [if_neg (by decide), if_neg (by decide), hdefinition]
    simp only [script, hsecond]
    rw [if_neg (by decide), if_neg (by decide), hendless]
  have hwhole : repl 3 (lines input) .new .unlimited = none := by
    rw [repl_unlimited, hscript]
    rfl
  let said : List Utterance := [.prompt, .result "def \x7by\x7d 5" .unit after, .prompt]
  have htranscript : transcript said = Utf8.encode (prompt ++ ['(', ')', '\n'] ++ prompt) := by
    decide +kernel
  have hanswered : answeredBy 9 said = ["def \x7by\x7d 5"] := by decide +kernel
  obtain ⟨-, hnone, hsome⟩ := (output_is_cut_exactly 3 9 .new).2.2 input
  rw [hscript] at hnone hsome
  refine ⟨hwhole, ?_⟩
  cases hcut : repl 3 (lines input) .new (.limited 9) with
  | none =>
    have hlength : (transcript said).length ≤ 9 := (hnone hwhole).1 hcut
    rw [htranscript] at hlength
    exact absurd hlength (by decide +kernel)
  | some cut =>
    obtain ⟨hwritten, hfull, results, hresults⟩ := hsome cut hcut
    rw [htranscript] at hwritten hfull
    rw [hanswered] at hresults
    obtain ⟨_, _, _, heval, hrest, -⟩ := Session.evalLines_cons_eq_some hresults
    cases hdefinition.symm.trans heval
    have hsession : after = cut.session := congrArg Prod.snd (Option.some.inj hrest)
    exact ⟨cut, rfl, hfull.2 (by decide +kernel), hwritten.trans (by decide +kernel),
      hsession.symm⟩

end Console

end QuoteLisp
