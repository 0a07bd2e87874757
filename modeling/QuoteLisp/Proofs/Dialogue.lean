import Mathlib.Data.List.Forall2
import QuoteLisp.Proofs.Lines
import QuoteLisp.Proofs.Pieces

/-!
# The interactive loop, line by line

The loop hears the lines in front of the first one that stops it, evaluates the sources that they
hold in turn, and says a prompt for every line and the result of every source that is not empty
(`Console.LineByLine`). Nothing behind the stopping line matters.
-/

namespace QuoteLisp

namespace Session

/-- Evaluates sources one after the other, each as a line. -/
def evalLines (depth : Nat) : List String → Session → Option (List Value × Session)
  | [], session => some ([], session)
  | source :: sources, session =>
    match session.evalLine depth source with
    | none => none
    | some (r, session) =>
      match evalLines depth sources session with
      | none => none
      | some (results, session) => some (r :: results, session)

variable {depth : Nat} {session mid after : Session} {source : String} {sources : List String}
  {r : Value} {results : List Value}

theorem evalLines_cons (hfirst : session.evalLine depth source = some (r, mid))
    (hrest : mid.evalLines depth sources = some (results, after)) :
    session.evalLines depth (source :: sources) = some (r :: results, after) := by
  rw [evalLines, hfirst]
  simp only [hrest]

theorem evalLines_cons_eq_some
    (h : session.evalLines depth (source :: sources) = some (results, after)) :
    ∃ r mid rest, session.evalLine depth source = some (r, mid) ∧
      mid.evalLines depth sources = some (rest, after) ∧ results = r :: rest := by
  rw [evalLines] at h
  split at h
  · cases h
  · rename_i r mid hfirst
    split at h
    · cases h
    · rename_i rest last hrest
      cases h
      exact ⟨r, mid, rest, hfirst, hrest, rfl⟩

end Session

namespace Console

variable {depth : Nat} {session : Session} {line : Bytes} {report : Report Unit}

/-! ## Single lines -/

/-- What the reply to a line says about the line. -/
inductive Turn (depth : Nat) (line : Bytes) (session : Session) : Option Reply → Prop
  | garbled (hline : source? line = none) : Turn depth line session (some .garbled)
  | leave (hline : source? line = some exitCommand) : Turn depth line session (some .leave)
  | skip (hline : source? line = some "") : Turn depth line session (some .skip)
  | answer {source : String} {r : Value} {after : Session} (hline : source? line = some source)
    (hexit : source ≠ exitCommand) (hblank : source ≠ "")
    (heval : session.evalLine depth source = some (r, after)) :
    Turn depth line session (some (.answer r after))
  | unfinished {source : String} (hline : source? line = some source)
    (hexit : source ≠ exitCommand) (hblank : source ≠ "")
    (heval : session.evalLine depth source = none) : Turn depth line session none

theorem respond_eq (depth : Nat) (line : Bytes) (session : Session) :
    respond depth line session =
      match source? line with
      | none => some .garbled
      | some source =>
        if source = exitCommand then some .leave
        else if source = "" then some .skip
        else (session.evalLine depth source).map fun (r, after) => .answer r after := by
  rw [respond, source?]
  cases Utf8.decode? line with
  | none => rfl
  | some text =>
    dsimp only [Option.map_some]
    generalize String.ofList (trim text.toList) = source
    rcases session.evalLine depth source with _ | ⟨r, after⟩ <;> rfl

theorem turn_respond (depth : Nat) (line : Bytes) (session : Session) :
    Turn depth line session (respond depth line session) := by
  rw [respond_eq]
  cases hline : source? line with
  | none => exact .garbled hline
  | some source =>
    dsimp only
    by_cases hexit : source = exitCommand
    · rw [if_pos hexit]
      exact .leave (hexit ▸ hline)
    · by_cases hblank : source = ""
      · rw [if_neg hexit, if_pos hblank]
        exact .skip (hblank ▸ hline)
      · rw [if_neg hexit, if_neg hblank]
        rcases heval : session.evalLine depth source with _ | ⟨r, after⟩
        · exact .unfinished hline hexit hblank heval
        · exact .answer hline hexit hblank heval

/-! ## The reference -/

/-- What the loop says about lines that hold these sources, given the results of those that are not
empty. -/
def dialogue : List String → List Value → List Char
  | [], _ => []
  | source :: sources, results =>
    if source = "" then prompt ++ dialogue sources results
    else
      match results with
      | [] => prompt
      | r :: results => prompt ++ r.chars ++ ['\n'] ++ dialogue sources results

theorem dialogue_skip (sources : List String) (results : List Value) :
    dialogue ("" :: sources) results = prompt ++ dialogue sources results := rfl

theorem dialogue_answer {source : String} (hblank : source ≠ "") (sources : List String) (r : Value)
    (results : List Value) :
    dialogue (source :: sources) (r :: results) =
      prompt ++ r.chars ++ ['\n'] ++ dialogue sources results := by
  rw [dialogue, if_neg hblank]

/-- How the loop ends in front of the lines that are left: what it says behind its last prompt, and
the outcome. -/
inductive Ends : List Bytes → List Char → Except Failure Unit → Prop
  | endOfInput : Ends [] (['\n'] ++ farewell ++ ['\n']) (.ok ())
  | exit {line : Bytes} {rest : List Bytes} (hline : Holds line exitCommand) :
    Ends (line :: rest) (farewell ++ ['\n']) (.ok ())
  | garbled {line : Bytes} {rest : List Bytes} (hline : ∀ cs, line ≠ Utf8.encode cs) :
    Ends (line :: rest) [] (.error .notUtf8)

/-- Taking lines in order: those that are heard hold sources other than the command to stop, and
their evaluation in turn leads to the results and the session. -/
inductive LineByLine (depth : Nat) (session : Session) : List Bytes → Report Unit → Prop
  | intro {heard rest : List Bytes} {sources : List String} {results : List Value}
    {ending : List Char} {outcome : Except Failure Unit} {after : Session}
    (hheard : List.Forall₂ Holds heard sources) (hexit : exitCommand ∉ sources)
    (hends : Ends rest ending outcome)
    (heval : session.evalLines depth (sources.filter (· ≠ "")) = some (results, after)) :
    LineByLine depth session (heard ++ rest)
      ⟨outcome, ⟨Utf8.encode (dialogue sources results ++ prompt ++ ending), none⟩, after⟩

/-- The report with some bytes in front of what was written. -/
def Report.behind {α : Type} (bytes : Bytes) (report : Report α) : Report α :=
  { report with sink := { report.sink with written := bytes ++ report.sink.written } }

theorem Report.behind_behind {α : Type} (as bs : Bytes) (report : Report α) :
    (report.behind bs).behind as = report.behind (as ++ bs) := by
  simp [behind]

namespace LineByLine

variable {lines : List Bytes}

theorem of_ends {ending : List Char} {outcome : Except Failure Unit}
    (hends : Ends lines ending outcome) :
    LineByLine depth session lines
      ⟨outcome, ⟨Utf8.encode (prompt ++ ending), none⟩, session⟩ :=
  .intro .nil List.not_mem_nil hends rfl

theorem skip (hline : Holds line "") (h : LineByLine depth session lines report) :
    LineByLine depth session (line :: lines) (report.behind (Utf8.encode prompt)) := by
  obtain ⟨hheard, hexit, hends, heval⟩ := h
  have hsources : exitCommand ∉ "" :: _ := List.not_mem_cons_of_ne_of_not_mem (by decide) hexit
  have hintro := LineByLine.intro (.cons hline hheard) hsources hends heval
  rw [dialogue_skip, List.append_assoc, List.append_assoc, Utf8.encode_append,
    ← List.append_assoc] at hintro
  exact hintro

theorem answer {source : String} {r : Value} {after : Session} (hline : Holds line source)
    (hexit : source ≠ exitCommand) (hblank : source ≠ "")
    (heval : session.evalLine depth source = some (r, after))
    (h : LineByLine depth after lines report) :
    LineByLine depth session (line :: lines)
      (report.behind (Utf8.encode (prompt ++ r.chars ++ ['\n']))) := by
  obtain ⟨hheard, hexits, hends, hevals⟩ := h
  have hsources : exitCommand ∉ source :: _ :=
    List.not_mem_cons_of_ne_of_not_mem (Ne.symm hexit) hexits
  have hfilter : ∀ sources : List String,
      (source :: sources).filter (· ≠ "") = source :: sources.filter (· ≠ "") :=
    fun sources => List.filter_cons_of_pos (by simpa using hblank)
  have hall := Session.evalLines_cons heval hevals
  rw [← hfilter] at hall
  have hintro := LineByLine.intro (.cons hline hheard) hsources hends hall
  rw [dialogue_answer hblank, List.append_assoc, List.append_assoc, Utf8.encode_append,
    ← List.append_assoc (dialogue _ _)] at hintro
  exact hintro

end LineByLine

/-! ## The loop and the reference -/

theorem lineByLine_of_repl {lines : List Bytes} {written : Bytes}
    (h : repl depth lines session ⟨written, none⟩ = some report) :
    ∃ whole, LineByLine depth session lines whole ∧ report = whole.behind written := by
  induction lines generalizing session written with
  | nil =>
    cases h
    refine ⟨_, .of_ends .endOfInput, ?_⟩
    simp [Report.behind, Report.ofWrite, Sink.printLine, Sink.print, Sink.write]
  | cons line lines ih =>
    have hturn := turn_respond depth line session
    simp only [repl, Sink.print, Sink.write] at h
    generalize respond depth line session = reply at h hturn
    cases hturn with
    | garbled hline =>
      cases h
      refine ⟨_, .of_ends (.garbled (source?_eq_none_iff.1 hline)), ?_⟩
      simp [Report.behind]
    | leave hline =>
      cases h
      refine ⟨_, .of_ends (.exit (source?_eq_some_iff.1 hline)), ?_⟩
      simp [Report.behind, Report.ofWrite, Sink.printLine, Sink.print, Sink.write]
    | skip hline =>
      obtain ⟨whole, hwhole, rfl⟩ := ih h
      refine ⟨_, hwhole.skip (source?_eq_some_iff.1 hline), ?_⟩
      rw [Report.behind_behind]
    | answer hline hexit hblank heval =>
      simp only [Sink.printLine, Sink.print, Sink.write] at h
      obtain ⟨whole, hwhole, rfl⟩ := ih h
      refine ⟨_, hwhole.answer (source?_eq_some_iff.1 hline) hexit hblank heval, ?_⟩
      simp [Report.behind_behind]
    | unfinished => cases h

theorem repl_of_ends {lines : List Bytes} {ending : List Char} {outcome : Except Failure Unit}
    (hends : Ends lines ending outcome) (session : Session) (written : Bytes) :
    repl depth lines session ⟨written, none⟩ =
      some ⟨outcome, ⟨written ++ Utf8.encode (prompt ++ ending), none⟩, session⟩ := by
  cases hends with
  | endOfInput => simp [repl, Report.ofWrite, Sink.printLine, Sink.print, Sink.write]
  | exit hline =>
    rw [← source?_eq_some_iff] at hline
    simp [repl, respond_eq, hline, Report.ofWrite, Sink.printLine, Sink.print, Sink.write]
  | garbled hline =>
    rw [← source?_eq_none_iff] at hline
    simp [repl, respond_eq, hline, Sink.print, Sink.write]

/-- The loop behind lines that it hears. -/
theorem repl_of_heard {heard rest : List Bytes} {sources : List String} {results : List Value}
    {ending : List Char} {outcome : Except Failure Unit} {after : Session}
    (hheard : List.Forall₂ Holds heard sources) (hexit : exitCommand ∉ sources)
    (hends : Ends rest ending outcome)
    (heval : session.evalLines depth (sources.filter (· ≠ "")) = some (results, after))
    (written : Bytes) :
    repl depth (heard ++ rest) session ⟨written, none⟩ =
      some ⟨outcome,
        ⟨written ++ Utf8.encode (dialogue sources results ++ prompt ++ ending), none⟩, after⟩ := by
  induction hheard generalizing session written results with
  | nil =>
    cases heval
    exact repl_of_ends hends _ written
  | @cons line source heard sources hline _ ih =>
    rw [← source?_eq_some_iff] at hline
    obtain ⟨hne, hexits⟩ := List.ne_and_not_mem_of_not_mem_cons hexit
    rw [List.cons_append, repl, respond_eq, hline]
    simp only [if_neg (Ne.symm hne), Sink.print, Sink.write]
    by_cases hblank : source = ""
    · subst hblank
      rw [if_pos rfl]
      simp only [ih hexits heval, dialogue_skip, Utf8.encode_append, List.append_assoc]
    · rw [List.filter_cons_of_pos (by simpa using hblank)] at heval
      obtain ⟨r, mid, others, hfirst, hothers, rfl⟩ := Session.evalLines_cons_eq_some heval
      rw [if_neg hblank, hfirst]
      simp only [Option.map_some, Sink.printLine, Sink.print, Sink.write, ih hexits hothers,
        dialogue_answer hblank, Utf8.encode_append, List.append_assoc]

theorem repl_eq_some_iff {lines : List Bytes} :
    repl depth lines session .unlimited = some report ↔ LineByLine depth session lines report := by
  constructor
  · intro h
    obtain ⟨whole, hwhole, rfl⟩ := lineByLine_of_repl h
    exact hwhole
  · rintro ⟨hheard, hexit, hends, heval⟩
    exact repl_of_heard hheard hexit hends heval []

/-! ## Behind the stopping line -/

/-- The line stops the loop. -/
def Stops (line : Bytes) : Prop := Holds line exitCommand ∨ ∀ cs, line ≠ Utf8.encode cs

theorem repl_append_of_stops {lines : List Bytes} (hstops : ∃ line ∈ lines, Stops line)
    (more : List Bytes) (session : Session) (sink : Sink) :
    repl depth (lines ++ more) session sink = repl depth lines session sink := by
  induction lines generalizing session sink with
  | nil => simp at hstops
  | cons line lines ih =>
    have hturn := turn_respond depth line session
    -- a line that is heard does not stop the loop, so one behind it does
    have hothers : ∀ source, source? line = some source → source ≠ exitCommand →
        ∃ line ∈ lines, Stops line := by
      intro source hline hexit
      obtain ⟨other, hmem, hother⟩ := hstops
      rcases List.mem_cons.1 hmem with rfl | hmem
      · obtain hother | hother := hother
        · rw [← source?_eq_some_iff, hline] at hother
          exact absurd (Option.some.inj hother) hexit
        · rw [← source?_eq_none_iff, hline] at hother
          cases hother
      · exact ⟨other, hmem, hother⟩
    rw [List.cons_append, repl, repl]
    cases sink.print prompt with
    | error full => rfl
    | ok sink =>
      generalize respond depth line session = reply at hturn
      cases hturn with
      | garbled | leave | unfinished => rfl
      | skip hline => exact ih (hothers "" hline (by decide)) session sink
      | @answer source r after hline hexit hblank heval =>
        dsimp only
        cases sink.printLine r.chars with
        | error full => rfl
        | ok sink => exact ih (hothers source hline hexit) after sink

/-- The loop takes lines in order. The input is cut into lines in one way only, and what the loop
writes, how it ends and the session that it leaves are those of taking the lines in order up to the
first that stops it: at the command to stop, at bytes that are no text, or at the end of the input.
Bytes behind the stopping line change nothing, whatever the sink takes. -/
theorem repl_refines_line_by_line (depth : Nat) (session : Session) (input : Bytes) :
    (∀ parts, CutsInto input parts ↔ parts = lines input) ∧
    (∀ report, repl depth (lines input) session .unlimited = some report ↔
      LineByLine depth session (lines input) report) ∧
    (input.getLast? = some 10 → (∃ line ∈ lines input, Stops line) → ∀ rest sink,
      repl depth (lines (input ++ rest)) session sink = repl depth (lines input) session sink) := by
  refine ⟨fun _ => cutsInto_iff, fun _ => repl_eq_some_iff, fun hlast hstops rest sink => ?_⟩
  rw [lines_append hlast]
  exact repl_append_of_stops hstops (lines rest) session sink

/-- A blank line, a symbol between a no-break space and a blank, and the command to stop behind a
tab: the loop answers the symbol and says farewell, whatever bytes follow. -/
theorem repl_refines_line_by_line_up_to_exit :
    let input := Utf8.encode ['\n', '\u00a0', 'x', ' ', '\n', '\t', 'e', 'x', 'i', 't', '\n']
    let session : Session := ⟨Session.new.store.define 0 "x" (.number 5), 0⟩
    let said := prompt ++ (prompt ++ ['5', '\n']) ++ prompt ++ (farewell ++ ['\n'])
    input.getLast? = some 10 ∧ (∃ line ∈ lines input, Stops line) ∧ ∀ rest,
      repl 2 (lines (input ++ rest)) session .unlimited =
        some ⟨.ok (), ⟨Utf8.encode said, none⟩, session⟩ := by
  intro input session said
  let blank := Utf8.encode ['\n']
  let symbol := Utf8.encode ['\u00a0', 'x', ' ', '\n']
  let exit := Utf8.encode ['\t', 'e', 'x', 'i', 't', '\n']
  have hlines : lines input = [blank, symbol] ++ [exit] := by decide +kernel
  have hblank : Holds blank "" := ⟨['\n'], [], by decide, rfl⟩
  have hsymbol : Holds symbol "x" := ⟨['\u00a0'], [' ', '\n'], by decide, rfl⟩
  have hexit : Holds exit exitCommand := ⟨['\t'], ['\n'], by decide, rfl⟩
  have hlast : input.getLast? = some 10 := by decide +kernel
  have hstops : ∃ line ∈ lines input, Stops line := by
    rw [hlines]
    exact ⟨exit, by simp, .inl hexit⟩
  have heval : session.evalLines 2 (["", "x"].filter (· ≠ "")) =
      some ([.number 5], session) := by
    have hread : readSource "x" = .ok [.symbol "x"] :=
      readSource_spaced (List.forall_mem_singleton.2 (.symbol "x" (by decide))) rfl
    have hline : session.evalLine 2 "x" = some (.number 5, session) :=
      Session.evalLine_of_readSource hread
    exact Session.evalLines_cons hline rfl
  have hsaid : said = dialogue ["", "x"] [.number 5] ++ prompt ++ (farewell ++ ['\n']) := by
    have hfive : (Value.number 5).chars = ['5'] := by decide
    rw [dialogue_skip, dialogue_answer (by decide), hfive]
    simp [said, dialogue]
  refine ⟨hlast, hstops, fun rest => ?_⟩
  obtain ⟨-, hrefines, hbehind⟩ := repl_refines_line_by_line 2 session input
  rw [hbehind hlast hstops, hrefines, hlines, hsaid]
  exact .intro (.cons hblank (.cons hsymbol .nil)) (by decide) (.exit hexit) heval

end Console

end QuoteLisp
