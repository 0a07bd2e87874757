import QuoteLisp.Proofs.Causes
import QuoteLisp.Proofs.Repair
import QuoteLisp.Proofs.Sinks

/-!
# One result, one line

No result of a session prints with a line break. Names are words and strings are escaped, so only
the messages of errors could break a line, and what these quote from a source is a name, a numeral
or a character that is not blank (`Fault.Arises.isOneLine_message`). A program therefore prints as
many lines as it has results that say something.
-/

namespace QuoteLisp

/-! ## Texts on one line -/

/-- The text breaks no line. -/
def IsOneLine (cs : List Char) : Prop := ∀ c ∈ cs, isLineChar c = true

instance (cs : List Char) : Decidable (IsOneLine cs) :=
  decidable_of_iff (cs.all isLineChar = true) List.all_eq_true

theorem isLineChar_iff {c : Char} : isLineChar c = true ↔ c ≠ '\r' ∧ c ≠ '\n' := by
  simp [isLineChar]

theorem isLineChar_of_not_isBlank {c : Char} (h : isBlank c = false) : isLineChar c = true := by
  simp only [isBlank, Bool.or_eq_false_iff, beq_eq_false_iff_ne] at h
  exact isLineChar_iff.2 ⟨h.1.1.2, h.1.2⟩

namespace IsOneLine

theorem newline_not_mem {cs : List Char} (h : IsOneLine cs) : '\n' ∉ cs := fun hmem =>
  (isLineChar_iff.1 (h _ hmem)).2 rfl

theorem return_not_mem {cs : List Char} (h : IsOneLine cs) : '\r' ∉ cs := fun hmem =>
  (isLineChar_iff.1 (h _ hmem)).1 rfl

theorem append {cs ds : List Char} (hcs : IsOneLine cs) (hds : IsOneLine ds) :
    IsOneLine (cs ++ ds) :=
  List.forall_mem_append.2 ⟨hcs, hds⟩

theorem concat {s t : String} (hs : IsOneLine s.toList) (ht : IsOneLine t.toList) :
    IsOneLine (s ++ t).toList := by
  rw [String.toList_append]
  exact hs.append ht

theorem word {cs : List Char} (h : cs.all isWordChar = true) : IsOneLine cs := fun c hc =>
  isLineChar_of_not_isBlank (isBlank_of_isWordChar (List.all_eq_true.1 h c hc))

theorem nat (n : Nat) : IsOneLine (toString n).toList := by
  have hdigits : (toString n).toList = Nat.toDigits 10 n := by simp
  rw [hdigits]
  refine word (List.all_eq_true.2 fun c hc => ?_)
  exact isWordChar_of_isDigit (Nat.isDigit_of_mem_toDigits (by omega) (by omega) hc)

theorem symbolName {name : String} (h : isSymbolName name.toList = true) :
    IsOneLine name.toList := by
  simp only [isSymbolName, Bool.and_eq_true] at h
  exact word h.1.2

end IsOneLine

/-! ## Messages -/

theorem Primitive.isOneLine_name (p : Primitive) : IsOneLine p.name.toList := by
  cases p with
  | arith op => cases op <;> decide +kernel
  | _ => decide +kernel

theorem Value.isOneLine_typeName (v : Value) : IsOneLine v.typeName.toList := by
  cases v <;> simp only [typeName] <;> decide +kernel

theorem Span.isOneLine_text (span : Span) : IsOneLine span.text.toList :=
  .concat (.concat (.nat span.start) (by decide +kernel)) (.nat span.stop)

theorem isOneLine_argumentNoun (count : Nat) : IsOneLine (argumentNoun count).toList := by
  unfold argumentNoun
  split <;> decide +kernel

theorem ErrorKind.isOneLine_arityMismatch {name : String} (hname : IsOneLine name.toList)
    (expected got : Nat) : IsOneLine (arityMismatch name expected got).text.toList := by
  -- the two wordings differ only in front of the counts
  have hcounts {s : String} (hs : IsOneLine s.toList) :
      IsOneLine (s ++ toString expected ++ toString " " ++ toString (argumentNoun expected) ++
        toString ", got " ++ toString got).toList :=
    .concat (.concat (.concat (.concat (.concat hs (.nat expected)) (by decide +kernel))
      (isOneLine_argumentNoun expected)) (by decide +kernel)) (.nat got)
  by_cases hempty : name = ""
  · have htext : (arityMismatch name expected got).text =
        s!"expected {expected} {argumentNoun expected}, got {got}" := if_pos hempty
    rw [htext]
    exact hcounts (by decide +kernel)
  · have htext : (arityMismatch name expected got).text =
        s!"`{name}` expects {expected} {argumentNoun expected}, got {got}" := if_neg hempty
    rw [htext]
    exact hcounts (.concat (.concat (by decide +kernel) hname) (by decide +kernel))

theorem Lexeme.eq_of_scan_eq_unexpected {c found : Char} {cs : List Char}
    (h : scan c cs = .error (.unexpected found)) : found = c := by
  unfold scan at h
  repeat' split at h
  all_goals cases h
  rfl

/-- A character that starts no token is not blank, so it does not break the line of its message. -/
theorem isLineChar_of_readSource {source : String} {found : Char} {span : Span}
    (h : readSource source = .error (.unexpectedCharacter found span)) :
    isLineChar found = true := by
  have hparse : Node.parse source = .error (.unexpectedCharacter found span) := by
    rw [readSource] at h
    split at h
    · cases h
      assumption
    · cases h
  obtain hlex | ⟨tokens, -, hcheck⟩ := Node.parse_eq_error_iff.1 hparse
  · obtain ⟨c, rest, fault, place, hblank, hscan, hfault⟩ := Token.exists_scan_of_lexFrom hlex
    cases fault with
    | unexpected other =>
      cases hfault
      rw [Lexeme.eq_of_scan_eq_unexpected hscan]
      exact isLineChar_of_not_isBlank hblank
    | unterminated text => cases hfault
  · -- faults of brackets quote no character of the source
    obtain hscan | ⟨_, _, -, he⟩ := OpenBracket.check_eq_error_iff.1 hcheck
    · have hcloser := OpenBracket.exists_closer_of_scan_error hscan
      obtain ⟨_, _, he⟩ | ⟨_, _, _, he⟩ := hcloser <;> cases he
    · cases he

theorem isOneLine_message_of_readSource {source : String} {e : ParseError}
    (h : readSource source = .error e) : IsOneLine e.message.toList := by
  have hbracket (bracket : Bracket) : IsOneLine (toString bracket.opener).toList ∧
      IsOneLine (toString bracket.closer).toList := by
    cases bracket <;> decide +kernel
  cases e with
  | unexpectedCharacter found span =>
    have hfound : IsOneLine (toString found).toList := by
      have hsingle : (toString found).toList = [found] := String.toList_singleton found
      rw [hsingle]
      exact List.forall_mem_singleton.2 (isLineChar_of_readSource h)
    exact .concat (.concat (.concat (by decide +kernel) hfound) (by decide +kernel))
      span.isOneLine_text
  | unterminatedString span => exact .concat (by decide +kernel) span.isOneLine_text
  | unclosedBracket bracket span =>
    exact .concat (.concat (.concat (by decide +kernel) (hbracket bracket).1) (by decide +kernel))
      span.isOneLine_text
  | unexpectedCloser bracket span =>
    exact .concat (.concat (.concat (by decide +kernel) (hbracket bracket).2) (by decide +kernel))
      span.isOneLine_text
  | mismatchedCloser opened found span =>
    refine .concat (.concat (.concat (.concat (.concat ?_ (hbracket opened).2) ?_)
      (hbracket opened).1) ?_) (.concat (.concat (.concat ?_ (hbracket found).2) ?_)
      span.isOneLine_text)
    all_goals decide +kernel

/-- What a session complains about fits on one line. -/
theorem Fault.Arises.isOneLine_message {fault : Fault} (h : fault.Arises) :
    IsOneLine fault.message.toList := by
  -- what stands between the fixed words of a message is a name, a type, a number or a literal
  cases h with
  | unboundSymbol hname =>
    exact .concat (.concat (by decide +kernel) (.symbolName hname)) (by decide +kernel)
  | @wrongArgumentType p expected v hexpected =>
    have hnames : ∀ s ∈ ["Number", "Q-Expression"], IsOneLine s.toList := by decide +kernel
    exact .concat (.concat (.concat (.concat (.concat (by decide +kernel) p.isOneLine_name)
      (by decide +kernel)) (hnames expected hexpected)) (by decide +kernel)) v.isOneLine_typeName
  | @notAFunction v => exact .concat (by decide +kernel) v.isOneLine_typeName
  | @notASymbol p v =>
    exact .concat (.concat (.concat (by decide +kernel) p.isOneLine_name) (by decide +kernel))
      v.isOneLine_typeName
  | @wrongArgumentCount p expected got =>
    exact ErrorKind.isOneLine_arityMismatch p.isOneLine_name expected got
  | @wrongCallArity expected got =>
    exact ErrorKind.isOneLine_arityMismatch (by decide +kernel) expected got
  | @wrongBindingCount p symbols values =>
    exact .concat (.concat (.concat (.concat (.concat (.concat (by decide +kernel)
      p.isOneLine_name) (by decide +kernel)) (.nat symbols)) (by decide +kernel)) (.nat values))
      (by decide +kernel)
  | @emptyList p => exact .concat (.concat (by decide +kernel) p.isOneLine_name) (by decide +kernel)
  | arithmetic hfault =>
    cases hfault with
    | overflow op => cases op <;> decide +kernel
    | _ => decide +kernel
  | @invalidNumberLiteral literal hnumeral =>
    have hliteral : IsOneLine literal.toList := .word (all_isWordChar_of_isNumeral hnumeral)
    exact .concat (.concat (by decide +kernel) hliteral) (by decide +kernel)
  | malformed hread => exact .concat (by decide +kernel) (isOneLine_message_of_readSource hread)

/-! ## Results -/

namespace Quoted

theorem isOneLine_toDigits (n : Nat) : IsOneLine (Nat.toDigits 16 n) := fun _ hc =>
  isLineChar_iff.2 ⟨ne_of_mem_toDigits hc (by decide), ne_of_mem_toDigits hc (by decide)⟩

/-- The two characters that break a line are written as escapes, and no escape holds one. -/
theorem isOneLine_escape (c : Char) : IsOneLine (escape c) := by
  by_cases hc : c = '\r' ∨ c = '\n'
  · rcases hc with rfl | rfl <;> decide
  obtain ⟨hreturn, hnewline⟩ := not_or.1 hc
  obtain ⟨d, hescape, hd, -, hd'⟩ | hescape | ⟨hescape, -⟩ := escape_cases c
  · have hd : d ≠ '\r' := by
      rintro rfl
      exact hreturn hd.symm
    rw [hescape]
    refine List.forall_mem_cons.2 ⟨by decide, List.forall_mem_singleton.2 ?_⟩
    exact isLineChar_iff.2 ⟨hd, hd'⟩
  · have hopening : IsOneLine ['\\', 'u', '\x7b'] := by decide
    rw [hescape]
    exact (hopening.append (isOneLine_toDigits c.toNat)).append (by decide)
  · rw [hescape]
    exact List.forall_mem_singleton.2 (isLineChar_iff.2 ⟨hreturn, hnewline⟩)

theorem isOneLine_quote (cs : List Char) : IsOneLine (quote cs) := by
  refine .append (List.forall_mem_cons.2 ⟨by decide, fun c hc => ?_⟩) (by decide)
  obtain ⟨d, -, hd⟩ := List.mem_flatMap.1 hc
  exact isOneLine_escape d c hd

end Quoted

namespace Value

theorem isOneLine_spaced {texts : List (List Char)} (h : ∀ cs ∈ texts, IsOneLine cs) :
    IsOneLine (spaced texts) := by
  induction texts with
  | nil => decide
  | cons cs texts ih =>
    obtain ⟨hcs, htexts⟩ := List.forall_mem_cons.1 h
    cases texts with
    | nil => simpa [spaced] using hcs
    | cons ds texts =>
      rw [spaced_cons_cons]
      exact hcs.append (List.forall_mem_cons.2 ⟨by decide, ih htexts⟩)

theorem isOneLine_list (bracket : Bracket) {items : List Value}
    (h : ∀ v ∈ items, IsOneLine v.chars) : IsOneLine (list bracket items).chars := by
  have hspaced : IsOneLine (spaced (items.map chars)) :=
    isOneLine_spaced (List.forall_mem_map.2 h)
  have henclosed : IsOneLine (enclose bracket (spaced (items.map chars))) := by
    refine .append (List.forall_mem_cons.2 ⟨?_, hspaced⟩) (List.forall_mem_singleton.2 ?_)
    all_goals cases bracket <;> rfl
  cases bracket with
  | round => rwa [list, chars_sexpr]
  | curly => rwa [list, chars_qexpr]

/-- A value of a session prints on one line. -/
theorem IsSound.isOneLine_chars {v : Value} (h : v.IsSound) : IsOneLine v.chars := by
  induction v using Value.induct with
  | number n => exact .word (all_isWordChar_of_isNumeral (Word.isNumeral_digits n))
  | string text => exact Quoted.isOneLine_quote text.toList
  | symbol name => exact .symbolName (hasSymbolNames_symbol.1 h.1.2)
  | error e =>
    obtain ⟨fault, harises, rfl⟩ := h.2 _ .self e rfl
    exact .append (by decide +kernel) harises.isOneLine_message
  | sexpr items ih =>
    have hitems := hereditary_isSound.sexpr.1 h
    exact isOneLine_list .round fun v hv => ih v hv (hitems v hv)
  | qexpr items ih =>
    have hitems := hereditary_isSound.qexpr.1 h
    exact isOneLine_list .curly fun v hv => ih v hv (hitems v hv)
  | builtin b =>
    have hchars : (builtin b).chars = "<builtin>".toList := rfl
    rw [hchars]
    decide +kernel
  | closure formals body captured link ih _ =>
    have hbody := hereditary_isSound.body h
    have hnames := h.1.2
    rw [h.1.1.eq_lambda] at hnames
    obtain ⟨hformals, -⟩ := hasSymbolNames_lambda.1 hnames
    rw [chars_closure]
    refine isOneLine_list .round (List.forall_mem_cons.2 ⟨by decide, ?_⟩)
    refine List.forall_mem_cons.2 ⟨isOneLine_list .curly ?_, List.forall_mem_singleton.2 ?_⟩
    · exact List.forall_mem_map.2 fun name hname => .symbolName (hformals name hname)
    · exact isOneLine_list .curly fun v hv => ih v hv (hbody v hv)

end Value

/-! ## Output -/

namespace Console

variable {results : List Value}

theorem encode_line (cs : List Char) : Utf8.encode (cs ++ ['\n']) = Utf8.encode cs ++ [10] := by
  rw [Utf8.encode_append]
  rfl

/-- Results that print on one line each are the lines of what is printed. -/
theorem cutsInto_printed (h : ∀ r ∈ results, IsOneLine r.chars) :
    CutsInto (results.map fun r => Utf8.encode (r.chars ++ ['\n'])).flatten
      (results.map fun r => Utf8.encode (r.chars ++ ['\n'])) := by
  induction results with
  | nil => exact .nil
  | cons r results ih =>
    obtain ⟨hr, hresults⟩ := List.forall_mem_cons.1 h
    have hfree : 10 ∉ Utf8.encode r.chars := mt Utf8.newline_mem_encode_iff.1 hr.newline_not_mem
    rw [List.map_cons, List.flatten_cons, encode_line, List.append_assoc]
    exact .cons hfree (ih hresults)

theorem count_printed (h : ∀ r ∈ results, IsOneLine r.chars) :
    (results.map fun r => Utf8.encode (r.chars ++ ['\n'])).flatten.count 10 = results.length := by
  induction results with
  | nil => rfl
  | cons r results ih =>
    obtain ⟨hr, hresults⟩ := List.forall_mem_cons.1 h
    have hone : (r.chars ++ ['\n']).count '\n' = 1 := by
      rw [List.count_append, List.count_eq_zero.2 hr.newline_not_mem]
      rfl
    rw [List.map_cons, List.flatten_cons, List.count_append, Utf8.count_encode, hone, ih hresults,
      List.length_cons, Nat.add_comm]

theorem run_unlimited {depth : Nat} {source : String} {session after : Session}
    (h : session.evalProgram depth source = some (results, after)) :
    run depth source session .unlimited =
      some ⟨.ok (results.all fun r => !r.isError), ⟨(shown results).flatten, none⟩, after⟩ := by
  rw [run, h]
  simp only [printResults_eq_write, Sink.unlimited, Sink.write_unlimited, List.nil_append,
    Report.ofWrite]

end Console

namespace Session

open Console Value

/-- One result, one line. No result of a session prints with a line feed or a carriage return. The
output of a program is therefore cut by its line feeds into one line for each result other than the
empty expression, in order, and its answer is negative if and only if some result is an error. -/
theorem Reachable.one_line_per_result {session : Session} (hsession : session.Reachable)
    (depth : Nat) :
    (∀ request results after, session.answer depth request = some (results, after) →
      ∀ r ∈ results, '\n' ∉ r.text.toList ∧ '\r' ∉ r.text.toList) ∧
    ∀ source results after, session.evalProgram depth source = some (results, after) →
      ∃ report, Console.run depth source session .unlimited = some report ∧
        report.session = after ∧
        CutsInto report.sink.written
          ((results.filter fun r => !r.isUnit).map fun r => Utf8.encode (r.chars ++ ['\n'])) ∧
        report.sink.written.count 10 = (results.filter fun r => !r.isUnit).length ∧
        ∃ succeeded, report.outcome = .ok succeeded ∧
          (succeeded = false ↔ ∃ r ∈ results, r.isError = true) := by
  have hstore := keeps_isSound.reachable hsession
  have hlines {request results after} (h : session.answer depth request = some (results, after)) :
      ∀ r ∈ results, IsOneLine r.chars := fun r hr =>
    ((keeps_isSound.answer hstore h).2 r hr).2.isOneLine_chars
  constructor
  · intro request results after hanswer r hr
    have hr := hlines hanswer r hr
    rw [Value.text, String.toList_ofList]
    exact ⟨hr.newline_not_mem, hr.return_not_mem⟩
  · intro source results after heval
    have hanswer : session.answer depth (.program source) = some (results, after) := heval
    have hprinted : ∀ r ∈ results.filter fun r => !r.isUnit, IsOneLine r.chars := fun r hr =>
      hlines hanswer r (List.mem_of_mem_filter hr)
    have hcuts := cutsInto_printed hprinted
    refine ⟨_, run_unlimited heval, rfl, hcuts, count_printed hprinted, _, rfl, ?_⟩
    simp

/-- A string with a line feed in it, the error of an empty list and a definition, whose result is
the empty expression. -/
theorem one_line_per_result_of_broken_string :
    let source := "(def \x7bx\x7d \"a\\nb\") x (head \x7b\x7d)"
    let results := [Value.unit, .string "a\nb", .ofFault (.emptyList "head")]
    (∃ after, Session.new.evalProgram 3 source = some (results, after)) ∧
      '\n' ∉ (Value.string "a\nb").text.toList ∧
      ∃ report, Console.run 3 source .new .unlimited = some report ∧
        CutsInto report.sink.written
          [Utf8.encode "\"a\\nb\"\n".toList,
            Utf8.encode "Error: `head` cannot be applied to an empty Q-Expression\n".toList] ∧
        report.sink.written.count 10 = 2 ∧ report.outcome = .ok false := by
  intro source results
  let definition : Value := .sexpr [.symbol "def", .qexpr [.symbol "x"], .string "a\nb"]
  let application : Value := .sexpr [.symbol "head", .qexpr []]
  have hread : readSource source = .ok [definition, .symbol "x", application] := by
    refine readSource_spaced ?_ (by decide +kernel)
    simp only [definition, application, List.forall_mem_cons, List.not_mem_nil, false_imp_iff,
      implies_true, isWritable_string, isWritable_symbol, isWritable_sexpr, isWritable_qexpr]
    decide
  have heval : Session.new.evalProgram 3 source = some (results, _) :=
    (evalProgram_of_readSource hread).trans rfl
  obtain ⟨hresults, hprogram⟩ := Reachable.new.one_line_per_result 3
  have hstring := hresults (.program source) results _ heval (.string "a\nb") (by simp [results])
  obtain ⟨report, hrun, -, hcuts, hcount, succeeded, houtcome, hsucceeded⟩ :=
    hprogram source results _ heval
  have herror : .ofFault (.emptyList "head") ∈ results := by simp [results]
  have hprinted : ((results.filter fun r => !r.isUnit).map fun r =>
      Utf8.encode (r.chars ++ ['\n'])) = [Utf8.encode "\"a\\nb\"\n".toList,
        Utf8.encode "Error: `head` cannot be applied to an empty Q-Expression\n".toList] := by
    simp only [results]
    decide +kernel
  rw [hprinted] at hcuts
  refine ⟨⟨_, heval⟩, hstring.1, report, hrun, hcuts, hcount, ?_⟩
  rw [houtcome, hsucceeded.2 ⟨_, herror, rfl⟩]

end Session

end QuoteLisp
