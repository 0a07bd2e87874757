import QuoteLisp.Console

/-!
# Lines of input

`Console.lines` cuts bytes behind every line feed, and there is no other way to cut them into lines
(`Console.cutsInto_iff`). UTF-8 keeps the byte of the line feed for the line feed, so what is a line
in bytes is a line of text (`Utf8.count_encode`).

A line holds a source if it is that source between white space, in UTF-8 (`Console.Holds`).
-/

namespace QuoteLisp

/-! ## UTF-8 -/

namespace Utf8

theorem encode_toList (text : String) : encode text.toList = text.toByteArray.data.toList := by
  have hbytes : (encode text.toList).toByteArray = text.toByteArray := String.utf8Encode_toList
  rw [← hbytes, List.data_toByteArray, List.toList_toArray]

theorem decode?_eq_some_iff {bytes : Bytes} {text : String} :
    decode? bytes = some text ↔ bytes = encode text.toList := by
  rw [decode?, String.fromUTF8?, encode_toList]
  constructor
  · intro h
    split at h
    · cases h
      rfl
    · cases h
  · rintro rfl
    rw [dif_pos text.isValidUTF8]
    exact congrArg some (String.toByteArray_inj.1 rfl)

theorem decode?_eq_none_iff {bytes : Bytes} :
    decode? bytes = none ↔ ∀ cs, bytes ≠ encode cs := by
  constructor
  · rintro h cs rfl
    have hsome : decode? (encode cs) = some (String.ofList cs) :=
      decode?_eq_some_iff.2 (by rw [String.toList_ofList])
    rw [hsome] at h
    cases h
  · intro h
    cases htext : decode? bytes with
    | none => rfl
    | some text => exact absurd (decode?_eq_some_iff.1 htext) (h _)

/-- The bytes of a character other than the line feed are no line feeds. -/
theorem count_utf8EncodeChar (c : Char) :
    (String.utf8EncodeChar c).count 10 = if c = '\n' then 1 else 0 := by
  by_cases hc : c = '\n'
  · subst hc
    rfl
  · have hcode : c.toNat ≠ 10 := fun h => hc (Char.ext (UInt32.toNat_inj.1 h))
    simp only [if_neg hc, List.count_eq_zero, String.utf8EncodeChar, Char.toNat_val]
    repeat' split
    all_goals simp [← UInt8.toNat_inj]
    all_goals omega

theorem count_encode (cs : List Char) : (encode cs).count 10 = cs.count '\n' := by
  induction cs with
  | nil => rfl
  | cons c cs ih =>
    have hcons : encode (c :: cs) = String.utf8EncodeChar c ++ encode cs := List.flatMap_cons
    rw [hcons, List.count_append, count_utf8EncodeChar, ih, List.count_cons, Nat.add_comm]
    simp only [beq_iff_eq]

theorem newline_mem_encode_iff {cs : List Char} : 10 ∈ encode cs ↔ '\n' ∈ cs := by
  rw [← List.count_pos_iff, ← List.count_pos_iff, count_encode]

end Utf8

/-! ## Cutting into lines -/

namespace Console

/-- The bytes are cut into lines behind each line feed; the last line may have none. -/
inductive CutsInto : Bytes → List Bytes → Prop
  | nil : CutsInto [] []
  | last {line : Bytes} (hne : line ≠ []) (hfree : 10 ∉ line) : CutsInto line [line]
  | cons {line rest : Bytes} {parts : List Bytes} (hfree : 10 ∉ line)
    (hrest : CutsInto rest parts) : CutsInto (line ++ 10 :: rest) ((line ++ [10]) :: parts)

variable {line input head tail : Bytes} {parts : List Bytes}

theorem lines_of_free (hfree : 10 ∉ line) (hne : line ≠ []) : lines line = [line] := by
  induction line with
  | nil => exact absurd rfl hne
  | cons b line ih =>
    obtain ⟨hb, hfree⟩ := List.ne_and_not_mem_of_not_mem_cons hfree
    rw [lines, if_neg (Ne.symm hb)]
    cases line with
    | nil => rfl
    | cons c line => rw [ih hfree (List.cons_ne_nil c line)]

theorem lines_append_newline (hfree : 10 ∉ line) (rest : Bytes) :
    lines (line ++ 10 :: rest) = (line ++ [10]) :: lines rest := by
  induction line with
  | nil => rw [List.nil_append, lines, if_pos rfl, List.nil_append]
  | cons b line ih =>
    obtain ⟨hb, hfree⟩ := List.ne_and_not_mem_of_not_mem_cons hfree
    rw [List.cons_append, lines, if_neg (Ne.symm hb), ih hfree]
    rfl

theorem CutsInto.eq_lines (h : CutsInto input parts) : parts = lines input := by
  induction h with
  | nil => rfl
  | last hne hfree => rw [lines_of_free hfree hne]
  | cons hfree _ ih => rw [lines_append_newline hfree, ih]

theorem cutsInto_lines (input : Bytes) : CutsInto input (lines input) := by
  induction input with
  | nil => exact .nil
  | cons b input ih =>
    by_cases hb : b = 10
    · subst hb
      rw [lines, if_pos rfl]
      exact .cons List.not_mem_nil ih
    · rw [lines, if_neg hb]
      -- the byte goes in front of the first line of the rest, if there is one
      generalize lines input = parts at ih
      cases ih with
      | nil => exact .last (List.cons_ne_nil b []) (by simp [Ne.symm hb])
      | last hne hfree => exact .last (List.cons_ne_nil _ _) (by simp [Ne.symm hb, hfree])
      | @cons line rest parts hfree hrest =>
        have hfree : 10 ∉ b :: line := by simp [Ne.symm hb, hfree]
        exact .cons hfree hrest

theorem cutsInto_iff : CutsInto input parts ↔ parts = lines input := by
  refine ⟨CutsInto.eq_lines, ?_⟩
  rintro rfl
  exact cutsInto_lines input

/-- Bytes that end with a line feed are cut as if they stood alone, whatever follows. -/
theorem lines_append (hhead : head.getLast? = some 10) (tail : Bytes) :
    lines (head ++ tail) = lines head ++ lines tail := by
  have hcut := cutsInto_lines head
  generalize lines head = parts at hcut
  induction hcut with
  | nil => cases hhead
  | last hne hfree => exact absurd (List.mem_of_getLast? hhead) hfree
  | @cons line rest parts hfree hrest ih =>
    rw [List.append_assoc, List.cons_append, lines_append_newline hfree, List.cons_append]
    congr 1
    cases rest with
    | nil =>
      rw [hrest.eq_lines]
      rfl
    | cons b rest =>
      refine ih ?_
      simpa [List.getLast?_cons] using hhead

end Console

/-! ## Sources on lines -/

/-- A text between two others that are white space, with none of its own at its ends. -/
structure Pads (before inner behind : List Char) : Prop where
  blankBefore : ∀ c ∈ before, isWhiteSpace c = true
  blankBehind : ∀ c ∈ behind, isWhiteSpace c = true
  first : ∀ c ∈ inner.head?, isWhiteSpace c = false
  last : ∀ c ∈ inner.getLast?, isWhiteSpace c = false

instance (before inner behind : List Char) : Decidable (Pads before inner behind) :=
  decidable_of_iff (before.all isWhiteSpace = true ∧ behind.all isWhiteSpace = true ∧
      inner.head?.all (!isWhiteSpace ·) = true ∧ inner.getLast?.all (!isWhiteSpace ·) = true) <| by
    simp only [List.all_eq_true, Option.all_eq_true, Bool.not_eq_true']
    exact ⟨fun ⟨hbefore, hbehind, hfirst, hlast⟩ => ⟨hbefore, hbehind, hfirst, hlast⟩,
      fun ⟨hbefore, hbehind, hfirst, hlast⟩ => ⟨hbefore, hbehind, hfirst, hlast⟩⟩

theorem head?_dropWhile_isWhiteSpace (cs : List Char) :
    ∀ c ∈ (cs.dropWhile isWhiteSpace).head?, isWhiteSpace c = false := by
  intro c hc
  have hhead := List.head?_dropWhile_not isWhiteSpace cs
  rwa [Option.mem_def.1 hc] at hhead

theorem dropWhile_isWhiteSpace_of_head? {cs : List Char}
    (h : ∀ c ∈ cs.head?, isWhiteSpace c = false) : cs.dropWhile isWhiteSpace = cs := by
  cases cs with
  | nil => rfl
  | cons c cs => exact List.dropWhile_cons_of_neg (by simp [h c rfl])

theorem pads_trim (cs : List Char) :
    ∃ before behind, cs = before ++ trim cs ++ behind ∧ Pads before (trim cs) behind := by
  let rest := cs.dropWhile isWhiteSpace
  let padding := (rest.reverse.takeWhile isWhiteSpace).reverse
  have hrest : rest = trim cs ++ padding := by
    rw [trim, ← List.reverse_append, List.takeWhile_append_dropWhile, List.reverse_reverse]
  refine ⟨cs.takeWhile isWhiteSpace, padding, ?_, ?_, ?_, ?_, ?_⟩
  · rw [List.append_assoc, ← hrest, List.takeWhile_append_dropWhile]
  · exact List.all_eq_true.1 List.all_takeWhile
  · intro c hc
    exact List.all_eq_true.1 List.all_takeWhile c (List.mem_reverse.1 hc)
  · intro c hc
    refine head?_dropWhile_isWhiteSpace cs c ?_
    show c ∈ rest.head?
    rw [hrest, List.head?_append, Option.mem_def.1 hc]
    rfl
  · intro c hc
    rw [trim, List.getLast?_reverse] at hc
    exact head?_dropWhile_isWhiteSpace _ c hc

theorem Pads.trim_eq {before inner behind : List Char} (h : Pads before inner behind) :
    trim (before ++ inner ++ behind) = inner := by
  obtain ⟨hbefore, hbehind, hfirst, hlast⟩ := h
  rw [trim, List.append_assoc, List.dropWhile_append_of_pos hbefore]
  cases inner with
  | nil =>
    have hnil : behind.dropWhile isWhiteSpace = [] := by
      rw [← List.append_nil behind, List.dropWhile_append_of_pos hbehind, List.dropWhile_nil]
    rw [List.nil_append, hnil]
    rfl
  | cons c inner =>
    have hhead : ((c :: inner) ++ behind).dropWhile isWhiteSpace = (c :: inner) ++ behind :=
      dropWhile_isWhiteSpace_of_head? hfirst
    have hreverse : ∀ d ∈ behind.reverse, isWhiteSpace d = true :=
      fun d hd => hbehind d (List.mem_reverse.1 hd)
    rw [hhead, List.reverse_append, List.dropWhile_append_of_pos hreverse,
      dropWhile_isWhiteSpace_of_head? (by rwa [List.head?_reverse]), List.reverse_reverse]

namespace Console

variable {line : Bytes}

/-- The line is the source between white space, in UTF-8. -/
def Holds (line : Bytes) (source : String) : Prop :=
  ∃ before behind, Pads before source.toList behind ∧
    line = Utf8.encode (before ++ source.toList ++ behind)

/-- The source that a line holds, if the line is a text. -/
def source? (line : Bytes) : Option String :=
  (Utf8.decode? line).map fun text => String.ofList (trim text.toList)

theorem source?_eq_some_iff {source : String} : source? line = some source ↔ Holds line source := by
  rw [source?, Option.map_eq_some_iff]
  constructor
  · rintro ⟨text, htext, rfl⟩
    obtain ⟨before, behind, hcs, hpads⟩ := pads_trim text.toList
    refine ⟨before, behind, ?_, ?_⟩
    · rwa [String.toList_ofList]
    · rw [String.toList_ofList, ← hcs]
      exact Utf8.decode?_eq_some_iff.1 htext
  · rintro ⟨before, behind, hpads, rfl⟩
    let text := String.ofList (before ++ source.toList ++ behind)
    have htext : text.toList = before ++ source.toList ++ behind := String.toList_ofList
    refine ⟨text, Utf8.decode?_eq_some_iff.2 (by rw [htext]), ?_⟩
    rw [htext, hpads.trim_eq, String.ofList_toList]

theorem source?_eq_none_iff : source? line = none ↔ ∀ cs, line ≠ Utf8.encode cs := by
  rw [source?, Option.map_eq_none_iff, Utf8.decode?_eq_none_iff]

end Console

end QuoteLisp
