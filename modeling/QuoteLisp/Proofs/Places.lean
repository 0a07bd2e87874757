import QuoteLisp.Span
import QuoteLisp.Text.Utf8
import QuoteLisp.Token

/-!
# Places in a text

Places are byte offsets, and a span holds a text if it cuts it out between whole characters
(`Span.Cuts`); then the bytes of the span are those of the text (`Span.Cuts.extract_encode`). Two
ways to cut a text in two are told apart by their byte offsets alone
(`exists_eq_append_of_byteLength_le`).
-/

namespace QuoteLisp

/-! ## Byte lengths -/

theorem length_encode (cs : List Char) : (Utf8.encode cs).length = byteLength cs := by
  induction cs with
  | nil => rfl
  | cons c cs ih =>
    have hcons : Utf8.encode (c :: cs) = String.utf8EncodeChar c ++ Utf8.encode cs :=
      List.flatMap_cons
    rw [hcons, List.length_append, String.length_utf8EncodeChar, ih, byteLength_cons]

theorem eq_nil_of_byteLength {cs : List Char} (h : byteLength cs = 0) : cs = [] := by
  cases cs with
  | nil => rfl
  | cons c cs =>
    have hc := c.utf8Size_pos
    rw [byteLength_cons] at h
    omega

theorem byteLength_pos {cs : List Char} (h : cs ≠ []) : 0 < byteLength cs :=
  Nat.pos_of_ne_zero (mt eq_nil_of_byteLength h)

/-- Of two cuts through a text the one at the smaller offset comes first. -/
theorem exists_eq_append_of_byteLength_le {as bs cs ds : List Char} (h : as ++ bs = cs ++ ds)
    (hle : byteLength as ≤ byteLength cs) : ∃ es, cs = as ++ es ∧ bs = es ++ ds := by
  obtain hes | ⟨es, rfl, rfl⟩ := List.append_eq_append_iff.1 h
  · exact hes
  · rw [byteLength_append] at hle
    obtain rfl : es = [] := eq_nil_of_byteLength (by omega)
    exact ⟨[], by simp, rfl⟩

/-! ## Spans -/

namespace Span

/-- The byte at an offset is in the span. -/
def Contains (span : Span) (offset : Nat) : Prop := span.start ≤ offset ∧ offset < span.stop

/-- The span cuts `text` out of `cs`, a text that starts at a byte offset: it starts behind some
characters of `cs` and ends behind those of `text`. -/
def Cuts (span : Span) (position : Nat) (cs text : List Char) : Prop :=
  ∃ before after, cs = before ++ (text ++ after) ∧ span.start = position + byteLength before ∧
    span.stop = span.start + byteLength text

variable {span : Span} {position : Nat} {cs text : List Char}

theorem Cuts.start_lt_stop (h : span.Cuts position cs text) (hne : text ≠ []) :
    span.start < span.stop := by
  obtain ⟨before, after, -, -, hstop⟩ := h
  have hpos := byteLength_pos hne
  omega

theorem Cuts.stop_le (h : span.Cuts position cs text) :
    span.stop ≤ position + byteLength cs := by
  obtain ⟨before, after, rfl, hstart, hstop⟩ := h
  simp only [byteLength_append]
  omega

/-- The bytes of a span are those of the text that it cuts out. -/
theorem Cuts.extract_encode (h : span.Cuts 0 cs text) :
    (Utf8.encode cs).extract span.start span.stop = Utf8.encode text := by
  obtain ⟨before, after, rfl, hstart, hstop⟩ := h
  have hlength : span.start = (Utf8.encode before).length := by
    rw [length_encode]
    omega
  have htake : span.stop - span.start = (Utf8.encode text).length := by
    rw [length_encode]
    omega
  rw [List.extract_eq_take_drop, Utf8.encode_append, Utf8.encode_append, htake, hlength,
    List.drop_left, List.take_left]

end Span

/-! ## Bytes outside of spans -/

/-- The bytes of the blanks: space, tab, return, line feed and form feed. -/
def blankBytes : Bytes := [32, 9, 13, 10, 12]

theorem mem_blankBytes_of_isBlank {c : Char} {b : UInt8} (hc : isBlank c = true)
    (hb : b ∈ String.utf8EncodeChar c) : b ∈ blankBytes := by
  have hbytes : (String.utf8EncodeChar c).all blankBytes.contains = true := by
    simp only [isBlank, Bool.or_eq_true, beq_iff_eq] at hc
    rcases hc with (((rfl | rfl) | rfl) | rfl) | rfl <;> rfl
  exact List.contains_iff_mem.1 (List.all_eq_true.1 hbytes b hb)

/-- Every byte of a text belongs to one of its characters. -/
theorem exists_char_of_getElem?_encode {cs : List Char} {i : Nat} {b : UInt8}
    (h : (Utf8.encode cs)[i]? = some b) :
    ∃ before c after, cs = before ++ c :: after ∧ byteLength before ≤ i ∧
      i < byteLength before + c.utf8Size ∧ b ∈ String.utf8EncodeChar c := by
  induction cs generalizing i with
  | nil => simp at h
  | cons c cs ih =>
    have hcons : Utf8.encode (c :: cs) = String.utf8EncodeChar c ++ Utf8.encode cs :=
      List.flatMap_cons
    rw [hcons, List.getElem?_append, String.length_utf8EncodeChar] at h
    split at h
    · rename_i hlt
      refine ⟨[], c, cs, rfl, Nat.zero_le i, ?_, List.mem_of_getElem? h⟩
      rw [byteLength_nil]
      omega
    · rename_i hge
      obtain ⟨before, d, after, rfl, hle, hlt, hb⟩ := ih h
      refine ⟨c :: before, d, after, rfl, ?_, ?_, hb⟩ <;> rw [byteLength_cons] <;> omega

/-- A span between whole characters that has the first byte of a character has all its bytes. -/
theorem Span.Cuts.contains_of_contains {span : Span} {before after text : List Char} {c : Char}
    {i : Nat} (h : span.Cuts 0 (before ++ c :: after) text)
    (hspan : span.Contains (byteLength before)) (hle : byteLength before ≤ i)
    (hlt : i < byteLength before + c.utf8Size) : span.Contains i := by
  obtain ⟨front, rest, hcs, hstart, hstop⟩ := h
  obtain ⟨hfirst, hlast⟩ := hspan
  rw [← List.append_assoc] at hcs
  have hcut : byteLength before ≤ byteLength (front ++ text) := by
    rw [byteLength_append]
    omega
  obtain ⟨_ | ⟨d, es⟩, hes, hrest⟩ := exists_eq_append_of_byteLength_le hcs hcut
  · have hlength := congrArg byteLength hes
    rw [byteLength_append, byteLength_append, byteLength_nil] at hlength
    omega
  · obtain ⟨rfl, -⟩ := List.cons.inj hrest
    have hlength := congrArg byteLength hes
    rw [byteLength_append, byteLength_append, byteLength_cons] at hlength
    exact ⟨by omega, by omega⟩

end QuoteLisp
