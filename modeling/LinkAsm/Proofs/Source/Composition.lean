import Mathlib
import LinkAsm.Proofs.Diagnostic.Histories
import LinkAsm.Proofs.Source.Positions

/-!
# Texts put together

A line ends at a line break, and a line is read without a look at others.  So where a text ends with
a line break and another is put behind it, the lines and errors of both stand one behind the other;
those of the second text have moved by the bytes of the first, and stand behind its instructions.

A failure keeps later messages away from its place.  The places of different lines have no byte in
common, so no error of a line hides that of another: what is recorded of a text are the errors of
all its lines.

* `Source.messages_parse`: no error in reading a text is dropped.
* `Source.parse_append`: the source of two texts put together.
* `Source.yieldsOne_of_line`: each line that is not blank comes to one line of the source or one error.
-/

namespace LinkAsm

/-! ## Lines of two texts -/

namespace Text

theorem lines_ne_nil {cs : List Char} (h : cs ≠ []) : lines cs ≠ [] := by
  intro hnil
  have hflatten := flatten_lines cs
  rw [hnil] at hflatten
  exact h hflatten.symm

/-- The lines of two texts, if no line goes on from the first to the second. -/
theorem lines_append {first : List Char} (h : first = [] ∨ first.getLast? = some '\n')
    (second : List Char) : lines (first ++ second) = lines first ++ lines second := by
  induction first with
  | nil => rfl
  | cons c cs ih =>
    by_cases hcs : cs = []
    · have hc : c = '\n' := by simpa [hcs] using h
      simp [hcs, hc, lines]
    · have hlast : cs.getLast? = some '\n' := by
        rw [← List.getLast?_cons_of_ne_nil hcs]
        exact h.resolve_left (List.cons_ne_nil c cs)
      obtain ⟨line, rest, hlines⟩ := List.exists_cons_of_ne_nil (lines_ne_nil hcs)
      rw [List.cons_append, lines, lines, ih (Or.inr hlast), hlines]
      split <;> rfl

end Text

/-! ## Moving lines and errors -/

/-- The line as it stands `n` bytes to the right and behind `k` more instructions. -/
def Line.shift (l : Line) (n k : Nat) : Line := ⟨l.kind.shift n, l.span.shift n, l.preceding + k⟩

theorem LineKind.instructions_shift (n : Nat) (kind : LineKind) :
    (kind.shift n).instructions = kind.instructions := by
  cases kind <;> rfl

namespace Entry

theorem kind?_shift (e : Entry) (n : Nat) :
    (e.shift n).kind? = e.kind?.map fun k => (k.1.shift n, k.2.shift n) := by
  obtain ⟨span, outcome⟩ := e
  cases outcome <;> rfl

theorem error?_shift (e : Entry) (n : Nat) : (e.shift n).error? = e.error?.map (·.shift n) := by
  obtain ⟨span, outcome⟩ := e
  cases outcome <;> rfl

/-- The entries of two texts. -/
theorem readAll_lines_append {first : List Char} (h : first = [] ∨ first.getLast? = some '\n')
    (second : List Char) :
    readAll 0 (Text.lines (first ++ second)) =
      readAll 0 (Text.lines first) ++
        (readAll 0 (Text.lines second)).map (·.shift (Text.byteLength first)) := by
  rw [Text.lines_append h, readAll_append, Text.flatten_lines, readAll_add]

end Entry

namespace Source

theorem number_append (n : Nat) (first second : List (Span × LineKind)) :
    number n (first ++ second) =
      number n first ++ number (n + (ofKinds first).instructionCount) second := by
  induction first generalizing n with
  | nil => rfl
  | cons k rest ih =>
    rw [List.cons_append, number, ih, number, List.cons_append, Nat.add_assoc]
    rfl

theorem instructionCount_append (first second : List (Span × LineKind)) :
    (ofKinds (first ++ second)).instructionCount =
      (ofKinds first).instructionCount + (ofKinds second).instructionCount := by
  rw [← countP_number 0, number_append, List.countP_append, countP_number, countP_number]

theorem instructionCount_shift (n : Nat) (kinds : List (Span × LineKind)) :
    (ofKinds (kinds.map fun p => (p.1.shift n, p.2.shift n))).instructionCount =
      (ofKinds kinds).instructionCount := by
  simp only [ofKinds, List.foldr_map, LineKind.instructions_shift]

theorem number_shift (m n k : Nat) (kinds : List (Span × LineKind)) :
    number (m + k) (kinds.map fun p => (p.1.shift n, p.2.shift n)) =
      (number m kinds).map (·.shift n k) := by
  induction kinds generalizing m with
  | nil => rfl
  | cons p rest ih =>
    rw [List.map_cons, number, number, List.map_cons, LineKind.instructions_shift,
      Nat.add_right_comm, ih]
    rfl

end Source

/-! ## No error hides another -/

theorem Span.overlaps_eq_false {s t : Span} (hs : s.start < s.stop) (ht : t.start < t.stop)
    (h : s.stop ≤ t.start) : s.overlaps t = false := by
  rw [overlaps, if_neg (Nat.ne_of_lt hs), if_neg (Nat.ne_of_lt ht), Bool.and_eq_false_iff]
  exact Or.inr (decide_eq_false (Nat.not_lt.mpr h))

theorem Entry.range_of_error? {e : Entry} {m : Message} (h : e.error? = some m) :
    m.severity = .critical ∧ m.range = some e.span := by
  unfold error? at h
  split at h
  · cases h
  · obtain rfl := Option.some.inj h
    exact ⟨rfl, rfl⟩

namespace Source

/-- The errors in reading a text are all recorded. -/
theorem messages_parse (text : List Char) :
    (parse text).2.messages = (Entry.readAll 0 (Text.lines text)).filterMap Entry.error? := by
  refine Log.messages_addAll ?_
  show (List.filterMap _ _).Pairwise _
  rw [List.pairwise_filterMap]
  refine (Entry.pairwise_readAll 0 (Text.lines text)).imp_of_mem ?_
  intro d e hd he hle m hm later hlater hfailure r t hr ht
  rw [(Entry.range_of_error? hm).2] at hr
  rw [(Entry.range_of_error? hlater).2] at ht
  obtain rfl := Option.some.inj hr
  obtain rfl := Option.some.inj ht
  exact Span.overlaps_eq_false (Entry.bounds_of_mem_readAll hd).2.1
    (Entry.bounds_of_mem_readAll he).2.1 hle

/-- **Texts are read one behind the other.** -/
theorem parse_append {first : List Char} (h : first = [] ∨ first.getLast? = some '\n')
    (second : List Char) :
    (parse (first ++ second)).1.lines = (parse first).1.lines ++
        (parse second).1.lines.map
          (·.shift (Text.byteLength first) (parse first).1.instructionCount) ∧
      (parse (first ++ second)).1.instructionCount =
        (parse first).1.instructionCount + (parse second).1.instructionCount ∧
      (parse (first ++ second)).2.messages = (parse first).2.messages ++
        (parse second).2.messages.map (·.shift (Text.byteLength first)) := by
  have hkinds : (Entry.readAll 0 (Text.lines (first ++ second))).filterMap Entry.kind? =
      (Entry.readAll 0 (Text.lines first)).filterMap Entry.kind? ++
        ((Entry.readAll 0 (Text.lines second)).filterMap Entry.kind?).map
          fun p => (p.1.shift (Text.byteLength first), p.2.shift (Text.byteLength first)) := by
    simp only [Entry.readAll_lines_append h, List.filterMap_append, List.filterMap_map,
      List.map_filterMap, Function.comp_def, Entry.kind?_shift]
  refine ⟨?_, ?_, ?_⟩
  · show number 0 _ = number 0 _ ++ (number 0 _).map _
    rw [hkinds, number_append, number_shift]
    rfl
  · show (ofKinds _).instructionCount = _
    rw [hkinds, instructionCount_append, instructionCount_shift]
    rfl
  · simp only [messages_parse, Entry.readAll_lines_append h, List.filterMap_append,
      List.filterMap_map, List.map_filterMap, Function.comp_def, Entry.error?_shift]

end Source

/-! ## What a line comes to -/

/-- Whether a span lies in another. -/
def Span.isInside (s place : Span) : Bool := place.start ≤ s.start && s.stop ≤ place.stop

theorem Span.isInside_iff {s place : Span} :
    s.isInside place = true ↔ place.start ≤ s.start ∧ s.stop ≤ place.stop := by
  simp [isInside]

/-- The lines of a source that stand in a place. -/
def Source.linesIn (s : Source) (place : Span) : List Line := s.lines.filter (·.span.isInside place)

/-- The messages of a log that stand in a place. -/
def Log.messagesIn (log : Log) (place : Span) : List Message :=
  log.messages.filter (·.range.any (·.isInside place))

/-- The place of a line that stands behind others. -/
def Text.placeBehind (before : List (List Char)) (line : List Char) : Span :=
  ⟨byteLength before.flatten, byteLength before.flatten + byteLength line⟩

namespace Entry

/-- In the place of a line stands the entry of that line and no other. -/
theorem filter_readAll (before after : List (List Char)) (line : List Char) :
    (readAll 0 (before ++ line :: after)).filter (·.span.isInside (Text.placeBehind before line)) =
      (read? (Text.byteLength before.flatten) line).toList := by
  have hbefore : (readAll 0 before).filter
      (·.span.isInside (Text.placeBehind before line)) = [] := by
    refine List.filter_eq_nil_iff.mpr ?_
    intro e he
    have hbounds := bounds_of_mem_readAll he
    simp only [Span.isInside_iff, Text.placeBehind]
    omega
  have hline : (read? (Text.byteLength before.flatten) line).toList.filter
      (·.span.isInside (Text.placeBehind before line)) =
        (read? (Text.byteLength before.flatten) line).toList := by
    refine List.filter_eq_self.mpr ?_
    intro e he
    have hbounds := bounds_of_read? (Option.mem_toList.mp he)
    simp only [Span.isInside_iff, Text.placeBehind]
    omega
  have hafter : (readAll (Text.byteLength before.flatten + Text.byteLength line) after).filter
      (·.span.isInside (Text.placeBehind before line)) = [] := by
    refine List.filter_eq_nil_iff.mpr ?_
    intro e he
    have hbounds := bounds_of_mem_readAll he
    simp only [Span.isInside_iff, Text.placeBehind]
    omega
  rw [readAll_append, readAll, List.filter_append, List.filter_append, Nat.zero_add, hbefore, hline,
    hafter, List.nil_append, List.append_nil]

theorem filter_kind? (place : Span) (entries : List Entry) :
    (entries.filterMap kind?).filter (·.1.isInside place) =
      (entries.filter (·.span.isInside place)).filterMap kind? := by
  rw [List.filter_filterMap, List.filterMap_filter]
  refine List.filterMap_congr ?_
  intro e _
  obtain ⟨span, outcome⟩ := e
  cases outcome with
  | ok kind => rfl
  | error err => exact (ite_self none).symm

theorem filter_error? (place : Span) (entries : List Entry) :
    (entries.filterMap error?).filter (·.range.any (·.isInside place)) =
      (entries.filter (·.span.isInside place)).filterMap error? := by
  rw [List.filter_filterMap, List.filterMap_filter]
  refine List.filterMap_congr ?_
  intro e _
  obtain ⟨span, outcome⟩ := e
  cases outcome with
  | ok kind => exact (ite_self none).symm
  | error err => rfl

/-- An entry is a line or an error. -/
theorem length_kind?_add_length_error? (entries : List Entry) :
    (entries.filterMap kind?).length + (entries.filterMap error?).length = entries.length := by
  induction entries with
  | nil => rfl
  | cons e entries ih =>
    obtain ⟨span, outcome⟩ := e
    cases outcome with
    | ok kind =>
      show (List.filterMap kind? entries).length + 1 + (List.filterMap error? entries).length = _
      rw [List.length_cons]
      omega
    | error err =>
      show (List.filterMap kind? entries).length + ((List.filterMap error? entries).length + 1) = _
      rw [List.length_cons]
      omega

/-- There is one entry for each line that is not blank. -/
theorem length_readAll (start : Nat) (lines : List (List Char)) :
    (readAll start lines).length = lines.countP fun line => Text.trim (stripComment line) ≠ [] := by
  induction lines generalizing start with
  | nil => rfl
  | cons line lines ih =>
    rw [readAll, List.length_append, ih, List.countP_cons, Nat.add_comm]
    congr 1
    by_cases hline : Text.trim (stripComment line) = []
    · simp [read?, hline]
    · obtain ⟨e, he⟩ := exists_read? start hline
      simp [he, hline]

end Entry

namespace Source

theorem linesIn_parse (text : List Char) (place : Span) :
    ((parse text).1.linesIn place).map (fun l => (l.span, l.kind)) =
      ((Entry.readAll 0 (Text.lines text)).filter (·.span.isInside place)).filterMap
        Entry.kind? := by
  rw [← Entry.filter_kind?, ← map_number 0 (List.filterMap Entry.kind? _), List.filter_map]
  rfl

theorem messagesIn_parse (text : List Char) (place : Span) :
    (parse text).2.messagesIn place =
      ((Entry.readAll 0 (Text.lines text)).filter (·.span.isInside place)).filterMap
        Entry.error? := by
  rw [Log.messagesIn, messages_parse, Entry.filter_error?]

/-- Whether one line of the source of a text stands in a place and no error, or one error and no
line.  The line or the error is about the characters `content`. -/
def YieldsOne (text : List Char) (place : Span) (content : List Char) : Prop :=
  (∃ l, (parse text).1.linesIn place = [l] ∧ (parse text).2.messagesIn place = [] ∧
      l.span.extract? text = some content) ∨
    ∃ m r, (parse text).1.linesIn place = [] ∧ (parse text).2.messagesIn place = [m] ∧
      m.severity = .critical ∧ m.range = some r ∧ r.extract? text = some content

/-- A line that is not blank comes to one line of the source, or to one error. -/
theorem yieldsOne_of_line {text : List Char} {before after : List (List Char)} {line : List Char}
    (hlines : Text.lines text = before ++ line :: after)
    (hline : Text.trim (stripComment line) ≠ []) :
    YieldsOne text (Text.placeBehind before line) (Text.trim (stripComment line)) := by
  obtain ⟨e, he⟩ := Entry.exists_read? (Text.byteLength before.flatten) hline
  have hat : Text.At text (Text.byteLength before.flatten) line := by
    refine ⟨before.flatten, after.flatten, ?_, rfl⟩
    rw [← Text.flatten_lines text, hlines, List.flatten_append, List.flatten_cons,
      List.append_assoc]
  have hextract := (Entry.marks_of_read? he hat).1.extract?
  have hkinds := linesIn_parse text (Text.placeBehind before line)
  have herrors := messagesIn_parse text (Text.placeBehind before line)
  rw [hlines, Entry.filter_readAll, he, Option.toList_some] at hkinds herrors
  cases houtcome : e.outcome with
  | ok kind =>
    have hkind : e.kind? = some (e.span, kind) := by rw [Entry.kind?, houtcome]
    have herror : e.error? = none := by rw [Entry.error?, houtcome]
    rw [List.filterMap_cons_some hkind, List.filterMap_nil] at hkinds
    rw [List.filterMap_cons_none herror, List.filterMap_nil] at herrors
    obtain ⟨l, hl, heq⟩ := List.map_eq_singleton_iff.mp hkinds
    rw [← (Prod.mk.inj heq).1] at hextract
    exact Or.inl ⟨l, hl, herrors, hextract⟩
  | error err =>
    have hkind : e.kind? = none := by rw [Entry.kind?, houtcome]
    have herror : e.error? = some (.critical err.code e.span err.message) := by
      rw [Entry.error?, houtcome]
    rw [List.filterMap_cons_none hkind, List.filterMap_nil, List.map_eq_nil_iff] at hkinds
    rw [List.filterMap_cons_some herror, List.filterMap_nil] at herrors
    exact Or.inr ⟨_, e.span, hkinds, herrors, rfl, rfl, hextract⟩

/-- All lines and errors of a text are those of its lines that are not blank. -/
theorem length_lines_add_length_messages (text : List Char) :
    (parse text).1.lines.length + (parse text).2.messages.length =
      (Text.lines text).countP fun line => Text.trim (stripComment line) ≠ [] := by
  have hlength : (parse text).1.lines.length =
      ((Entry.readAll 0 (Text.lines text)).filterMap Entry.kind?).length := by
    rw [← map_number 0 (List.filterMap Entry.kind? _), List.length_map]
    rfl
  rw [hlength, messages_parse, Entry.length_kind?_add_length_error?, Entry.length_readAll]

/-- **Lines are classified one by one, and none is lost.**  Behind a text that is empty or ends with a
line break, another text has the lines and errors that it has by itself, at places that have moved by
the bytes of the first, and behind the instructions of the first.  In any text, a line that holds more
than blanks and a comment comes to one line of the source or to one critical message, and no other
line or message is there. -/
theorem parse_compositional :
    (∀ first second : List Char, first = [] ∨ first.getLast? = some '\n' →
      (parse (first ++ second)).1.lines = (parse first).1.lines ++
          (parse second).1.lines.map
            (·.shift (Text.byteLength first) (parse first).1.instructionCount) ∧
        (parse (first ++ second)).1.instructionCount =
          (parse first).1.instructionCount + (parse second).1.instructionCount ∧
        (parse (first ++ second)).2.messages = (parse first).2.messages ++
          (parse second).2.messages.map (·.shift (Text.byteLength first))) ∧
      ∀ text : List Char,
        (∀ before line after, Text.lines text = before ++ line :: after →
          Text.trim (stripComment line) ≠ [] →
            YieldsOne text (Text.placeBehind before line) (Text.trim (stripComment line))) ∧
        (parse text).1.lines.length + (parse text).2.messages.length =
          (Text.lines text).countP fun line => Text.trim (stripComment line) ≠ [] := by
  refine ⟨?_, ?_⟩
  · intro first second hfirst
    exact parse_append hfirst second
  · intro text
    refine ⟨?_, length_lines_add_length_messages text⟩
    intro before line after hlines hline
    exact yieldsOne_of_line hlines hline

/-- An instruction and a line that is nothing. -/
def oddFront : List Char := "nop\n?odd é\n".toList

/-- An instruction with a comment, a line that is nothing and a label. -/
def oddBack : List Char := " ldc 1 ; c\n?odd\nx:".toList

theorem parse_compositional_oddLines :
    oddFront.getLast? = some '\n' ∧
      (parse (oddFront ++ oddBack)).1.lines =
        [⟨.instruction ⟨"nop", []⟩, ⟨0, 3⟩, 0⟩,
          ⟨.instruction ⟨"ldc", [⟨['1'], ⟨17, 18⟩⟩]⟩, ⟨13, 18⟩, 1⟩, ⟨.label "x", ⟨28, 30⟩, 2⟩] ∧
      (parse (oddFront ++ oddBack)).2.messages.map (·.range) = [some ⟨4, 11⟩, some ⟨23, 27⟩] ∧
      YieldsOne (oddFront ++ oddBack) ⟨4, 12⟩ "?odd é".toList := by
  have hlast : oddFront.getLast? = some '\n' := by decide
  obtain ⟨hlines, -, hmessages⟩ := parse_compositional.1 oddFront oddBack (Or.inr hlast)
  refine ⟨hlast, ?_, ?_, ?_⟩
  · rw [hlines]
    decide +kernel
  · rw [hmessages]
    decide +kernel
  · exact (parse_compositional.2 (oddFront ++ oddBack)).1 ["nop\n".toList] "?odd é\n".toList
      [" ldc 1 ; c\n".toList, "?odd\n".toList, "x:".toList] (by decide +kernel) (by decide +kernel)

end Source

end LinkAsm
