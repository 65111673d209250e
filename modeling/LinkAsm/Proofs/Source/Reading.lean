import LinkAsm.Source.Basic

/-!
# From the lines of a text to those of its source

A text is read line by line, each line at the byte where it starts.  A line that holds more than
blanks and a comment has an entry, and an entry is a line of the source or a failure.  So a text
that is read without failures has each such line in its source.

* `Entry.readAll_append`: two parts of a text are read one after the other.
* `Source.exists_line_of_parse`: what a line of a text is in its source.
-/

namespace LinkAsm

namespace Entry

/-- Two parts of a text are read one after the other, the second at the byte where it starts. -/
theorem readAll_append (start : Nat) (before after : List (List Char)) :
    readAll start (before ++ after) =
      readAll start before ++ readAll (start + Text.byteLength before.flatten) after := by
  induction before generalizing start with
  | nil => rfl
  | cons line before ih =>
    simp only [List.cons_append, readAll, List.flatten_cons, Text.byteLength_append]
    rw [ih, List.append_assoc, Nat.add_assoc]

theorem mem_readAll {start : Nat} {before after : List (List Char)} {line : List Char} {e : Entry}
    (h : read? (start + Text.byteLength before.flatten) line = some e) :
    e ∈ readAll start (before ++ line :: after) := by
  rw [readAll_append, readAll, h]
  exact List.mem_append_right _ (List.mem_append_left _ (List.mem_singleton_self e))

/-- A line that holds more than blanks and a comment has an entry. -/
theorem exists_read? (start : Nat) {line : List Char} (h : Text.trim (stripComment line) ≠ []) :
    ∃ e, read? start line = some e := by
  have hcontent : ¬(Text.trim (stripComment line)).isEmpty = true := by
    rw [List.isEmpty_iff]
    exact h
  exact ⟨_, if_neg hcontent⟩

end Entry

namespace Source

/-- Numbering changes neither the lines nor their order. -/
theorem map_number (n : Nat) (kinds : List (Span × LineKind)) :
    (number n kinds).map (fun l => (l.span, l.kind)) = kinds := by
  induction kinds generalizing n with
  | nil => rfl
  | cons k rest ih =>
    obtain ⟨span, kind⟩ := k
    rw [number, List.map_cons, ih]

theorem exists_line_of_mem_kinds {kinds : List (Span × LineKind)} {span : Span} {kind : LineKind}
    (h : (span, kind) ∈ kinds) : ∃ l ∈ (ofKinds kinds).lines, l.span = span ∧ l.kind = kind := by
  rw [← map_number 0 kinds] at h
  obtain ⟨l, hl, heq⟩ := List.mem_map.mp h
  exact ⟨l, hl, Prod.mk.inj heq⟩

/-- A source with an instruction counts it. -/
theorem instructionCount_pos {kinds : List (Span × LineKind)} {l : Line} {i : InstructionText}
    (hl : l ∈ (ofKinds kinds).lines) (hk : l.kind = .instruction i) :
    0 < (ofKinds kinds).instructionCount := by
  have hmem : (l.span, l.kind) ∈ kinds := by
    rw [← map_number 0 kinds]
    exact List.mem_map.mpr ⟨l, hl, rfl⟩
  rw [hk] at hmem
  clear hl
  induction kinds with
  | nil => cases hmem
  | cons k rest ih =>
    show 0 < k.2.instructions + (ofKinds rest).instructionCount
    rcases List.mem_cons.mp hmem with rfl | hrest
    · exact Nat.add_pos_left Nat.one_pos _
    · exact Nat.add_pos_right _ (ih hrest)

theorem preceding_le_of_mem_number {n : Nat} {kinds : List (Span × LineKind)} {l : Line}
    (h : l ∈ number n kinds) : l.preceding ≤ n + (ofKinds kinds).instructionCount := by
  induction kinds generalizing n with
  | nil => cases h
  | cons k rest ih =>
    show l.preceding ≤ n + (k.2.instructions + (ofKinds rest).instructionCount)
    rcases List.mem_cons.mp h with rfl | hrest
    · exact Nat.le_add_right _ _
    · have := ih hrest
      omega

/-- A line has at most as many instructions before it as the text has. -/
theorem preceding_le_of_parse {text : List Char} {l : Line} (h : l ∈ (parse text).1.lines) :
    l.preceding ≤ (parse text).1.instructionCount := by
  have hle := preceding_le_of_mem_number h
  rwa [Nat.zero_add] at hle

/-- In a text that is read without failures, no entry is an error. -/
theorem outcome_of_parse {text : List Char} (h : (parse text).2.failed = false) {e : Entry}
    (he : e ∈ Entry.readAll 0 (Text.lines text)) : ∃ kind, e.outcome = .ok kind := by
  cases ho : e.outcome with
  | ok kind => exact ⟨kind, rfl⟩
  | error err =>
    have hmem : Message.critical err.code e.span err.message ∈
        (Entry.readAll 0 (Text.lines text)).filterMap Entry.error? :=
      List.mem_filterMap.mpr ⟨e, he, by rw [Entry.error?, ho]⟩
    have hfailed : (parse text).2.failed = true := by
      rw [parse, Log.failed_addAll, Log.failed_empty, Bool.false_or]
      exact List.any_eq_true.mpr ⟨_, hmem, rfl⟩
    rw [h] at hfailed
    cases hfailed

/-- **Every line is classified**: in a text that is read without failures, each line that holds more
than blanks and a comment is in the source, as what it was read as and at its place. -/
theorem exists_line_of_parse {text : List Char} (h : (parse text).2.failed = false)
    {before after : List (List Char)} {line : List Char}
    (hlines : Text.lines text = before ++ line :: after)
    (hline : Text.trim (stripComment line) ≠ []) :
    ∃ l ∈ (parse text).1.lines,
      Entry.read? (Text.byteLength before.flatten) line = some ⟨l.span, .ok l.kind⟩ := by
  obtain ⟨e, he⟩ := Entry.exists_read? (Text.byteLength before.flatten) hline
  have hmem : e ∈ Entry.readAll 0 (Text.lines text) := by
    rw [hlines]
    refine Entry.mem_readAll ?_
    rw [Nat.zero_add]
    exact he
  obtain ⟨kind, hkind⟩ := outcome_of_parse h hmem
  have hkinds : (e.span, kind) ∈
      (Entry.readAll 0 (Text.lines text)).filterMap Entry.kind? :=
    List.mem_filterMap.mpr ⟨e, hmem, by rw [Entry.kind?, hkind]⟩
  obtain ⟨l, hl, hspan, hlkind⟩ := exists_line_of_mem_kinds hkinds
  refine ⟨l, hl, ?_⟩
  rw [he, hspan, hlkind, ← hkind]

end Source

end LinkAsm
