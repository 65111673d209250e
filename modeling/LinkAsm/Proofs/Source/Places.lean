import LinkAsm.Proofs.Source.Reading
import LinkAsm.Proofs.Text.Boundaries

/-!
# Where lines and their parts stand

A line of a text is read from the end of its comment backwards: what is left of it after each step
is a part of what was there before.  So the place of a part can be computed from the lengths alone,
as it is in reading: from the end of the line, or from the start of an operand and the operands
before it.

* `LineKind.within_of_classify`: the places that are noted in reading a line.
* `Source.within_of_parse`, `Source.errors_within`: the places of a source, and of the errors in
  reading it.
-/

namespace LinkAsm

/-! ## Parts of a line -/

theorem uncommented_isPrefix (state : QuoteState) (cs : List Char) : uncommented state cs <+: cs := by
  fun_induction uncommented state cs with
  | case1 => exact List.prefix_refl _
  | case2 c cs ih => exact List.prefix_cons_inj c |>.mpr ih
  | case3 c cs ih => exact List.prefix_cons_inj c |>.mpr ih
  | case4 => exact List.nil_prefix
  | case5 c cs h ih => exact List.prefix_cons_inj c |>.mpr ih

theorem suffix_of_takeName {text rest : List Char} {name : String}
    (h : takeName text = some (name, rest)) : rest <:+ text := by
  cases text with
  | nil => cases h
  | cons c cs =>
    rw [takeName] at h
    split at h
    · obtain ⟨-, rfl⟩ := Prod.mk.inj (Option.some.inj h)
      exact (List.dropWhile_suffix isNameChar).trans (List.suffix_cons c cs)
    · cases h

theorem suffix_of_afterBlanks? {text rest : List Char} (h : afterBlanks? text = some rest) :
    rest <:+ text := by
  cases text with
  | nil => cases h
  | cons c cs =>
    rw [afterBlanks?] at h
    split at h
    · obtain rfl := Option.some.inj h
      exact (Text.trimStart_isSuffix cs).trans (List.suffix_cons c cs)
    · cases h

theorem suffix_of_afterMark? {mark : Char} {text rest : List Char}
    (h : afterMark? mark text = some rest) : rest <:+ text := by
  have htrim := Text.trimStart_isSuffix text
  unfold afterMark? at h
  split at h
  · cases h
  · next c cs heq =>
    rw [heq] at htrim
    split at h
    · obtain rfl := Option.some.inj h
      exact ((Text.trimStart_isSuffix cs).trans (List.suffix_cons c cs)).trans htrim
    · cases h

theorem suffix_of_aliasDefinition {stop : Nat} {text : List Char} {d : AliasDefinition}
    (h : AliasDefinition.read? stop text = some d) :
    d.expression <:+ text ∧ d.start = stop - Text.byteLength d.expression := by
  obtain ⟨inner, hinner, h⟩ := Option.bind_eq_some_iff.mp h
  obtain ⟨⟨name, rest⟩, htake, h⟩ := Option.bind_eq_some_iff.mp h
  obtain ⟨expression, hmark, h⟩ := Option.bind_eq_some_iff.mp h
  split at h
  · cases h
  · obtain rfl := Option.some.inj h
    have hrest := (suffix_of_takeName htake).trans (suffix_of_afterBlanks? hinner)
    exact ⟨(suffix_of_afterMark? hmark).trans hrest, rfl⟩

theorem span_of_import {span : Span} {text : List Char} {i : Import}
    (h : Import.read? span text = some i) : i.span = span := by
  have hlast : ∀ (symbol : Option (Option String)) (localName : Option String) (object : String),
      (symbol.bind fun symbol => some ⟨localName, object, symbol, span⟩) = some i →
        i.span = span := by
    intro symbol localName object h
    obtain ⟨found, -, h⟩ := Option.bind_eq_some_iff.mp h
    exact congrArg Import.span (Option.some.inj h).symm
  obtain ⟨inner, -, h⟩ := Option.bind_eq_some_iff.mp h
  obtain ⟨⟨first, rest⟩, -, h⟩ := Option.bind_eq_some_iff.mp h
  dsimp only at h
  split at h
  -- with and without a local name, the rest is read in the same way
  all_goals
    obtain ⟨⟨localName, object, tail⟩, -, h⟩ := Option.bind_eq_some_iff.mp h
    dsimp only at h
    split at h
    · exact hlast _ _ _ h
    · split at h
      · exact hlast _ _ _ h
      · exact hlast _ _ _ h

/-! ## Operands -/

theorem splitCommas_ne_nil (cs : List Char) : splitCommas cs ≠ [] := by
  cases cs with
  | nil => exact List.cons_ne_nil _ _
  | cons c cs =>
    rw [splitCommas]
    split
    · exact List.cons_ne_nil _ _
    · split <;> exact List.cons_ne_nil _ _

/-- The pieces between commas, with commas between them, are the text. -/
theorem intercalate_splitCommas (cs : List Char) : [','].intercalate (splitCommas cs) = cs := by
  induction cs with
  | nil => rfl
  | cons c cs ih =>
    rw [splitCommas]
    split
    · next hnil => exact absurd hnil (splitCommas_ne_nil cs)
    · next piece pieces heq =>
      rw [heq] at ih
      split
      · next hc =>
        rw [hc, List.intercalate_cons_cons, ih]
        rfl
      · cases pieces with
        | nil =>
          rw [List.intercalate_singleton] at ih ⊢
          rw [ih]
        | cons next pieces =>
          rw [List.intercalate_cons_cons] at ih ⊢
          rw [List.cons_append, List.cons_append, ih]

theorem at_of_intercalate_cons {text piece : List Char} {start : Nat} {pieces : List (List Char)}
    (h : Text.At text start ([','].intercalate (piece :: pieces))) :
    Text.At text start piece ∧ (pieces ≠ [] →
      Text.At text (start + Text.byteLength piece + 1) ([','].intercalate pieces)) := by
  cases pieces with
  | nil =>
    rw [List.intercalate_singleton] at h
    exact ⟨h, fun hne => absurd rfl hne⟩
  | cons next pieces =>
    rw [List.intercalate_cons_cons] at h
    refine ⟨h.left.left, fun _ => ?_⟩
    have hrest := h.right
    rwa [Text.byteLength_append, ← Nat.add_assoc] at hrest

theorem operands_marked {text : List Char} {start : Nat} {pieces : List (List Char)}
    {operands : List OperandText} (h : operandsOf start pieces = some operands)
    (hat : Text.At text start ([','].intercalate pieces)) :
    ∀ o ∈ operands, o.span.Marks text o.text := by
  induction pieces generalizing start operands with
  | nil =>
    obtain rfl := Option.some.inj h
    intro o ho
    cases ho
  | cons piece pieces ih =>
    obtain ⟨hpiece, hrest⟩ := at_of_intercalate_cons hat
    rw [operandsOf] at h
    split at h
    · cases h
    · obtain ⟨others, hothers, rfl⟩ := Option.map_eq_some_iff.mp h
      intro o ho
      rcases List.mem_cons.mp ho with rfl | hmem
      · exact ⟨hpiece.trim, rfl⟩
      · refine ih hothers (hrest ?_) o hmem
        rintro rfl
        obtain rfl := Option.some.inj hothers
        cases hmem

theorem operands_marked_of_read {text line : List Char} {start stop : Nat} {i : InstructionText}
    (h : InstructionText.read stop line = .ok i) (hat : Text.At text start line)
    (hstop : stop = start + Text.byteLength line) : ∀ o ∈ i.operands, o.span.Marks text o.text := by
  unfold InstructionText.read at h
  split at h
  · cases h
  · next c cs =>
    dsimp only at h
    split at h
    · cases h
    · split at h
      · obtain rfl := Except.ok.inj h
        intro o ho
        cases ho
      · split at h
        · cases h
        · next inner hinner =>
          split at h
          · cases h
          · next operands hoperands =>
            obtain rfl := Except.ok.inj h
            have hsuffix : inner <:+ c :: cs :=
              ((suffix_of_afterBlanks? hinner).trans (List.dropWhile_suffix _)).trans
                (List.suffix_cons c cs)
            refine operands_marked hoperands ?_
            rw [intercalate_splitCommas]
            exact hat.suffix hstop hsuffix

/-! ## Lines -/

/-- Whether the places that are noted in a line are places of a text. -/
def LineKind.Within (text : List Char) : LineKind → Prop
  | .label _ | .block _ => True
  | .aliasDefinition a => Text.At text a.start a.expression
  | .importing i => i.span.Within text
  | .instruction i => ∀ o ∈ i.operands, o.span.Marks text o.text

/-- Whether the place of a line and those that are noted in it are places of a text. -/
structure Line.Within (text : List Char) (l : Line) : Prop where
  span : l.span.Within text
  kind : l.kind.Within text

/-- Whether a message with a place stands in a text. -/
def Message.Within (text : List Char) (m : Message) : Prop :=
  ∀ r, m.range = some r → r.Within text

theorem Message.within_critical {text : List Char} {span : Span} (h : span.Within text)
    (code : Code) (message : String) : (critical code span message).Within text := by
  intro r hr
  obtain rfl := Option.some.inj hr
  exact h

namespace LineKind

variable {text line : List Char} {span : Span} {kind : LineKind}

theorem within_of_directive {cs : List Char} (h : directive span cs = .ok kind)
    (hline : span.Marks text line) (hcs : cs <:+ line) : kind.Within text := by
  simp only [directive] at h
  split at h
  · split at h
    · next d hd =>
      obtain rfl := Except.ok.inj h
      obtain ⟨hsuffix, hstart⟩ := suffix_of_aliasDefinition hd
      show Text.At text d.start d.expression
      rw [hstart]
      exact hline.part.suffix hline.stop ((hsuffix.trans (List.dropWhile_suffix _)).trans hcs)
    · cases h
  · split at h
    · next i hi =>
      obtain rfl := Except.ok.inj h
      show i.span.Within text
      rw [span_of_import hi]
      exact hline.within
    · cases h
  · cases h

/-- What is noted of a line that stands at `span` stands in the text. -/
theorem within_of_classify (h : classify span line = .ok kind) (hline : span.Marks text line) :
    kind.Within text := by
  unfold classify at h
  split at h
  · obtain rfl := Except.ok.inj h
    trivial
  · split at h
    · split at h
      · obtain rfl := Except.ok.inj h
        trivial
      · cases h
    · next cs _ => exact within_of_directive h hline (List.suffix_cons _ cs)
    · cases hread : InstructionText.read span.stop line with
      | ok i =>
        rw [hread] at h
        obtain rfl := Except.ok.inj h
        exact operands_marked_of_read hread hline.part hline.stop
      | error e =>
        rw [hread] at h
        cases h

end LineKind

/-! ## Sources -/

namespace Entry

variable {text : List Char} {e : Entry}

/-- A line with an entry holds more than blanks and a comment. -/
theorem ne_nil_of_read? {start : Nat} {line : List Char} (h : read? start line = some e) :
    Text.trim (stripComment line) ≠ [] := by
  rw [read?] at h
  split at h
  · cases h
  · next hcontent => exact fun hnil => hcontent (List.isEmpty_iff.mpr hnil)

/-- The entry of a line is about the line without its comment and the blanks around it. -/
theorem marks_of_read? {start : Nat} {line : List Char} (h : read? start line = some e)
    (hat : Text.At text start line) :
    e.span.Marks text (Text.trim (stripComment line)) ∧
      e.outcome = LineKind.classify e.span (Text.trim (stripComment line)) := by
  have hcode : Text.At text start (stripComment line) :=
    hat.trans (Text.at_front (uncommented_isPrefix _ line))
  rw [read?] at h
  split at h
  · cases h
  · obtain rfl := Option.some.inj h
    exact ⟨⟨hcode.trim, rfl⟩, rfl⟩

/-- An entry is about the characters at its place. -/
theorem marks_of_mem_readAll {start : Nat} {lines : List (List Char)}
    (hat : Text.At text start lines.flatten) (he : e ∈ readAll start lines) :
    ∃ content, e.span.Marks text content ∧ e.outcome = LineKind.classify e.span content := by
  induction lines generalizing start with
  | nil => cases he
  | cons line lines ih =>
    rw [List.flatten_cons] at hat
    rcases List.mem_append.mp he with hfirst | hrest
    · exact ⟨_, marks_of_read? (Option.mem_toList.mp hfirst) hat.left⟩
    · exact ih hat.right hrest

theorem marks_of_mem (he : e ∈ readAll 0 (Text.lines text)) :
    ∃ content, e.span.Marks text content ∧ e.outcome = LineKind.classify e.span content := by
  refine marks_of_mem_readAll ?_ he
  rw [Text.flatten_lines]
  exact Text.at_self text

end Entry

namespace Source

/-- A line of a source is the entry of a line of its text. -/
theorem exists_entry_of_parse {text : List Char} {l : Line} (h : l ∈ (parse text).1.lines) :
    ∃ e ∈ Entry.readAll 0 (Text.lines text), e.span = l.span ∧ e.outcome = .ok l.kind := by
  have hmem : (l.span, l.kind) ∈ (Entry.readAll 0 (Text.lines text)).filterMap Entry.kind? := by
    rw [← map_number 0 (List.filterMap Entry.kind? _)]
    exact List.mem_map.mpr ⟨l, h, rfl⟩
  obtain ⟨e, he, hkind⟩ := List.mem_filterMap.mp hmem
  rw [Entry.kind?] at hkind
  split at hkind
  · next kind hok =>
    obtain ⟨hspan, rfl⟩ := Prod.mk.inj (Option.some.inj hkind)
    exact ⟨e, he, hspan, hok⟩
  · cases hkind

/-- The lines of a source stand in its text. -/
theorem within_of_parse {text : List Char} {l : Line} (h : l ∈ (parse text).1.lines) :
    l.Within text := by
  obtain ⟨e, he, hspan, hok⟩ := exists_entry_of_parse h
  obtain ⟨content, hmarks, houtcome⟩ := Entry.marks_of_mem he
  rw [hok] at houtcome
  exact ⟨hspan ▸ hmarks.within, LineKind.within_of_classify houtcome.symm hmarks⟩

/-- The errors in reading a text stand in it. -/
theorem errors_within {text : List Char} {m : Message}
    (h : m ∈ (Entry.readAll 0 (Text.lines text)).filterMap Entry.error?) : m.Within text := by
  obtain ⟨e, he, herror⟩ := List.mem_filterMap.mp h
  obtain ⟨content, hmarks, -⟩ := Entry.marks_of_mem he
  rw [Entry.error?] at herror
  split at herror
  · cases herror
  · obtain rfl := Option.some.inj herror
    exact Message.within_critical hmarks.within _ _

end Source

end LinkAsm
