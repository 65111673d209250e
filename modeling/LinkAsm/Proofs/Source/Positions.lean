import Mathlib
import LinkAsm.Proofs.Source.Places

/-!
# Recorded positions

A line is read from its own characters, so where it stands only moves the places that are noted in
it (`LineKind.classify_shift`).  With this a line can be looked at as a text of its own: what is
noted in it lies inside of it.  Lines stand one behind the other and none of those that are read is
empty, so the places of different lines have no byte in common.

* `Entry.bounds_of_mem_readAll`, `Entry.pairwise_readAll`: the entries of a text are in order.
* `Source.preceding_of_parse`: each line knows how many instructions stand before it.
* `Source.positions_recorded`: what the positions of a source say about its text.
-/

namespace LinkAsm

/-! ## Moving a line -/

/-- The operand as it stands `n` bytes to the right. -/
def OperandText.shift (o : OperandText) (n : Nat) : OperandText := { o with span := o.span.shift n }

/-- What a line is, as it stands `n` bytes to the right. -/
def LineKind.shift (n : Nat) : LineKind → LineKind
  | .label name => .label name
  | .block name => .block name
  | .aliasDefinition a => .aliasDefinition { a with start := a.start + n }
  | .importing i => .importing { i with span := i.span.shift n }
  | .instruction i => .instruction { i with operands := i.operands.map (·.shift n) }

theorem operandsOf_add (start n : Nat) (pieces : List (List Char)) :
    operandsOf (start + n) pieces = (operandsOf start pieces).map (List.map (·.shift n)) := by
  induction pieces generalizing start with
  | nil => rfl
  | cons piece pieces ih =>
    simp only [operandsOf]
    split
    · rfl
    · rw [show start + n + Text.byteLength piece + 1 = start + Text.byteLength piece + 1 + n by omega,
        ih, Option.map_map, Option.map_map]
      congr 1
      funext operands
      simp only [Function.comp, List.map_cons, OperandText.shift, Span.shift]
      congr 3 <;> omega

theorem InstructionText.read_add (n : Nat) {stop : Nat} {line : List Char}
    (h : Text.byteLength line ≤ stop) :
    InstructionText.read (stop + n) line = (InstructionText.read stop line).map
      fun i => { i with operands := i.operands.map (·.shift n) } := by
  cases line with
  | nil => rfl
  | cons c cs =>
    simp only [InstructionText.read]
    split
    · rfl
    · split
      · rfl
      · cases htext : afterBlanks? (cs.dropWhile isMnemonicChar) with
        | none => rfl
        | some text =>
          have hle : Text.byteLength text ≤ stop := by
            have hsuffix := (suffix_of_afterBlanks? htext).trans (List.dropWhile_suffix _)
            have := Text.byteLength_le_of_suffix (hsuffix.trans (List.suffix_cons c cs))
            omega
          dsimp only
          rw [show stop + n - Text.byteLength text = stop - Text.byteLength text + n by omega,
            operandsOf_add]
          cases operandsOf (stop - Text.byteLength text) (splitCommas text) with
          | none => rfl
          | some operands => rfl

theorem AliasDefinition.read?_add (n : Nat) {stop : Nat} {text : List Char}
    (h : Text.byteLength text ≤ stop) :
    AliasDefinition.read? (stop + n) text =
      (AliasDefinition.read? stop text).map fun a => { a with start := a.start + n } := by
  have hread : AliasDefinition.read? (stop + n) text =
      (AliasDefinition.read? stop text).map fun a =>
        { a with start := stop + n - Text.byteLength a.expression } := by
    simp only [AliasDefinition.read?, Option.bind_eq_bind, Option.map_bind, Function.comp_def,
      apply_ite (Option.map _), Option.map_none, Option.map_some]
  rw [hread]
  refine Option.map_congr ?_
  intro a ha
  obtain ⟨hsuffix, hstart⟩ := suffix_of_aliasDefinition ha
  have hle := Text.byteLength_le_of_suffix hsuffix
  rw [hstart, show stop + n - Text.byteLength a.expression =
    stop - Text.byteLength a.expression + n by omega]

theorem Import.read?_shift (span : Span) (n : Nat) (text : List Char) :
    Import.read? (span.shift n) text =
      (Import.read? span text).map fun i => { i with span := i.span.shift n } := by
  unfold Import.read?
  simp only [Option.bind_eq_bind, Option.map_bind, Function.comp_def]
  congr 1
  funext inner
  congr 1
  funext found
  split
  all_goals
    simp only [Option.map_bind, Function.comp_def]
    congr 1
    funext parts
    split
    · rfl
    · split <;> rfl

namespace LineKind

theorem directive_shift (n : Nat) {span : Span} {text : List Char}
    (h : Text.byteLength text ≤ span.stop) :
    directive (span.shift n) text = (directive span text).map (shift n) := by
  have hrest := Text.byteLength_le_of_suffix
    (List.dropWhile_suffix (fun c => c.isAlpha || c == '_') (l := text))
  simp only [directive]
  split
  · rw [show (span.shift n).stop = span.stop + n from rfl,
      AliasDefinition.read?_add n (Nat.le_trans hrest h)]
    cases AliasDefinition.read? span.stop (text.dropWhile fun c => c.isAlpha || c == '_') with
    | none => rfl
    | some a => rfl
  · rw [Import.read?_shift]
    cases Import.read? span (text.dropWhile fun c => c.isAlpha || c == '_') with
    | none => rfl
    | some i => rfl
  · rfl

/-- A line that stands farther to the right is the same, and so are the places in it but for the
distance. -/
theorem classify_shift (n : Nat) {span : Span} {line : List Char}
    (h : Text.byteLength line ≤ span.stop) :
    classify (span.shift n) line = (classify span line).map (shift n) := by
  unfold classify
  split
  · rfl
  · split
    · split <;> rfl
    · next cs _ =>
      rw [Text.byteLength_cons] at h
      exact directive_shift n (by omega)
    · rw [show (span.shift n).stop = span.stop + n from rfl, InstructionText.read_add n h]
      cases InstructionText.read span.stop line with
      | ok i => rfl
      | error e => rfl

end LineKind

namespace Entry

/-- The entry of a line that stands `n` bytes to the right. -/
def shift (e : Entry) (n : Nat) : Entry := ⟨e.span.shift n, e.outcome.map (LineKind.shift n)⟩

theorem read?_add (start n : Nat) (line : List Char) :
    read? (start + n) line = (read? start line).map (·.shift n) := by
  have hspan (k length : Nat) : (⟨start + n + k, start + n + k + length⟩ : Span) =
      (⟨start + k, start + k + length⟩ : Span).shift n := by
    simp only [Span.shift, Span.mk.injEq]
    omega
  simp only [read?, hspan]
  split
  · rfl
  · rw [LineKind.classify_shift n (Nat.le_add_left _ _)]
    rfl

theorem readAll_add (start n : Nat) (lines : List (List Char)) :
    readAll (start + n) lines = (readAll start lines).map (·.shift n) := by
  induction lines generalizing start with
  | nil => rfl
  | cons line lines ih =>
    simp only [readAll]
    rw [read?_add, show start + n + Text.byteLength line = start + Text.byteLength line + n by omega,
      ih, List.map_append, Option.toList_map]

end Entry

/-! ## Lines in order -/

namespace Entry

variable {e : Entry} {start : Nat}

/-- The entry of a line stands in the line and is not empty. -/
theorem bounds_of_read? {line : List Char} (h : read? start line = some e) :
    start ≤ e.span.start ∧ e.span.start < e.span.stop ∧
      e.span.stop ≤ start + Text.byteLength line := by
  have hzero : (read? 0 line).map (·.shift start) = some e := by
    rw [← read?_add, Nat.zero_add, h]
  obtain ⟨first, hfirst, rfl⟩ := Option.map_eq_some_iff.mp hzero
  obtain ⟨hmarks, -⟩ := marks_of_read? hfirst (Text.at_self line)
  have hpos := Text.byteLength_pos (ne_nil_of_read? hfirst)
  have hstop := hmarks.stop
  have hle := hmarks.within.stop.le
  simp only [shift, Span.shift]
  omega

theorem bounds_of_mem_readAll {lines : List (List Char)} (h : e ∈ readAll start lines) :
    start ≤ e.span.start ∧ e.span.start < e.span.stop ∧
      e.span.stop ≤ start + Text.byteLength lines.flatten := by
  induction lines generalizing start with
  | nil => cases h
  | cons line lines ih =>
    rw [List.flatten_cons, Text.byteLength_append]
    rcases List.mem_append.mp h with hfirst | hrest
    · have := bounds_of_read? (Option.mem_toList.mp hfirst)
      omega
    · have := ih hrest
      omega

/-- Lines are read one behind the other. -/
theorem pairwise_readAll (start : Nat) (lines : List (List Char)) :
    (readAll start lines).Pairwise fun d e => d.span.stop ≤ e.span.start := by
  induction lines generalizing start with
  | nil => exact List.Pairwise.nil
  | cons line lines ih =>
    refine List.pairwise_append.mpr ⟨?_, ih _, ?_⟩
    · cases read? start line with
      | none => exact List.Pairwise.nil
      | some e => exact List.pairwise_singleton _ _
    · intro d hd e he
      have hfirst := bounds_of_read? (Option.mem_toList.mp hd)
      have hrest := bounds_of_mem_readAll he
      omega

theorem span_of_kind? {span : Span} {kind : LineKind} (h : e.kind? = some (span, kind)) :
    span = e.span := by
  unfold kind? at h
  split at h
  · exact (congrArg Prod.fst (Option.some.inj h)).symm
  · cases h

end Entry

/-! ## Counting instructions -/

/-- Whether a line is an instruction. -/
def Line.isInstruction (l : Line) : Bool :=
  match l.kind with
  | .instruction _ => true
  | _ => false

theorem Line.instructions_kind (l : Line) :
    l.kind.instructions = if l.isInstruction then 1 else 0 := by
  unfold isInstruction
  cases l.kind <;> rfl

namespace Source

theorem preceding_of_number {n : Nat} {kinds : List (Span × LineKind)} {before after : List Line}
    {l : Line} (h : number n kinds = before ++ l :: after) :
    l.preceding = n + before.countP Line.isInstruction := by
  induction before generalizing n kinds with
  | nil =>
    cases kinds with
    | nil => cases h
    | cons k rest =>
      obtain ⟨rfl, -⟩ := List.cons.inj h
      rfl
  | cons first before ih =>
    cases kinds with
    | nil => cases h
    | cons k rest =>
      obtain ⟨rfl, hrest⟩ := List.cons.inj h
      rw [ih hrest, List.countP_cons, ← Line.instructions_kind]
      dsimp only
      omega

/-- Each line knows how many instructions stand before it. -/
theorem preceding_of_parse {text : List Char} {before after : List Line} {l : Line}
    (h : (parse text).1.lines = before ++ l :: after) :
    l.preceding = before.countP Line.isInstruction := by
  rw [preceding_of_number h, Nat.zero_add]

theorem countP_number (n : Nat) (kinds : List (Span × LineKind)) :
    (number n kinds).countP Line.isInstruction = (ofKinds kinds).instructionCount := by
  induction kinds generalizing n with
  | nil => rfl
  | cons k rest ih =>
    rw [number, List.countP_cons, ih, ← Line.instructions_kind]
    exact Nat.add_comm _ _

/-- Instructions are numbered one by one. -/
theorem map_preceding_number (n : Nat) (kinds : List (Span × LineKind)) :
    ((number n kinds).filter Line.isInstruction).map (·.preceding) =
      List.range' n (ofKinds kinds).instructionCount := by
  induction kinds generalizing n with
  | nil => rfl
  | cons k rest ih =>
    obtain ⟨span, kind⟩ := k
    have hcount : (ofKinds ((span, kind) :: rest)).instructionCount =
        kind.instructions + (ofKinds rest).instructionCount := rfl
    rw [number, hcount]
    cases kind with
    | instruction i =>
      rw [List.filter_cons_of_pos rfl, List.map_cons, ih, LineKind.instructions, Nat.add_comm 1,
        List.range'_succ]
    | label | block | aliasDefinition | importing =>
      show _ = List.range' n (0 + (ofKinds rest).instructionCount)
      rw [List.filter_cons_of_neg Bool.false_ne_true, Nat.zero_add]
      exact ih n

end Source

/-! ## What positions show -/

/-- Whether the places that are noted in a line show what they are the places of, inside of the
line. -/
structure Line.PointsInto (text : List Char) (l : Line) : Prop where
  operands : ∀ i, l.kind = .instruction i → ∀ o ∈ i.operands,
    o.span.extract? text = some o.text ∧ l.span.start ≤ o.span.start ∧ o.span.stop ≤ l.span.stop
  expression : ∀ a, l.kind = .aliasDefinition a →
    (∃ rest, Text.dropBytes text a.start = some rest ∧ a.expression <+: rest) ∧
      l.span.start ≤ a.start ∧ a.start + Text.byteLength a.expression ≤ l.span.stop

/-- A line that stands in a text is read as if it stood by itself, but for its place. -/
theorem LineKind.exists_alone {text content : List Char} {span : Span} {kind : LineKind}
    (h : classify span content = .ok kind) (hmarks : span.Marks text content) :
    ∃ alone : LineKind, alone.Within content ∧ alone.shift span.start = kind := by
  rw [hmarks.eq_shift, classify_shift _ (Nat.le_refl _)] at h
  cases halone : classify ⟨0, Text.byteLength content⟩ content with
  | error e =>
    rw [halone] at h
    cases h
  | ok alone =>
    rw [halone] at h
    refine ⟨alone, within_of_classify halone ?_, Except.ok.inj h⟩
    exact ⟨Text.at_self content, (Nat.zero_add _).symm⟩

theorem Line.pointsInto_of_classify {text content : List Char} {l : Line}
    (h : LineKind.classify l.span content = .ok l.kind) (hmarks : l.span.Marks text content) :
    l.PointsInto text := by
  obtain ⟨alone, hwithin, hkind⟩ := LineKind.exists_alone h hmarks
  have hstop := hmarks.stop
  refine ⟨?_, ?_⟩
  · intro i hi o ho
    rw [← hkind] at hi
    cases alone with
    | instruction written =>
      obtain rfl := LineKind.instruction.inj hi
      obtain ⟨o, hmem, rfl⟩ := List.mem_map.mp ho
      have hoperand : o.span.Marks content o.text := hwithin o hmem
      have hle := hoperand.within.stop.le
      refine ⟨(hoperand.shift hmarks.part).extract?, ?_, ?_⟩
      · exact Nat.le_add_left _ _
      · show o.span.stop + l.span.start ≤ l.span.stop
        omega
    | label | block | aliasDefinition | importing => cases hi
  · intro a ha
    rw [← hkind] at ha
    cases alone with
    | aliasDefinition written =>
      obtain rfl := LineKind.aliasDefinition.inj ha
      have hexpression : Text.At content written.start written.expression := hwithin
      have hle := hexpression.within.stop.le
      have hat := hmarks.part.trans hexpression
      refine ⟨?_, Nat.le_add_left _ _, ?_⟩
      · rw [Nat.add_comm] at hat
        exact hat.exists_dropBytes
      · show written.start + l.span.start + Text.byteLength written.expression ≤ l.span.stop
        dsimp only at hle
        omega
    | label | block | importing | instruction => cases ha

namespace Source

theorem pointsInto_of_parse {text : List Char} {l : Line} (h : l ∈ (parse text).1.lines) :
    l.PointsInto text := by
  obtain ⟨e, he, hspan, hok⟩ := exists_entry_of_parse h
  obtain ⟨content, hmarks, houtcome⟩ := Entry.marks_of_mem he
  rw [hspan] at hmarks houtcome
  exact Line.pointsInto_of_classify (houtcome.symm.trans hok) hmarks

theorem nonempty_of_parse {text : List Char} {l : Line} (h : l ∈ (parse text).1.lines) :
    l.span.start < l.span.stop := by
  obtain ⟨e, he, hspan, -⟩ := exists_entry_of_parse h
  rw [← hspan]
  exact (Entry.bounds_of_mem_readAll he).2.1

/-- The lines of a source stand one behind the other. -/
theorem pairwise_of_parse (text : List Char) :
    (parse text).1.lines.Pairwise fun l m => l.span.stop ≤ m.span.start := by
  have hkinds : ((Entry.readAll 0 (Text.lines text)).filterMap Entry.kind?).Pairwise
      fun k m => k.1.stop ≤ m.1.start := by
    refine (Entry.pairwise_readAll 0 (Text.lines text)).filterMap _ ?_
    intro d e hle k hk m hm
    rwa [Entry.span_of_kind? hk, Entry.span_of_kind? hm]
  rw [← map_number 0 (List.filterMap Entry.kind? _)] at hkinds
  exact List.pairwise_map.mp hkinds

/-- **Recorded positions point at the text they name.**  The lines of a source are not empty and stand
one behind the other.  The text at the place of an operand is the operand, the text from the place of
an expression on begins with the expression, and both places lie in their line.  Each line holds the
number of instructions before it, and the source the number of all. -/
theorem positions_recorded (text : List Char) :
    (∀ l ∈ (parse text).1.lines, l.span.start < l.span.stop ∧ l.PointsInto text) ∧
      ((parse text).1.lines.Pairwise fun l m =>
        l.span.start < m.span.start ∧ l.span.stop ≤ m.span.start) ∧
      (∀ before l after, (parse text).1.lines = before ++ l :: after →
        l.preceding = before.countP Line.isInstruction) ∧
      (parse text).1.instructionCount = (parse text).1.lines.countP Line.isInstruction := by
  refine ⟨?_, ?_, ?_, ?_⟩
  · intro l hl
    exact ⟨nonempty_of_parse hl, pointsInto_of_parse hl⟩
  · refine (pairwise_of_parse text).imp_of_mem ?_
    intro l m hl _ hle
    have hnonempty := nonempty_of_parse hl
    omega
  · intro before l after hlines
    exact preceding_of_parse hlines
  · exact (countP_number 0 _).symm

/-- A label with a comment behind it, an instruction and an alias, with blanks of two and three
bytes and a semicolon in quotes. -/
def wideBlanks : List Char := "x: ;é\n\u00A0ldc 1 ,\u2003\"é;\" \n?alias k =\u00A0$x".toList

theorem positions_recorded_wideBlanks :
    (parse wideBlanks).1.lines =
        [⟨.label "x", ⟨0, 2⟩, 0⟩,
          ⟨.instruction ⟨"ldc", [⟨['1'], ⟨13, 14⟩⟩, ⟨['"', 'é', ';', '"'], ⟨19, 24⟩⟩]⟩, ⟨9, 24⟩, 0⟩,
          ⟨.aliasDefinition ⟨"k", ['$', 'x'], 38⟩, ⟨26, 40⟩, 1⟩] ∧
      Span.extract? ⟨19, 24⟩ wideBlanks = some ['"', 'é', ';', '"'] ∧
      (∃ rest, Text.dropBytes wideBlanks 38 = some rest ∧ ['$', 'x'] <+: rest) ∧
      (parse wideBlanks).1.instructionCount = 1 := by
  have hlines : (parse wideBlanks).1.lines =
      [⟨.label "x", ⟨0, 2⟩, 0⟩,
        ⟨.instruction ⟨"ldc", [⟨['1'], ⟨13, 14⟩⟩, ⟨['"', 'é', ';', '"'], ⟨19, 24⟩⟩]⟩, ⟨9, 24⟩, 0⟩,
        ⟨.aliasDefinition ⟨"k", ['$', 'x'], 38⟩, ⟨26, 40⟩, 1⟩] := by cbv
  obtain ⟨hpoints, -, -, hcount⟩ := positions_recorded wideBlanks
  rw [hlines] at hpoints hcount
  refine ⟨hlines, ?_, ?_, hcount⟩
  · exact ((hpoints _ (.tail _ (.head _))).2.operands _ rfl _ (.tail _ (.head _))).1
  · exact ((hpoints _ (.tail _ (.tail _ (.head _)))).2.expression _ rfl).1

end Source

end LinkAsm
