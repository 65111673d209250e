import Mathlib
import LinkAsm.Proofs.Diagnostic.Merging
import LinkAsm.Proofs.Pass.Labels
import LinkAsm.Proofs.Source.Positions

/-!
# The first definition of a name counts

Labels, aliases and imported symbols share their names, embedded blocks have names of their own.  In
every pass, whatever it can resolve, the first line with a name makes its definition; the pass adds
values, and nothing else.  A later line with the name is rejected.  It leaves a failure at its place:
the log is offered one, and if it does not record it, it has another there.  Logs grow at their end,
so the failure is there when the pass is done.

* `Definitions.rejections_ofLines`: rejected lines have a failure at their place.
* `Site.prefix_log_extract`: a pass keeps the messages about definitions.
* `Site.first_definition_wins`: what a pass has of each name, and its instructions.
-/

namespace LinkAsm

/-! ## Rejected lines -/

theorem Log.exists_failure_of_covers {log : Log} {span : Span} (h : log.covers span = true) :
    ∃ m ∈ log.messages, m.isFailure = true ∧
      ∃ range, m.range = some range ∧ range.overlaps span = true := by
  obtain ⟨m, hm, hcovers⟩ := List.any_eq_true.mp h
  rw [Bool.and_eq_true] at hcovers
  obtain ⟨hfailure, hrange⟩ := hcovers
  cases hr : m.range with
  | none =>
    rw [hr] at hrange
    cases hrange
  | some range =>
    rw [hr] at hrange
    exact ⟨m, hm, hfailure, range, hr, hrange⟩

/-- Whether a line defines a name that a line before it defines, as a symbol or as an embedded
block. -/
def Line.Redefines (before : List Line) (l : Line) : Prop :=
  ∃ name, (l.symbolName? = some name ∧ ∃ first ∈ before, first.symbolName? = some name) ∨
    (l.blockName? = some name ∧ ∃ first ∈ before, first.blockName? = some name)

namespace Definitions

variable {s : Site} {d : Definitions} {l : Line} {name : String}

/-- A line adds messages at the end of the log. -/
theorem prefix_addLine (s : Site) (d : Definitions) (l : Line) :
    d.log.messages <+: (d.addLine s l).log.messages := by
  unfold addLine
  cases l.kind with
  | label name =>
    have hblock := d.log.prefix_addAll (blockValue s l).2
    simp only [addLabel]
    split
    · exact hblock.trans (Log.prefix_add _ _)
    · exact hblock
  | block name =>
    simp only [addBlock]
    split
    · exact d.log.prefix_add _
    · exact d.log.prefix_addAll _
  | aliasDefinition a =>
    simp only [addAlias]
    split
    · exact d.log.prefix_add _
    · split
      · exact List.prefix_rfl
      · exact d.log.prefix_add _
  | importing i =>
    simp only [addImport]
    split
    · split
      · exact d.log.prefix_add _
      · exact List.prefix_rfl
    · exact List.prefix_rfl
  | instruction i => exact List.prefix_rfl

/-- A symbol that is defined already leaves a failure at its line. -/
theorem covers_of_defined (hspan : l.span.start ≤ l.span.stop) (hname : l.symbolName? = some name)
    (hd : d.symbols.defines name = true) : (d.addLine s l).log.covers l.span = true := by
  have hadd (log : Log) : (log.add (duplicateSymbol name l.span)).covers l.span = true :=
    log.covers_add rfl rfl (Span.overlaps_self hspan)
  unfold Line.symbolName? at hname
  unfold addLine
  cases hk : l.kind with
  | label key =>
    rw [hk] at hname
    obtain rfl := Option.some.inj hname
    simp only [addLabel, hd, if_true]
    exact hadd _
  | aliasDefinition a =>
    rw [hk] at hname
    obtain rfl := Option.some.inj hname
    simp only [addAlias, hd, if_true]
    exact hadd _
  | importing i =>
    rw [hk] at hname
    obtain ⟨symbol, hsymbol, hlocal⟩ := Option.bind_eq_some_iff.mp hname
    simp only [addImport, hsymbol, hlocal, hd, if_true]
    exact hadd _
  | block key =>
    rw [hk] at hname
    cases hname
  | instruction i =>
    rw [hk] at hname
    cases hname

/-- An embedded block that is defined already leaves a failure at its line. -/
theorem covers_of_contained (hspan : l.span.start ≤ l.span.stop) (hname : l.blockName? = some name)
    (hd : d.blocks.contains name = true) : (d.addLine s l).log.covers l.span = true := by
  simp only [addLine, Line.kind_of_blockName? hname, addBlock, hd, if_true]
  exact d.log.covers_add rfl rfl (Span.overlaps_self hspan)

/-- Whether each line that defines a name again has a failure at its place. -/
def Rejections (lines : List Line) (d : Definitions) : Prop :=
  ∀ before l after, lines = before ++ l :: after → l.Redefines before →
    l.span.start ≤ l.span.stop → d.log.covers l.span = true

theorem Rejections.step {lines : List Line} (ht : Traced s lines d) (h : Rejections lines d)
    (l : Line) : Rejections (lines ++ [l]) (d.addLine s l) := by
  intro before line after hsplit hredefines hspan
  rcases List.eq_nil_or_concat after with rfl | ⟨init, last, rfl⟩
  · -- the new line: the lines before it have defined the name
    obtain ⟨rfl, hlast⟩ := List.append_inj' hsplit rfl
    obtain rfl := (List.cons.inj hlast).1
    obtain ⟨name, ⟨hname, hfirst⟩ | ⟨hname, hfirst⟩⟩ := hredefines
    · exact covers_of_defined hspan hname ((ht.defines_iff name).mpr hfirst)
    · refine covers_of_contained hspan hname ?_
      by_contra hd
      obtain ⟨first, hmem, hsame⟩ := hfirst
      exact ht.contains_eq_false_iff.mp (Bool.eq_false_iff.mpr hd) first hmem hsame
  · -- a line before it, which has its failure already
    rw [List.concat_eq_append, ← List.cons_append, ← List.append_assoc] at hsplit
    have hlines := (List.append_inj' hsplit rfl).1
    exact Log.covers_mono (prefix_addLine s d l) (h before line init hlines hredefines hspan)

theorem rejections_ofLines (s : Site) : Rejections s.source.lines (ofLines s) := by
  refine (ofLines_rec (P := fun lines d => Traced s lines d ∧ Rejections lines d) ?_ ?_).2
  · refine ⟨traced_empty s, ?_⟩
    intro before l after hnil
    cases before <;> cases hnil
  · intro lines line d h
    exact ⟨h.1.step (adds_addLine s d line), Rejections.step h.1 h.2 line⟩

end Definitions

namespace Site

theorem prefix_log_aliases (s : Site) :
    (Definitions.ofLines s).log.messages <+: s.aliases.2.messages := by
  have hdone : (Definitions.ofLines s).log.messages <+: s.doneList.log.messages := by
    refine WorkList.invariant_run
      (P := fun w => (Definitions.ofLines s).log.messages <+: w.log.messages) ?_ List.prefix_rfl
    intro w w' hstep hprefix
    cases hstep with
    | park => exact hprefix
    | finish => exact hprefix.trans (Log.prefix_addAll _ _)
  exact hdone.trans (Log.prefix_addAll _ _)

/-- A pass keeps the messages about definitions. -/
theorem prefix_log_extract (s : Site) (policy : OversizedPolicy) :
    (Definitions.ofLines s).log.messages <+: (s.extract policy).log.messages :=
  s.prefix_log_aliases.trans (Log.prefix_addAll _ _)

end Site

/-! ## Definitions of the table -/

/-- Whether a symbol is what a line defines, its value apart. -/
structure Symbol.DefinedBy (sym : Symbol) (l : Line) : Prop where
  name : l.symbolName? = some sym.name
  kind : sym.kind = .label ↔ ∃ name, l.kind = .label name
  span : sym.span = l.span
  exported : sym.exported = false ↔ ∃ i, l.kind = .importing i

theorem Symbol.definedBy_of_symbolOf? {s : Site} {l : Line} {sym : Symbol}
    (h : Definitions.symbolOf? s l = some sym) : sym.DefinedBy l := by
  have hname := Definitions.symbolName?_of_symbolOf? h
  unfold Definitions.symbolOf? at h
  split at h
  · next key hk =>
    obtain rfl := Option.some.inj h
    exact ⟨hname, by simp [hk], rfl, by simp [hk]⟩
  · next a hk =>
    obtain rfl := Option.some.inj h
    exact ⟨hname, by simp [hk], rfl, by simp [hk]⟩
  · next i hk =>
    obtain ⟨symbol, -, hlocal⟩ := Option.bind_eq_some_iff.mp h
    obtain ⟨key, -, rfl⟩ := Option.map_eq_some_iff.mp hlocal
    exact ⟨hname, by simp [hk], rfl, by simp [hk]⟩
  · cases h
  · cases h

/-- The value that an alias gets changes nothing else. -/
theorem Symbol.DefinedBy.given {sym : Symbol} {l : Line} (h : sym.DefinedBy l)
    (v : Option AliasValue) : (sym.given v).DefinedBy l := by
  cases v with
  | none => exact h
  | some v => exact ⟨h.name, h.kind, h.span, h.exported⟩

/-- The address of the place that a line marks, if the pass knows it. -/
def Site.placeOf (s : Site) (l : Line) : Option Address :=
  (s.instructionAddress? l.preceding).bind Except.toOption

theorem Site.addressIn_blockValue (s : Site) (l : Line) :
    Definitions.addressIn (Definitions.blockValue s l).1 = s.placeOf l := by
  unfold Definitions.blockValue placeOf
  cases s.instructionAddress? l.preceding with
  | none => rfl
  | some result =>
    cases result with
    | ok a => rfl
    | error e => rfl

/-! ## Instructions -/

/-- Whether an instruction of a pass is that of a line, with as many operands. -/
def Instruction.ResolvedFrom (ins : Instruction) (l : Line) : Prop :=
  ∃ i, l.kind = .instruction i ∧ ins.mnemonic = i.mnemonic ∧
    ins.operands.length = i.operands.length ∧ ins.span = l.span ∧ ins.position = l.preceding

namespace Site

theorem exists_resolveLine? (s : Site) (policy : OversizedPolicy) (values : NameMap AliasValue)
    {l : Line} {i : InstructionText} (hk : l.kind = .instruction i) :
    ∃ resolved, s.resolveLine? policy values l = some resolved ∧ resolved.1.ResolvedFrom l := by
  simp only [resolveLine?, hk]
  refine ⟨_, rfl, i, hk, rfl, ?_, rfl, rfl⟩
  rw [List.length_map, List.length_map]

/-- There is one instruction for each line that is one. -/
theorem forall₂_resolvedFrom (s : Site) (policy : OversizedPolicy) (values : NameMap AliasValue)
    (lines : List Line) :
    List.Forall₂ Instruction.ResolvedFrom
      ((lines.filterMap (s.resolveLine? policy values)).map (·.1))
      (lines.filter Line.isInstruction) := by
  induction lines with
  | nil => exact List.Forall₂.nil
  | cons l lines ih =>
    cases hk : l.kind with
    | instruction i =>
      obtain ⟨resolved, hresolve, hfrom⟩ := s.exists_resolveLine? policy values hk
      have hline : l.isInstruction = true := by rw [Line.isInstruction, hk]
      rw [List.filterMap_cons_some hresolve, List.filter_cons_of_pos hline, List.map_cons]
      exact List.Forall₂.cons hfrom ih
    | label | block | aliasDefinition | importing =>
      have hresolve : s.resolveLine? policy values l = none := by rw [resolveLine?, hk]
      have hline : ¬l.isInstruction = true := by
        rw [Line.isInstruction, hk]
        exact Bool.false_ne_true
      rwa [List.filterMap_cons_none hresolve, List.filter_cons_of_neg hline]

theorem map_position_of_forall₂ {instructions : List Instruction} {lines : List Line}
    (h : List.Forall₂ Instruction.ResolvedFrom instructions lines) :
    instructions.map (·.position) = lines.map (·.preceding) := by
  induction h with
  | nil => rfl
  | cons hfirst _ ih =>
    obtain ⟨_, _, _, _, _, hposition⟩ := hfirst
    rw [List.map_cons, List.map_cons, hposition, ih]

/-! ## Passes -/

/-- The object that a text is, in a pass. -/
def ofText (context : Context) (object : String) (text : List Char) : Site :=
  ⟨context, object, (Source.parse text).1⟩

end Site

open Definitions in
/-- Whether a pass has of each name what the first line with the name defines, reports each later
line with it, and has the instructions of the object. -/
structure PassResult.FirstWins (r : PassResult) (s : Site) : Prop where
  names : ∀ name, name ∈ r.symbols.symbols.keys ↔ ∃ l ∈ s.source.lines, l.symbolName? = some name
  symbols : ∀ name sym, r.symbols.find? name = some sym →
    ∃ l, FirstDefinition s.source.lines l name ∧ sym.DefinedBy l
  labels : ∀ name place, r.labels.find? name = some place ↔
    ∃ l, FirstDefinition s.source.lines l name ∧ l.kind = .label name ∧ s.placeOf l = place
  blocks : ∀ name place, r.blocks.find? name = some place ↔
    ∃ l, FirstNamed Line.blockName? s.source.lines l name ∧ s.placeOf l = place
  rejected : ∀ before l after, s.source.lines = before ++ l :: after → l.Redefines before →
    ∃ m ∈ r.log.messages, m.isFailure = true ∧
      ∃ range, m.range = some range ∧ range.overlaps l.span = true
  instructions : List.Forall₂ Instruction.ResolvedFrom r.instructions
    (s.source.lines.filter Line.isInstruction)
  positions : r.instructions.map (·.position) = List.range r.instructions.length

namespace Site

open Definitions

/-- Values add no names. -/
theorem mem_keys_symbols_extract (s : Site) (policy : OversizedPolicy) (name : String) :
    name ∈ (s.extract policy).symbols.symbols.keys ↔ (ofLines s).symbols.defines name = true := by
  rw [← NameMap.contains_iff_mem_keys]
  show ((s.extract policy).symbols.find? name).isSome = true ↔ _
  rw [find?_symbols_extract, Option.isSome_map]
  exact Iff.rfl

/-- The instructions of an object stand at the positions 0, 1, 2, and so on. -/
theorem map_position_instructions (context : Context) (object : String) (text : List Char)
    (policy : OversizedPolicy) :
    ((ofText context object text).extract policy).instructions.map (·.position) =
      List.range ((ofText context object text).extract policy).instructions.length := by
  have hresolved := forall₂_resolvedFrom (ofText context object text) policy
    (ofText context object text).aliases.1 (Source.parse text).1.lines
  have hpositions := (map_position_of_forall₂ hresolved).trans (Source.map_preceding_number 0 _)
  have hlength := congrArg List.length hpositions
  rw [List.length_map, List.length_range'] at hlength
  rw [← hlength, ← List.range_eq_range'] at hpositions
  exact hpositions

/-- **The first definition of a name wins, in every pass.**  The names of a pass are those of its lines
with labels, aliases and imported symbols; kind, place and export of a symbol are those of the first
line with its name, the labels are the names that a label defines first, and embedded blocks have
their own first lines.  A line that defines a name again has a failure at its place.  There is one
instruction for each line that is one, in order and numbered from zero. -/
theorem first_definition_wins (context : Context) (object : String) (text : List Char)
    (policy : OversizedPolicy) :
    ((ofText context object text).extract policy).FirstWins (ofText context object text) := by
  have htraced := traced_ofLines (ofText context object text)
  refine ⟨?_, ?_, ?_, ?_, ?_, ?_, ?_⟩
  · intro name
    rw [← htraced.defines_iff, mem_keys_symbols_extract]
  · intro name sym hsym
    rw [find?_symbols_extract] at hsym
    obtain ⟨defined, hdefined, rfl⟩ := Option.map_eq_some_iff.mp hsym
    obtain ⟨l, hfirst, hline⟩ := (htraced.symbol_iff name defined).mp hdefined
    exact ⟨l, hfirst, (Symbol.definedBy_of_symbolOf? hline).given _⟩
  · intro name place
    simp only [← addressIn_blockValue]
    exact htraced.label_iff name place
  · intro name place
    simp only [← addressIn_blockValue]
    exact htraced.block_iff name place
  · intro before l after hlines hredefines
    have hmem : l ∈ (Source.parse text).1.lines := by
      show l ∈ (ofText context object text).source.lines
      rw [hlines]
      exact List.mem_append_right _ List.mem_cons_self
    have hcovers := rejections_ofLines (ofText context object text) before l after hlines hredefines
      (Nat.le_of_lt (Source.nonempty_of_parse hmem))
    exact Log.exists_failure_of_covers (Log.covers_mono (prefix_log_extract _ policy) hcovers)
  · exact forall₂_resolvedFrom _ policy _ _
  · exact map_position_instructions context object text policy

/-- A label, an alias and an embedded block with one name, an import, and a second such block. -/
def shadowed : List Char := "x:\n?alias x = 1\nldc #x\n.x:\n?import y = A:b\n.x:".toList

theorem first_definition_wins_shadowed :
    (ofText (.localTo ["Main"] false) "Main" shadowed).source.lines =
        [⟨.label "x", ⟨0, 2⟩, 0⟩, ⟨.aliasDefinition ⟨"x", ['1'], 14⟩, ⟨3, 15⟩, 0⟩,
          ⟨.instruction ⟨"ldc", [⟨['#', 'x'], ⟨20, 22⟩⟩]⟩, ⟨16, 22⟩, 0⟩, ⟨.block "x", ⟨23, 26⟩, 1⟩,
          ⟨.importing ⟨some "y", "A", some "b", ⟨27, 42⟩⟩, ⟨27, 42⟩, 1⟩, ⟨.block "x", ⟨43, 46⟩, 1⟩] ∧
      "y" ∈ ((ofText (.localTo ["Main"] false) "Main" shadowed).extract
        .reject).symbols.symbols.keys ∧
      ((ofText (.localTo ["Main"] false) "Main" shadowed).extract .reject).labels.find? "x" =
        some none ∧
      ∃ m ∈ ((ofText (.localTo ["Main"] false) "Main" shadowed).extract .reject).log.messages,
        m.isFailure = true ∧ ∃ range, m.range = some range ∧ range.overlaps ⟨3, 15⟩ = true := by
  have hlines : (ofText (.localTo ["Main"] false) "Main" shadowed).source.lines =
      [⟨.label "x", ⟨0, 2⟩, 0⟩, ⟨.aliasDefinition ⟨"x", ['1'], 14⟩, ⟨3, 15⟩, 0⟩,
        ⟨.instruction ⟨"ldc", [⟨['#', 'x'], ⟨20, 22⟩⟩]⟩, ⟨16, 22⟩, 0⟩, ⟨.block "x", ⟨23, 26⟩, 1⟩,
        ⟨.importing ⟨some "y", "A", some "b", ⟨27, 42⟩⟩, ⟨27, 42⟩, 1⟩, ⟨.block "x", ⟨43, 46⟩, 1⟩] := by
    decide +kernel
  have hwins := first_definition_wins (.localTo ["Main"] false) "Main" shadowed .reject
  refine ⟨hlines, ?_, ?_, ?_⟩
  · refine (hwins.names "y").mpr ?_
    rw [hlines]
    exact ⟨_, .tail _ (.tail _ (.tail _ (.tail _ (.head _)))), rfl⟩
  · refine (hwins.labels "x" none).mpr ?_
    rw [hlines]
    exact ⟨_, ⟨[], _, rfl, rfl, by simp⟩, rfl, rfl⟩
  · exact hwins.rejected [⟨.label "x", ⟨0, 2⟩, 0⟩] ⟨.aliasDefinition ⟨"x", ['1'], 14⟩, ⟨3, 15⟩, 0⟩ _
      hlines ⟨"x", Or.inl ⟨rfl, _, .head _, rfl⟩⟩

end Site

end LinkAsm
