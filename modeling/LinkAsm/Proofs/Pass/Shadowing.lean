import Mathlib
import LinkAsm.Proofs.Pass.Deferral
import LinkAsm.Proofs.Pass.Imports

/-!
# References to rejected labels

Of several definitions of one name the table of a pass keeps the first, whatever it is: a label, an
alias or the import of a symbol.  A reference `$l` looks at the lines with labels only, and takes the
first of them.  If that line is the first definition of its name, the table and the reference speak
of the same label.  If an alias or an import has the name before, the label is rejected, but the
reference still means its place.

* `Site.Overtaken`: the first label of a name is rejected, though it has an address.
* `Site.labelAgrees_iff`: references to a label mean what the table says, unless it is overtaken.
-/

namespace LinkAsm

/-- The word of a block label in a table. -/
def SymbolTable.labelWord? (t : SymbolTable) (name : String) : Option Word :=
  (t.find? name).bind fun sym =>
    match sym.kind, sym.value with
    | .label, .word w => some w
    | _, _ => none

theorem SymbolTable.exists_of_labelWord? {t : SymbolTable} {name : String} {w : Word}
    (h : t.labelWord? name = some w) :
    ∃ sym, t.find? name = some sym ∧ sym.kind = .label ∧ sym.value = .word w := by
  obtain ⟨sym, hfind, hword⟩ := Option.bind_eq_some_iff.mp h
  split at hword
  · next v hkind hvalue =>
    obtain rfl := Option.some.inj hword
    exact ⟨sym, hfind, hkind, hvalue⟩
  · cases hword

theorem Line.kind_of_labelName? {line : Line} {name : String} (h : line.labelName? = some name) :
    line.kind = .label name := by
  unfold labelName? at h
  split at h
  · next hk => rw [hk, Option.some.inj h]
  · cases h

namespace Site

open Definitions

/-- Whether a reference to a label means what a table says of it.  A word of the table is the address
that the reference means, as far as there is room for it; a name without one is a failure. -/
structure LabelAgrees (s : Site) (t : SymbolTable) (name : String) : Prop where
  resolved : ∀ w, t.labelWord? name = some w → ∃ a : Address, a.toWord = w ∧
    ∀ position narrow span, (s.resolve (.label name) position narrow span).1 =
      if narrow then (Resolution.resolved a).narrowed else .resolved a
  failed : t.labelWord? name = none → ∀ position narrow span,
    (s.resolve (.label name) position narrow span).1 = .failed (.undefinedLabel name) ∨
      ∃ e, (s.resolve (.label name) position narrow span).1 = .failed (.outOfRange e)

/-- Whether the first label of a name is not its first definition, and stands at the address `a`. -/
def Overtaken (s : Site) (name : String) (a : Address) : Prop :=
  ∃ l, FirstNamed Line.labelName? s.source.lines l name ∧
    ¬FirstDefinition s.source.lines l name ∧ s.instructionAddress? l.preceding = some (.ok a)

variable {s : Site} {l : Line} {name : String} {a : Address} {policy : OversizedPolicy}

/-! ## References -/

theorem resolve_label (hscope : s.context.scope ≠ .localPass)
    (hfirst : FirstNamed Line.labelName? s.source.lines l name) (position : Nat) (narrow : Bool)
    (span : Span) :
    (s.resolve (.label name) position narrow span).1 =
      if narrow then (s.blockAddress l.preceding).narrowed else s.blockAddress l.preceding := by
  simp only [resolve, resolveWide, Context.isLocal_eq_false hscope,
    labelPosition?_of_firstNamed hfirst]
  rfl

theorem resolve_label_of_address (hscope : s.context.scope ≠ .localPass)
    (hfirst : FirstNamed Line.labelName? s.source.lines l name)
    (haddress : s.instructionAddress? l.preceding = some (.ok a)) (position : Nat) (narrow : Bool)
    (span : Span) :
    (s.resolve (.label name) position narrow span).1 =
      if narrow then (Resolution.resolved a).narrowed else .resolved a := by
  rw [resolve_label hscope hfirst, blockAddress_of_address haddress]

theorem resolve_label_of_error {e : RangeError} (hscope : s.context.scope ≠ .localPass)
    (hfirst : FirstNamed Line.labelName? s.source.lines l name)
    (haddress : s.instructionAddress? l.preceding = some (.error e)) (position : Nat)
    (narrow : Bool) (span : Span) :
    (s.resolve (.label name) position narrow span).1 = .failed (.outOfRange e) := by
  have hblock : s.blockAddress l.preceding = .failed (.outOfRange e) := by
    rw [blockAddress, haddress]
    rfl
  rw [resolve_label hscope hfirst, hblock]
  cases narrow <;> rfl

/-- A name that no label has is not resolved. -/
theorem resolve_label_of_unnamed (hscope : s.context.scope ≠ .localPass)
    (h : ∀ l ∈ s.source.lines, l.labelName? ≠ some name) (position : Nat) (narrow : Bool)
    (span : Span) :
    (s.resolve (.label name) position narrow span).1 = .failed (.undefinedLabel name) := by
  have hnone : s.source.labelPosition? name = none := by
    rw [Option.eq_none_iff_forall_ne_some]
    intro p hp
    obtain ⟨l, hl, hk, -⟩ := exists_label_of_labelPosition? hp
    exact h l hl (by simp [Line.labelName?, hk])
  simp only [resolve, resolveWide, Context.isLocal_eq_false hscope, hnone]
  cases narrow <;> rfl

/-! ## The table -/

/-- A word of the table is the address of the label that is accepted. -/
theorem exists_label_of_labelWord? {w : Word}
    (h : (s.extract policy).symbols.labelWord? name = some w) :
    ∃ l a, FirstDefinition s.source.lines l name ∧ l.kind = .label name ∧
      s.instructionAddress? l.preceding = some (.ok a) ∧ a.toWord = w := by
  obtain ⟨sym, hfind, hkind, hvalue⟩ := SymbolTable.exists_of_labelWord? h
  obtain ⟨l, hfirst, hk, hblock⟩ := exists_label_of_find? hfind hkind
  rw [hvalue] at hblock
  obtain ⟨a, haddress, hword⟩ := exists_address_of_blockValue hblock.symm
  exact ⟨l, a, hfirst, hk, haddress, hword⟩

theorem labelWord?_of_firstDefinition (hfirst : FirstDefinition s.source.lines l name)
    (hk : l.kind = .label name) (haddress : s.instructionAddress? l.preceding = some (.ok a))
    (policy : OversizedPolicy) :
    (s.extract policy).symbols.labelWord? name = some a.toWord := by
  rw [SymbolTable.labelWord?, find?_symbols_extract_label hfirst hk, blockValue_of_address haddress]
  rfl

/-- A label that is overtaken has no word in the table, but references to it are resolved. -/
theorem Overtaken.labelWord? (h : s.Overtaken name a) (policy : OversizedPolicy) :
    (s.extract policy).symbols.labelWord? name = none := by
  obtain ⟨l, hfirst, hrejected, -⟩ := h
  rw [Option.eq_none_iff_forall_ne_some]
  intro w hw
  obtain ⟨accepted, -, hdef, hk, -⟩ := exists_label_of_labelWord? hw
  obtain rfl := (firstNamed_label_of_firstDefinition hdef hk).unique hfirst
  exact hrejected hdef

theorem Overtaken.resolve (h : s.Overtaken name a) (hscope : s.context.scope ≠ .localPass)
    (position : Nat) (span : Span) :
    (s.resolve (.label name) position false span).1 = .resolved a := by
  obtain ⟨l, hfirst, -, haddress⟩ := h
  exact resolve_label_of_address hscope hfirst haddress position false span

theorem labelAgrees_of_unnamed (hscope : s.context.scope ≠ .localPass)
    (h : ∀ l ∈ s.source.lines, l.labelName? ≠ some name) :
    s.LabelAgrees (s.extract policy).symbols name := by
  constructor
  · intro w hw
    obtain ⟨l, -, hdef, hk, -⟩ := exists_label_of_labelWord? hw
    have hfirst := firstNamed_label_of_firstDefinition hdef hk
    exact absurd hfirst.named (h l hfirst.mem)
  · intro _ position narrow span
    exact Or.inl (resolve_label_of_unnamed hscope h position narrow span)

theorem labelAgrees_of_error {e : RangeError} (hscope : s.context.scope ≠ .localPass)
    (hfirst : FirstNamed Line.labelName? s.source.lines l name)
    (haddress : s.instructionAddress? l.preceding = some (.error e)) :
    s.LabelAgrees (s.extract policy).symbols name := by
  constructor
  · intro w hw
    obtain ⟨accepted, a, hdef, hk, hok, -⟩ := exists_label_of_labelWord? hw
    obtain rfl := (firstNamed_label_of_firstDefinition hdef hk).unique hfirst
    cases haddress.symm.trans hok
  · intro _ position narrow span
    exact Or.inr ⟨e, resolve_label_of_error hscope hfirst haddress position narrow span⟩

theorem labelAgrees_of_firstDefinition (hscope : s.context.scope ≠ .localPass)
    (hdef : FirstDefinition s.source.lines l name) (hk : l.kind = .label name)
    (haddress : s.instructionAddress? l.preceding = some (.ok a)) :
    s.LabelAgrees (s.extract policy).symbols name := by
  have hword := labelWord?_of_firstDefinition hdef hk haddress policy
  have hfirst := firstNamed_label_of_firstDefinition hdef hk
  constructor
  · intro w hw
    exact ⟨a, Option.some.inj (hword.symm.trans hw), resolve_label_of_address hscope hfirst haddress⟩
  · intro hnone
    cases hword.symm.trans hnone

theorem labelAgrees_of_not_overtaken {base : Address} (hscope : s.context.scope ≠ .localPass)
    (hbase : s.context.base = some base) (h : ∀ a, ¬s.Overtaken name a) :
    s.LabelAgrees (s.extract policy).symbols name := by
  by_cases hnamed : ∃ l ∈ s.source.lines, l.labelName? = some name
  · obtain ⟨some, hsome, hname⟩ := hnamed
    obtain ⟨l, hfirst⟩ := exists_firstNamed hsome hname
    have hplace : s.instructionAddress? l.preceding ≠ none := by
      simp [instructionAddress?, Context.addressOf?, hbase]
    obtain ⟨result, hresult⟩ := Option.ne_none_iff_exists'.mp hplace
    cases result with
    | error e => exact labelAgrees_of_error hscope hfirst hresult
    | ok a =>
      have hdef : FirstDefinition s.source.lines l name := by
        by_contra hrejected
        exact h a ⟨l, hfirst, hrejected, hresult⟩
      exact labelAgrees_of_firstDefinition hscope hdef (Line.kind_of_labelName? hfirst.named) hresult
  · refine labelAgrees_of_unnamed hscope ?_
    intro l hl hname
    exact hnamed ⟨l, hl, hname⟩

/-- **References to a label mean what the table says of it**, in every pass that knows the place of
the object, unless an alias or the import of a symbol has the name before the first line with that
label.  Then the table has no such label, and the reference means the place of the rejected line. -/
theorem labelAgrees_iff {base : Address} (hscope : s.context.scope ≠ .localPass)
    (hbase : s.context.base = some base) (name : String) (policy : OversizedPolicy) :
    (s.LabelAgrees (s.extract policy).symbols name ↔ ∀ a, ¬s.Overtaken name a) ∧
      ∀ a, s.Overtaken name a → (s.extract policy).symbols.labelWord? name = none ∧
        ∀ position span, (s.resolve (.label name) position false span).1 = .resolved a := by
  refine ⟨⟨?_, labelAgrees_of_not_overtaken hscope hbase⟩, ?_⟩
  · intro hagrees a hover
    have hresolved := hover.resolve hscope 0 ⟨0, 0⟩
    rcases hagrees.failed (hover.labelWord? policy) 0 false ⟨0, 0⟩ with hfail | ⟨e, hfail⟩
    · rw [hresolved] at hfail
      cases hfail
    · rw [hresolved] at hfail
      cases hfail
  · intro a hover
    exact ⟨hover.labelWord? policy, hover.resolve hscope⟩

/-- The object that a text is, placed at the start of memory. -/
def atStart (text : String) : Site where
  context := { Context.localTo ["Main"] false with
    scope := .globalPass
    base := some ⟨0⟩ }
  object := "Main"
  source := (Source.parse text.toList).1

/-- The label stands before the alias. -/
theorem labelAgrees_iff_labelFirst :
    (atStart "nop\nx:\n?alias x = 1\n").context.scope ≠ .localPass ∧
      ((atStart "nop\nx:\n?alias x = 1\n").extract .reject).symbols.labelWord? "x" =
        some (Address.toWord ⟨4⟩) ∧
      ((atStart "nop\nx:\n?alias x = 1\n").resolve (.label "x") 0 false ⟨0, 2⟩).1 =
        .resolved ⟨4⟩ := by
  have hscope : (atStart "nop\nx:\n?alias x = 1\n").context.scope ≠ .localPass := by decide
  have hlines : (atStart "nop\nx:\n?alias x = 1\n").source.lines =
      [⟨.instruction ⟨"nop", []⟩, ⟨0, 3⟩, 0⟩, ⟨.label "x", ⟨4, 6⟩, 1⟩,
        ⟨.aliasDefinition ⟨"x", ['1'], 18⟩, ⟨7, 19⟩, 1⟩] := by cbv
  have hdef : FirstDefinition (atStart "nop\nx:\n?alias x = 1\n").source.lines
      ⟨.label "x", ⟨4, 6⟩, 1⟩ "x" := by
    rw [hlines]
    refine ⟨[⟨.instruction ⟨"nop", []⟩, ⟨0, 3⟩, 0⟩], _, rfl, rfl, ?_⟩
    intro l hl
    rw [List.mem_singleton.mp hl]
    decide
  have hword : ((atStart "nop\nx:\n?alias x = 1\n").extract .reject).symbols.labelWord? "x" =
      some (Address.toWord ⟨4⟩) := by cbv
  have hagrees := (labelAgrees_iff hscope rfl "x" .reject).1.mpr (by
    rintro a ⟨l, hfirst, hrejected, -⟩
    rw [← (firstNamed_label_of_firstDefinition hdef rfl).unique hfirst] at hrejected
    exact hrejected hdef)
  obtain ⟨a, haddress, hresolved⟩ := hagrees.resolved _ hword
  rw [Address.toWord_injective haddress] at hresolved
  exact ⟨hscope, hword, hresolved 0 false ⟨0, 2⟩⟩

/-- The alias stands before the label: the table has no label, and the reference is resolved. -/
theorem rejected_label_resolved :
    (atStart "?alias x = 1\nx:\nnop\n").context.scope ≠ .localPass ∧
      (((atStart "?alias x = 1\nx:\nnop\n").extract .reject).symbols.find? "x").map (·.kind) =
        some .aliasName ∧
      ((atStart "?alias x = 1\nx:\nnop\n").resolve (.label "x") 0 false ⟨0, 2⟩).1 =
        .resolved ⟨0⟩ :=
  ⟨by decide, by cbv, by cbv⟩

end Site

end LinkAsm
