import Mathlib
import LinkAsm.Proofs.Pass.Cycles
import LinkAsm.Proofs.Pass.Refinement
import LinkAsm.Proofs.Pass.View

/-!
# The order of alias definitions

Neighbouring alias definitions with distinct names can be put in any order.  Only their places in the
text change, so two such objects are compared without places: `AliasesMoved` relates the lines, and
a name has the same first definition in both.  Everything but aliases is where it was.

The values of aliases are compared along the references, which end because there is no cycle.  Without
a cycle each alias has the value of its expression, and outcomes of one expression are alike
(`AliasValue.Alike`: the same but for what an error says) if those of its leaves are.

* `AliasesMoved`: lines with aliases in another order.
* `Site.AliasesMoved.alike_aliases`: the values of the aliases.
* `Site.declarationOrder_irrelevant`: the symbols and the instructions.
-/

namespace LinkAsm

open Relation

/-! ## Lines without their places -/

/-- An import without its place. -/
def Import.unplaced (i : Import) : Import := { i with span := ⟨0, 0⟩ }

/-- What a line is, without places. -/
def LineKind.unplaced : LineKind → LineKind
  | .aliasDefinition a => .aliasDefinition { a with start := 0 }
  | .importing i => .importing i.unplaced
  | .instruction i =>
    .instruction { i with operands := i.operands.map fun o => { o with span := ⟨0, 0⟩ } }
  | .label name => .label name
  | .block name => .block name

namespace Line

/-- A line without its places. -/
def unplaced (l : Line) : Line := ⟨l.kind.unplaced, ⟨0, 0⟩, l.preceding⟩

/-- Whether a line defines an alias by an expression. -/
def isAlias (l : Line) : Bool :=
  match l.kind with
  | .aliasDefinition _ => true
  | _ => false

theorem unplaced_unplaced (l : Line) : l.unplaced.unplaced = l.unplaced := by
  obtain ⟨kind, span, preceding⟩ := l
  cases kind with
  | instruction i => simp [unplaced, LineKind.unplaced]
  | _ => rfl

theorem symbolName?_unplaced (l : Line) : l.unplaced.symbolName? = l.symbolName? := by
  obtain ⟨kind, span, preceding⟩ := l
  cases kind <;> rfl

theorem exists_alias_of_isAlias {l : Line} (h : l.isAlias = true) :
    ∃ a, l.kind = .aliasDefinition a := by
  unfold isAlias at h
  split at h
  · next a hk => exact ⟨a, hk⟩
  · cases h

end Line

/-- What two lines are that differ in places only. -/
inductive LineKind.Alike : LineKind → LineKind → Prop
  | label (name : String) : Alike (.label name) (.label name)
  | block (name : String) : Alike (.block name) (.block name)
  | aliasDefinition (name : String) (expression : List Char) (start start' : Nat) :
      Alike (.aliasDefinition ⟨name, expression, start⟩) (.aliasDefinition ⟨name, expression, start'⟩)
  | importing (localName : Option String) (object : String) (symbol : Option String)
      (span span' : Span) : Alike (.importing ⟨localName, object, symbol, span⟩)
        (.importing ⟨localName, object, symbol, span'⟩)
  | instruction (mnemonic : String) {operands operands' : List OperandText}
      (h : operands'.map (·.text) = operands.map (·.text)) :
      Alike (.instruction ⟨mnemonic, operands⟩) (.instruction ⟨mnemonic, operands'⟩)

theorem LineKind.alike_of_unplaced {k k' : LineKind} (h : k'.unplaced = k.unplaced) :
    k.Alike k' := by
  cases k with
  | label name =>
    cases k' <;> simp only [unplaced, reduceCtorEq, label.injEq] at h
    exact h ▸ .label _
  | block name =>
    cases k' <;> simp only [unplaced, reduceCtorEq, block.injEq] at h
    exact h ▸ .block _
  | aliasDefinition a =>
    cases k' <;> simp only [unplaced, reduceCtorEq, aliasDefinition.injEq,
      AliasDefinition.mk.injEq, and_true] at h
    obtain ⟨name, expression, start⟩ := a
    obtain ⟨rfl, rfl⟩ := h
    exact .aliasDefinition ..
  | importing i =>
    cases k' <;> simp only [unplaced, reduceCtorEq, importing.injEq, Import.unplaced,
      Import.mk.injEq, and_true] at h
    obtain ⟨localName, object, symbol, span⟩ := i
    obtain ⟨rfl, rfl, rfl⟩ := h
    exact .importing ..
  | instruction i =>
    cases k' <;> simp only [unplaced, reduceCtorEq, instruction.injEq,
      InstructionText.mk.injEq] at h
    obtain ⟨mnemonic, operands⟩ := i
    obtain ⟨rfl, hoperands⟩ := h
    refine .instruction _ ?_
    have htexts := congrArg (List.map (·.text)) hoperands
    simpa only [List.map_map, Function.comp_def] using htexts

theorem Line.alike_of_unplaced {l l' : Line} (h : l'.unplaced = l.unplaced) :
    l.kind.Alike l'.kind ∧ l'.preceding = l.preceding := by
  obtain ⟨hkind, -, hpreceding⟩ := Line.mk.inj h
  exact ⟨LineKind.alike_of_unplaced hkind, hpreceding⟩

/-- Lines, and the same lines with neighbouring alias definitions of distinct names in another
order. -/
inductive AliasesMoved : List Line → List Line → Prop
  | nil : AliasesMoved [] []
  | line (l : Line) {lines lines' : List Line} (h : AliasesMoved lines lines') :
      AliasesMoved (l :: lines) (l :: lines')
  | aliases {group group' lines lines' : List Line} (halias : ∀ l ∈ group, l.isAlias = true)
      (hnames : (group.map Line.symbolName?).Nodup) (hperm : group'.Perm group)
      (h : AliasesMoved lines lines') : AliasesMoved (group ++ lines) (group' ++ lines')

/-- Where no two lines have one name, the line that has a name is found. -/
theorem find?_symbolName_iff {lines : List Line} (hnames : (lines.map Line.symbolName?).Nodup)
    {name : Option String} {l : Line} :
    lines.find? (·.symbolName? == name) = some l ↔ l ∈ lines ∧ l.symbolName? = name := by
  have hfound : ∀ l', lines.find? (·.symbolName? == name) = some l' →
      l' ∈ lines ∧ l'.symbolName? = name := by
    intro l' h
    exact ⟨List.mem_of_find?_eq_some h, by simpa using List.find?_some h⟩
  refine ⟨hfound l, ?_⟩
  rintro ⟨hl, hname⟩
  have hsome : (lines.find? (·.symbolName? == name)).isSome :=
    List.find?_isSome.mpr ⟨l, hl, beq_iff_eq.mpr hname⟩
  obtain ⟨l', hl'⟩ := Option.isSome_iff_exists.mp hsome
  obtain ⟨hmem', hname'⟩ := hfound l' hl'
  rw [hl', List.inj_on_of_nodup_map hnames hmem' hl (hname'.trans hname.symm)]

namespace AliasesMoved

variable {lines lines' : List Line}

theorem symm (h : AliasesMoved lines lines') : AliasesMoved lines' lines := by
  induction h with
  | nil => exact .nil
  | line l _ ih => exact .line l ih
  | aliases halias hnames hperm _ ih =>
    refine .aliases ?_ ((hperm.map _).nodup_iff.mpr hnames) hperm.symm ih
    intro l hl
    exact halias l (hperm.subset hl)

/-- The first definition of a name is the same. -/
theorem find?_eq (h : AliasesMoved lines lines') (name : Option String) :
    lines'.find? (·.symbolName? == name) = lines.find? (·.symbolName? == name) := by
  induction h with
  | nil => rfl
  | line l _ ih => rw [List.find?_cons, List.find?_cons, ih]
  | @aliases group group' _ _ _ hnames hperm _ ih =>
    have hgroup : group'.find? (·.symbolName? == name) = group.find? (·.symbolName? == name) := by
      refine Option.ext fun l => ?_
      rw [find?_symbolName_iff ((hperm.map _).nodup_iff.mpr hnames), find?_symbolName_iff hnames,
        hperm.mem_iff]
    rw [List.find?_append, List.find?_append, ih, hgroup]

/-- What is not about aliases stays in its order. -/
theorem filterMap_eq {β : Type} (h : AliasesMoved lines lines') {f : Line → Option β}
    (halias : ∀ l, l.isAlias = true → f l = none) : lines'.filterMap f = lines.filterMap f := by
  have hnone : ∀ group : List Line, (∀ l ∈ group, l.isAlias = true) → group.filterMap f = [] := by
    intro group hgroup
    rw [List.filterMap_eq_nil_iff]
    exact fun l hl => halias l (hgroup l hl)
  induction h with
  | nil => rfl
  | line l _ ih => rw [List.filterMap_cons, List.filterMap_cons, ih]
  | aliases hgroup _ hperm _ ih =>
    rw [List.filterMap_append, List.filterMap_append, ih, hnone _ hgroup,
      hnone _ fun l hl => hgroup l (hperm.subset hl)]

/-- What is not about aliases stays in its order, if it does not depend on places. -/
theorem filterMap_eq_of_unplaced {β : Type} {f g : Line → Option β}
    (h : AliasesMoved (lines.map Line.unplaced) (lines'.map Line.unplaced))
    (halias : ∀ l, l.isAlias = true → f l = none)
    (hfg : ∀ l l', l'.unplaced = l.unplaced → g l' = f l) :
    lines'.filterMap g = lines.filterMap f := by
  have hf : ∀ l : Line, f l.unplaced = f l := by
    intro l
    rw [← hfg l l rfl, hfg l.unplaced l l.unplaced_unplaced.symm]
  have hg : ∀ l : Line, f l.unplaced = g l := by
    intro l
    rw [hfg l.unplaced l l.unplaced_unplaced.symm]
  have heq := h.filterMap_eq halias
  rw [List.filterMap_map, List.filterMap_map] at heq
  calc
    lines'.filterMap g = lines'.filterMap (f ∘ Line.unplaced) :=
      List.filterMap_congr fun l _ => (hg l).symm
    _ = lines.filterMap (f ∘ Line.unplaced) := heq
    _ = lines.filterMap f := List.filterMap_congr fun l _ => hf l

end AliasesMoved

/-! ## Objects with aliases in another order -/

/-- Two sites in one context, of an object and of the same with neighbouring aliases in another
order. -/
structure Site.AliasesMoved (s t : Site) : Prop where
  context : t.context = s.context
  object : t.object = s.object
  count : t.source.instructionCount = s.source.instructionCount
  lines : LinkAsm.AliasesMoved (s.source.lines.map Line.unplaced) (t.source.lines.map Line.unplaced)

namespace Definitions

/-- The first definition is the first line that is found at a name. -/
theorem firstDefinition_iff_find? {lines : List Line} {l : Line} {name : String} :
    FirstDefinition lines l name ↔ lines.find? (·.symbolName? == some name) = some l := by
  refine ⟨fun h => h.find?_eq, fun h => ?_⟩
  obtain ⟨hname, before, after, hsplit, hbefore⟩ := List.find?_eq_some_iff_append.mp h
  refine ⟨before, after, hsplit, beq_iff_eq.mp hname, fun x hx => ?_⟩
  simpa using hbefore x hx

end Definitions

namespace Site

open Definitions

variable {s t : Site} {l l' : Line} {name : String}

namespace AliasesMoved

theorem symm (h : s.AliasesMoved t) : t.AliasesMoved s :=
  ⟨h.context.symm, h.object.symm, h.count.symm, h.lines.symm⟩

/-- A name has the same first definition in both objects. -/
theorem firstDefinition (h : s.AliasesMoved t) (hl : FirstDefinition s.source.lines l name) :
    ∃ l', FirstDefinition t.source.lines l' name ∧ l'.unplaced = l.unplaced := by
  have hnamed : ((·.symbolName? == some name) ∘ Line.unplaced) = (·.symbolName? == some name) := by
    funext l
    rw [Function.comp_apply, Line.symbolName?_unplaced]
  have hfirst := h.lines.find?_eq (some name)
  rw [List.find?_map, List.find?_map, hnamed, firstDefinition_iff_find?.mp hl] at hfirst
  obtain ⟨l', hl', heq⟩ := Option.map_eq_some_iff.mp hfirst
  exact ⟨l', firstDefinition_iff_find?.mpr hl', heq⟩

end AliasesMoved

end Site

/-- Whether two aliases to be evaluated are the same but for places.  The expression of an alias by
which a symbol is imported has the place of its line in it. -/
structure PendingAlias.Alike (p p' : PendingAlias) : Prop where
  name : p'.name = p.name
  position : p'.position = p.position
  expr : p'.expr = p.expr ∨ ∃ span span' qualifier symbol,
    p.expr = ⟨.leaf span (.imported qualifier symbol), none⟩ ∧
      p'.expr = ⟨.leaf span' (.imported qualifier symbol), none⟩

namespace Definitions

variable {l l' : Line}

/-- Lines that are the same but for places make aliases that are. -/
theorem exists_pendingOf?_of_unplaced (h : l'.unplaced = l.unplaced) {p : PendingAlias}
    (hp : pendingOf? l = some p) : ∃ p', pendingOf? l' = some p' ∧ p.Alike p' := by
  obtain ⟨hkind, hpreceding⟩ := Line.alike_of_unplaced h
  unfold pendingOf? at hp ⊢
  generalize l.kind = k at hkind hp
  generalize l'.kind = k' at hkind
  cases hkind with
  | aliasDefinition name expression start start' =>
    obtain ⟨expr, hexpr, rfl⟩ := Option.map_eq_some_iff.mp hp
    exact ⟨_, Option.map_eq_some_iff.mpr ⟨expr, hexpr, rfl⟩, rfl, hpreceding, Or.inl rfl⟩
  | importing localName object symbol span span' =>
    obtain ⟨imported, rfl, hname⟩ := Option.bind_eq_some_iff.mp hp
    obtain ⟨name, rfl, rfl⟩ := Option.map_eq_some_iff.mp hname
    exact ⟨_, rfl, rfl, hpreceding, Or.inr ⟨_, _, _, _, rfl, rfl⟩⟩
  | _ => cases hp

/-- Lines that are the same but for places define symbols that are. -/
theorem symbolOf?_of_unplaced {s t : Site} (h : l'.unplaced = l.unplaced)
    (hvalue : (blockValue t l').1 = (blockValue s l).1) {sym : Symbol}
    (hsym : symbolOf? s l = some sym) :
    symbolOf? t l' = some { sym with span := l'.span } := by
  obtain ⟨hkind, -⟩ := Line.alike_of_unplaced h
  unfold symbolOf? at hsym ⊢
  rw [hvalue]
  generalize l.kind = k at hkind hsym
  generalize l'.kind = k' at hkind
  cases hkind with
  | label name => exact (Option.some.inj hsym) ▸ rfl
  | aliasDefinition name expression start start' => exact (Option.some.inj hsym) ▸ rfl
  | importing localName object symbol span span' =>
    obtain ⟨imported, rfl, hname⟩ := Option.bind_eq_some_iff.mp hsym
    obtain ⟨name, rfl, rfl⟩ := Option.map_eq_some_iff.mp hname
    rfl
  | _ => cases hsym

end Definitions

namespace Site.AliasesMoved

open Definitions

variable {s t : Site} {l l' : Line} {name : String}

/-- An alias to be evaluated is one in the other object too. -/
theorem exists_pending (h : s.AliasesMoved t) {p : PendingAlias} (hp : p ∈ (ofLines s).pending) :
    ∃ p' ∈ (ofLines t).pending, p.Alike p' := by
  obtain ⟨l, hpending, hfirst⟩ := ((traced_ofLines s).pending_iff p).mp hp
  obtain ⟨l', hfirst', hunplaced⟩ := h.firstDefinition hfirst
  obtain ⟨p', hpending', halike⟩ := exists_pendingOf?_of_unplaced hunplaced hpending
  exact ⟨p', ((traced_ofLines t).pending_iff p').mpr ⟨l', hpending', halike.name ▸ hfirst'⟩, halike⟩

theorem instructionAddress?_eq (h : s.AliasesMoved t) (position : Nat) :
    t.instructionAddress? position = s.instructionAddress? position := by
  rw [instructionAddress?, instructionAddress?, h.context, h.object, h.count]

theorem index_eq (h : s.AliasesMoved t) (position : Nat) : t.index position = s.index position := by
  rw [index, index, h.context, h.object, h.count]

/-- A symbol is one in the other object too, at another place. -/
theorem find?_symbols (h : s.AliasesMoved t) {sym : Symbol}
    (hsym : (ofLines s).symbols.find? name = some sym) :
    ∃ span, (ofLines t).symbols.find? name = some { sym with span } := by
  obtain ⟨l, hfirst, hdefined⟩ := ((traced_ofLines s).symbol_iff name sym).mp hsym
  obtain ⟨l', hfirst', hunplaced⟩ := h.firstDefinition hfirst
  have hvalue : (blockValue t l').1 = (blockValue s l).1 := by
    rw [blockValue, blockValue, h.instructionAddress?_eq, (Line.alike_of_unplaced hunplaced).2]
    split <;> rfl
  exact ⟨l'.span, ((traced_ofLines t).symbol_iff name _).mpr
    ⟨l', hfirst', symbolOf?_of_unplaced hunplaced hvalue hdefined⟩⟩

theorem mem_declared (h : s.AliasesMoved t) (hname : name ∈ (ofLines s).declared) :
    name ∈ (ofLines t).declared := by
  obtain ⟨sym, hsym, hkind⟩ := ((aliasesDeclared_ofLines s).mem_iff name).mp hname
  obtain ⟨span, hsym'⟩ := h.find?_symbols hsym
  exact ((aliasesDeclared_ofLines t).mem_iff name).mpr ⟨_, hsym', hkind⟩

/-- Aliases refer to the same ones in both objects. -/
theorem refers (h : s.AliasesMoved t) {a b : String} (href : (ofLines s).Refers a b) :
    (ofLines t).Refers a b := by
  obtain ⟨p, hp, rfl, hcast, ⟨span, hleaf⟩, hdeclared⟩ := href
  obtain ⟨p', hp', halike⟩ := h.exists_pending hp
  have hexpr : p'.expr = p.expr := by
    refine halike.expr.resolve_right ?_
    rintro ⟨_, _, _, _, hexpr, -⟩
    rw [hexpr] at hleaf
    cases List.mem_singleton.mp hleaf
  refine ⟨p', hp', halike.name, hexpr ▸ hcast, ⟨span, ?_⟩, h.mem_declared hdeclared⟩
  rw [hexpr]
  exact hleaf

/-! ## Addresses -/

/-- A qualifier means the same object. -/
theorem importFor?_eq (h : s.AliasesMoved t) (qualifier : String) :
    (t.source.importFor? qualifier).map (·.object) =
      (s.source.importFor? qualifier).map (·.object) := by
  have himports : t.source.imports.map Import.unplaced = s.source.imports.map Import.unplaced := by
    rw [Source.imports, Source.imports, List.map_filterMap, List.map_filterMap]
    refine h.lines.filterMap_eq_of_unplaced ?_ ?_
    · intro l hl
      obtain ⟨a, hk⟩ := Line.exists_alias_of_isAlias hl
      rw [hk]
      rfl
    · intro l l' hunplaced
      obtain ⟨hkind, -⟩ := Line.alike_of_unplaced hunplaced
      generalize l.kind = k at hkind ⊢
      generalize l'.kind = k' at hkind ⊢
      cases hkind <;> rfl
  have hfind : ∀ imports : List Import, (imports.find? (·.answersTo qualifier)).map (·.object) =
      ((imports.map Import.unplaced).find? (·.answersTo qualifier)).map (·.object) := by
    intro imports
    rw [List.find?_map, Option.map_map]
    rfl
  rw [Source.importFor?, Source.importFor?, hfind t.source.imports,
    hfind s.source.imports, himports]

theorem labelPosition?_eq (h : s.AliasesMoved t) (label : String) :
    t.source.labelPosition? label = s.source.labelPosition? label := by
  refine congrArg (List.lookup label) (h.lines.filterMap_eq_of_unplaced ?_ ?_)
  · intro l hl
    obtain ⟨a, hk⟩ := Line.exists_alias_of_isAlias hl
    rw [hk]
  · intro l l' hunplaced
    obtain ⟨hkind, hpreceding⟩ := Line.alike_of_unplaced hunplaced
    rw [hpreceding]
    generalize l.kind = k at hkind ⊢
    generalize l'.kind = k' at hkind ⊢
    cases hkind <;> rfl

theorem importedAddress_fst (h : s.AliasesMoved t) (qualifier label : String) (span span' : Span) :
    (t.importedAddress qualifier label span').1 = (s.importedAddress qualifier label span).1 := by
  have hfor := h.importFor?_eq qualifier
  unfold importedAddress
  rw [h.context]
  generalize s.source.importFor? qualifier = x at hfor ⊢
  generalize t.source.importFor? qualifier = y at hfor ⊢
  cases x with
  | none =>
    obtain rfl := Option.map_eq_none_iff.mp hfor
    rfl
  | some directive =>
    obtain ⟨directive', rfl, hobject⟩ := Option.map_eq_some_iff.mp hfor
    dsimp only
    rw [hobject]
    split
    · split <;> rfl
    · rfl

/-- A reference means the same, wherever it is written. -/
theorem resolve_fst (h : s.AliasesMoved t) (ref : AddressRef) (position : Nat) (narrow : Bool)
    (span span' : Span) :
    (t.resolve ref position narrow span').1 = (s.resolve ref position narrow span).1 := by
  have hblock : ∀ position, t.blockAddress position = s.blockAddress position := by
    intro position
    rw [blockAddress, blockAddress, h.instructionAddress?_eq]
  have hwide : (t.resolveWide ref position span').1 = (s.resolveWide ref position span).1 := by
    unfold resolveWide
    rw [h.context]
    split
    · rfl
    · cases ref with
      | label name =>
        simp only [h.labelPosition?_eq, hblock]
      | block name =>
        simp only [hblock]
      | imported qualifier target => exact h.importedAddress_fst qualifier target span span'
      | relative anchor offset =>
        simp only [relativeAddress, h.index_eq, h.context]
  simp only [resolve, hwide]

end Site.AliasesMoved

/-! ## Outcomes that are alike -/

namespace AliasValue

/-- Whether two outcomes are the same but for what an error says, and wait for no alias. -/
inductive Alike : AliasValue → AliasValue → Prop
  | word (w : Word) : Alike (.word w) (.word w)
  | error (e e' : AliasError) : Alike (.error e) (.error e')
  | deferred : Alike .deferred .deferred

theorem Definite.alike_self {v : AliasValue} (h : v.Definite) : v.Alike v := by
  cases v with
  | word w => exact .word w
  | error e => exact .error e e
  | _ => exact h.elim

namespace Alike

variable {v v' l l' r r' : AliasValue}

theorem toSymbolValue_eq (h : v.Alike v') : v'.toSymbolValue = v.toSymbolValue := by
  cases h <;> rfl

theorem shift (h : v.Alike v') (n n' : Nat) : (v.shift n).Alike (v'.shift n') := by
  cases h with
  | word w => exact .word w
  | error e e' => exact .error _ _
  | deferred => exact .deferred

theorem combine {op : Operator} {span : Span} (hl : l.Alike l') (hr : r.Alike r') :
    (AliasValue.combine op span l r).Alike (AliasValue.combine op span l' r') := by
  cases hl with
  | deferred =>
    rw [combine_deferred_left, combine_deferred_left]
    exact .deferred
  | word v =>
    cases hr with
    | word w => exact (op.computed_apply span v w).definite.alike_self
    | error e e' => exact .error e e'
    | deferred => exact .deferred
  | error e e' =>
    cases hr with
    | deferred => exact .deferred
    | _ => exact .error e e'

theorem castAs (h : v.Alike v') (cast : Option (Span × Cast)) :
    (v.castAs cast).Alike (v'.castAs cast) := by
  cases cast with
  | none => exact h
  | some c =>
    obtain ⟨span, cast⟩ := c
    cases cast with
    | unknown name => exact .error _ _
    | _ =>
      cases h with
      | word w =>
        rw [castAs_word]
        exact (Cast.computed_apply _ span w).definite.alike_self
      | error e e' => exact .error e e'
      | deferred => exact .deferred

end Alike

end AliasValue

namespace Site

open Definitions

variable {s t : Site} {name : String}

/-- Without a cycle every alias has the value of its expression. -/
theorem find?_aliases_of_acyclic (hacyclic : ∀ a, ¬TransGen (ofLines s).Refers a a)
    {p : PendingAlias} (hp : p ∈ (ofLines s).pending) :
    s.aliases.1.find? p.name =
      some ((s.outcome (ofLines s).declared s.aliases.1 p).1.shift p.origin) := by
  rcases s.sound_aliases hp with ⟨dependency, honCycle, -⟩ | hvalue
  · obtain ⟨c, -, hcycle⟩ := s.leadsToCycle_of_onCycle honCycle
    exact absurd hcycle (hacyclic c)
  · exact hvalue

/-- An alias that cannot be read has an error. -/
theorem exists_error_of_notMem_pending (hname : ∀ p ∈ (ofLines s).pending, p.name ≠ name)
    {v : AliasValue} (hv : s.aliases.1.find? name = some v) : ∃ e, v = .error e := by
  have hrun : (∀ p ∈ s.doneList.waiting, p ∈ (ofLines s).pending) ∧
      ∀ v, s.doneList.values.find? name = some v → ∃ e, v = .error e := by
    refine WorkList.invariant_run (P := fun w => (∀ p ∈ w.waiting, p ∈ (ofLines s).pending) ∧
      ∀ v, w.values.find? name = some v → ∃ e, v = .error e) ?_ ⟨?_, ?_⟩
    · rintro w w' hstep ⟨hwaiting, hvalues⟩
      refine ⟨fun p hp => hwaiting p (hstep.mem_waiting hp), ?_⟩
      cases hstep with
      | park hq hv => exact hvalues
      | @finish p rest hq hv =>
        have hp : p ∈ w.waiting := by simp [WorkList.waiting, hq]
        intro v hfound
        rcases NameMap.find?_insert_cases hfound with hold | ⟨-, rfl⟩
        · exact hvalues v hold
        · exact absurd rfl (hname p (hwaiting p hp))
    · intro p hp
      simpa [WorkList.waiting] using hp
    · intro v hv
      exact (aliasesDeclared_ofLines s).malformed name v hv
  rcases s.find?_aliases.mp hv with ⟨q, -, -, herror⟩ | hold
  · exact ⟨_, herror.symm⟩
  · exact hrun.2 v hold

/-- Aliases with values that are alike are looked up alike. -/
theorem alike_lookup
    (hvalue : Option.Rel AliasValue.Alike (s.aliases.1.find? name) (t.aliases.1.find? name))
    (span : Span) :
    (AliasScope.lookup ⟨s.aliases.1, (ofLines s).declared⟩ span name).Alike
      (AliasScope.lookup ⟨t.aliases.1, (ofLines t).declared⟩ span name) := by
  have hdeclared : ∀ r : Site, r.aliases.1.find? name = none → name ∉ (ofLines r).declared := by
    intro r hnone hmem
    exact NameMap.find?_eq_none_iff.mp hnone (r.keys_aliases_perm.mem_iff.mpr hmem)
  have hs := hdeclared s
  have ht := hdeclared t
  unfold AliasScope.lookup
  dsimp only
  generalize s.aliases.1.find? name = x at hvalue hs ⊢
  generalize t.aliases.1.find? name = y at hvalue ht ⊢
  cases hvalue with
  | none =>
    simp only [hs rfl, ht rfl, if_false]
    exact .error _ _
  | some halike =>
    cases halike with
    | word w => exact .word w
    | error e e' => exact .error _ _
    | deferred => exact .deferred

namespace AliasesMoved

theorem alike_importedValue (h : s.AliasesMoved t) (qualifier symbol : String) (span span' : Span) :
    (s.importedValue span qualifier symbol).Alike (t.importedValue span' qualifier symbol) := by
  have hfor := h.importFor?_eq qualifier
  unfold importedValue
  rw [h.context]
  generalize s.source.importFor? qualifier = x at hfor ⊢
  generalize t.source.importFor? qualifier = y at hfor ⊢
  split
  · exact .deferred
  · cases x with
    | none =>
      obtain rfl := Option.map_eq_none_iff.mp hfor
      exact .error _ _
    | some directive =>
      obtain ⟨directive', rfl, hobject⟩ := Option.map_eq_some_iff.mp hfor
      dsimp only at hobject ⊢
      rw [hobject]
      generalize (s.context.exportOf? directive.object symbol).map Symbol.value = found
      cases found with
      | none => exact .error _ _
      | some value =>
        cases value with
        | word w => exact .word w
        | deferred => exact .deferred
        | error => exact .error _ _

/-- Operands are evaluated alike, if the aliases they name have values that are alike. -/
theorem alike_evaluateOperand (h : s.AliasesMoved t) {operand : Operand} (position : Nat)
    (span : Span)
    (hvalues : ∀ name, operand = .aliasRef name →
      Option.Rel AliasValue.Alike (s.aliases.1.find? name) (t.aliases.1.find? name)) :
    (s.evaluateOperand ⟨s.aliases.1, (ofLines s).declared⟩ position span operand).1.Alike
      (t.evaluateOperand ⟨t.aliases.1, (ofLines t).declared⟩ position span operand).1 := by
  cases operand with
  | aliasRef name => exact alike_lookup (hvalues name rfl) span
  | address ref =>
    have hfst := h.resolve_fst ref position false span span
    simp only [evaluateOperand]
    generalize s.resolve ref position false span = x at hfst ⊢
    generalize t.resolve ref position false span = y at hfst ⊢
    obtain ⟨resolution, notes⟩ := x
    obtain ⟨resolution', notes'⟩ := y
    obtain rfl : resolution' = resolution := hfst
    cases resolution' with
    | resolved address => exact .word _
    | deferred => exact .deferred
    | failed failure => exact .error _ _
  | injector kind value => exact (computed_injected span kind value).definite.alike_self
  | quotedInjector kind value => exact .error _ _
  | imported qualifier symbol => exact h.alike_importedValue qualifier symbol span span
  | integer n => exact (AliasValue.computed_ofResult span _).definite.alike_self
  | float x => exact (AliasValue.computed_ofFloat span x).definite.alike_self

/-- Aliases that are the same but for places have outcomes that are alike, if what they refer to
has. -/
theorem alike_outcome (h : s.AliasesMoved t) {p p' : PendingAlias} (hp : p.Alike p')
    (hvalues : ∀ b, ¬p.expr.UnknownCast → WorkList.Names p b →
      Option.Rel AliasValue.Alike (s.aliases.1.find? b) (t.aliases.1.find? b)) :
    (s.outcome (ofLines s).declared s.aliases.1 p).1.Alike
      (t.outcome (ofLines t).declared t.aliases.1 p').1 := by
  unfold outcome
  rw [hp.position]
  rcases hp.expr with heq | ⟨span, span', qualifier, symbol, hexpr, hexpr'⟩
  · rw [heq, evaluate_eq, evaluate_eq]
    by_cases hcast : p.expr.UnknownCast
    · obtain ⟨span, cast, hcast⟩ := hcast
      rw [hcast]
      exact .error _ _
    · refine AliasValue.Alike.castAs (evaluateTree_rel AliasValue.Alike.combine ?_) _
      rintro ⟨span, operand⟩ hleaf
      refine h.alike_evaluateOperand p.position span ?_
      rintro b rfl
      exact hvalues b hcast ⟨span, hleaf⟩
  · rw [hexpr, hexpr']
    exact h.alike_importedValue qualifier symbol span span'

/-- **The values of aliases do not depend on their order.** -/
theorem alike_aliases (h : s.AliasesMoved t) (hacyclic : ∀ a, ¬TransGen (ofLines s).Refers a a)
    (name : String) :
    Option.Rel AliasValue.Alike (s.aliases.1.find? name) (t.aliases.1.find? name) := by
  have hacyclic' : ∀ a, ¬TransGen (ofLines t).Refers a a := by
    intro a hcycle
    exact hacyclic a (TransGen.mono (fun _ _ => h.symm.refers) _ _ hcycle)
  have hmem : ∀ a b, (ofLines s).Refers a b → a ∈ (ofLines s).declared := by
    rintro a b ⟨p, hp, rfl, -⟩
    exact List.mem_append_left _ (List.mem_map_of_mem hp)
  have hnone : ∀ {r : Site} {b : String}, b ∉ (ofLines r).declared →
      r.aliases.1.find? b = none := by
    intro r b hb
    rw [NameMap.find?_eq_none_iff, r.keys_aliases_perm.mem_iff]
    exact hb
  have hundeclared : ∀ b, b ∉ (ofLines s).declared →
      Option.Rel AliasValue.Alike (s.aliases.1.find? b) (t.aliases.1.find? b) := by
    intro b hb
    rw [hnone hb, hnone fun hb' => hb (h.symm.mem_declared hb')]
    exact .none
  induction name using (wellFounded_of_acyclic hmem hacyclic).induction with
  | _ name ih =>
    by_cases hpending : ∃ p ∈ (ofLines s).pending, p.name = name
    · obtain ⟨p, hp, rfl⟩ := hpending
      obtain ⟨p', hp', halike⟩ := h.exists_pending hp
      have hvalue' := find?_aliases_of_acyclic hacyclic' hp'
      rw [halike.name] at hvalue'
      rw [find?_aliases_of_acyclic hacyclic hp, hvalue']
      refine .some ((h.alike_outcome halike ?_).shift _ _)
      intro b hcast hnames
      by_cases hb : b ∈ (ofLines s).declared
      · exact ih b ⟨p, hp, rfl, hcast, hnames, hb⟩
      · exact hundeclared b hb
    · by_cases hdeclared : name ∈ (ofLines s).declared
      · -- the expression can be read in neither object
        obtain ⟨v, hv⟩ := NameMap.mem_keys_iff.mp (s.keys_aliases_perm.mem_iff.mpr hdeclared)
        obtain ⟨v', hv'⟩ :=
          NameMap.mem_keys_iff.mp (t.keys_aliases_perm.mem_iff.mpr (h.mem_declared hdeclared))
        obtain ⟨e, rfl⟩ := exists_error_of_notMem_pending
          (fun p hp heq => hpending ⟨p, hp, heq⟩) hv
        obtain ⟨e', rfl⟩ : ∃ e', v' = .error e' := by
          refine exists_error_of_notMem_pending (fun p' hp' heq => ?_) hv'
          obtain ⟨p, hp, halike⟩ := h.symm.exists_pending hp'
          exact hpending ⟨p, hp, halike.name.trans heq⟩
        rw [hv, hv']
        exact .some (.error e e')
      · exact hundeclared name hdeclared

end AliasesMoved

end Site

/-! ## The whole pass -/

theorem OperandValue.inlined_fst (policy : OversizedPolicy) (w : Word) (bytes : Nat)
    (span span' : Span) :
    (inlined policy w bytes span').1 = (inlined policy w bytes span).1 := by
  unfold inlined
  dsimp only
  generalize (if bytes = 3 then Width.triByte else Width.quadByte) = width
  split <;> rfl

/-- A symbol without its place. -/
def Symbol.unplaced (sym : Symbol) : SymbolKind × SymbolValue × Bool :=
  (sym.kind, sym.value, sym.exported)

/-- An instruction without its place. -/
def Instruction.unplaced (i : Instruction) : String × List OperandValue × Nat :=
  (i.mnemonic, i.operands, i.position)

theorem Symbol.unplaced_given {sym sym' : Symbol} (h : sym'.unplaced = sym.unplaced)
    {v v' : Option AliasValue} (hv : Option.Rel AliasValue.Alike v v') :
    (sym'.given v').unplaced = (sym.given v).unplaced := by
  cases hv with
  | none => exact h
  | some halike =>
    simp only [unplaced, given, Prod.mk.injEq] at h ⊢
    exact ⟨h.1, halike.toSymbolValue_eq, h.2.2⟩

namespace Site.AliasesMoved

open Definitions

variable {s t : Site}

/-- Operands are the same, wherever they are written. -/
theorem resolveOperand_fst (h : s.AliasesMoved t)
    (hvalues : ∀ name,
      Option.Rel AliasValue.Alike (s.aliases.1.find? name) (t.aliases.1.find? name))
    (policy : OversizedPolicy) {i i' : InstructionText} (hmnemonic : i'.mnemonic = i.mnemonic)
    (position : Nat) {operand operand' : OperandText} (htext : operand'.text = operand.text) :
    (t.resolveOperand policy t.aliases.1 i' position operand').1 =
      (s.resolveOperand policy s.aliases.1 i position operand).1 := by
  have hbytes : i'.inlineBytes = i.inlineBytes := by
    rw [InstructionText.inlineBytes, InstructionText.inlineBytes, hmnemonic]
  unfold resolveOperand
  rw [htext, hbytes]
  dsimp only
  cases InstructionOperand.parse operand.text with
  | error failure =>
    dsimp only
    split <;> rfl
  | ok parsed =>
    cases parsed with
    | address ref =>
      have hfst := h.resolve_fst ref position (decide (i.inlineBytes < 4)) operand.span operand'.span
      dsimp only
      generalize s.resolve ref position (decide (i.inlineBytes < 4)) operand.span = x at hfst ⊢
      generalize t.resolve ref position (decide (i.inlineBytes < 4)) operand'.span = y at hfst ⊢
      obtain ⟨resolution, notes⟩ := x
      obtain ⟨resolution', notes'⟩ := y
      obtain rfl : resolution' = resolution := hfst
      cases resolution' <;> rfl
    | aliasRef name =>
      have hvalue := hvalues name
      dsimp only
      generalize s.aliases.1.find? name = x at hvalue ⊢
      generalize t.aliases.1.find? name = y at hvalue ⊢
      cases hvalue with
      | none => rfl
      | some halike =>
        cases halike with
        | word w => exact OperandValue.inlined_fst policy w _ _ _
        | _ => rfl
    | integer n =>
      dsimp only
      split
      · exact OperandValue.inlined_fst policy _ _ _ _
      · rfl

/-- Instructions are the same but for their places. -/
theorem instructions_eq (h : s.AliasesMoved t)
    (hvalues : ∀ name,
      Option.Rel AliasValue.Alike (s.aliases.1.find? name) (t.aliases.1.find? name))
    (policy : OversizedPolicy) :
    (t.extract policy).instructions.map Instruction.unplaced =
      (s.extract policy).instructions.map Instruction.unplaced := by
  simp only [extract_unfold, resolved, List.map_filterMap]
  refine h.lines.filterMap_eq_of_unplaced ?_ ?_
  · intro l hl
    obtain ⟨a, hk⟩ := Line.exists_alias_of_isAlias hl
    rw [resolveLine?, hk]
    rfl
  · intro l l' hunplaced
    obtain ⟨hkind, hpreceding⟩ := Line.alike_of_unplaced hunplaced
    unfold resolveLine?
    rw [hpreceding]
    generalize l.kind = k at hkind ⊢
    generalize l'.kind = k' at hkind ⊢
    cases hkind with
    | @instruction mnemonic operands operands' htexts =>
      have hrel : List.Forall₂ (fun o' o : OperandText => o'.text = o.text) operands' operands := by
        rw [← List.forall₂_eq_eq_eq, List.forall₂_map_left_iff, List.forall₂_map_right_iff] at htexts
        exact htexts
      simp only [Option.map_some, Instruction.unplaced, List.map_map, Option.some.injEq,
        Prod.mk.injEq, true_and, and_true]
      rw [← List.forall₂_eq_eq_eq]
      refine List.rel_map ?_ hrel
      intro o' o htext
      exact h.resolveOperand_fst hvalues policy rfl l.preceding htext
    | _ => rfl

/-- Symbols are the same but for their places. -/
theorem symbols_eq (h : s.AliasesMoved t)
    (hvalues : ∀ name,
      Option.Rel AliasValue.Alike (s.aliases.1.find? name) (t.aliases.1.find? name))
    (policy : OversizedPolicy) (name : String) :
    ((t.extract policy).symbols.find? name).map Symbol.unplaced =
      ((s.extract policy).symbols.find? name).map Symbol.unplaced := by
  rw [find?_symbols_extract, find?_symbols_extract]
  cases hs : (ofLines s).symbols.find? name with
  | some sym =>
    obtain ⟨span, ht⟩ := h.find?_symbols hs
    have hsame : Symbol.unplaced { sym with span } = sym.unplaced := rfl
    rw [ht, Option.map_some, Option.map_some, Option.map_some, Option.map_some,
      Symbol.unplaced_given hsame (hvalues name)]
  | none =>
    cases ht : (ofLines t).symbols.find? name with
    | none => simp only [Option.map_none]
    | some sym =>
      obtain ⟨span, hsome⟩ := h.symm.find?_symbols ht
      rw [hs] at hsome
      cases hsome

end Site.AliasesMoved

namespace Site

/-- **The order of neighbouring alias definitions is irrelevant.**  Where aliases with distinct names
that stand between the same lines are brought into another order, and no alias refers to itself
through others, a pass in any context finds the same symbols with the same values, and the same
instructions with the same operands. -/
theorem declarationOrder_irrelevant {s t : Site} (h : s.AliasesMoved t)
    (hacyclic : ∀ name, ¬TransGen (Definitions.ofLines s).Refers name name)
    (policy : OversizedPolicy) :
    (∀ name, ((t.extract policy).symbols.find? name).map Symbol.unplaced =
        ((s.extract policy).symbols.find? name).map Symbol.unplaced) ∧
      (t.extract policy).instructions.map Instruction.unplaced =
        (s.extract policy).instructions.map Instruction.unplaced := by
  have hvalues := h.alike_aliases hacyclic
  exact ⟨h.symbols_eq hvalues policy, h.instructions_eq hvalues policy⟩

/-- An object with aliases that stand behind those they refer to. -/
def backwardAliases : Site where
  context := .localTo ["A"] false
  object := "A"
  source := ⟨[⟨.aliasDefinition ⟨"A", ['2'], 11⟩, ⟨0, 12⟩, 0⟩,
    ⟨.aliasDefinition ⟨"B", ['#', 'A', ' ', '+', ' ', '1'], 24⟩, ⟨13, 30⟩, 0⟩,
    ⟨.aliasDefinition ⟨"C", ['#', 'B', ' ', '*', ' ', '#', 'A'], 42⟩, ⟨31, 49⟩, 0⟩,
    ⟨.instruction ⟨"put", [⟨['#', 'C'], ⟨54, 56⟩⟩]⟩, ⟨50, 56⟩, 0⟩], 1⟩

/-- The same object with aliases that stand before those they refer to. -/
def forwardAliases : Site where
  context := .localTo ["A"] false
  object := "A"
  source := ⟨[⟨.aliasDefinition ⟨"C", ['#', 'B', ' ', '*', ' ', '#', 'A'], 11⟩, ⟨0, 18⟩, 0⟩,
    ⟨.aliasDefinition ⟨"B", ['#', 'A', ' ', '+', ' ', '1'], 30⟩, ⟨19, 36⟩, 0⟩,
    ⟨.aliasDefinition ⟨"A", ['2'], 48⟩, ⟨37, 49⟩, 0⟩,
    ⟨.instruction ⟨"put", [⟨['#', 'C'], ⟨54, 56⟩⟩]⟩, ⟨50, 56⟩, 0⟩], 1⟩

theorem aliasesMoved_backwardAliases : backwardAliases.AliasesMoved forwardAliases := by
  let a : Line := ⟨.aliasDefinition ⟨"A", ['2'], 0⟩, ⟨0, 0⟩, 0⟩
  let b : Line := ⟨.aliasDefinition ⟨"B", ['#', 'A', ' ', '+', ' ', '1'], 0⟩, ⟨0, 0⟩, 0⟩
  let c : Line := ⟨.aliasDefinition ⟨"C", ['#', 'B', ' ', '*', ' ', '#', 'A'], 0⟩, ⟨0, 0⟩, 0⟩
  let i : Line := ⟨.instruction ⟨"put", [⟨['#', 'C'], ⟨0, 0⟩⟩]⟩, ⟨0, 0⟩, 0⟩
  have halias : ∀ l ∈ [a, b, c], l.isAlias = true := by decide
  have hperm : [c, b, a].Perm [a, b, c] := by decide
  exact ⟨rfl, rfl, rfl, .aliases halias (by decide) hperm (.line i .nil)⟩

theorem acyclic_backwardAliases (name : String) :
    ¬TransGen (Definitions.ofLines backwardAliases).Refers name name := by
  have hoperands : ((Definitions.ofLines backwardAliases).pending.flatMap fun p =>
      p.expr.tree.leaves.map fun leaf => (p.name, leaf.2)) = [("A", .integer 2),
        ("B", .aliasRef "A"), ("B", .integer 1), ("C", .aliasRef "B"), ("C", .aliasRef "A")] := by cbv
  -- each refers to names that come before its own
  have hedge : ∀ a b, (Definitions.ofLines backwardAliases).Refers a b → b < a := by
    rintro _ b ⟨p, hp, rfl, -, ⟨span, hleaf⟩, -⟩
    have hmem : (p.name, Operand.aliasRef b) ∈
        (Definitions.ofLines backwardAliases).pending.flatMap fun p =>
          p.expr.tree.leaves.map fun leaf => (p.name, leaf.2) :=
      List.mem_flatMap.mpr ⟨p, hp, List.mem_map.mpr ⟨_, hleaf, rfl⟩⟩
    rw [hoperands] at hmem
    simp only [List.mem_cons, Prod.mk.injEq, reduceCtorEq, and_false, Operand.aliasRef.injEq,
      false_or, List.not_mem_nil, or_false] at hmem
    rcases hmem with ⟨hname, rfl⟩ | ⟨hname, rfl⟩ | ⟨hname, rfl⟩ <;> rw [hname] <;> decide
  have hpath : ∀ a b, TransGen (Definitions.ofLines backwardAliases).Refers a b → b < a := by
    intro a b hpath
    induction hpath with
    | single hrefers => exact hedge _ _ hrefers
    | tail _ hrefers ih => exact String.lt_trans (hedge _ _ hrefers) ih
  intro hcycle
  exact String.lt_irrefl name (hpath name name hcycle)

theorem declarationOrder_irrelevant_backwardAliases :
    backwardAliases.AliasesMoved forwardAliases ∧
      (∀ name, ¬TransGen (Definitions.ofLines backwardAliases).Refers name name) ∧
      ((backwardAliases.extract .reject).symbols.find? "C").map Symbol.unplaced =
        some (.aliasName, .word ⟨.quadByte, .unsigned, 6⟩, true) ∧
      ((forwardAliases.extract .reject).symbols.find? "C").map Symbol.unplaced =
        some (.aliasName, .word ⟨.quadByte, .unsigned, 6⟩, true) ∧
      (forwardAliases.extract .reject).instructions.map Instruction.unplaced =
        (backwardAliases.extract .reject).instructions.map Instruction.unplaced := by
  have hmoved := aliasesMoved_backwardAliases
  obtain ⟨hsymbols, hinstructions⟩ :=
    declarationOrder_irrelevant hmoved acyclic_backwardAliases .reject
  have hC : ((backwardAliases.extract .reject).symbols.find? "C").map Symbol.unplaced =
      some (.aliasName, .word ⟨.quadByte, .unsigned, 6⟩, true) := by cbv
  exact ⟨hmoved, acyclic_backwardAliases, hC, (hsymbols "C").trans hC, hinstructions⟩

end Site

end LinkAsm
