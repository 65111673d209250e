import LinkAsm.Proofs.Pass.Labels

/-!
# What a pass leaves open

A pass defers an address that it does not know, and everything that is computed from it.  After the
local pass an address is unknown only where the object has no place, and a symbol of another object
only where that object's pass left it open.  So a pass that knows where the object's blocks are
(`Site.Grounded`) leaves nothing open, and one that does not leaves its blocks open.

* `Site.finished_extract`: a grounded pass without failures is finished.
* `Site.not_finished_extract`: a pass over blocks without a place is not.
-/

namespace LinkAsm

/-- Whether a line names the place where it stands: a block label or an embedded block. -/
def Line.MarksPlace (l : Line) : Prop :=
  (∃ name, l.kind = .label name) ∨ ∃ name, l.kind = .block name

/-- Whether no symbol of a table is left open. -/
def SymbolTable.Finished (t : SymbolTable) : Prop :=
  ∀ name sym, t.find? name = some sym → sym.value ≠ .deferred

/-- Whether a pass left nothing open. -/
structure PassResult.Finished (r : PassResult) : Prop where
  symbols : r.symbols.Finished
  operands : ∀ ins ∈ r.instructions, .deferred ∉ ins.operands
  labels : ∀ name place, r.labels.find? name = some place → ∃ address, place = some address
  blocks : ∀ name place, r.blocks.find? name = some place → ∃ address, place = some address

theorem Resolution.ofResult_ne_deferred (result : Except RangeError Address) :
    ofResult result ≠ .deferred := by
  cases result <;> exact Resolution.noConfusion

theorem OperandValue.inlined_ne_deferred (policy : OversizedPolicy) (w : Word) (bytes : Nat)
    (span : Span) : (inlined policy w bytes span).1 ≠ .deferred := by
  rcases inlined_cases policy w bytes span with ⟨heq, -⟩ | ⟨m, -, heq⟩
  · rw [heq]
    exact OperandValue.noConfusion
  · rw [heq]
    cases m.isFailure <;> exact OperandValue.noConfusion

namespace Site

/-- Whether a pass knows where the blocks of the object are, and all symbols of the objects before
it. -/
structure Grounded (s : Site) : Prop where
  scope : s.context.scope ≠ .localPass
  blocks : s.context.blocks = some s.source.blockPositions
  base : ∀ l ∈ s.source.lines, l.MarksPlace → s.context.base ≠ none
  preceding : ∀ t ∈ s.context.preceding, t.Finished

/-! ## Addresses -/

/-- Relative addresses need no place of the object. -/
theorem relativeAddress_ne_deferred (s : Site) (anchor : Anchor) (offset : Int) (position : Nat) :
    s.relativeAddress anchor offset position ≠ .deferred := by
  have hindex : ∀ index : Int, (if index < 0 then Resolution.failed (.outOfRange .tooSmall)
      else .ofResult (s.context.origin.instruction index.toNat)) ≠ .deferred := by
    intro index
    split
    · exact Resolution.noConfusion
    · exact Resolution.ofResult_ne_deferred _
  cases anchor with
  | own => exact hindex _
  | global => exact hindex _

/-- A block of an object with a place has an address, or is outside of memory. -/
theorem blockAddress_ne_deferred (s : Site) (h : s.context.base ≠ none) (position : Nat) :
    s.blockAddress position ≠ .deferred := by
  obtain ⟨base, hbase⟩ := Option.ne_none_iff_exists'.mp h
  simp only [blockAddress, instructionAddress?, Context.addressOf?, hbase, Option.map_some]
  exact Resolution.ofResult_ne_deferred _

theorem exists_label_of_labelPosition? {source : Source} {name : String} {position : Nat}
    (h : source.labelPosition? name = some position) :
    ∃ l ∈ source.lines, l.kind = .label name ∧ l.preceding = position := by
  obtain ⟨l, hl, heq⟩ := List.mem_filterMap.mp (NameMap.mem_of_lookup h)
  split at heq
  · next key hk =>
    obtain ⟨rfl, hposition⟩ := Prod.mk.inj (Option.some.inj heq)
    exact ⟨l, hl, hk, hposition⟩
  · cases heq

theorem exists_block_of_blockPositions {source : Source} {name : String} {position : Nat}
    (h : source.blockPositions.find? name = some position) :
    ∃ l ∈ source.lines, l.kind = .block name ∧ l.preceding = position := by
  rw [Source.blockPositions, NameMap.find?_ofList] at h
  obtain ⟨l, hl, heq⟩ := List.mem_filterMap.mp (NameMap.mem_of_lookup h)
  split at heq
  · next key hk =>
    obtain ⟨rfl, hposition⟩ := Prod.mk.inj (Option.some.inj heq)
    exact ⟨l, hl, hk, hposition⟩
  · cases heq

namespace Grounded

variable {s : Site}

theorem isLocal (h : s.Grounded) : s.context.isLocal = false := Context.isLocal_eq_false h.scope

/-- Symbols of other objects are not left open. -/
theorem exported_ne_deferred (h : s.Grounded) {object name : String} {sym : Symbol}
    (hs : s.context.exportOf? object name = some sym) : sym.value ≠ .deferred := by
  obtain ⟨t, ht, hexported⟩ := Option.bind_eq_some_iff.mp hs
  obtain ⟨hfind, -⟩ := Option.filter_eq_some_iff.mp hexported
  exact h.preceding t (List.mem_of_find?_eq_some ht) name sym hfind

theorem importedAddress_ne_deferred (h : s.Grounded) (qualifier label : String) (span : Span) :
    (s.importedAddress qualifier label span).1 ≠ .deferred := by
  unfold importedAddress
  split
  · exact Resolution.noConfusion
  · dsimp only
    split
    · split <;> exact Resolution.noConfusion
    · split
      · exact Resolution.noConfusion
      · next sym hsym =>
        split
        · exact Resolution.noConfusion
        · exact Resolution.ofResult_ne_deferred _
        · next hvalue => exact absurd hvalue (h.exported_ne_deferred hsym)
        · exact Resolution.noConfusion

theorem resolveWide_ne_deferred (h : s.Grounded) (ref : AddressRef) (position : Nat)
    (span : Span) : (s.resolveWide ref position span).1 ≠ .deferred := by
  unfold resolveWide
  rw [h.isLocal, if_neg Bool.false_ne_true]
  cases ref with
  | label name =>
    dsimp only
    split
    · next hposition =>
      obtain ⟨l, hl, hk, -⟩ := exists_label_of_labelPosition? hposition
      exact s.blockAddress_ne_deferred (h.base l hl (Or.inl ⟨name, hk⟩)) _
    · exact Resolution.noConfusion
  | block name =>
    simp only [h.blocks]
    split
    · next hposition =>
      obtain ⟨l, hl, hk, -⟩ := exists_block_of_blockPositions hposition
      exact s.blockAddress_ne_deferred (h.base l hl (Or.inr ⟨name, hk⟩)) _
    · exact Resolution.noConfusion
  | imported qualifier target => exact h.importedAddress_ne_deferred qualifier target span
  | relative anchor offset => exact s.relativeAddress_ne_deferred anchor offset position

theorem resolve_ne_deferred (h : s.Grounded) (ref : AddressRef) (position : Nat) (narrow : Bool)
    (span : Span) : (s.resolve ref position narrow span).1 ≠ .deferred := by
  have hwide := h.resolveWide_ne_deferred ref position span
  simp only [resolve]
  split
  · cases hr : (s.resolveWide ref position span).1 with
    | resolved address =>
      simp only [Resolution.narrowed]
      split <;> exact Resolution.noConfusion
    | deferred => exact absurd hr hwide
    | failed failure => exact Resolution.noConfusion
  · exact hwide

/-! ## Aliases -/

theorem importedValue_ne_deferred (h : s.Grounded) (span : Span) (qualifier symbol : String) :
    s.importedValue span qualifier symbol ≠ .deferred := by
  unfold importedValue
  rw [h.isLocal, if_neg Bool.false_ne_true]
  split
  · exact AliasValue.noConfusion
  · split
    · exact AliasValue.noConfusion
    · next hvalue =>
      obtain ⟨sym, hsym, hopen⟩ := Option.map_eq_some_iff.mp hvalue
      exact absurd hopen (h.exported_ne_deferred hsym)
    · exact AliasValue.noConfusion
    · exact AliasValue.noConfusion

/-- A leaf is left open only as an alias that is. -/
theorem evaluateOperand_ne_deferred (h : s.Grounded) {a : AliasScope}
    (ha : ∀ name, a.values.find? name ≠ some .deferred) (position : Nat) (span : Span)
    (operand : Operand) : (s.evaluateOperand a position span operand).1 ≠ .deferred := by
  cases operand with
  | aliasRef name =>
    simp only [evaluateOperand, AliasScope.lookup]
    split
    · exact AliasValue.noConfusion
    · next hvalue => exact absurd hvalue (ha name)
    · exact AliasValue.noConfusion
    · exact AliasValue.noConfusion
    · split <;> exact AliasValue.noConfusion
  | address ref =>
    have hresolve := h.resolve_ne_deferred ref position false span
    simp only [evaluateOperand]
    split
    · exact AliasValue.noConfusion
    · next heq => exact absurd (congrArg Prod.fst heq) hresolve
    · exact AliasValue.noConfusion
  | injector kind value => exact (computed_injected span kind value).definite.ne_deferred
  | quotedInjector kind value => exact AliasValue.noConfusion
  | imported qualifier symbol => exact h.importedValue_ne_deferred span qualifier symbol
  | integer n => exact (AliasValue.computed_ofResult span _).definite.ne_deferred
  | float x => exact (AliasValue.computed_ofFloat span x).definite.ne_deferred

theorem evaluate_ne_deferred (h : s.Grounded) {a : AliasScope}
    (ha : ∀ name, a.values.find? name ≠ some .deferred) (position : Nat) (e : Expr) :
    (s.evaluate a position e).1 ≠ .deferred := by
  intro hopen
  obtain ⟨leaf, -, hleaf⟩ := s.exists_leaf_of_evaluate (a := a) (fun hd => hd.ne_deferred hopen)
  exact h.evaluateOperand_ne_deferred ha position leaf.1 leaf.2 (hleaf.trans hopen)

/-- No alias is left open. -/
theorem aliases_ne_deferred (h : s.Grounded) (name : String) :
    s.aliases.1.find? name ≠ some .deferred := by
  have hdone : ∀ name, s.doneList.values.find? name ≠ some .deferred := by
    refine WorkList.invariant_run (P := fun w => ∀ name, w.values.find? name ≠ some .deferred) ?_ ?_
    · intro w w' hstep hw key
      cases hstep with
      | park => exact hw key
      | @finish p rest hq hv =>
        intro hopen
        rcases NameMap.find?_insert_cases hopen with hold | ⟨hnew, -⟩
        · exact hw key hold
        · have houtcome : (s.outcome (Definitions.ofLines s).declared w.values p).1 ≠ .deferred :=
            h.evaluate_ne_deferred hw p.position p.expr
          exact houtcome (AliasValue.shift_eq_deferred hnew.symm)
    · intro key hopen
      obtain ⟨e, he⟩ := (Definitions.aliasesDeclared_ofLines s).malformed key _ hopen
      cases he
  intro hopen
  rcases s.find?_aliases.mp hopen with ⟨p, -, -, hstuck⟩ | hfound
  · cases hstuck
  · exact hdone name hfound

end Grounded

/-! ## Labels and aliases of the table -/

/-- A block of an object with a place has a word for a value, unless it is outside of memory. -/
theorem exists_word_of_blockValue (s : Site) (hb : s.context.base ≠ none) (l : Line) :
    (Definitions.blockValue s l).1 = .error ∨
      ∃ a : Address, (Definitions.blockValue s l).1 = .word a.toWord := by
  obtain ⟨base, hbase⟩ := Option.ne_none_iff_exists'.mp hb
  unfold Definitions.blockValue
  split
  · next hnone =>
    simp [instructionAddress?, Context.addressOf?, hbase] at hnone
  · next address _ => exact Or.inr ⟨address, rfl⟩
  · exact Or.inl rfl

theorem blockValue_of_base_none (s : Site) (hb : s.context.base = none) (l : Line) :
    (Definitions.blockValue s l).1 = .deferred := by
  have hnone : s.instructionAddress? l.preceding = none := by
    rw [instructionAddress?, Context.addressOf?, hb, Option.map_none]
  rw [Definitions.blockValue, hnone]

theorem settled_aliases (s : Site) {name : String} {v : AliasValue}
    (h : s.aliases.1.find? name = some v) : v.Settled :=
  s.accounted_doneList.settled_giveUp (Definitions.aliasesDeclared_ofLines s).nodup
    s.queue_doneList h

theorem Grounded.symbols_finished {s : Site} (h : s.Grounded) (policy : OversizedPolicy) :
    (s.extract policy).symbols.Finished := by
  intro name sym hsym
  cases hk : sym.kind with
  | label =>
    obtain ⟨l, hfirst, hkind, hvalue⟩ := exists_label_of_find? hsym hk
    have hl := hfirst.mem
    rw [hvalue]
    rcases s.exists_word_of_blockValue (h.base l hl (Or.inl ⟨name, hkind⟩)) l with herror | ⟨a, ha⟩
    · rw [herror]
      exact SymbolValue.noConfusion
    · rw [ha]
      exact SymbolValue.noConfusion
  | aliasName =>
    rw [find?_symbols_extract] at hsym
    obtain ⟨defined, hdefined, rfl⟩ := Option.map_eq_some_iff.mp hsym
    rw [Symbol.kind_given] at hk
    obtain ⟨v, hv⟩ := (s.isSome_aliases_iff hdefined).mpr hk
    rw [hv]
    cases v with
    | word w => exact SymbolValue.noConfusion
    | error e => exact SymbolValue.noConfusion
    | deferred => exact absurd hv (h.aliases_ne_deferred name)
    | dependsOn other => exact absurd rfl (s.settled_aliases hv other)

/-! ## Operands -/

theorem Grounded.resolveOperand_ne_deferred {s : Site} (h : s.Grounded) (policy : OversizedPolicy)
    (i : InstructionText) (position : Nat) (operand : OperandText) :
    (s.resolveOperand policy s.aliases.1 i position operand).1 ≠ .deferred := by
  unfold resolveOperand
  dsimp only
  split
  · next ref _ =>
    have hresolve := h.resolve_ne_deferred ref position (i.inlineBytes < 4) operand.span
    split
    · exact OperandValue.noConfusion
    · next heq => exact absurd (congrArg Prod.fst heq) hresolve
    · exact OperandValue.noConfusion
  · split
    · exact OperandValue.inlined_ne_deferred _ _ _ _
    · next hopen => exact absurd hopen (h.aliases_ne_deferred _)
    · exact OperandValue.noConfusion
    · exact OperandValue.noConfusion
    · exact OperandValue.noConfusion
  · split
    · exact OperandValue.inlined_ne_deferred _ _ _ _
    · exact OperandValue.noConfusion
  · split
    · exact OperandValue.noConfusion
    · exact OperandValue.noConfusion
    · exact OperandValue.noConfusion

/-! ## The whole pass -/

theorem exists_address {s : Site} (h : s.Grounded) {l : Line} (hl : l ∈ s.source.lines)
    (hm : l.MarksPlace) (he : (Definitions.blockValue s l).1 ≠ .error) :
    ∃ address, Definitions.addressIn (Definitions.blockValue s l).1 = some address := by
  rcases s.exists_word_of_blockValue (h.base l hl hm) l with herror | ⟨a, ha⟩
  · exact absurd herror he
  · exact ⟨a, by rw [ha]; rfl⟩

/-- **A grounded pass without failures leaves nothing open.** -/
theorem finished_extract {s : Site} (h : s.Grounded) {policy : OversizedPolicy}
    (hlog : (s.extract policy).log.failed = false) : (s.extract policy).Finished := by
  have htraced := Definitions.traced_ofLines s
  have hclean := Definitions.clean_ofLines s (s.ofLines_of_extract hlog)
  refine ⟨h.symbols_finished policy, ?_, ?_, ?_⟩
  · intro ins hins hopen
    obtain ⟨line, -, i, operand, -, -, -, hvalue, -⟩ := s.exists_operand_of_mem hins hopen
    exact h.resolveOperand_ne_deferred policy i line.preceding operand hvalue
  · intro name place hplace
    obtain ⟨l, hfirst, hk, rfl⟩ := (htraced.label_iff name place).mp hplace
    have hl := hfirst.mem
    have hsym := hclean.symbol l hl _ (Definitions.symbolOf?_of_label s hk)
    exact exists_address h hl (Or.inl ⟨name, hk⟩) (hclean.value _ _ hsym)
  · intro name place hplace
    obtain ⟨l, hfirst, rfl⟩ := (htraced.block_iff name place).mp hplace
    have hk := Line.kind_of_blockName? hfirst.named
    exact exists_address h hfirst.mem (Or.inr ⟨name, hk⟩)
      (hclean.block l hfirst.mem name hfirst.named).2

/-- A pass over an object without a place leaves its blocks open. -/
theorem not_finished_extract {s : Site} (hb : s.context.base = none) {policy : OversizedPolicy}
    (hlog : (s.extract policy).log.failed = false) {l : Line} (hl : l ∈ s.source.lines)
    (hm : l.MarksPlace) : ¬(s.extract policy).Finished := by
  have hclean := Definitions.clean_ofLines s (s.ofLines_of_extract hlog)
  have hvalue := s.blockValue_of_base_none hb l
  intro hfinished
  rcases hm with ⟨name, hk⟩ | ⟨name, hk⟩
  · have hsym := hclean.symbol l hl _ (Definitions.symbolOf?_of_label s hk)
    have hfind := s.find?_symbols_extract policy name
    rw [hsym, aliases_eq_none_of_label hsym rfl] at hfind
    exact hfinished.symbols name _ hfind hvalue
  · have hname : l.blockName? = some name := by simp [Line.blockName?, hk]
    obtain ⟨a, ha⟩ := hfinished.blocks name _ (hclean.block l hl name hname).1
    rw [hvalue] at ha
    cases ha

end Site

end LinkAsm
