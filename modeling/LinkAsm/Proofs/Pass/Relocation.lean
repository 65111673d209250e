import LinkAsm.Proofs.Pass.Deferral

/-!
# Passes over an object at two places

An object can be assembled at two places.  `Site.MovedBy` relates the two passes: what they know is
the same but for addresses, and those of the second are those of the first moved by a distance.
Whatever an address is computed from, it moves with the origin or with the base of the object; one
that comes from another object was moved when that object was assembled.

Aliases may compute anything from an address, also that it is out of range.  So the passes are
compared only where both know the address.

* `Site.MovedBy.resolve`: references to addresses.
* `Site.MovedBy.extract`: the results of two passes that leave nothing open and no error.
-/

namespace LinkAsm

/-! ## What moves -/

/-- Whether an address is another one moved by a distance. -/
def Address.MovedBy (distance : Int) (a b : Address) : Prop := (b.value : Int) = a.value + distance

/-- Whether two places are known and the second is the first moved by a distance. -/
def Address.BothMoved (distance : Int) (x y : Option Address) : Prop :=
  ∃ a b, x = some a ∧ y = some b ∧ a.MovedBy distance b

/-- Whether two symbols are the same but for their value, and that of a block label is an address
moved by a distance. -/
structure Symbol.MovedBy (distance : Int) (sym sym' : Symbol) : Prop where
  same : sym' = { sym with value := sym'.value }
  label : sym.kind = .label → ∃ a b : Address, sym.value = .word a.toWord ∧
    sym'.value = .word b.toWord ∧ a.MovedBy distance b

/-- Whether two tables have the same symbols, moved by a distance. -/
structure SymbolTable.MovedBy (distance : Int) (t t' : SymbolTable) : Prop where
  object : t'.object = t.object
  symbol : ∀ name, Option.Rel (Symbol.MovedBy distance) (t.find? name) (t'.find? name)

/-- Whether an operand is another one moved by a distance.  Nothing is said of the values of aliases,
and neither operand is an error or left open. -/
inductive OperandValue.MovedBy (distance : Int) : OperandValue → OperandValue → Prop
  | address {a b : Address} (h : a.MovedBy distance b) : MovedBy distance (.address a) (.address b)
  | value (v w : Word) : MovedBy distance (.value v) (.value w)
  | raw (text : String) : MovedBy distance (.raw text) (.raw text)

/-- Whether two instructions are the same but for operands that are moved by a distance. -/
structure Instruction.MovedBy (distance : Int) (i i' : Instruction) : Prop where
  mnemonic : i'.mnemonic = i.mnemonic
  span : i'.span = i.span
  position : i'.position = i.position
  operands : List.Forall₂ (OperandValue.MovedBy distance) i.operands i'.operands

/-- Whether two passes found the same, moved by a distance. -/
structure PassResult.MovedBy (distance : Int) (r r' : PassResult) : Prop where
  symbols : r.symbols.MovedBy distance r'.symbols
  instructions : List.Forall₂ (Instruction.MovedBy distance) r.instructions r'.instructions
  labels : ∀ name,
    Option.Rel (Address.BothMoved distance) (r.labels.find? name) (r'.labels.find? name)
  blocks : ∀ name,
    Option.Rel (Address.BothMoved distance) (r.blocks.find? name) (r'.blocks.find? name)

/-- Whether two references mean addresses a distance apart, if they both mean one. -/
def Resolution.MovedBy (distance : Int) (r r' : Resolution) : Prop :=
  ∀ a b, r = .resolved a → r' = .resolved b → a.MovedBy distance b

/-- Two passes that know the same but for addresses, and those moved by a distance. -/
structure Site.MovedBy (distance : Int) (s t : Site) : Prop where
  object : t.object = s.object
  source : t.source = s.source
  scope : t.context.scope = s.context.scope
  count : t.context.precedingCount = s.context.precedingCount
  order : t.context.order = s.context.order
  blocks : t.context.blocks = s.context.blocks
  mock : t.context.mockExternals = s.context.mockExternals
  known : t.context.known = s.context.known
  origin : s.context.origin.MovedBy distance t.context.origin
  base : Option.Rel (Address.MovedBy distance) s.context.base t.context.base
  tables : ∀ object, Option.Rel (SymbolTable.MovedBy distance) (s.context.tableOf? object)
    (t.context.tableOf? object)

variable {distance : Int}

/-! ## Addresses -/

/-- Instructions move with the address that they are counted from. -/
theorem Address.MovedBy.instruction {a b a' b' : Address} (h : a.MovedBy distance b) {n : Nat}
    (ha : a.instruction n = .ok a') (hb : b.instruction n = .ok b') : a'.MovedBy distance b' := by
  obtain ⟨-, rfl⟩ := ofNat_eq_ok_iff.mp ha
  obtain ⟨-, rfl⟩ := ofNat_eq_ok_iff.mp hb
  unfold MovedBy at h ⊢
  dsimp only
  omega

theorem Symbol.MovedBy.kind {sym sym' : Symbol} (h : sym.MovedBy distance sym') :
    sym'.kind = sym.kind := by
  rw [h.same]

theorem Symbol.MovedBy.exported {sym sym' : Symbol} (h : sym.MovedBy distance sym') :
    sym'.exported = sym.exported := by
  rw [h.same]

namespace Resolution

theorem eq_ok_of_ofResult {result : Except RangeError Address} {a : Address}
    (h : ofResult result = .resolved a) : result = .ok a := by
  cases result with
  | ok b => rw [resolved.inj h]
  | error e => cases h

theorem resolved_of_narrowed {r : Resolution} {a : Address} (h : r.narrowed = .resolved a) :
    r = .resolved a := by
  cases r with
  | resolved b =>
    rw [narrowed] at h
    split at h
    · exact h
    · cases h
  | deferred => cases h
  | failed failure => cases h

theorem movedBy_failed (failure : AddressFailure) (r : Resolution) :
    (failed failure).MovedBy distance r := by
  intro a b ha
  cases ha

theorem MovedBy.narrowed {r r' : Resolution} (h : r.MovedBy distance r') :
    r.narrowed.MovedBy distance r'.narrowed := by
  intro a b ha hb
  exact h a b (resolved_of_narrowed ha) (resolved_of_narrowed hb)

end Resolution

theorem SymbolTable.MovedBy.exported {t t' : SymbolTable} (h : t.MovedBy distance t')
    (name : String) :
    Option.Rel (Symbol.MovedBy distance) (t.findExported? name) (t'.findExported? name) := by
  have hsymbol := h.symbol name
  unfold findExported?
  generalize t.find? name = x at hsymbol ⊢
  generalize t'.find? name = y at hsymbol ⊢
  cases hsymbol with
  | none => exact .none
  | some hmoved =>
    rw [Option.filter_some, Option.filter_some, hmoved.exported]
    split
    · exact .some hmoved
    · exact .none

/-- A symbol with the value of its alias is moved if the symbol is. -/
theorem Symbol.MovedBy.given {sym sym' : Symbol} (h : sym.MovedBy distance sym')
    {v v' : Option AliasValue} (hv : sym.kind = .label → v = none ∧ v' = none) :
    (sym.given v).MovedBy distance (sym'.given v') := by
  refine ⟨?_, ?_⟩
  · rw [h.same]
    cases v <;> cases v' <;> rfl
  · rw [kind_given]
    intro hk
    obtain ⟨rfl, rfl⟩ := hv hk
    exact h.label hk

theorem OperandValue.inlined_error_or_value (policy : OversizedPolicy) (w : Word) (bytes : Nat)
    (span : Span) :
    (inlined policy w bytes span).1 = .error ∨ ∃ v, (inlined policy w bytes span).1 = .value v := by
  rcases inlined_cases policy w bytes span with ⟨heq, -⟩ | ⟨m, -, heq⟩
  · rw [heq]
    exact Or.inr ⟨w, rfl⟩
  · rw [heq]
    cases m.isFailure with
    | true => exact Or.inl rfl
    | false => exact Or.inr ⟨w, rfl⟩

namespace Site

open Definitions

variable {s t : Site}

namespace MovedBy

theorem isLocal (h : s.MovedBy distance t) : t.context.isLocal = s.context.isLocal := by
  rw [Context.isLocal, Context.isLocal, h.scope]

theorem index (h : s.MovedBy distance t) (position : Nat) :
    t.index position = s.index position := by
  simp only [Site.index, Context.indexOf, h.object, h.source, h.count, h.order]

/-- The address of an instruction moves, whether it is counted from the base of the object or from
the origin of the program. -/
theorem instructionAddress? (h : s.MovedBy distance t) {position : Nat} {a b : Address}
    (ha : s.instructionAddress? position = some (.ok a))
    (hb : t.instructionAddress? position = some (.ok b)) : a.MovedBy distance b := by
  obtain ⟨base, hbase, ha'⟩ := Option.map_eq_some_iff.mp ha
  obtain ⟨base', hbase', hb'⟩ := Option.map_eq_some_iff.mp hb
  rw [h.order] at hb'
  cases horder : s.context.order with
  | none =>
    have hmoved := h.base
    rw [hbase, hbase', Option.rel_some_some] at hmoved
    simp only [horder] at ha' hb'
    exact hmoved.instruction ha' hb'
  | some order =>
    have hindex := h.index position
    unfold Site.index at hindex
    simp only [horder, hindex] at ha' hb'
    exact h.origin.instruction ha' hb'

theorem blockAddress (h : s.MovedBy distance t) (position : Nat) :
    (s.blockAddress position).MovedBy distance (t.blockAddress position) := by
  have haddress : ∀ {r : Site} {a : Address}, r.blockAddress position = .resolved a →
      r.instructionAddress? position = some (.ok a) := by
    intro r a ha
    unfold Site.blockAddress at ha
    split at ha
    · cases ha
    · next result hresult => rw [hresult, Resolution.eq_ok_of_ofResult ha]
  intro a b ha hb
  exact h.instructionAddress? (haddress ha) (haddress hb)

theorem relativeAddress (h : s.MovedBy distance t) (anchor : Anchor) (offset : Int)
    (position : Nat) :
    (s.relativeAddress anchor offset position).MovedBy distance
      (t.relativeAddress anchor offset position) := by
  have hindex : ∀ index : Int, Resolution.MovedBy distance
      (if index < 0 then .failed (.outOfRange .tooSmall)
        else .ofResult (s.context.origin.instruction index.toNat))
      (if index < 0 then .failed (.outOfRange .tooSmall)
        else .ofResult (t.context.origin.instruction index.toNat)) := by
    intro index
    split
    · exact Resolution.movedBy_failed _ _
    · intro a b ha hb
      exact h.origin.instruction (Resolution.eq_ok_of_ofResult ha)
        (Resolution.eq_ok_of_ofResult hb)
  unfold Site.relativeAddress
  rw [h.index, h.count]
  cases anchor with
  | own => exact hindex _
  | global => exact hindex _

theorem exportOf? (h : s.MovedBy distance t) (object name : String) :
    Option.Rel (Symbol.MovedBy distance) (s.context.exportOf? object name)
      (t.context.exportOf? object name) := by
  have htable := h.tables object
  unfold Context.exportOf?
  generalize s.context.tableOf? object = x at htable ⊢
  generalize t.context.tableOf? object = y at htable ⊢
  cases htable with
  | none => exact .none
  | some hmoved => exact hmoved.exported name

/-- An imported address was moved with its object; one that is made up is the origin. -/
theorem importedAddress (h : s.MovedBy distance t) (qualifier label : String) (span : Span) :
    (s.importedAddress qualifier label span).1.MovedBy distance
      (t.importedAddress qualifier label span).1 := by
  unfold Site.importedAddress
  rw [h.source, h.known, h.mock]
  cases s.source.importFor? qualifier with
  | none => exact Resolution.movedBy_failed _ _
  | some directive =>
    dsimp only
    split
    · split
      · intro a b ha hb
        obtain rfl := Resolution.resolved.inj ha
        obtain rfl := Resolution.resolved.inj hb
        exact h.origin
      · exact Resolution.movedBy_failed _ _
    · have hexport := h.exportOf? directive.object label
      generalize s.context.exportOf? directive.object label = x at hexport ⊢
      generalize t.context.exportOf? directive.object label = y at hexport ⊢
      cases hexport with
      | none => exact Resolution.movedBy_failed _ _
      | @some sym sym' hmoved =>
        cases hk : sym.kind with
        | aliasName =>
          simp only [hk]
          exact Resolution.movedBy_failed _ _
        | label =>
          obtain ⟨a, b, ha, hb, hab⟩ := hmoved.label hk
          simp only [hmoved.kind, hk, ha, hb, Address.ofWord_toWord]
          intro a' b' ha' hb'
          obtain rfl := Resolution.resolved.inj ha'
          obtain rfl := Resolution.resolved.inj hb'
          exact hab

theorem resolveWide (h : s.MovedBy distance t) (ref : AddressRef) (position : Nat) (span : Span) :
    (s.resolveWide ref position span).1.MovedBy distance
      (t.resolveWide ref position span).1 := by
  unfold Site.resolveWide
  rw [h.isLocal]
  split
  · intro a b ha
    cases ha
  · cases ref with
    | label name =>
      dsimp only
      rw [h.source]
      cases s.source.labelPosition? name with
      | none => exact Resolution.movedBy_failed _ _
      | some block => exact h.blockAddress block
    | block name =>
      dsimp only
      rw [h.blocks]
      cases s.context.blocks with
      | none =>
        intro a b ha
        cases ha
      | some blocks =>
        dsimp only
        cases blocks.find? name with
        | none => exact Resolution.movedBy_failed _ _
        | some block => exact h.blockAddress block
    | imported qualifier target => exact h.importedAddress qualifier target span
    | relative anchor offset => exact h.relativeAddress anchor offset position

/-- **References move**: if a reference means an address in both passes, it is moved. -/
theorem resolve (h : s.MovedBy distance t) (ref : AddressRef) (position : Nat) (narrow : Bool)
    (span : Span) :
    (s.resolve ref position narrow span).1.MovedBy distance
      (t.resolve ref position narrow span).1 := by
  have hwide := h.resolveWide ref position span
  unfold Site.resolve
  dsimp only
  split
  · exact hwide.narrowed
  · exact hwide

end MovedBy

/-! ## Blocks -/

/-- Two names are found alike if each is found on a line with a property, and every such line gives
related values. -/
theorem optionRel_of_lines {α : Type} {R : α → α → Prop} {x y : Option α} {P : Line → Prop}
    {f g : Line → Option α} (hx : ∀ a, x = some a ↔ ∃ l, P l ∧ f l = some a)
    (hy : ∀ b, y = some b ↔ ∃ l, P l ∧ g l = some b) (h : ∀ l, P l → Option.Rel R (f l) (g l)) :
    Option.Rel R x y := by
  cases x with
  | some a =>
    obtain ⟨l, hl, hf⟩ := (hx a).mp rfl
    have hrel := h l hl
    rw [hf] at hrel
    cases hg : g l with
    | none =>
      rw [hg] at hrel
      cases hrel
    | some b =>
      rw [hg] at hrel
      rw [(hy b).mpr ⟨l, hl, hg⟩]
      exact hrel
  | none =>
    cases y with
    | none => exact .none
    | some b =>
      obtain ⟨l, hl, hg⟩ := (hy b).mp rfl
      have hrel := h l hl
      rw [hg] at hrel
      cases hf : f l with
      | none =>
        rw [hf] at hrel
        cases hrel
      | some a => cases (hx a).mpr ⟨l, hl, hf⟩

theorem instructionAddress?_of_addressIn {l : Line} {a : Address}
    (h : addressIn (blockValue s l).1 = some a) :
    s.instructionAddress? l.preceding = some (.ok a) := by
  cases hvalue : (blockValue s l).1 with
  | word w =>
    obtain ⟨b, hb, rfl⟩ := exists_address_of_blockValue hvalue
    rw [hvalue] at h
    rw [hb, show b = a from Option.some.inj h]
  | deferred =>
    rw [hvalue] at h
    cases h
  | error =>
    rw [hvalue] at h
    cases h

variable {policy : OversizedPolicy} {l : Line} {name : String}

/-- A pass that leaves nothing open knows where its block labels are. -/
theorem exists_address_of_label (hs : (s.extract policy).Finished)
    (hfirst : FirstDefinition s.source.lines l name) (hk : l.kind = .label name) :
    ∃ a, s.instructionAddress? l.preceding = some (.ok a) := by
  have hlabel := ((traced_ofLines s).label_iff name _).mpr ⟨l, hfirst, hk, rfl⟩
  obtain ⟨a, ha⟩ := hs.labels name _ hlabel
  exact ⟨a, instructionAddress?_of_addressIn ha⟩

/-- Places of blocks move, if they are those of the same lines and both passes know them. -/
theorem MovedBy.places (h : s.MovedBy distance t) {P : Line → Prop} {x y : Option (Option Address)}
    (hx : ∀ place, x = some place ↔ ∃ l, P l ∧ addressIn (blockValue s l).1 = place)
    (hy : ∀ place, y = some place ↔ ∃ l, P l ∧ addressIn (blockValue t l).1 = place)
    (hxknown : ∀ place, x = some place → ∃ a, place = some a)
    (hyknown : ∀ place, y = some place → ∃ b, place = some b) :
    Option.Rel (Address.BothMoved distance) x y := by
  refine optionRel_of_lines (P := P) (f := fun l => some (addressIn (blockValue s l).1))
    (g := fun l => some (addressIn (blockValue t l).1)) ?_ ?_ ?_
  · simpa only [Option.some.injEq] using hx
  · simpa only [Option.some.injEq] using hy
  · intro l hl
    obtain ⟨a, ha⟩ := hxknown _ ((hx _).mpr ⟨l, hl, rfl⟩)
    obtain ⟨b, hb⟩ := hyknown _ ((hy _).mpr ⟨l, hl, rfl⟩)
    exact .some ⟨a, b, ha, hb, h.instructionAddress? (instructionAddress?_of_addressIn ha)
      (instructionAddress?_of_addressIn hb)⟩

theorem MovedBy.labels (h : s.MovedBy distance t) (hs : (s.extract policy).Finished)
    (ht : (t.extract policy).Finished) (name : String) :
    Option.Rel (Address.BothMoved distance) ((s.extract policy).labels.find? name)
      ((t.extract policy).labels.find? name) := by
  refine h.places (P := fun l => FirstDefinition s.source.lines l name ∧ l.kind = .label name)
    ?_ ?_ (hs.labels name) (ht.labels name)
  · intro place
    simp only [and_assoc]
    exact (traced_ofLines s).label_iff name place
  · intro place
    simp only [and_assoc, ← h.source]
    exact (traced_ofLines t).label_iff name place

theorem MovedBy.embedded (h : s.MovedBy distance t) (hs : (s.extract policy).Finished)
    (ht : (t.extract policy).Finished) (name : String) :
    Option.Rel (Address.BothMoved distance) ((s.extract policy).blocks.find? name)
      ((t.extract policy).blocks.find? name) := by
  refine h.places ((traced_ofLines s).block_iff name) ?_ (hs.blocks name) (ht.blocks name)
  rw [← h.source]
  exact (traced_ofLines t).block_iff name

/-! ## Symbols -/

theorem optionRel_symbolOf? (h : s.MovedBy distance t) (hs : (s.extract policy).Finished)
    (ht : (t.extract policy).Finished) (hfirst : FirstDefinition s.source.lines l name) :
    Option.Rel (Symbol.MovedBy distance) (symbolOf? s l) (symbolOf? t l) := by
  have hnamed := hfirst.named
  unfold symbolOf?
  cases hk : l.kind with
  | label key =>
    rw [Line.symbolName?, hk] at hnamed
    obtain rfl := Option.some.inj hnamed
    obtain ⟨a, ha⟩ := exists_address_of_label hs hfirst hk
    obtain ⟨b, hb⟩ := exists_address_of_label ht (h.source ▸ hfirst) hk
    refine .some ⟨rfl, fun _ => ⟨a, b, ?_, ?_, h.instructionAddress? ha hb⟩⟩
    · exact blockValue_of_address ha
    · exact blockValue_of_address hb
  | aliasDefinition a => exact .some ⟨rfl, SymbolKind.noConfusion⟩
  | importing i =>
    dsimp only
    cases i.symbol with
    | none => exact .none
    | some symbol =>
      cases i.localName with
      | none => exact .none
      | some key => exact .some ⟨rfl, SymbolKind.noConfusion⟩
  | block key => exact .none
  | instruction i => exact .none

theorem MovedBy.symbols (h : s.MovedBy distance t) (hs : (s.extract policy).Finished)
    (ht : (t.extract policy).Finished) :
    (s.extract policy).symbols.MovedBy distance (t.extract policy).symbols := by
  refine ⟨?_, ?_⟩
  · rw [object_symbols_extract, object_symbols_extract, h.object]
  · intro name
    have hdefined : Option.Rel (Symbol.MovedBy distance) ((ofLines s).symbols.find? name)
        ((ofLines t).symbols.find? name) := by
      refine optionRel_of_lines ((traced_ofLines s).symbol_iff name) ?_
        fun l hfirst => optionRel_symbolOf? h hs ht hfirst
      simpa only [h.source] using (traced_ofLines t).symbol_iff name
    rw [find?_symbols_extract, find?_symbols_extract]
    generalize hx : (ofLines s).symbols.find? name = x at hdefined ⊢
    generalize hy : (ofLines t).symbols.find? name = y at hdefined ⊢
    cases hdefined with
    | none => exact .none
    | some hmoved =>
      refine .some (hmoved.given ?_)
      intro hk
      exact ⟨aliases_eq_none_of_label hx hk, aliases_eq_none_of_label hy (hmoved.kind.trans hk)⟩

/-! ## Operands -/

/-- An operand is an error or left open, or else the text says what it is: an address, a value or
the text itself. -/
theorem resolveOperand_cases (s : Site) (policy : OversizedPolicy) (values : NameMap AliasValue)
    (i : InstructionText) (position : Nat) (operand : OperandText) :
    (s.resolveOperand policy values i position operand).1 = .deferred ∨
      (s.resolveOperand policy values i position operand).1 = .error ∨
      match InstructionOperand.parse operand.text with
      | .ok (.address ref) => ∃ a,
          (s.resolve ref position (i.inlineBytes < 4) operand.span).1 = .resolved a ∧
            (s.resolveOperand policy values i position operand).1 = .address a
      | .ok _ => ∃ w, (s.resolveOperand policy values i position operand).1 = .value w
      | .error _ => (s.resolveOperand policy values i position operand).1 =
          .raw (String.ofList operand.text) := by
  cases hparse : InstructionOperand.parse operand.text with
  | ok parsed =>
    cases parsed with
    | address ref =>
      simp only [resolveOperand, hparse]
      split
      · next a notes hresolve => exact Or.inr (Or.inr ⟨a, by rw [hresolve], rfl⟩)
      · exact Or.inl rfl
      · exact Or.inr (Or.inl rfl)
    | aliasRef name =>
      simp only [resolveOperand, hparse]
      split
      · exact Or.inr (OperandValue.inlined_error_or_value _ _ _ _)
      · exact Or.inl rfl
      all_goals exact Or.inr (Or.inl rfl)
    | integer n =>
      simp only [resolveOperand, hparse]
      split
      · exact Or.inr (OperandValue.inlined_error_or_value _ _ _ _)
      · exact Or.inr (Or.inl rfl)
  | error failure =>
    simp only [resolveOperand, hparse]
    split
    · exact Or.inr (Or.inl rfl)
    · exact Or.inr (Or.inl rfl)
    · exact Or.inr (Or.inr rfl)

/-- Operands move, if neither pass leaves one open or finds an error. -/
theorem MovedBy.resolveOperand (h : s.MovedBy distance t) {values values' : NameMap AliasValue}
    {i : InstructionText} {position : Nat} {operand : OperandText} {v w : OperandValue}
    (hv : (s.resolveOperand policy values i position operand).1 = v) (hvopen : v ≠ .deferred)
    (hverror : v ≠ .error) (hw : (t.resolveOperand policy values' i position operand).1 = w)
    (hwopen : w ≠ .deferred) (hwerror : w ≠ .error) : v.MovedBy distance w := by
  have hs := s.resolveOperand_cases policy values i position operand
  have ht := t.resolveOperand_cases policy values' i position operand
  rw [hv] at hs
  rw [hw] at ht
  replace hs := (hs.resolve_left hvopen).resolve_left hverror
  replace ht := (ht.resolve_left hwopen).resolve_left hwerror
  cases hparse : InstructionOperand.parse operand.text with
  | ok parsed =>
    cases parsed with
    | address ref =>
      simp only [hparse] at hs ht
      obtain ⟨a, ha, rfl⟩ := hs
      obtain ⟨b, hb, rfl⟩ := ht
      exact .address (h.resolve _ _ _ _ a b ha hb)
    | aliasRef name =>
      simp only [hparse] at hs ht
      obtain ⟨x, rfl⟩ := hs
      obtain ⟨y, rfl⟩ := ht
      exact .value x y
    | integer n =>
      simp only [hparse] at hs ht
      obtain ⟨x, rfl⟩ := hs
      obtain ⟨y, rfl⟩ := ht
      exact .value x y
  | error failure =>
    simp only [hparse] at hs ht
    rw [hs, ht]
    exact .raw _

/-! ## The whole pass -/

/-- The operands that a line gives, in a pass that leaves none open and finds no error. -/
theorem known_operands (hs : (s.extract policy).Finished)
    (hlog : (s.extract policy).log.failed = false) (hl : l ∈ s.source.lines) {i : InstructionText}
    (hk : l.kind = .instruction i) {operand : OperandText} (hoperand : operand ∈ i.operands) :
    (s.resolveOperand policy s.aliases.1 i l.preceding operand).1 ≠ .deferred ∧
      (s.resolveOperand policy s.aliases.1 i l.preceding operand).1 ≠ .error := by
  have hline : s.resolveLine? policy s.aliases.1 l = some (⟨i.mnemonic,
      (i.operands.map (s.resolveOperand policy s.aliases.1 i l.preceding)).map (·.1), l.span,
      l.preceding⟩, (i.operands.map (s.resolveOperand policy s.aliases.1 i l.preceding)).flatMap
        (·.2)) := by
    simp only [resolveLine?, hk]
  have hins := List.mem_map_of_mem (f := Prod.fst) (List.mem_filterMap.mpr ⟨l, hl, hline⟩)
  have hmem := List.mem_map_of_mem (f := Prod.fst)
    (List.mem_map_of_mem (f := s.resolveOperand policy s.aliases.1 i l.preceding) hoperand)
  refine ⟨?_, ?_⟩
  · intro hopen
    exact hs.operands _ hins (hopen ▸ hmem)
  · intro herror
    exact s.error_notMem_operands hlog hins (herror ▸ hmem)

theorem MovedBy.resolveLine? (h : s.MovedBy distance t) (hs : (s.extract policy).Finished)
    (hslog : (s.extract policy).log.failed = false) (ht : (t.extract policy).Finished)
    (htlog : (t.extract policy).log.failed = false) (hl : l ∈ s.source.lines) :
    Option.Rel (fun x y => x.1.MovedBy distance y.1) (s.resolveLine? policy s.aliases.1 l)
      (t.resolveLine? policy t.aliases.1 l) := by
  cases hk : l.kind with
  | instruction i =>
    simp only [Site.resolveLine?, hk]
    refine .some ⟨rfl, rfl, rfl, ?_⟩
    simp only [List.map_map]
    refine List.rel_map (R := fun x y => x = y ∧ x ∈ i.operands) ?_
      (List.forall₂_same.mpr fun operand hoperand => ⟨rfl, hoperand⟩)
    rintro operand _ ⟨rfl, hoperand⟩
    obtain ⟨hsopen, hserror⟩ := known_operands hs hslog hl hk hoperand
    obtain ⟨htopen, hterror⟩ := known_operands ht htlog (h.source.symm ▸ hl) hk hoperand
    exact h.resolveOperand rfl hsopen hserror rfl htopen hterror
  | _ =>
    simp only [Site.resolveLine?, hk]
    exact .none

/-- **A pass moves with its object**: two passes that know the same but for a distance find the same
but for that distance, if they leave nothing open and find no error. -/
theorem MovedBy.extract (h : s.MovedBy distance t) (hs : (s.extract policy).Finished)
    (hslog : (s.extract policy).log.failed = false) (ht : (t.extract policy).Finished)
    (htlog : (t.extract policy).log.failed = false) :
    (s.extract policy).MovedBy distance (t.extract policy) := by
  refine ⟨h.symbols hs ht, ?_, h.labels hs ht, h.embedded hs ht⟩
  show List.Forall₂ (Instruction.MovedBy distance) ((s.resolved policy).map (·.1))
    ((t.resolved policy).map (·.1))
  rw [List.forall₂_map_left_iff, List.forall₂_map_right_iff, resolved, resolved, h.source]
  refine List.rel_filterMap (R := fun x y => x = y ∧ x ∈ s.source.lines) ?_
    (List.forall₂_same.mpr fun line hline => ⟨rfl, hline⟩)
  rintro line _ ⟨rfl, hline⟩
  exact h.resolveLine? hs hslog ht htlog hline

end Site

end LinkAsm
