import LinkAsm.Proofs.Pass.Failures

/-!
# The blocks of a pass

A block label that is accepted is the first definition of its name, and stays in the table as it was
defined: no alias of that name is evaluated.  References to labels and embedded blocks look for the
first line with the name, which is the line that is accepted.  So the table, the addresses of blocks
and the references all speak of one position, and if the pass knows its address they give the same
(`Site.placeAgrees_of_address`).

* `Site.find?_symbols_extract_label`, `Site.exists_label_of_find?`: the labels of the table.
* `Site.PlaceAgrees`: all that a pass says of the place of an instruction.
-/

namespace LinkAsm

/-- The name of the block label that a line is. -/
def Line.labelName? (line : Line) : Option String :=
  match line.kind with
  | .label name => some name
  | _ => none

namespace Definitions

variable {lines : List Line} {l : Line} {name : String}

/-- Of the positions of the lines with a name, that of the first line is found. -/
theorem lookup_of_firstNamed {f : Line → Option String} {g : Line → Option (String × Nat)}
    (hg : ∀ line, g line = (f line).map (·, line.preceding)) (h : FirstNamed f lines l name) :
    (lines.filterMap g).lookup name = some l.preceding := by
  obtain ⟨before, after, rfl, hname, hbefore⟩ := h
  have hhead : g l = some (name, l.preceding) := by rw [hg, hname, Option.map_some]
  have hnone : (before.filterMap g).lookup name = none := by
    rw [List.lookup_eq_none_iff]
    intro entry hentry
    obtain ⟨line, hline, heq⟩ := List.mem_filterMap.mp hentry
    rw [hg] at heq
    obtain ⟨key, hkey, rfl⟩ := Option.map_eq_some_iff.mp heq
    rw [bne_iff_ne]
    rintro rfl
    exact hbefore line hline hkey
  rw [List.filterMap_append, List.lookup_append, hnone, Option.none_or,
    List.filterMap_cons_some hhead, NameMap.lookup_cons_ite, if_pos rfl]

theorem blockPositions_of_firstNamed {source : Source}
    (h : FirstNamed Line.blockName? source.lines l name) :
    source.blockPositions.find? name = some l.preceding := by
  rw [Source.blockPositions, NameMap.find?_ofList]
  refine lookup_of_firstNamed ?_ h
  intro line
  unfold Line.blockName?
  cases line.kind <;> rfl

/-- A label that is the first definition of its name is the first label of that name. -/
theorem firstNamed_label_of_firstDefinition (h : FirstDefinition lines l name)
    (hk : l.kind = .label name) : FirstNamed Line.labelName? lines l name := by
  obtain ⟨before, after, hsplit, -, hbefore⟩ := h
  refine ⟨before, after, hsplit, by simp [Line.labelName?, hk], ?_⟩
  intro line hline hname
  refine hbefore line hline ?_
  unfold Line.labelName? at hname
  split at hname
  · next key hkey =>
    rw [Line.symbolName?, hkey]
    exact hname
  · cases hname

theorem labelPosition?_of_firstNamed {source : Source}
    (h : FirstNamed Line.labelName? source.lines l name) :
    source.labelPosition? name = some l.preceding := by
  refine lookup_of_firstNamed ?_ h
  intro line
  unfold Line.labelName?
  cases line.kind <;> rfl

theorem labelPosition?_of_firstDefinition {source : Source}
    (h : FirstDefinition source.lines l name) (hk : l.kind = .label name) :
    source.labelPosition? name = some l.preceding :=
  labelPosition?_of_firstNamed (firstNamed_label_of_firstDefinition h hk)

theorem kind_of_symbolOf? {s : Site} {sym : Symbol} (h : symbolOf? s l = some sym)
    (hk : sym.kind = .label) :
    l.kind = .label sym.name ∧ sym = ⟨.label, sym.name, l.span, (blockValue s l).1, true⟩ := by
  unfold symbolOf? at h
  split at h
  · next key hkind =>
    obtain rfl := Option.some.inj h
    exact ⟨hkind, rfl⟩
  · obtain rfl := Option.some.inj h
    cases hk
  · obtain ⟨symbol, -, hlocal⟩ := Option.bind_eq_some_iff.mp h
    obtain ⟨key, -, rfl⟩ := Option.map_eq_some_iff.mp hlocal
    cases hk
  · cases h
  · cases h

end Definitions

theorem Symbol.kind_given (sym : Symbol) (v : Option AliasValue) :
    (sym.given v).kind = sym.kind := by
  cases v <;> rfl

namespace Site

open Definitions

variable {s : Site} {l : Line} {name : String} {policy : OversizedPolicy}

/-! ## Labels of the table -/

/-- The aliases of the table, and no others, have a value. -/
theorem isSome_aliases_iff (s : Site) {name : String} {sym : Symbol}
    (h : (ofLines s).symbols.find? name = some sym) :
    (∃ v, s.aliases.1.find? name = some v) ↔ sym.kind = .aliasName := by
  rw [← NameMap.mem_keys_iff, s.keys_aliases_perm.mem_iff,
    (aliasesDeclared_ofLines s).mem_iff]
  constructor
  · rintro ⟨found, hfound, hkind⟩
    obtain rfl := Option.some.inj (h.symm.trans hfound)
    exact hkind
  · intro hkind
    exact ⟨sym, h, hkind⟩

theorem aliases_eq_none_of_label {sym : Symbol} (h : (ofLines s).symbols.find? name = some sym)
    (hk : sym.kind = .label) : s.aliases.1.find? name = none := by
  rw [Option.eq_none_iff_forall_ne_some]
  intro v hv
  rw [(s.isSome_aliases_iff h).mp ⟨v, hv⟩] at hk
  cases hk

/-- A label that is accepted is in the table, with the address of its line. -/
theorem find?_symbols_extract_label (hfirst : FirstDefinition s.source.lines l name)
    (hk : l.kind = .label name) (policy : OversizedPolicy) :
    (s.extract policy).symbols.find? name =
      some ⟨.label, name, l.span, (blockValue s l).1, true⟩ := by
  have hsym := ((traced_ofLines s).symbol_iff name _).mpr ⟨l, hfirst, symbolOf?_of_label s hk⟩
  rw [find?_symbols_extract, hsym, aliases_eq_none_of_label hsym rfl]
  rfl

/-- The labels of the table are the labels that are accepted. -/
theorem exists_label_of_find? {sym : Symbol}
    (h : (s.extract policy).symbols.find? name = some sym) (hk : sym.kind = .label) :
    ∃ l, FirstDefinition s.source.lines l name ∧ l.kind = .label name ∧
      sym.value = (blockValue s l).1 := by
  rw [find?_symbols_extract] at h
  obtain ⟨defined, hdefined, rfl⟩ := Option.map_eq_some_iff.mp h
  rw [Symbol.kind_given] at hk
  rw [aliases_eq_none_of_label hdefined hk]
  obtain ⟨l, hfirst, hline⟩ := ((traced_ofLines s).symbol_iff name defined).mp hdefined
  obtain ⟨hkind, hsym⟩ := kind_of_symbolOf? hline hk
  have hname : defined.name = name := by
    have hnamed := hfirst.named
    rw [symbolName?_of_symbolOf? hline] at hnamed
    exact Option.some.inj hnamed
  exact ⟨l, hfirst, hname ▸ hkind, congrArg Symbol.value hsym⟩

/-! ## Places of instructions -/

theorem blockValue_of_address {a : Address} (h : s.instructionAddress? l.preceding = some (.ok a)) :
    (blockValue s l).1 = .word a.toWord := by
  rw [blockValue, h]

theorem exists_address_of_blockValue {w : Word} (h : (blockValue s l).1 = .word w) :
    ∃ a, s.instructionAddress? l.preceding = some (.ok a) ∧ a.toWord = w := by
  unfold blockValue at h
  split at h
  · cases h
  · next a haddress => exact ⟨a, haddress, SymbolValue.word.inj h⟩
  · cases h

theorem blockAddress_of_address {position : Nat} {a : Address}
    (h : s.instructionAddress? position = some (.ok a)) : s.blockAddress position = .resolved a := by
  rw [blockAddress, h]
  rfl

/-- Whether all that a pass says of the place of an instruction is the address `a`: the labels and
embedded blocks there, the references to them, and the reference of the instruction to itself. -/
structure PlaceAgrees (s : Site) (r : PassResult) (position : Nat) (a : Address) : Prop where
  label : ∀ l name, FirstDefinition s.source.lines l name → l.kind = .label name →
    l.preceding = position → r.labels.find? name = some (some a) ∧
      r.symbols.find? name = some ⟨.label, name, l.span, .word a.toWord, true⟩ ∧
      ∀ k span, (s.resolve (.label name) k false span).1 = .resolved a
  block : ∀ l name, FirstNamed Line.blockName? s.source.lines l name → l.preceding = position →
    r.blocks.find? name = some (some a) ∧
      ∀ k span, (s.resolve (.block name) k false span).1 = .resolved a
  own : ∀ span, (s.resolve (.relative .own 0) position false span).1 = .resolved a

/-- **A place has one address**: if a pass knows the address of an instruction, all it says of its
place is that address. -/
theorem placeAgrees_of_address (hscope : s.context.scope ≠ .localPass)
    (hblocks : s.context.blocks = some s.source.blockPositions) {position : Nat} {a : Address}
    (haddress : s.instructionAddress? position = some (.ok a))
    (hown : s.context.origin.instruction (s.index position) = .ok a) (policy : OversizedPolicy) :
    s.PlaceAgrees (s.extract policy) position a := by
  have hlocal := Context.isLocal_eq_false hscope
  have hvalue : ∀ l : Line, l.preceding = position → (blockValue s l).1 = .word a.toWord := by
    rintro l rfl
    exact blockValue_of_address haddress
  refine ⟨?_, ?_, ?_⟩
  · intro l name hfirst hk hposition
    refine ⟨?_, ?_, ?_⟩
    · refine ((traced_ofLines s).label_iff name _).mpr ⟨l, hfirst, hk, ?_⟩
      rw [hvalue l hposition]
      rfl
    · rw [find?_symbols_extract_label hfirst hk, hvalue l hposition]
    · intro k span
      simp only [resolve, resolveWide, hlocal, labelPosition?_of_firstDefinition hfirst hk,
        hposition, blockAddress_of_address haddress]
      rfl
  · intro l name hfirst hposition
    refine ⟨?_, ?_⟩
    · refine ((traced_ofLines s).block_iff name _).mpr ⟨l, hfirst, ?_⟩
      rw [hvalue l hposition]
      rfl
    · intro k span
      simp only [resolve, resolveWide, hlocal, hblocks, blockPositions_of_firstNamed hfirst,
        hposition, blockAddress_of_address haddress]
      rfl
  · intro span
    have hnonneg : ¬(s.index position : Int) < 0 := by omega
    simp only [resolve, resolveWide, hlocal, relativeAddress, Int.add_zero, hnonneg, if_false,
      Int.toNat_natCast, hown]
    rfl

end Site

end LinkAsm
