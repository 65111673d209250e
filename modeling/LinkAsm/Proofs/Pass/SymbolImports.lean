import Mathlib
import LinkAsm.Proofs.Pass.Imports

/-!
# Imports of symbols

An import `X = O:S` makes an alias `X` that stands for `O:S`.  The qualifier `O` of this alias is
looked up like any other: the first import that answers to it decides, and an import `O = P` of a
whole object answers to `O` as well.  So `X` has the value of `S` in the object of the first import
that answers to `O`.  That is the object `O`, unless the name `O` was given to another object before.

* `Site.find?_aliases_of_free`: the value of an alias that names no other.
* `Site.symbolImport_binds_iff`: when an import of a symbol binds what it names.
-/

namespace LinkAsm

theorem AliasValue.toSymbolValue_shift (v : AliasValue) (n : Nat) :
    (v.shift n).toSymbolValue = v.toSymbolValue := by
  cases v <;> rfl

theorem SymbolValue.toSymbolValue_seenAt (v : SymbolValue) (span : Span) (symbol : String) :
    (v.seenAt span symbol).toSymbolValue = v := by
  cases v <;> rfl

theorem Import.answersTo_iff {i : Import} {qualifier : String} :
    i.answersTo qualifier = true ↔
      i.object = qualifier ∨ i.symbol = none ∧ i.localName = some qualifier := by
  simp [answersTo]

theorem Source.mem_imports {source : Source} {l : Line} {i : Import} (hl : l ∈ source.lines)
    (hkind : l.kind = .importing i) : i ∈ source.imports := by
  refine List.mem_filterMap.mpr ⟨l, hl, ?_⟩
  simp only [hkind]

/-- The name of an imported object is a qualifier, but perhaps of another object. -/
theorem Source.exists_importFor? {source : Source} {i : Import} (hi : i ∈ source.imports) :
    ∃ directive, source.importFor? i.object = some directive ∧
      (directive.object = i.object ∨
        directive.symbol = none ∧ directive.localName = some i.object) := by
  have hanswers : (source.imports.find? (·.answersTo i.object)).isSome = true :=
    List.find?_isSome.mpr ⟨i, hi, Import.answersTo_iff.mpr (Or.inl rfl)⟩
  obtain ⟨directive, hfor⟩ := Option.isSome_iff_exists.mp hanswers
  have hanswer := List.find?_some hfor
  exact ⟨directive, hfor, Import.answersTo_iff.mp hanswer⟩

namespace Site

open Definitions

variable {s : Site} {l : Line} {i : Import} {name symbol : String} {policy : OversizedPolicy}

/-- An alias that names no other has the value of its expression. -/
theorem find?_aliases_of_free {p : PendingAlias} (hp : pendingOf? l = some p)
    (hfirst : FirstDefinition s.source.lines l p.name) (hfree : ∀ other, ¬WorkList.Names p other) :
    s.aliases.1.find? p.name =
      some ((s.outcome (ofLines s).declared s.aliases.1 p).1.shift p.origin) := by
  have hmem : p ∈ (ofLines s).pending := ((traced_ofLines s).pending_iff p).mpr ⟨l, hp, hfirst⟩
  rcases s.sound_aliases hmem with ⟨other, -, hother, -⟩ | hvalue
  · exact absurd hother (hfree other)
  · exact hvalue

/-- The table has the value of an imported symbol. -/
theorem find?_symbols_extract_import (hfirst : FirstDefinition s.source.lines l name)
    (hkind : l.kind = .importing i) (hlocal : i.localName = some name)
    (hsymbol : i.symbol = some symbol) (policy : OversizedPolicy) :
    (s.extract policy).symbols.find? name = some ⟨.aliasName, name, l.span,
      (s.importedValue l.span i.object symbol).toSymbolValue, false⟩ := by
  have hpending : pendingOf? l =
      some ⟨name, ⟨.leaf l.span (.imported i.object symbol), none⟩, 0, l.preceding⟩ := by
    simp only [pendingOf?, hkind, hlocal, hsymbol, Option.bind_some, Option.map_some]
  have hdefined : symbolOf? s l = some ⟨.aliasName, name, l.span, .deferred, false⟩ := by
    simp only [symbolOf?, hkind, hlocal, hsymbol, Option.bind_some, Option.map_some]
  have hvalue := find?_aliases_of_free hpending hfirst (by
    -- the only leaf is a symbol of another object
    rintro other ⟨span, hleaf⟩
    cases List.mem_singleton.mp hleaf)
  rw [find?_symbols_extract, ((traced_ofLines s).symbol_iff name _).mpr ⟨l, hfirst, hdefined⟩,
    hvalue, Option.map_some]
  exact congrArg (fun v => some (Symbol.mk .aliasName name l.span v false))
    (AliasValue.toSymbolValue_shift _ 0)

/-- An imported symbol has the value that the object of its qualifier exports, or is an error. -/
theorem toSymbolValue_importedValue {qualifier : String} {directive : Import}
    (hscope : s.context.scope ≠ .localPass)
    (hfor : s.source.importFor? qualifier = some directive) (span : Span) (symbol : String) :
    (s.importedValue span qualifier symbol).toSymbolValue =
      ((s.context.exportOf? directive.object symbol).map (·.value)).getD .error := by
  rw [importedValue_of_importFor? hscope hfor]
  cases s.context.exportOf? directive.object symbol with
  | none => rfl
  | some found => exact found.value.toSymbolValue_seenAt span symbol

/-- **What an import of a symbol binds.**  In every pass but the local one, an accepted import
`X = O:S` gives `X` the value of `S` in the object of the first import that answers to `O`.  If the
object `O` exports `S` with a word, `X` has that word exactly if this first import is one of `O`, or
gives the name `O` to an object that exports `S` with the same word. -/
theorem symbolImport_binds_iff {sym : Symbol} {w : Word} (hscope : s.context.scope ≠ .localPass)
    (hfirst : FirstDefinition s.source.lines l name) (hkind : l.kind = .importing i)
    (hlocal : i.localName = some name) (hsymbol : i.symbol = some symbol)
    (hexport : s.context.exportOf? i.object symbol = some sym) (hword : sym.value = .word w)
    (policy : OversizedPolicy) :
    ∃ directive, s.source.importFor? i.object = some directive ∧
      ((s.extract policy).symbols.find? name).map (·.value) =
        some (((s.context.exportOf? directive.object symbol).map (·.value)).getD .error) ∧
      (((s.extract policy).symbols.find? name).map (·.value) = some (.word w) ↔
        directive.object = i.object ∨
          directive.symbol = none ∧ directive.localName = some i.object ∧
            (s.context.exportOf? directive.object symbol).map (·.value) = some (.word w)) := by
  have hl := hfirst.mem
  obtain ⟨directive, hfor, hname⟩ := Source.exists_importFor? (Source.mem_imports hl hkind)
  have hvalue : ((s.extract policy).symbols.find? name).map (·.value) =
      some (((s.context.exportOf? directive.object symbol).map (·.value)).getD .error) := by
    rw [find?_symbols_extract_import hfirst hkind hlocal hsymbol, Option.map_some,
      toSymbolValue_importedValue hscope hfor]
  refine ⟨directive, hfor, hvalue, ?_⟩
  rw [hvalue, Option.some.injEq]
  constructor
  · intro hbound
    rcases hname with hown | ⟨hwhole, hgiven⟩
    · exact Or.inl hown
    · refine Or.inr ⟨hwhole, hgiven, ?_⟩
      cases hfound : (s.context.exportOf? directive.object symbol).map (·.value) with
      | none =>
        rw [hfound] at hbound
        cases hbound
      | some v =>
        rw [hfound] at hbound
        exact congrArg some hbound
  · rintro (hown | ⟨-, -, hsame⟩)
    · rw [hown, hexport, Option.map_some, hword]
      rfl
    · rw [hsame]
      rfl

/-- An object with imports, behind the objects `O` and `P` which export `S` as `1` and `2`. -/
def behindTwo (imports : List Import) : Site where
  context := { Context.localTo ["O", "P", "Main"] false with
    scope := .globalPass
    preceding := [("O", 1), ("P", 2)].map fun (object, n) =>
      (SymbolTable.empty object).define ⟨.aliasName, "S", ⟨0, 12⟩, .word ⟨.quadByte, .unsigned, n⟩, true⟩ }
  object := "Main"
  source := ⟨imports.map fun i => ⟨.importing i, i.span, 0⟩, 0⟩

/-- The import `O = P` of a whole object. -/
def wholeAsO : Import := ⟨some "O", "P", none, ⟨0, 13⟩⟩

/-- The import `X = O:S` of a symbol. -/
def symbolOfO : Import := ⟨some "X", "O", some "S", ⟨14, 29⟩⟩

/-- The import of the symbol comes first and answers to the name of its object. -/
theorem symbolImport_binds_iff_symbolFirst :
    (behindTwo [symbolOfO, wholeAsO]).context.scope ≠ .localPass ∧
      (((behindTwo [symbolOfO, wholeAsO]).extract .reject).symbols.find? "X").map (·.value) =
        some (.word ⟨.quadByte, .unsigned, 1⟩) := by
  have hscope : (behindTwo [symbolOfO, wholeAsO]).context.scope ≠ .localPass := by decide
  have hfirst : FirstDefinition (behindTwo [symbolOfO, wholeAsO]).source.lines
      ⟨.importing symbolOfO, ⟨14, 29⟩, 0⟩ "X" := by
    refine ⟨[], _, rfl, rfl, ?_⟩
    intro l hl
    cases hl
  have hexport : (behindTwo [symbolOfO, wholeAsO]).context.exportOf? "O" "S" =
      some ⟨.aliasName, "S", ⟨0, 12⟩, .word ⟨.quadByte, .unsigned, 1⟩, true⟩ := by cbv
  have hown : ((behindTwo [symbolOfO, wholeAsO]).source.importFor? "O").map (·.object) =
      some "O" := by cbv
  obtain ⟨directive, hfor, -, hbinds⟩ :=
    symbolImport_binds_iff hscope hfirst rfl rfl rfl hexport rfl .reject
  rw [show symbolOfO.object = "O" from rfl] at hfor hbinds
  rw [hfor] at hown
  exact ⟨hscope, hbinds.mpr (Or.inl (Option.some.inj hown))⟩

/-- If another object has been given the name `O` before, the import is accepted without a message
and binds a symbol of that object. -/
theorem symbolImport_misses_renamed :
    (behindTwo [wholeAsO, symbolOfO]).context.scope ≠ .localPass ∧
      FirstDefinition (behindTwo [wholeAsO, symbolOfO]).source.lines
        ⟨.importing symbolOfO, ⟨14, 29⟩, 0⟩ "X" ∧
      ((behindTwo [wholeAsO, symbolOfO]).context.exportOf? "O" "S").map (·.value) =
        some (.word ⟨.quadByte, .unsigned, 1⟩) ∧
      (((behindTwo [wholeAsO, symbolOfO]).extract .reject).symbols.find? "X").map (·.value) =
        some (.word ⟨.quadByte, .unsigned, 2⟩) ∧
      ((behindTwo [wholeAsO, symbolOfO]).extract .reject).log.failed = false := by
  refine ⟨by decide, ?_, by cbv, by cbv, by cbv⟩
  refine ⟨[⟨.importing wholeAsO, ⟨0, 13⟩, 0⟩], [], rfl, rfl, ?_⟩
  intro l hl
  rw [List.mem_singleton.mp hl]
  decide

end Site

end LinkAsm
