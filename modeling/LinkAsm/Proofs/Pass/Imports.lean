import LinkAsm.Proofs.Pass.Labels

/-!
# Imports in a pass

A qualifier means the object of the first import that answers to it.  Aliases and addresses that name
a symbol behind a qualifier see what the table of that object exports, in every pass but the local
one (`Site.seesExports_of_tableOf?`).

* `Site.SeesExports`: what is seen of another object.
* `Site.seesExports_of_tableOf?`: a qualifier shows the table of its object.
-/

namespace LinkAsm

/-- What an alias at a place sees of the value of a symbol of another object. -/
def SymbolValue.seenAt (span : Span) (symbol : String) : SymbolValue → AliasValue
  | .word w => .word w
  | .deferred => .deferred
  | .error => .fail span (.erroneousDependency symbol)

/-- Whether the values of block labels are addresses. -/
def SymbolTable.LabelsAddressed (t : SymbolTable) : Prop :=
  ∀ name sym w, t.find? name = some sym → sym.kind = .label → sym.value = .word w →
    ∃ a : Address, w = a.toWord

theorem Address.toWord_injective {a b : Address} (h : a.toWord = b.toWord) : a = b := by
  have hvalue := congrArg Word.bits h
  cases a
  cases b
  exact congrArg Address.mk hvalue

theorem SymbolTable.find?_of_findExported? {t : SymbolTable} {name : String} {sym : Symbol}
    (h : t.findExported? name = some sym) : t.find? name = some sym :=
  (Option.filter_eq_some_iff.mp h).1

namespace Site

variable {s : Site} {qualifier : String} {directive : Import} {t : SymbolTable}

theorem labelsAddressed_extract (s : Site) (policy : OversizedPolicy) :
    (s.extract policy).symbols.LabelsAddressed := by
  intro name sym w hsym hk hw
  obtain ⟨l, -, -, hvalue⟩ := exists_label_of_find? hsym hk
  obtain ⟨a, -, hword⟩ := exists_address_of_blockValue (hvalue.symm.trans hw)
  exact ⟨a, hword.symm⟩

/-- What an object sees of another whose table is `t`, behind a qualifier: aliases see the values of
exported symbols, and addresses those of exported block labels. -/
structure SeesExports (s : Site) (qualifier object : String) (t : SymbolTable) : Prop where
  exported : ∀ symbol found, t.findExported? symbol = some found → ∀ aliases position span,
    s.evaluateTree aliases position (.leaf span (.imported qualifier symbol)) =
      (found.value.seenAt span symbol, [])
  missing : ∀ symbol, t.findExported? symbol = none → ∀ aliases position span,
    s.evaluateTree aliases position (.leaf span (.imported qualifier symbol)) =
      (.fail span (.unresolvedExternal object symbol), [])
  address : ∀ label position span a,
    (s.resolveWide (.imported qualifier label) position span).1 = .resolved a ↔
      ∃ sym, t.findExported? label = some sym ∧ sym.kind = .label ∧ sym.value = .word a.toWord

theorem importedValue_of_importFor? (hscope : s.context.scope ≠ .localPass)
    (hfor : s.source.importFor? qualifier = some directive) (span : Span) (symbol : String) :
    s.importedValue span qualifier symbol =
      match s.context.exportOf? directive.object symbol with
      | some found => found.value.seenAt span symbol
      | none => .fail span (.unresolvedExternal directive.object symbol) := by
  simp only [importedValue, Context.isLocal_eq_false hscope, hfor]
  cases s.context.exportOf? directive.object symbol with
  | none => rfl
  | some found =>
    cases hvalue : found.value <;> simp [hvalue, SymbolValue.seenAt]

/-- Resolving an exported symbol gives an address if it is a block label with that address. -/
theorem importedAddress_eq_resolved_iff (hfor : s.source.importFor? qualifier = some directive)
    (hknown : directive.object ∈ s.context.known)
    (htable : s.context.tableOf? directive.object = some t) (haddressed : t.LabelsAddressed)
    (label : String) (span : Span) (a : Address) :
    (s.importedAddress qualifier label span).1 = .resolved a ↔
      ∃ sym, t.findExported? label = some sym ∧ sym.kind = .label ∧
        sym.value = .word a.toWord := by
  simp only [importedAddress, hfor, not_true_eq_false, hknown, if_false,
    Context.exportOf?_of_tableOf? htable]
  cases hsym : t.findExported? label with
  | none => simp
  | some sym =>
    cases hk : sym.kind with
    | aliasName => simp [hk]
    | label =>
      cases hvalue : sym.value with
      | deferred => simp [hk, hvalue]
      | error => simp [hk, hvalue]
      | word w =>
        obtain ⟨b, rfl⟩ := haddressed label sym w (t.find?_of_findExported? hsym) hk hvalue
        simp only [Address.ofWord_toWord, Resolution.ofResult, Resolution.resolved.injEq,
          Option.some.injEq, exists_eq_left', hk, hvalue, SymbolValue.word.injEq, true_and]
        exact ⟨congrArg Address.toWord, Address.toWord_injective⟩

/-- **A qualifier shows the table of its object**: that of the first import which answers to it. -/
theorem seesExports_of_tableOf? (hscope : s.context.scope ≠ .localPass)
    (hfor : s.source.importFor? qualifier = some directive)
    (hknown : directive.object ∈ s.context.known)
    (htable : s.context.tableOf? directive.object = some t) (haddressed : t.LabelsAddressed) :
    s.SeesExports qualifier directive.object t := by
  have hexport := Context.exportOf?_of_tableOf? htable
  refine ⟨?_, ?_, ?_⟩
  · intro symbol found hfound aliases position span
    rw [evaluateTree, evaluateOperand, importedValue_of_importFor? hscope hfor, hexport, hfound]
  · intro symbol hnone aliases position span
    rw [evaluateTree, evaluateOperand, importedValue_of_importFor? hscope hfor, hexport, hnone]
  · intro label position span a
    rw [resolveWide, Context.isLocal_eq_false hscope]
    exact importedAddress_eq_resolved_iff hfor hknown htable haddressed label span a

end Site

end LinkAsm
