import LinkAsm.Proofs.Pass.WorkList

/-!
# No error of a pass is silent

Every error that a pass leaves in a symbol or an operand comes with a failure in its log.  A log
drops messages, but it has failed once it was given a failure, so it is enough that every error is
given to it: a failure for each erroneous block, for each alias that gets an error, and for each
operand without a value.

* `Site.failed_of_alias_error`: errors of aliases are in the log.
* `Site.failed_of_resolveOperand`: so are errors of operands.
* `Site.value_ne_error_of_extract`, `Site.error_notMem_operands`: a pass without failures leaves no
  error.
* `Site.narrow_of_extract`: operands that are rejected when they do not fit do fit.
-/

namespace LinkAsm

/-! ## Aliases -/

namespace WorkList

variable {evaluate : NameMap AliasValue → PendingAlias → AliasValue × List Message}
  {w w' : WorkList}

/-- Whether the log has failed if one of the values is an error. -/
def Reported (w : WorkList) : Prop :=
  ∀ name e, w.values.find? name = some (.error e) → w.log.failed = true

theorem failed_step (h : Step evaluate w w') (hf : w.log.failed = true) : w'.log.failed = true := by
  cases h with
  | park => exact hf
  | finish =>
    rw [finish, Log.failed_addAll, hf]
    exact Bool.true_or _

/-- An alias that gets an error is reported. -/
theorem any_messages_of_error (p : PendingAlias) {v : AliasValue} {e : AliasError}
    (h : v.shift p.origin = .error e) (notes : List Message) :
    (messages p v notes).any Message.isFailure = true := by
  rw [messages, h, List.any_append, Bool.or_eq_true]
  exact Or.inr rfl

theorem Reported.step (hr : w.Reported) (h : Step evaluate w w') : w'.Reported := by
  cases h with
  | park => exact hr
  | @finish p rest hq hv =>
    intro name e he
    rw [finish, Log.failed_addAll, Bool.or_eq_true]
    rcases NameMap.find?_insert_cases he with hold | ⟨hnew, -⟩
    · exact Or.inl (hr name e hold)
    · exact Or.inr (any_messages_of_error p hnew.symm _)

theorem failed_giveUp_of_failed (h : w.log.failed = true) : w.giveUp.log.failed = true := by
  rw [giveUp, Log.failed_addAll, h]
  exact Bool.true_or _

/-- An alias that waits forever is reported. -/
theorem failed_giveUp_of_parked {p : Parked} (h : p ∈ w.parked) : w.giveUp.log.failed = true := by
  have hsort := List.mergeSort_perm w.parked fun p q => decide (p.dependency ≤ q.dependency)
  have hreport := List.mem_map_of_mem (f := fun p => (stuckError p).report) (hsort.symm.subset h)
  rw [giveUp, Log.failed_addAll, Bool.or_eq_true]
  exact Or.inr (List.any_eq_true.mpr ⟨_, hreport, rfl⟩)

end WorkList

namespace Site

theorem failed_doneList (s : Site) (h : (Definitions.ofLines s).log.failed = true) :
    s.doneList.log.failed = true :=
  WorkList.invariant_run (P := fun w => w.log.failed = true)
    (fun _ _ hstep hf => WorkList.failed_step hstep hf) h

theorem reported_doneList (s : Site) : s.doneList.Reported := by
  refine WorkList.invariant_run (fun _ _ hstep hr => hr.step hstep) ?_
  intro name e he
  by_contra hclean
  have hmalformed := (Definitions.clean_ofLines s (Bool.eq_false_iff.mpr hclean)).malformed
  simp only [hmalformed, NameMap.find?_empty] at he
  cases he

theorem failed_aliases (s : Site) (h : (Definitions.ofLines s).log.failed = true) :
    s.aliases.2.failed = true := by
  rw [log_aliases]
  exact WorkList.failed_giveUp_of_failed (s.failed_doneList h)

/-- Errors of aliases are in the log. -/
theorem failed_of_alias_error (s : Site) {name : String} {e : AliasError}
    (h : s.aliases.1.find? name = some (.error e)) : s.aliases.2.failed = true := by
  rw [log_aliases]
  rcases s.find?_aliases.mp h with ⟨p, hp, -⟩ | hfound
  · exact WorkList.failed_giveUp_of_parked hp
  · exact WorkList.failed_giveUp_of_failed (s.reported_doneList name e hfound)

end Site

/-! ## Symbols -/

/-- A symbol with the value of its alias, if it is one. -/
def Symbol.given (sym : Symbol) : Option AliasValue → Symbol
  | some v => { sym with value := v.toSymbolValue }
  | none => sym

theorem Symbol.span_given (sym : Symbol) (v : Option AliasValue) :
    (sym.given v).span = sym.span := by
  cases v <;> rfl

theorem SymbolTable.find?_foldl_setValue {entries : List (String × AliasValue)}
    (hd : (entries.map (·.1)).Nodup) (t : SymbolTable) (name : String) :
    (entries.foldl (fun t (name, value) => t.setValue name value.toSymbolValue) t).find? name =
      (t.find? name).map (·.given (entries.lookup name)) := by
  induction entries generalizing t with
  | nil => exact Option.map_id_fun'.symm ▸ rfl
  | cons entry rest ih =>
    obtain ⟨key, v⟩ := entry
    obtain ⟨hhead, htail⟩ := List.nodup_cons.mp hd
    rw [List.foldl_cons, ih htail, SymbolTable.find?_setValue, NameMap.lookup_cons_ite,
      Option.map_map]
    by_cases hname : name = key
    · have hrest : rest.lookup name = none := by
        rw [List.lookup_eq_none_iff]
        rintro ⟨k, u⟩ hmem
        rw [bne_iff_ne]
        rintro rfl
        exact hhead (hname ▸ List.mem_map.mpr ⟨_, hmem, rfl⟩)
      simp only [hname, hname ▸ hrest, if_true]
      rfl
    · simp only [hname, if_false]
      rfl

theorem SymbolTable.object_foldl_setValue (entries : List (String × AliasValue)) (t : SymbolTable) :
    (entries.foldl (fun t (name, value) => t.setValue name value.toSymbolValue) t).object =
      t.object := by
  induction entries generalizing t with
  | nil => rfl
  | cons entry rest ih => rw [List.foldl_cons, ih, SymbolTable.object_setValue]

namespace Site

/-- The table of a pass: the definitions, with the values of aliases. -/
theorem find?_symbols_extract (s : Site) (policy : OversizedPolicy) (name : String) :
    (s.extract policy).symbols.find? name =
      ((Definitions.ofLines s).symbols.find? name).map (·.given (s.aliases.1.find? name)) :=
  SymbolTable.find?_foldl_setValue s.aliases.1.keys_nodup _ name

/-- The table of a pass is that of its object. -/
theorem object_symbols_extract (s : Site) (policy : OversizedPolicy) :
    (s.extract policy).symbols.object = s.object := by
  have hlines : (Definitions.ofLines s).symbols.object = s.object := by
    refine Definitions.ofLines_induction (P := fun _ d => d.symbols.object = s.object) rfl ?_
    intro lines line d d' h ha
    cases ha <;> exact h
  exact (SymbolTable.object_foldl_setValue s.aliases.1.entries _).trans hlines

/-- The instructions of the object, with the messages about their operands. -/
def resolved (s : Site) (policy : OversizedPolicy) : List (Instruction × List Message) :=
  s.source.lines.filterMap (s.resolveLine? policy s.aliases.1)

theorem failed_extract (s : Site) (policy : OversizedPolicy) :
    (s.extract policy).log.failed =
      (s.aliases.2.failed || ((s.resolved policy).flatMap (·.2)).any Message.isFailure) :=
  Log.failed_addAll _ _

theorem ofLines_of_extract (s : Site) {policy : OversizedPolicy}
    (h : (s.extract policy).log.failed = false) :
    (Definitions.ofLines s).log.failed = false := by
  rw [failed_extract, Bool.or_eq_false_iff] at h
  exact Log.not_failed_of_imp s.failed_aliases h.1

/-- A pass without failures has the symbol of each line that defines one. -/
theorem symbol_of_extract (s : Site) {policy : OversizedPolicy}
    (h : (s.extract policy).log.failed = false) {l : Line} (hl : l ∈ s.source.lines)
    {name : String} (hname : l.symbolName? = some name) :
    ∃ sym, (s.extract policy).symbols.find? name = some sym ∧ sym.span = l.span := by
  have hclean := Definitions.clean_ofLines s (s.ofLines_of_extract h)
  obtain ⟨sym, hsym, rfl, hspan⟩ := Definitions.exists_symbolOf? s hname
  rw [find?_symbols_extract, hclean.symbol l hl sym hsym, Option.map_some]
  exact ⟨_, rfl, (sym.span_given _).trans hspan⟩

/-- A pass without failures leaves no symbol with an error. -/
theorem value_ne_error_of_extract (s : Site) {policy : OversizedPolicy}
    (h : (s.extract policy).log.failed = false) {name : String} {sym : Symbol}
    (hsym : (s.extract policy).symbols.find? name = some sym) : sym.value ≠ .error := by
  have hclean := Definitions.clean_ofLines s (s.ofLines_of_extract h)
  rw [failed_extract, Bool.or_eq_false_iff] at h
  rw [find?_symbols_extract] at hsym
  obtain ⟨defined, hdefined, rfl⟩ := Option.map_eq_some_iff.mp hsym
  cases hv : s.aliases.1.find? name with
  | none => exact hclean.value name defined hdefined
  | some v =>
    cases v with
    | error e =>
      rw [s.failed_of_alias_error hv] at h
      exact Bool.noConfusion h.1
    | word w => exact SymbolValue.noConfusion
    | deferred => exact SymbolValue.noConfusion
    | dependsOn other => exact SymbolValue.noConfusion

end Site

/-! ## Operands -/

namespace OperandValue

/-- A value fits and is taken, or it is reported with the severity of the policy. -/
theorem inlined_cases (policy : OversizedPolicy) (w : Word) (bytes : Nat) (span : Span) :
    (inlined policy w bytes span = (.value w, []) ∧
        (if bytes = 3 then Width.triByte else .quadByte).holds w.bits = true) ∨
      ∃ m, m.isFailure = policy.severity.isFailure ∧
        inlined policy w bytes span = (if m.isFailure then .error else .value w, [m]) := by
  by_cases hfits : (if bytes = 3 then Width.triByte else .quadByte).holds w.bits = true
  · exact Or.inl ⟨if_pos hfits, hfits⟩
  · exact Or.inr ⟨_, rfl, if_neg hfits⟩

theorem failed_of_inlined {policy : OversizedPolicy} {w : Word} {bytes : Nat} {span : Span}
    (h : (inlined policy w bytes span).1 = .error) :
    (inlined policy w bytes span).2.any Message.isFailure = true := by
  rcases inlined_cases policy w bytes span with ⟨heq, -⟩ | ⟨m, -, heq⟩
  · rw [heq] at h
    cases h
  · rw [heq] at h ⊢
    cases hm : m.isFailure with
    | true => simp [hm]
    | false => simp [hm] at h

/-- Whether an operand fits in three bytes if it is an address or a value. -/
def Narrow : OperandValue → Prop
  | .address a => a.value < 0x1000000
  | .value w => w.bits < 0x1000000
  | .deferred | .raw _ | .error => True

/-- A value that is rejected when it does not fit in three bytes does fit. -/
theorem narrow_inlined (w : Word) (span : Span) : (inlined .reject w 3 span).1.Narrow := by
  rcases inlined_cases .reject w 3 span with ⟨heq, hfits⟩ | ⟨m, hm, heq⟩
  · rw [heq]
    exact (Width.holds_iff _ _).mp hfits
  · have hfailure : m.isFailure = true := hm
    rw [heq, hfailure]
    trivial

end OperandValue

namespace Site

/-- Errors of operands come with a failure. -/
theorem failed_of_resolveOperand (s : Site) {policy : OversizedPolicy}
    {values : NameMap AliasValue} {i : InstructionText} {position : Nat} {operand : OperandText}
    (h : (s.resolveOperand policy values i position operand).1 = .error) :
    (s.resolveOperand policy values i position operand).2.any Message.isFailure = true := by
  unfold resolveOperand at h ⊢
  dsimp only at h ⊢
  split at h
  · split at h
    · cases h
    · cases h
    · rw [List.any_append, Bool.or_eq_true]
      exact Or.inr rfl
  · split at h
    · exact OperandValue.failed_of_inlined h
    · cases h
    · rfl
    · rfl
    · rfl
  · split at h
    · exact OperandValue.failed_of_inlined h
    · rfl
  · split at h
    · rfl
    · rfl
    · cases h

/-- A narrowed address fits in three bytes. -/
theorem lt_of_resolve (s : Site) {ref : AddressRef} {position : Nat} {span : Span} {a : Address}
    (h : (s.resolve ref position true span).1 = .resolved a) : a.value < 0x1000000 := by
  have hnarrow : (s.resolveWide ref position span).1.narrowed = .resolved a := h
  cases hwide : (s.resolveWide ref position span).1 with
  | resolved b =>
    rw [hwide, Resolution.narrowed] at hnarrow
    split at hnarrow
    · next hfits =>
      obtain rfl := Resolution.resolved.inj hnarrow
      exact (Width.holds_iff _ _).mp hfits
    · cases hnarrow
  | deferred => rw [hwide] at hnarrow; cases hnarrow
  | failed failure => rw [hwide] at hnarrow; cases hnarrow

/-- The operand of an instruction with three bytes for it fits, where values that do not fit are
rejected. -/
theorem narrow_resolveOperand (s : Site) {values : NameMap AliasValue} {i : InstructionText}
    (hi : i.inlineBytes = 3) (position : Nat) (operand : OperandText) :
    (s.resolveOperand .reject values i position operand).1.Narrow := by
  unfold resolveOperand
  simp only [hi]
  split
  · split
    · next hr => exact s.lt_of_resolve (congrArg Prod.fst hr)
    · trivial
    · trivial
  · split
    · exact OperandValue.narrow_inlined ..
    all_goals trivial
  · split
    · exact OperandValue.narrow_inlined ..
    · trivial
  · split
    all_goals trivial

/-! ## Instructions of a pass -/

/-- An instruction of a pass is a line of the object. -/
theorem exists_line_of_mem_instructions (s : Site) {policy : OversizedPolicy} {ins : Instruction}
    (hins : ins ∈ (s.extract policy).instructions) :
    ∃ line i, line ∈ s.source.lines ∧ line.kind = .instruction i := by
  obtain ⟨_, hmem, rfl⟩ := List.mem_map.mp hins
  obtain ⟨line, hline, hresolve⟩ := List.mem_filterMap.mp hmem
  unfold resolveLine? at hresolve
  split at hresolve
  · next i hk => exact ⟨line, i, hline, hk⟩
  · cases hresolve

/-- Where an operand of a pass comes from, and that the log is given the messages about it. -/
theorem exists_operand_of_mem (s : Site) {policy : OversizedPolicy} {ins : Instruction}
    (hins : ins ∈ (s.extract policy).instructions) {v : OperandValue} (hv : v ∈ ins.operands) :
    ∃ line ∈ s.source.lines, ∃ i operand, line.kind = .instruction i ∧ operand ∈ i.operands ∧
      ins.mnemonic = i.mnemonic ∧
      (s.resolveOperand policy s.aliases.1 i line.preceding operand).1 = v ∧
      ∀ m ∈ (s.resolveOperand policy s.aliases.1 i line.preceding operand).2,
        m ∈ (s.resolved policy).flatMap (·.2) := by
  obtain ⟨⟨_, ms⟩, hmem, rfl⟩ := List.mem_map.mp hins
  obtain ⟨line, hline, hresolve⟩ := List.mem_filterMap.mp hmem
  unfold resolveLine? at hresolve
  split at hresolve
  · next i hk =>
    obtain ⟨rfl, rfl⟩ := Prod.mk.inj (Option.some.inj hresolve)
    simp only [List.map_map, List.mem_map, Function.comp] at hv
    obtain ⟨operand, hoperand, hvalue⟩ := hv
    refine ⟨line, hline, i, operand, hk, hoperand, rfl, hvalue, ?_⟩
    intro m hm
    refine List.mem_flatMap.mpr ⟨_, hmem, ?_⟩
    exact List.mem_flatMap.mpr ⟨_, List.mem_map_of_mem hoperand, hm⟩
  · cases hresolve

/-- A pass without failures leaves no operand with an error. -/
theorem error_notMem_operands (s : Site) {policy : OversizedPolicy}
    (h : (s.extract policy).log.failed = false) {ins : Instruction}
    (hins : ins ∈ (s.extract policy).instructions) : .error ∉ ins.operands := by
  intro herror
  obtain ⟨line, -, i, operand, -, -, -, hvalue, hgiven⟩ := s.exists_operand_of_mem hins herror
  obtain ⟨m, hm, hfailure⟩ := List.any_eq_true.mp (s.failed_of_resolveOperand hvalue)
  rw [failed_extract, List.any_eq_true.mpr ⟨m, hgiven m hm, hfailure⟩, Bool.or_true] at h
  cases h

/-- Where values that do not fit are rejected, the operands of instructions other than `word` fit in
three bytes. -/
theorem narrow_of_extract (s : Site) {ins : Instruction}
    (hins : ins ∈ (s.extract .reject).instructions)
    (hword : ins.mnemonic.toList.map Char.toLower ≠ wordMnemonic.toList) {v : OperandValue}
    (hv : v ∈ ins.operands) : v.Narrow := by
  obtain ⟨line, -, i, operand, -, -, hm, rfl, -⟩ := s.exists_operand_of_mem hins hv
  have hi : i.inlineBytes = 3 := if_neg (hm ▸ hword)
  exact s.narrow_resolveOperand hi line.preceding operand

end Site

end LinkAsm
