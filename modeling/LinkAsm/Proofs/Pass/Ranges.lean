import LinkAsm.Proofs.Diagnostic.Merging
import LinkAsm.Proofs.Expr.Places
import LinkAsm.Proofs.Pass.Failures
import LinkAsm.Proofs.Source.Places

/-!
# Where the messages of a pass stand

Two kinds of spans meet in a pass: those of lines and operands count from the start of the object's
text, those of expressions from the start of the expression.  The latter are moved once, when an
alias is finished, given up or found to be unreadable.  An import of a symbol is evaluated as an
alias whose expression is the whole text, so that its span is moved by nothing.

* `Site.exists_leaf_of_mem_evaluate`: notes about an expression stand at its leaves.
* `Site.within_evaluate`: the outcome of an expression stands in its text.
* `PendingAlias.Within`: the expression of an alias stands in the object's text.
* `Site.log_within_extract`: so do all messages of a pass.
-/

namespace LinkAsm

/-! ## Messages and logs -/

theorem Message.Within.shift {text cs : List Char} {n : Nat} {m : Message} (h : m.Within cs)
    (hat : Text.At text n cs) : (m.shift n).Within text := by
  intro r hr
  obtain ⟨range, hrange, rfl⟩ := Option.map_eq_some_iff.mp hr
  exact hat.within_shift (h range hrange)

theorem Message.within_of_range {text : List Char} {span : Span} {m : Message}
    (hspan : span.Within text) (h : m.range = some span) : m.Within text := by
  intro r hr
  obtain rfl := Option.some.inj (h.symm.trans hr)
  exact hspan

/-- Whether all messages of a log stand in a text. -/
def Log.Within (text : List Char) (log : Log) : Prop := ∀ m ∈ log.messages, m.Within text

namespace Log.Within

variable {text : List Char} {log other : Log}

theorem empty (text : List Char) : Log.empty.Within text := by
  intro m hm
  cases hm

theorem add {m : Message} (h : log.Within text) (hm : m.Within text) :
    (log.add m).Within text := by
  intro x hx
  rcases mem_of_mem_add hx with hold | rfl
  · exact h x hold
  · exact hm

theorem addAll {ms : List Message} (h : log.Within text) (hms : ∀ m ∈ ms, m.Within text) :
    (log.addAll ms).Within text := by
  intro x hx
  rcases mem_of_mem_addAll hx with hold | hnew
  · exact h x hold
  · exact hms x hnew

theorem merge (h : log.Within text) (hother : other.Within text) :
    (log.merge other).Within text := by
  intro x hx
  rcases mem_of_mem_merge hx with hold | hnew
  · exact h x hold
  · exact hother x hnew

end Log.Within

/-! ## Outcomes -/

/-- Whether the error of an outcome stands in a text. -/
def AliasValue.Within (text : List Char) (v : AliasValue) : Prop :=
  ∀ e, v = .error e → e.span.Within text

namespace AliasValue

variable {text : List Char} {span : Span}

/-- A leaf fails at its own place, if it does. -/
theorem OfLeaf.within {v : AliasValue} (h : v.OfLeaf span) (hspan : span.Within text) :
    v.Within text := by
  rintro e rfl
  rw [h.span_eq]
  exact hspan

/-- An operator fails where one of its sides does, or at its own place. -/
theorem within_combine {l r : AliasValue} (op : Operator) (h : span.Within text)
    (hl : l.Within text) (hr : r.Within text) : (combine op span l r).Within text := by
  rcases combine_cases op span l r with hleft | hright | hcomputed
  · rwa [hleft]
  · rwa [hright]
  · exact (OfLeaf.computed hcomputed).within h

/-- A cast fails where its tree does, or at its own place. -/
theorem within_castAs {v : AliasValue} {cast : Option (Span × Cast)}
    (h : ∀ span target, cast = some (span, target) → span.Within text) (hv : v.Within text) :
    (v.castAs cast).Within text := by
  rcases castAs_cases v cast with heq | ⟨span, target, hsome, hcomputed⟩
  · rwa [heq]
  · exact (OfLeaf.computed hcomputed).within (h span target hsome)

end AliasValue

/-! ## Expressions -/

theorem Tree.Within.leaf {text : List Char} {tree : Tree} (h : tree.Within text)
    {leaf : Span × Operand} (hleaf : leaf ∈ tree.leaves) : leaf.1.Within text := by
  induction tree with
  | leaf span operand =>
    obtain rfl := List.mem_singleton.mp hleaf
    exact h
  | binary span op left right ihl ihr =>
    rcases List.mem_append.mp hleaf with hl | hr
    · exact ihl h.2.1 hl
    · exact ihr h.2.2 hr

namespace Site

open AliasValue

/-- Whether an outcome and the notes about it stand in a text. -/
structure OutcomeWithin (text : List Char) (outcome : AliasValue × List Message) : Prop where
  value : outcome.1.Within text
  notes : ∀ m ∈ outcome.2, m.Within text

variable {text : List Char} {span : Span} {s : Site}

theorem range_of_mem_resolve {ref : AddressRef} {position : Nat} {narrow : Bool} {m : Message}
    (h : m ∈ (s.resolve ref position narrow span).2) : m.range = some span := by
  unfold resolve resolveWide at h
  dsimp only at h
  split at h
  · cases h
  · cases ref with
    | label name =>
      dsimp only at h
      split at h <;> cases h
    | block name =>
      dsimp only at h
      split at h
      · cases h
      · split at h <;> cases h
    | relative anchor offset => cases h
    | imported qualifier target =>
      dsimp only [importedAddress] at h
      split at h
      · cases h
      · split at h
        · split at h
          · rw [List.mem_singleton.mp h]
            rfl
          · cases h
        · split at h
          · cases h
          · split at h <;> cases h

/-- Notes about a leaf stand at its place. -/
theorem range_of_mem_evaluateOperand {aliases : AliasScope} {position : Nat} {operand : Operand}
    {m : Message} (h : m ∈ (s.evaluateOperand aliases position span operand).2) :
    m.range = some span := by
  cases operand with
  | address ref =>
    have hnotes : (s.evaluateOperand aliases position span (.address ref)).2 =
        (s.resolve ref position false span).2 := by
      unfold evaluateOperand
      dsimp only
      split <;> next heq => rw [heq]
    exact range_of_mem_resolve (hnotes ▸ h)
  | _ => cases h

/-- Notes about a tree stand at its leaves. -/
theorem exists_leaf_of_mem_evaluateTree {aliases : AliasScope} {position : Nat} {tree : Tree}
    {m : Message} (h : m ∈ (s.evaluateTree aliases position tree).2) :
    ∃ leaf ∈ tree.leaves, m.range = some leaf.1 := by
  induction tree with
  | leaf span operand => exact ⟨_, List.mem_singleton_self _, range_of_mem_evaluateOperand h⟩
  | binary span op left right ihl ihr =>
    rcases List.mem_append.mp h with hl | hr
    · obtain ⟨leaf, hleaf, hrange⟩ := ihl hl
      exact ⟨leaf, List.mem_append_left _ hleaf, hrange⟩
    · obtain ⟨leaf, hleaf, hrange⟩ := ihr hr
      exact ⟨leaf, List.mem_append_right _ hleaf, hrange⟩

/-- So do notes about an expression, since a cast adds none. -/
theorem exists_leaf_of_mem_evaluate {aliases : AliasScope} {position : Nat} {e : Expr}
    {m : Message} (h : m ∈ (s.evaluate aliases position e).2) :
    ∃ leaf ∈ e.tree.leaves, m.range = some leaf.1 := by
  have htree : m ∈ (s.evaluateTree aliases position e.tree).2 := by
    unfold evaluate at h
    split at h
    · exact h
    · cases h
    · split at h
      · next heq =>
        rw [heq]
        exact h
      · exact h
  exact exists_leaf_of_mem_evaluateTree htree

theorem within_evaluateTree (s : Site) (aliases : AliasScope) (position : Nat) {tree : Tree}
    (h : tree.Within text) : (s.evaluateTree aliases position tree).1.Within text := by
  induction tree with
  | leaf span operand => exact (s.ofLeaf_evaluateOperand aliases position span operand).within h
  | binary span op left right ihl ihr =>
    obtain ⟨hspan, hleft, hright⟩ := h
    exact within_combine op hspan (ihl hleft) (ihr hright)

/-- The outcome of an expression stands in its text. -/
theorem within_evaluate (s : Site) (aliases : AliasScope) (position : Nat) {e : Expr}
    (h : e.Within text) : OutcomeWithin text (s.evaluate aliases position e) := by
  constructor
  · rw [evaluate_eq]
    exact within_castAs h.cast (s.within_evaluateTree aliases position h.tree)
  · intro m hm
    obtain ⟨leaf, hleaf, hrange⟩ := exists_leaf_of_mem_evaluate hm
    exact Message.within_of_range (h.tree.leaf hleaf) hrange

end Site

/-! ## Aliases -/

/-- Whether the expression of an alias stands in the text of its object. -/
def PendingAlias.Within (text : List Char) (p : PendingAlias) : Prop :=
  ∃ cs, Text.At text p.origin cs ∧ p.expr.Within cs

namespace WorkList

variable {text : List Char} {p : PendingAlias}

/-- The messages about an alias are moved to where its expression stands. -/
theorem within_messages {cs : List Char} (hat : Text.At text p.origin cs) {v : AliasValue}
    {notes : List Message} (h : Site.OutcomeWithin cs (v, notes)) :
    ∀ m ∈ messages p v notes, m.Within text := by
  intro m hm
  rcases List.mem_append.mp hm with hnote | herror
  · obtain ⟨note, hmem, rfl⟩ := List.mem_map.mp hnote
    exact (h.notes note hmem).shift hat
  · cases v with
    | error e =>
      rw [List.mem_singleton.mp herror]
      exact Message.within_critical (hat.within_shift (h.value e rfl)) _ _
    | word w => cases herror
    | deferred => cases herror
    | dependsOn name => cases herror

/-- Whether the log and the aliases without a value stand in a text. -/
structure Within (text : List Char) (w : WorkList) : Prop where
  log : w.log.Within text
  waiting : ∀ p ∈ w.waiting, p.Within text

theorem Within.step {s : Site} {declared : List String} {w w' : WorkList} (h : w.Within text)
    (hstep : Step (s.outcome declared) w w') : w'.Within text := by
  refine ⟨?_, fun p hp => h.waiting p (hstep.mem_waiting hp)⟩
  cases hstep with
  | park => exact h.log
  | @finish p rest hq hv =>
    have hmem : p ∈ w.waiting := List.mem_append_left _ (hq ▸ List.mem_cons_self)
    obtain ⟨cs, hat, hexpr⟩ := h.waiting p hmem
    exact h.log.addAll (within_messages hat (s.within_evaluate _ _ hexpr))

/-- An alias that waits forever is reported at its expression. -/
theorem Within.giveUp {w : WorkList} (h : w.Within text) : w.giveUp.log.Within text := by
  refine h.log.addAll ?_
  intro m hm
  obtain ⟨p, hp, rfl⟩ := List.mem_map.mp hm
  have hwaiting : p.waiting ∈ w.waiting := by
    refine List.mem_append_right _ (List.mem_map_of_mem ?_)
    exact (List.mergeSort_perm _ _).subset hp
  obtain ⟨cs, hat, hexpr⟩ := h.waiting p.waiting hwaiting
  exact Message.within_critical (hat.within_shift hexpr.tree.span) _ _

end WorkList

/-! ## Definitions -/

namespace Definitions

/-- Whether what is reported and what is left to evaluate stands in a text. -/
structure Within (text : List Char) (d : Definitions) : Prop where
  log : d.log.Within text
  pending : ∀ p ∈ d.pending, p.Within text

variable {text : List Char} {s : Site} {d : Definitions} {l : Line}

theorem within_blockValue (hl : l.span.Within text) :
    ∀ m ∈ (blockValue s l).2, m.Within text := by
  intro m hm
  unfold blockValue at hm
  split at hm
  · cases hm
  · cases hm
  · rw [List.mem_singleton.mp hm]
    exact Message.within_critical hl _ _

theorem Within.addPending (h : d.Within text) {p : PendingAlias} (hp : p.Within text) :
    ∀ q ∈ d.pending ++ [p], q.Within text := by
  intro q hq
  rcases List.mem_append.mp hq with hold | hnew
  · exact h.pending q hold
  · rw [List.mem_singleton.mp hnew]
    exact hp

theorem Within.addAlias (h : d.Within text) (hspan : l.span.Within text) {a : AliasDefinition}
    (ha : Text.At text a.start a.expression) : (d.addAlias l a).Within text := by
  unfold Definitions.addAlias
  split
  · exact ⟨h.log.add (Message.within_critical hspan _ _), h.pending⟩
  · dsimp only
    split
    · next expr hexpr => exact ⟨h.log, h.addPending ⟨_, ha, Expr.within_of_parse hexpr⟩⟩
    · next failure hfailure =>
      have hmoved := ha.within_shift (Expr.failure_within hfailure)
      exact ⟨h.log.add (Message.within_critical hmoved _ _), h.pending⟩

theorem Within.addImport (h : d.Within text) (hspan : l.span.Within text) (i : Import) :
    (d.addImport l i).Within text := by
  unfold Definitions.addImport
  split
  · split
    · exact ⟨h.log.add (Message.within_critical hspan _ _), h.pending⟩
    · refine ⟨h.log, h.addPending ⟨text, Text.at_self text, hspan, ?_⟩⟩
      intro span cast hcast
      cases hcast
  · exact h

/-- A line adds messages about its place and about the expression in it. -/
theorem Within.addLine (h : d.Within text) (hl : l.Within text) : (d.addLine s l).Within text := by
  have hkind := hl.kind
  unfold Definitions.addLine
  split
  · simp only [addLabel]
    have hlog := h.log.addAll (within_blockValue (s := s) hl.span)
    split
    · exact ⟨hlog.add (Message.within_critical hl.span _ _), h.pending⟩
    · exact ⟨hlog, h.pending⟩
  · simp only [addBlock]
    split
    · exact ⟨h.log.add (Message.within_critical hl.span _ _), h.pending⟩
    · exact ⟨h.log.addAll (within_blockValue hl.span), h.pending⟩
  · next a ha =>
    rw [ha] at hkind
    exact h.addAlias hl.span hkind
  · exact h.addImport hl.span _
  · exact h

theorem within_ofLines (hlines : ∀ l ∈ s.source.lines, l.Within text) :
    (ofLines s).Within text := by
  unfold ofLines
  refine List.foldlRecOn s.source.lines (addLine s) (motive := Within text) ?_ ?_
  · refine ⟨Log.Within.empty text, ?_⟩
    intro p hp
    cases hp
  · intro d hd l hl
    exact hd.addLine (hlines l hl)

end Definitions

/-! ## The pass -/

namespace Site

variable {text : List Char} {s : Site}

theorem range_of_mem_inlined {policy : OversizedPolicy} {w : Word} {bytes : Nat} {span : Span}
    {m : Message} (h : m ∈ (OperandValue.inlined policy w bytes span).2) : m.range = some span := by
  unfold OperandValue.inlined at h
  generalize (if bytes = 3 then Width.triByte else Width.quadByte) = width at h
  dsimp only at h
  split at h
  · cases h
  · rw [List.mem_singleton.mp h]

/-- All messages about an operand stand at its place. -/
theorem range_of_mem_resolveOperand {policy : OversizedPolicy} {values : NameMap AliasValue}
    {i : InstructionText} {position : Nat} {o : OperandText} {m : Message}
    (h : m ∈ (s.resolveOperand policy values i position o).2) : m.range = some o.span := by
  have hfail : ∀ {code : Code} {message : String},
      m ∈ (OperandValue.fail code o.span message).2 → m.range = some o.span := by
    intro code message hm
    rw [List.mem_singleton.mp hm]
    rfl
  unfold resolveOperand at h
  dsimp only at h
  split at h
  · next ref _ =>
    have hnotes : m ∈ (s.resolve ref position (decide (i.inlineBytes < 4)) o.span).2 →
        m.range = some o.span := range_of_mem_resolve
    split at h
    · next heq => exact hnotes (heq ▸ h)
    · next heq => exact hnotes (heq ▸ h)
    · next heq =>
      rcases List.mem_append.mp h with hnote | herror
      · exact hnotes (heq ▸ hnote)
      · exact hfail herror
  · split at h
    · exact range_of_mem_inlined h
    · cases h
    · exact hfail h
    · exact hfail h
    · exact hfail h
  · split at h
    · exact range_of_mem_inlined h
    · exact hfail h
  · split at h
    · exact hfail h
    · exact hfail h
    · cases h

theorem within_resolveLine? {policy : OversizedPolicy} {values : NameMap AliasValue} {l : Line}
    (hl : l.Within text) {result : Instruction × List Message}
    (h : s.resolveLine? policy values l = some result) : ∀ m ∈ result.2, m.Within text := by
  have hkind := hl.kind
  unfold resolveLine? at h
  split at h
  · next i hi =>
    rw [hi] at hkind
    obtain rfl := Option.some.inj h
    intro m hm
    obtain ⟨resolved, hresolved, hmem⟩ := List.mem_flatMap.mp hm
    obtain ⟨o, ho, rfl⟩ := List.mem_map.mp hresolved
    exact Message.within_of_range (hkind o ho).within (range_of_mem_resolveOperand hmem)
  · cases h

theorem log_within_aliases (hlines : ∀ l ∈ s.source.lines, l.Within text) :
    s.aliases.2.Within text := by
  have hdefinitions := Definitions.within_ofLines hlines
  rw [log_aliases]
  refine WorkList.Within.giveUp ?_
  refine WorkList.invariant_run (fun _ _ hstep h => h.step hstep) ⟨hdefinitions.log, ?_⟩
  intro p hp
  refine hdefinitions.pending p ?_
  simpa [WorkList.waiting] using hp

/-- **The messages of a pass stand in the text** in which the lines of the object stand. -/
theorem log_within_extract (hlines : ∀ l ∈ s.source.lines, l.Within text)
    (policy : OversizedPolicy) : (s.extract policy).log.Within text := by
  refine (log_within_aliases hlines).addAll ?_
  intro m hm
  obtain ⟨result, hresult, hmem⟩ := List.mem_flatMap.mp hm
  obtain ⟨l, hl, hline⟩ := List.mem_filterMap.mp hresult
  exact within_resolveLine? (hlines l hl) hline m hmem

end Site

end LinkAsm
