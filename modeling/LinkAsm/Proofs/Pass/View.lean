import LinkAsm.Proofs.Pass.Deferral

/-!
# What a pass sees of its context

A pass looks at its context in few places: the addresses and numbers of the object's own lines, the
origin, and the tables of the objects that are imported.  `Site.SameView` says that two contexts look
alike there.  Then the two passes are the same but for their name (`Site.SameView.extract_eq`), even
if the contexts have other tables in them or compute addresses in another way.

* `WorkList.run_congr`: a run depends on the outcomes of the aliases that wait, and on no others.
* `Site.SameView.resolve_eq`, `Site.SameView.evaluate_eq`: addresses and expressions at a line.
* `Site.SameView.extract_eq`: the whole pass.
-/

namespace LinkAsm

/-! ## Runs -/

namespace WorkList

variable {evaluate evaluate' : NameMap AliasValue → PendingAlias → AliasValue × List Message}

theorem run_cons {w : WorkList} {p : PendingAlias} {rest : List PendingAlias}
    (hq : w.queue = p :: rest) :
    run evaluate w =
      match evaluate w.values p with
      | (.dependsOn dependency, _) => run evaluate (w.park rest p dependency)
      | (value, notes) => run evaluate (w.finish rest p value notes) := by
  rw [run]
  split
  · next hnil =>
    rw [hq] at hnil
    cases hnil
  · next q rest' hcons =>
    obtain ⟨rfl, rfl⟩ := List.cons.inj (hq.symm.trans hcons)
    rfl

/-- A run depends on the outcomes of the aliases that wait, and on no others. -/
theorem run_congr {w : WorkList}
    (h : ∀ values, ∀ p ∈ w.waiting, evaluate' values p = evaluate values p) :
    run evaluate' w = run evaluate w := by
  induction w using (wellFounded_step evaluate).induction with
  | _ w ih =>
    cases hq : w.queue with
    | nil => rw [run_of_nil hq, run_of_nil hq]
    | cons p rest =>
      have hp : p ∈ w.waiting := by simp [waiting, hq]
      -- the first step is the same, and nothing waits after it that did not wait before
      have hrest : ∀ w', Step evaluate w w' → run evaluate' w' = run evaluate w' := by
        intro w' hstep
        refine ih w' hstep ?_
        intro values q hmem
        exact h values q (hstep.mem_waiting hmem)
      rw [run_cons hq, run_cons hq, h w.values p hp]
      split
      · next dependency notes hv =>
        exact hrest _ (.park hq (by rw [hv]))
      · next value notes hsettled hv =>
        have hstep : (evaluate w.values p).1.Settled → _ := Step.finish hq
        rw [hv] at hstep
        exact hrest _ (hstep hsettled)

end WorkList

/-! ## Contexts that look alike -/

namespace Site

open Definitions

/-- Whether the contexts of two sites of one object look alike to a pass over it. -/
structure SameView (s t : Site) : Prop where
  object : t.object = s.object
  source : t.source = s.source
  isLocal : t.context.isLocal = s.context.isLocal
  address : ∀ l ∈ s.source.lines,
    t.instructionAddress? l.preceding = s.instructionAddress? l.preceding
  index : ∀ l ∈ s.source.lines, t.index l.preceding = s.index l.preceding
  precedingCount : t.context.precedingCount = s.context.precedingCount
  origin : t.context.origin = s.context.origin
  blocks : t.context.blocks = s.context.blocks
  ownBlocks : s.context.blocks = some s.source.blockPositions
  mockExternals : t.context.mockExternals = s.context.mockExternals
  known : t.context.known = s.context.known
  /-- Of the tables of other objects, those of imported ones count. -/
  tables : ∀ i ∈ s.source.imports, t.context.tableOf? i.object = s.context.tableOf? i.object

namespace SameView

variable {s t : Site} {l : Line}

theorem blockAddress_eq (h : s.SameView t) (hl : l ∈ s.source.lines) :
    t.blockAddress l.preceding = s.blockAddress l.preceding := by
  rw [blockAddress, blockAddress, h.address l hl]

theorem relativeAddress_eq (h : s.SameView t) (hl : l ∈ s.source.lines) (anchor : Anchor)
    (offset : Int) :
    t.relativeAddress anchor offset l.preceding = s.relativeAddress anchor offset l.preceding := by
  simp only [relativeAddress, h.index l hl, h.precedingCount, h.origin]

/-- Behind a qualifier stands an imported object. -/
theorem exportOf?_eq (h : s.SameView t) {qualifier : String} {directive : Import}
    (hfor : s.source.importFor? qualifier = some directive) (name : String) :
    t.context.exportOf? directive.object name = s.context.exportOf? directive.object name := by
  rw [Context.exportOf?, Context.exportOf?, h.tables directive (List.mem_of_find?_eq_some hfor)]

theorem importedAddress_eq (h : s.SameView t) (qualifier label : String) (span : Span) :
    t.importedAddress qualifier label span = s.importedAddress qualifier label span := by
  unfold importedAddress
  rw [h.source]
  cases hfor : s.source.importFor? qualifier with
  | none => rfl
  | some directive =>
    simp only [h.known, h.mockExternals, h.origin, mockNote, h.exportOf?_eq hfor]

theorem importedValue_eq (h : s.SameView t) (span : Span) (qualifier symbol : String) :
    t.importedValue span qualifier symbol = s.importedValue span qualifier symbol := by
  unfold importedValue
  rw [h.source, h.isLocal]
  cases hfor : s.source.importFor? qualifier with
  | none => rfl
  | some directive => simp only [h.exportOf?_eq hfor]

theorem resolveWide_eq (h : s.SameView t) (hl : l ∈ s.source.lines) (ref : AddressRef)
    (span : Span) : t.resolveWide ref l.preceding span = s.resolveWide ref l.preceding span := by
  unfold resolveWide
  rw [h.isLocal]
  split
  · rfl
  · cases ref with
    | label name =>
      dsimp only
      rw [h.source]
      split
      · next position hposition =>
        obtain ⟨line, hline, -, rfl⟩ := exists_label_of_labelPosition? hposition
        rw [h.blockAddress_eq hline]
      · rfl
    | block name =>
      simp only [h.blocks, h.ownBlocks]
      split
      · next position hposition =>
        obtain ⟨line, hline, -, rfl⟩ := exists_block_of_blockPositions hposition
        rw [h.blockAddress_eq hline]
      · rfl
    | imported qualifier target => exact h.importedAddress_eq qualifier target span
    | relative anchor offset =>
      dsimp only
      rw [h.relativeAddress_eq hl]

theorem resolve_eq (h : s.SameView t) (hl : l ∈ s.source.lines) (ref : AddressRef) (narrow : Bool)
    (span : Span) :
    t.resolve ref l.preceding narrow span = s.resolve ref l.preceding narrow span := by
  simp only [resolve, h.resolveWide_eq hl]

/-! ## Expressions -/

theorem evaluateOperand_eq (h : s.SameView t) (hl : l ∈ s.source.lines) (aliases : AliasScope)
    (span : Span) (operand : Operand) :
    t.evaluateOperand aliases l.preceding span operand =
      s.evaluateOperand aliases l.preceding span operand := by
  cases operand with
  | address ref => simp only [evaluateOperand, h.resolve_eq hl]
  | imported qualifier symbol => simp only [evaluateOperand, h.importedValue_eq]
  | _ => rfl

theorem evaluateTree_eq (h : s.SameView t) (hl : l ∈ s.source.lines) (aliases : AliasScope)
    (tree : Tree) :
    t.evaluateTree aliases l.preceding tree = s.evaluateTree aliases l.preceding tree := by
  induction tree with
  | leaf span operand => exact h.evaluateOperand_eq hl aliases span operand
  | binary span op left right ihl ihr => rw [evaluateTree, evaluateTree, ihl, ihr]

theorem evaluate_eq (h : s.SameView t) (hl : l ∈ s.source.lines) (aliases : AliasScope) (e : Expr) :
    t.evaluate aliases l.preceding e = s.evaluate aliases l.preceding e := by
  unfold evaluate
  rw [h.evaluateTree_eq hl]

/-! ## Lines -/

theorem blockValue_eq (h : s.SameView t) (hl : l ∈ s.source.lines) :
    blockValue t l = blockValue s l := by
  rw [blockValue, blockValue, h.address l hl]

theorem ofLines_eq (h : s.SameView t) : ofLines t = ofLines s := by
  unfold ofLines
  rw [h.object, h.source]
  refine List.foldl_ext _ _ _ ?_
  intro d l hl
  unfold addLine
  cases l.kind with
  | label name => simp only [addLabel, h.blockValue_eq hl]
  | block name => simp only [addBlock, h.blockValue_eq hl]
  | _ => rfl

end SameView

/-- An alias stands at the position of a line. -/
theorem exists_line_of_mem_pending {s : Site} {p : PendingAlias} (hp : p ∈ (ofLines s).pending) :
    ∃ l ∈ s.source.lines, l.preceding = p.position := by
  obtain ⟨l, hpending, hfirst⟩ := ((traced_ofLines s).pending_iff p).mp hp
  refine ⟨l, hfirst.mem, ?_⟩
  unfold pendingOf? at hpending
  split at hpending
  · obtain ⟨expr, -, rfl⟩ := Option.map_eq_some_iff.mp hpending
    rfl
  · obtain ⟨symbol, -, hname⟩ := Option.bind_eq_some_iff.mp hpending
    obtain ⟨name, -, rfl⟩ := Option.map_eq_some_iff.mp hname
    rfl
  all_goals cases hpending

theorem extract_unfold (s : Site) (policy : OversizedPolicy) :
    s.extract policy =
      { scope := s.context.scope
        symbols := s.aliases.1.entries.foldl
          (fun t (name, value) => t.setValue name value.toSymbolValue) (ofLines s).symbols
        instructions := (s.resolved policy).map (·.1)
        labels := (ofLines s).labels
        blocks := (ofLines s).blocks
        log := s.aliases.2.addAll ((s.resolved policy).flatMap (·.2)) } := rfl

theorem aliases_unfold (s : Site) :
    s.aliases = (s.doneList.giveUp.values, s.doneList.giveUp.log) := rfl

namespace SameView

variable {s t : Site} {l : Line}

theorem aliases_eq (h : s.SameView t) : t.aliases = s.aliases := by
  have hrun : t.doneList = s.doneList := by
    unfold doneList
    rw [h.ofLines_eq]
    refine WorkList.run_congr ?_
    intro values p hp
    have hpending : p ∈ (ofLines s).pending := by simpa [WorkList.waiting] using hp
    obtain ⟨l, hl, hposition⟩ := exists_line_of_mem_pending hpending
    unfold outcome
    rw [← hposition]
    exact h.evaluate_eq hl _ p.expr
  rw [aliases_unfold, aliases_unfold, hrun]

theorem resolveLine?_eq (h : s.SameView t) (policy : OversizedPolicy) (values : NameMap AliasValue)
    (hl : l ∈ s.source.lines) :
    t.resolveLine? policy values l = s.resolveLine? policy values l := by
  have hoperand : ∀ i, t.resolveOperand policy values i l.preceding =
      s.resolveOperand policy values i l.preceding := by
    intro i
    funext operand
    simp only [resolveOperand, h.resolve_eq hl]
  unfold resolveLine?
  split
  · rw [hoperand]
  · rfl

/-- **Passes that see the same find the same.** -/
theorem extract_eq (h : s.SameView t) (policy : OversizedPolicy) :
    t.extract policy = { s.extract policy with scope := t.context.scope } := by
  have hlines : t.resolved policy = s.resolved policy := by
    unfold resolved
    rw [h.source, h.aliases_eq]
    exact List.filterMap_congr fun l hl => h.resolveLine?_eq policy _ hl
  rw [extract_unfold, extract_unfold, hlines, h.ofLines_eq, h.aliases_eq]

end SameView

end Site

end LinkAsm
