import Mathlib
import LinkAsm.Proofs.Pass.Labels

/-!
# Later passes refine the local one

The local pass knows no address and no other object: references to them are deferred.  A later pass
finds what the local one found, and what the local pass found to be wrong does not become right.

The two passes evaluate the aliases of an object in different orders, and an alias may be on a cycle
in one of them and deferred in the other, so the runs are not compared step by step.  Each half is
an induction along one run, with the values that the other pass ends with:

* words of the local pass, along its own run: the alias has only leaves with words, so it is on no
  cycle in the later pass, and evaluates to the same word there (`Site.word_of_local`);
* words of the later pass, along the later run: in the local pass the leaves of the alias are the
  same words or deferred, so it is on no cycle there, and is that word or deferred
  (`Site.word_or_deferred_of_later`).

* `Site.aliases_induction`: what holds of the words of an object's aliases.
* `Site.evaluateTree_rel`: relations of outcomes that operators and casts keep.
* `Site.later_pass_refines`: symbols and operands.
-/

namespace LinkAsm

/-! ## Words among outcomes -/

namespace AliasValue

theorem words_of_combine {op : Operator} {span : Span} {l r : AliasValue} {w : Word}
    (h : combine op span l r = .word w) : ∃ a b, l = .word a ∧ r = .word b := by
  cases l with
  | word a =>
    cases r with
    | word b => exact ⟨a, b, rfl, rfl⟩
    | _ => cases h
  | _ => cases r <;> cases h

theorem word_of_castAs {v : AliasValue} {cast : Option (Span × Cast)} {w : Word}
    (h : v.castAs cast = .word w) :
    (∃ a, v = .word a) ∧ deferred.castAs cast = deferred := by
  cases cast with
  | none => exact ⟨⟨w, h⟩, rfl⟩
  | some c =>
    obtain ⟨span, cast⟩ := c
    cases cast with
    | unknown name => cases h
    | _ =>
      cases v with
      | word a => exact ⟨⟨a, rfl⟩, rfl⟩
      | _ => cases h

theorem shift_eq_word {v : AliasValue} {n : Nat} {w : Word} (h : v.shift n = .word w) :
    v = .word w := by
  cases v with
  | error e => cases h
  | _ => exact h

theorem eq_word_of_toSymbolValue {v : AliasValue} {w : Word} (h : v.toSymbolValue = .word w) :
    v = .word w := by
  cases v with
  | word u => exact congrArg AliasValue.word (SymbolValue.word.inj h)
  | _ => cases h

/-- Whether a word of the first pass is that of the second. -/
def Keeps (v v' : AliasValue) : Prop := ∀ w, v = .word w → v' = .word w

/-- Whether a word of the second pass is that of the first, or could not be known there. -/
def Awaits (v v' : AliasValue) : Prop := ∀ w, v' = .word w → v = .word w ∨ v = .deferred

theorem keeps_combine {op : Operator} {span : Span} {l l' r r' : AliasValue} (hl : Keeps l l')
    (hr : Keeps r r') : Keeps (combine op span l r) (combine op span l' r') := by
  intro w h
  obtain ⟨a, b, rfl, rfl⟩ := words_of_combine h
  rw [hl a rfl, hr b rfl]
  exact h

theorem keeps_castAs {v v' : AliasValue} (hv : Keeps v v') (cast : Option (Span × Cast)) :
    Keeps (v.castAs cast) (v'.castAs cast) := by
  intro w h
  obtain ⟨⟨a, rfl⟩, -⟩ := word_of_castAs h
  rw [hv a rfl]
  exact h

theorem awaits_combine {op : Operator} {span : Span} {l l' r r' : AliasValue} (hl : Awaits l l')
    (hr : Awaits r r') : Awaits (combine op span l r) (combine op span l' r') := by
  intro w h
  obtain ⟨a, b, rfl, rfl⟩ := words_of_combine h
  rcases hl a rfl with rfl | rfl
  · rcases hr b rfl with rfl | rfl
    · exact Or.inl h
    · exact Or.inr (combine_deferred_right op span _)
  · exact Or.inr (combine_deferred_left op span r)

theorem awaits_castAs {v v' : AliasValue} (hv : Awaits v v') (cast : Option (Span × Cast)) :
    Awaits (v.castAs cast) (v'.castAs cast) := by
  intro w h
  obtain ⟨⟨a, rfl⟩, hdeferred⟩ := word_of_castAs h
  rcases hv a rfl with rfl | rfl
  · exact Or.inl h
  · exact Or.inr hdeferred

end AliasValue

theorem AliasScope.lookup_eq_word_iff {a : AliasScope} {span : Span} {name : String} {w : Word} :
    a.lookup span name = .word w ↔ a.values.find? name = some (.word w) := by
  unfold lookup
  split
  · next h => simp [h]
  · next h => simp [h]
  · next h => simp [h, AliasValue.fail]
  · next h => simp [h]
  · next h =>
    rw [h]
    split <;> simp [AliasValue.fail]

theorem AliasScope.lookup_of_deferred {a : AliasScope} {name : String} (span : Span)
    (h : a.values.find? name = some .deferred) : a.lookup span name = .deferred := by
  rw [lookup, h]

namespace Site

open Definitions WorkList

variable {s t : Site} {a b : AliasScope}

/-! ## Expressions in two passes -/

/-- A relation of outcomes that operators keep relates the outcomes of a tree if it relates those of
its leaves. -/
theorem evaluateTree_rel {rel : AliasValue → AliasValue → Prop}
    (hcombine : ∀ {op : Operator} {span : Span} {l l' r r' : AliasValue}, rel l l' → rel r r' →
      rel (.combine op span l r) (.combine op span l' r'))
    {position : Nat} {tree : Tree}
    (hleaf : ∀ leaf ∈ tree.leaves, rel (s.evaluateOperand a position leaf.1 leaf.2).1
      (t.evaluateOperand b position leaf.1 leaf.2).1) :
    rel (s.evaluateTree a position tree).1 (t.evaluateTree b position tree).1 := by
  induction tree with
  | leaf span operand => exact hleaf _ (List.mem_singleton_self _)
  | binary span op left right ihl ihr =>
    refine hcombine (ihl ?_) (ihr ?_)
    · intro leaf hl
      exact hleaf leaf (List.mem_append_left _ hl)
    · intro leaf hr
      exact hleaf leaf (List.mem_append_right _ hr)

/-- The leaves of a tree with a word have words. -/
theorem words_of_evaluateTree {position : Nat} {tree : Tree} {w : Word}
    (h : (s.evaluateTree a position tree).1 = .word w) :
    ∀ leaf ∈ tree.leaves, ∃ v, (s.evaluateOperand a position leaf.1 leaf.2).1 = .word v := by
  induction tree generalizing w with
  | leaf span operand =>
    intro leaf hl
    obtain rfl := List.mem_singleton.mp hl
    exact ⟨w, h⟩
  | binary span op left right ihl ihr =>
    obtain ⟨x, y, hx, hy⟩ := AliasValue.words_of_combine h
    intro leaf hl
    rcases List.mem_append.mp hl with hleft | hright
    · exact ihl hx leaf hleft
    · exact ihr hy leaf hright

theorem words_of_evaluate {position : Nat} {e : Expr} {w : Word}
    (h : (s.evaluate a position e).1 = .word w) :
    ∀ leaf ∈ e.tree.leaves, ∃ v, (s.evaluateOperand a position leaf.1 leaf.2).1 = .word v := by
  rw [evaluate_eq] at h
  obtain ⟨⟨v, hv⟩, -⟩ := AliasValue.word_of_castAs h
  exact words_of_evaluateTree hv

theorem resolve_of_isLocal (hlocal : s.context.isLocal = true) (ref : AddressRef) (position : Nat)
    (narrow : Bool) (span : Span) : (s.resolve ref position narrow span).1 = .deferred := by
  simp only [resolve, resolveWide, hlocal, if_true]
  cases narrow <;> rfl

/-- Of the leaves, the local pass defers those that later passes may see otherwise. -/
theorem evaluateOperand_of_isLocal (hlocal : s.context.isLocal = true) (position : Nat)
    (span : Span) (operand : Operand) :
    (∃ name, operand = .aliasRef name) ∨
      (s.evaluateOperand a position span operand).1 = .deferred ∨
      (t.evaluateOperand b position span operand).1 =
        (s.evaluateOperand a position span operand).1 := by
  cases operand with
  | aliasRef name => exact Or.inl ⟨name, rfl⟩
  | address ref =>
    refine Or.inr (Or.inl ?_)
    have hresolve := resolve_of_isLocal hlocal ref position false span
    simp only [evaluateOperand]
    split
    · next h => rw [h] at hresolve; cases hresolve
    · rfl
    · next h => rw [h] at hresolve; cases hresolve
  | imported qualifier symbol =>
    refine Or.inr (Or.inl ?_)
    simp only [evaluateOperand, importedValue, hlocal, if_true]
  | _ => exact Or.inr (Or.inr rfl)

theorem keeps_evaluateOperand (hlocal : s.context.isLocal = true)
    (hvalues : ∀ name w, a.values.find? name = some (.word w) →
      b.values.find? name = some (.word w))
    (position : Nat) (span : Span) (operand : Operand) :
    AliasValue.Keeps (s.evaluateOperand a position span operand).1
      (t.evaluateOperand b position span operand).1 := by
  intro w h
  rcases evaluateOperand_of_isLocal hlocal position span operand with ⟨name, rfl⟩ | hd | hsame
  · exact AliasScope.lookup_eq_word_iff.mpr (hvalues name w (AliasScope.lookup_eq_word_iff.mp h))
  · rw [hd] at h
    cases h
  · exact hsame.trans h

theorem awaits_evaluateOperand (hlocal : s.context.isLocal = true)
    (hvalues : ∀ name w, b.values.find? name = some (.word w) →
      a.values.find? name = some (.word w) ∨ a.values.find? name = some .deferred)
    (position : Nat) (span : Span) (operand : Operand) :
    AliasValue.Awaits (s.evaluateOperand a position span operand).1
      (t.evaluateOperand b position span operand).1 := by
  intro w h
  rcases evaluateOperand_of_isLocal hlocal position span operand with ⟨name, rfl⟩ | hd | hsame
  · rcases hvalues name w (AliasScope.lookup_eq_word_iff.mp h) with hword | hdeferred
    · exact Or.inl (AliasScope.lookup_eq_word_iff.mpr hword)
    · exact Or.inr (AliasScope.lookup_of_deferred span hdeferred)
  · exact Or.inr hd
  · exact Or.inl (hsame.symm.trans h)

theorem keeps_evaluate (hlocal : s.context.isLocal = true)
    (hvalues : ∀ name w, a.values.find? name = some (.word w) →
      b.values.find? name = some (.word w))
    (position : Nat) (e : Expr) :
    AliasValue.Keeps (s.evaluate a position e).1 (t.evaluate b position e).1 := by
  rw [evaluate_eq, evaluate_eq]
  refine AliasValue.keeps_castAs (evaluateTree_rel AliasValue.keeps_combine ?_) e.cast
  intro leaf _
  exact keeps_evaluateOperand hlocal hvalues position leaf.1 leaf.2

theorem awaits_evaluate (hlocal : s.context.isLocal = true)
    (hvalues : ∀ name w, b.values.find? name = some (.word w) →
      a.values.find? name = some (.word w) ∨ a.values.find? name = some .deferred)
    (position : Nat) (e : Expr) :
    AliasValue.Awaits (s.evaluate a position e).1 (t.evaluate b position e).1 := by
  rw [evaluate_eq, evaluate_eq]
  refine AliasValue.awaits_castAs (evaluateTree_rel AliasValue.awaits_combine ?_) e.cast
  intro leaf _
  exact awaits_evaluateOperand hlocal hvalues position leaf.1 leaf.2

/-! ## Aliases in two passes -/

/-- What holds of the word of every alias, if it holds of those that the alias is computed from,
holds of all words of an object's aliases. -/
theorem aliases_induction {P : String → Word → Prop}
    (step : ∀ values, ∀ p ∈ (ofLines s).pending, ∀ w,
      (∀ name v, values.find? name = some (.word v) → P name v) →
        (s.outcome (ofLines s).declared values p).1 = .word w → P p.name w)
    {name : String} {w : Word} (h : s.aliases.1.find? name = some (.word w)) : P name w := by
  have hrun : (∀ p ∈ s.doneList.waiting, p ∈ (ofLines s).pending) ∧
      ∀ name v, s.doneList.values.find? name = some (.word v) → P name v := by
    refine invariant_run (P := fun w => (∀ p ∈ w.waiting, p ∈ (ofLines s).pending) ∧
      ∀ name v, w.values.find? name = some (.word v) → P name v) ?_ ⟨?_, ?_⟩
    · rintro w w' hstep ⟨hwaiting, hwords⟩
      refine ⟨fun p hp => hwaiting p (hstep.mem_waiting hp), ?_⟩
      cases hstep with
      | park hq hv => exact hwords
      | @finish p rest hq hv =>
        intro name v hname
        by_cases he : name = p.name
        · rw [he, WorkList.finish, NameMap.find?_insert_self, Option.some.injEq] at hname
          have hp : p ∈ w.waiting := by simp [waiting, hq]
          exact he ▸ step w.values p (hwaiting p hp) v hwords (AliasValue.shift_eq_word hname)
        · rw [WorkList.finish, NameMap.find?_insert_of_ne _ _ he] at hname
          exact hwords name v hname
    · intro p hp
      simpa [waiting] using hp
    · intro name v hname
      obtain ⟨e, he⟩ := (aliasesDeclared_ofLines s).malformed name _ hname
      cases he
  rcases s.find?_aliases.mp h with ⟨p, -, -, herror⟩ | hfound
  · cases herror
  · exact hrun.2 name w hfound

/-- Whether an alias waits to be evaluated depends on the lines of the object alone. -/
theorem mem_pending_of_source (hsource : t.source = s.source) {p : PendingAlias}
    (hp : p ∈ (ofLines s).pending) : p ∈ (ofLines t).pending := by
  rw [(traced_ofLines t).pending_iff, hsource]
  exact ((traced_ofLines s).pending_iff p).mp hp

/-- An alias none of whose leaves is an error is on no cycle. -/
theorem find?_aliases_of_leaves {p : PendingAlias} (hp : p ∈ (ofLines s).pending)
    (hleaves : ∀ leaf ∈ p.expr.tree.leaves, ∀ e, (s.evaluateOperand
      ⟨s.aliases.1, (ofLines s).declared⟩ p.position leaf.1 leaf.2).1 ≠ .error e) :
    s.aliases.1.find? p.name =
      some ((s.outcome (ofLines s).declared s.aliases.1 p).1.shift p.origin) := by
  rcases s.sound_aliases hp with ⟨dependency, -, ⟨span, hleaf⟩, next, ⟨_, hstuck⟩⟩ | hvalue
  · refine absurd ?_ (hleaves _ hleaf ⟨span, .erroneousDependency dependency⟩)
    simp only [evaluateOperand, AliasScope.lookup, hstuck]
    rfl
  · exact hvalue

/-- A word of the local pass is that of a later pass. -/
theorem word_of_local (hlocal : s.context.isLocal = true) (hsource : t.source = s.source)
    {name : String} {w : Word} (h : s.aliases.1.find? name = some (.word w)) :
    t.aliases.1.find? name = some (.word w) := by
  refine aliases_induction (P := fun name w => t.aliases.1.find? name = some (.word w)) ?_ h
  intro values p hp w hvalues hword
  have hlater : (t.outcome (ofLines t).declared t.aliases.1 p).1 = .word w :=
    keeps_evaluate hlocal hvalues p.position p.expr w hword
  rw [find?_aliases_of_leaves (mem_pending_of_source hsource hp), hlater]
  · rfl
  · intro leaf hleaf e herror
    obtain ⟨v, hv⟩ := words_of_evaluate hlater leaf hleaf
    cases hv.symm.trans herror

/-- A word of a later pass is that of the local pass, or is deferred there. -/
theorem word_or_deferred_of_later (hlocal : s.context.isLocal = true)
    (hsource : t.source = s.source) {name : String} {w : Word} (h : t.aliases.1.find? name = some (.word w)) :
    s.aliases.1.find? name = some (.word w) ∨ s.aliases.1.find? name = some .deferred := by
  refine aliases_induction (P := fun name w => s.aliases.1.find? name = some (.word w) ∨
    s.aliases.1.find? name = some .deferred) ?_ h
  intro values p hp w hvalues hword
  have hvalue : s.aliases.1.find? p.name =
      some ((s.outcome (ofLines s).declared s.aliases.1 p).1.shift p.origin) := by
    refine find?_aliases_of_leaves (mem_pending_of_source hsource.symm hp) ?_
    intro leaf hleaf e herror
    obtain ⟨v, hv⟩ := words_of_evaluate hword leaf hleaf
    have hawaits := awaits_evaluateOperand (a := ⟨s.aliases.1, (ofLines s).declared⟩) hlocal hvalues
      p.position leaf.1 leaf.2 v hv
    rw [herror] at hawaits
    rcases hawaits with hs | hs <;> cases hs
  have hlocally : (s.outcome (ofLines s).declared s.aliases.1 p).1 = .word w ∨
      (s.outcome (ofLines s).declared s.aliases.1 p).1 = .deferred :=
    awaits_evaluate hlocal hvalues p.position p.expr w hword
  rw [hvalue]
  rcases hlocally with hs | hs
  · exact Or.inl (by rw [hs]; rfl)
  · exact Or.inr (by rw [hs]; rfl)

end Site

/-! ## Symbols and operands in two passes -/

/-- Whether an operand of the local pass stays as it is or is rightly left open: a value or a text
is the same later, and an error does not become an address or a value. -/
structure OperandValue.RefinedBy (v v' : OperandValue) : Prop where
  value : ∀ w, v = .value w → v' = .value w
  raw : ∀ text, v = .raw text → v' = .raw text
  error : v = .error → (∀ a, v' ≠ .address a) ∧ ∀ w, v' ≠ .value w

/-- Whether all operands of an instruction are refined, and the rest is the same. -/
structure Instruction.RefinedBy (i i' : Instruction) : Prop where
  mnemonic : i'.mnemonic = i.mnemonic
  span : i'.span = i.span
  position : i'.position = i.position
  operands : List.Forall₂ OperandValue.RefinedBy i.operands i'.operands

/-- Whether a pass refines another: aliases with a word keep their symbol, aliases with an error get
no word, and operands are refined. -/
structure PassResult.RefinedBy (r r' : PassResult) : Prop where
  word : ∀ name sym w, r.symbols.find? name = some sym → sym.kind = .aliasName →
    sym.value = .word w → r'.symbols.find? name = some sym
  error : ∀ name sym sym', r.symbols.find? name = some sym → sym.kind = .aliasName →
    sym.value = .error → r'.symbols.find? name = some sym' → ∀ w, sym'.value ≠ .word w
  instructions : List.Forall₂ Instruction.RefinedBy r.instructions r'.instructions

namespace OperandValue

theorem refinedBy_refl (v : OperandValue) : v.RefinedBy v := by
  refine ⟨fun _ h => h, fun _ h => h, ?_⟩
  rintro rfl
  exact ⟨fun _ => OperandValue.noConfusion, fun _ => OperandValue.noConfusion⟩

theorem refinedBy_deferred (v : OperandValue) : RefinedBy .deferred v :=
  ⟨fun _ => OperandValue.noConfusion, fun _ => OperandValue.noConfusion, OperandValue.noConfusion⟩

theorem refinedBy_error {v : OperandValue} (h : v = .error ∨ v = .deferred) :
    RefinedBy .error v := by
  refine ⟨fun _ => OperandValue.noConfusion, fun _ => OperandValue.noConfusion, fun _ => ?_⟩
  rcases h with rfl | rfl
  · exact ⟨fun _ => OperandValue.noConfusion, fun _ => OperandValue.noConfusion⟩
  · exact ⟨fun _ => OperandValue.noConfusion, fun _ => OperandValue.noConfusion⟩

end OperandValue

namespace Site

open Definitions

variable {s t : Site}

theorem refinedBy_resolveOperand (hlocal : s.context.isLocal = true) (hsource : t.source = s.source)
    (policy : OversizedPolicy) (i : InstructionText) (position : Nat) (operand : OperandText) :
    (s.resolveOperand policy s.aliases.1 i position operand).1.RefinedBy
      (t.resolveOperand policy t.aliases.1 i position operand).1 := by
  simp only [resolveOperand]
  split
  · next ref _ =>
    have hresolve :=
      resolve_of_isLocal hlocal ref position (decide (i.inlineBytes < 4)) operand.span
    split
    · next h => rw [h] at hresolve; cases hresolve
    · exact OperandValue.refinedBy_deferred _
    · next h => rw [h] at hresolve; cases hresolve
  · next name _ =>
    split
    · next w hs =>
      rw [word_of_local hlocal hsource hs]
      exact OperandValue.refinedBy_refl _
    · exact OperandValue.refinedBy_deferred _
    all_goals
      -- the alias is wrong in the local pass, so it has no word later
      next hs =>
      refine OperandValue.refinedBy_error ?_
      split
      · next w ht =>
        rcases word_or_deferred_of_later hlocal hsource ht with h | h <;> cases hs.symm.trans h
      · exact Or.inr rfl
      all_goals exact Or.inl rfl
  · exact OperandValue.refinedBy_refl _
  · exact OperandValue.refinedBy_refl _

theorem optionRel_resolveLine? (hlocal : s.context.isLocal = true) (hsource : t.source = s.source)
    (policy : OversizedPolicy) (line : Line) :
    Option.Rel (fun x y => x.1.RefinedBy y.1) (s.resolveLine? policy s.aliases.1 line)
      (t.resolveLine? policy t.aliases.1 line) := by
  unfold resolveLine?
  split
  · next i _ =>
    refine .some ⟨rfl, rfl, rfl, ?_⟩
    simp only [List.map_map]
    refine List.rel_map (R := (· = ·)) ?_ (List.forall₂_same.mpr fun _ _ => rfl)
    rintro operand _ rfl
    exact refinedBy_resolveOperand hlocal hsource policy i line.preceding operand
  · exact .none

theorem find?_symbols_of_alias (hsource : t.source = s.source) {name : String} {sym : Symbol}
    (h : (ofLines s).symbols.find? name = some sym) (hk : sym.kind = .aliasName) :
    (ofLines t).symbols.find? name = some sym := by
  obtain ⟨l, hfirst, hline⟩ := ((traced_ofLines s).symbol_iff name sym).mp h
  refine ((traced_ofLines t).symbol_iff name sym).mpr ⟨l, hsource ▸ hfirst, ?_⟩
  unfold symbolOf? at hline ⊢
  split at hline
  · obtain rfl := Option.some.inj hline
    cases hk
  all_goals exact hline

/-- The symbol of an alias is its definition with its value. -/
theorem exists_value_of_alias {policy : OversizedPolicy} {name : String} {sym : Symbol}
    (h : (s.extract policy).symbols.find? name = some sym) (hk : sym.kind = .aliasName) :
    ∃ defined v, (ofLines s).symbols.find? name = some defined ∧ defined.kind = .aliasName ∧
      s.aliases.1.find? name = some v ∧ sym = defined.given (some v) := by
  rw [find?_symbols_extract] at h
  obtain ⟨defined, hdefined, rfl⟩ := Option.map_eq_some_iff.mp h
  rw [Symbol.kind_given] at hk
  obtain ⟨v, hv⟩ := (s.isSome_aliases_iff hdefined).mpr hk
  exact ⟨defined, v, hdefined, hk, hv, by rw [hv]⟩

/-- **Later passes only refine.**  Compared with the local pass over an object, a pass in any
context keeps the aliases that have a word, gives none to aliases with an error, keeps operands that are
values or text, and turns no error into an address or a value. -/
theorem later_pass_refines {s t : Site} (hscope : s.context.scope = .localPass)
    (hsource : t.source = s.source) (policy : OversizedPolicy) :
    (s.extract policy).RefinedBy (t.extract policy) := by
  have hlocal : s.context.isLocal = true := beq_iff_eq.mpr hscope
  refine ⟨?_, ?_, ?_⟩
  · intro name sym w hsym hk hvalue
    obtain ⟨defined, v, hdefined, hkind, hv, rfl⟩ := exists_value_of_alias hsym hk
    obtain rfl : v = .word w := AliasValue.eq_word_of_toSymbolValue hvalue
    rw [find?_symbols_extract, find?_symbols_of_alias hsource hdefined hkind,
      word_of_local hlocal hsource hv]
    rfl
  · intro name sym sym' hsym hk hvalue hsym' w hw
    obtain ⟨defined, v, hdefined, hkind, hv, rfl⟩ := exists_value_of_alias hsym hk
    have hdefined' := find?_symbols_of_alias hsource hdefined hkind
    obtain ⟨v', hv'⟩ := (t.isSome_aliases_iff hdefined').mpr hkind
    rw [find?_symbols_extract, hdefined', hv', Option.map_some, Option.some.injEq] at hsym'
    rw [← hsym'] at hw
    obtain rfl : v' = .word w := AliasValue.eq_word_of_toSymbolValue hw
    rcases word_or_deferred_of_later hlocal hsource hv' with hs | hs
    · obtain rfl := Option.some.inj (hv.symm.trans hs)
      cases hvalue
    · obtain rfl := Option.some.inj (hv.symm.trans hs)
      cases hvalue
  · show List.Forall₂ Instruction.RefinedBy ((s.resolved policy).map (·.1))
      ((t.resolved policy).map (·.1))
    rw [List.forall₂_map_left_iff, List.forall₂_map_right_iff, resolved, resolved, hsource]
    refine List.rel_filterMap (R := (· = ·)) ?_ (List.forall₂_same.mpr fun _ _ => rfl)
    rintro line _ rfl
    exact optionRel_resolveLine? hlocal hsource policy line

/-- The object of `forwardAlias` at the start of memory. -/
def forwardAtStart : Site where
  context :=
    { scope := .globalPass
      precedingCount := 0
      preceding := []
      base := some ⟨0⟩
      origin := ⟨0⟩
      order := none
      blocks := some .empty
      mockExternals := false
      known := ["A"] }
  object := "A"
  source := forwardAlias.source

theorem later_pass_refines_forwardAlias :
    (forwardAlias.extract .reject).RefinedBy (forwardAtStart.extract .reject) ∧
      ∃ sym, sym.value = .word ⟨.quadByte, .unsigned, 2⟩ ∧
        (forwardAlias.extract .reject).symbols.find? "K" = some sym ∧
        (forwardAtStart.extract .reject).symbols.find? "K" = some sym := by
  have hrefined := later_pass_refines (s := forwardAlias) (t := forwardAtStart) rfl rfl .reject
  have hforward : ((forwardAlias.extract .reject).symbols.find? "K").map
      (fun sym => (sym.kind, sym.value)) = some (.aliasName, .word ⟨.quadByte, .unsigned, 2⟩) := by
    cbv
  obtain ⟨sym, hfound, hkind⟩ := Option.map_eq_some_iff.mp hforward
  obtain ⟨hk, hv⟩ := Prod.mk.inj hkind
  exact ⟨hrefined, sym, hv, hfound, hrefined.word _ _ _ hfound hk hv⟩

end Site

end LinkAsm
