import LinkAsm.Expr.Parser
import LinkAsm.Proofs.Token.Places

/-!
# Where expressions stand

The node of an operator reaches from the start of its left side to the end of its right side, so it
is a place of the text only if the left side starts first.  That is an invariant of reading: the
chains that wait, for a term or for a brace to be closed, start one before the other from the outside
in, and all before the tokens that are left (`Reading.Within`).

* `Grammar.orderly_operand` and its like: what the rules of the grammar take and report.
* `Reading.within_step`: what a step keeps.
* `Expr.within_of_parse`, `Expr.failure_within`: an expression, or the failure to read one, stands in
  its text.
-/

namespace LinkAsm

/-! ## Trees -/

/-- Whether all nodes of a tree stand in a text. -/
def Tree.Within (text : List Char) : Tree → Prop
  | .leaf span _ => span.Within text
  | .binary span _ left right => span.Within text ∧ left.Within text ∧ right.Within text

/-- Whether an expression and its cast stand in a text. -/
structure Expr.Within (text : List Char) (e : Expr) : Prop where
  tree : e.tree.Within text
  cast : ∀ span cast, e.cast = some (span, cast) → span.Within text

namespace Tree.Within

variable {text : List Char} {left right : Tree}

theorem span (h : left.Within text) : left.span.Within text := by
  cases left with
  | leaf span operand => exact h
  | binary span op l r => exact h.1

theorem join (hleft : left.Within text) (hright : right.Within text)
    (hle : left.span.start ≤ right.span.start) (op : Operator) :
    (left.join op right).Within text :=
  ⟨hleft.span.through hright.span (Nat.le_trans hle hright.span.le), hleft, hright⟩

end Tree.Within

/-! ## Rules -/

namespace Grammar

open LinkAsm.Parser

variable (text : List Char)

theorem orderly_exactly (t : Token) : (exactly t).Orderly text 1 := orderly_token text _ _

theorem orderly_name : name.Orderly text 1 := (orderly_token text _ _).labelled _

theorem orderly_integer : integer.Orderly text 1 := (orderly_token text _ _).labelled _

theorem orderly_offset : offset.Orderly text 0 := by
  have hsign : (choice [(exactly .plus).map fun _ => false,
      (exactly .minus).map fun _ => true]).Orderly text 1 :=
    ((orderly_exactly text _).map _).choice_cons
      (((orderly_exactly text _).map _).choice_cons (orderly_choice_nil text 1))
  unfold offset
  exact (((hsign.both (orderly_integer text)).checked _).optional).map _

theorem orderly_address : address.Orderly text 1 := by
  have hdollar := orderly_exactly text .dollar
  have hname := orderly_name text
  have hglobal := (orderly_exactly text .doubleDollar).after (orderly_offset text)
  have hblock := (hdollar.after (orderly_exactly text .dot)).after hname
  have himported := ((hdollar.after hname).before (orderly_exactly text .colon)).both hname
  have hlabel := hdollar.after hname
  have hown := hdollar.after (orderly_offset text)
  refine Orderly.labelled ?_ _
  exact (hglobal.map _).choice_cons (((hblock.map _).mono (by decide)).choice_cons
    (((himported.map _).mono (by decide)).choice_cons (((hlabel.map _).mono (by decide)).choice_cons
      ((hown.map _).choice_cons (orderly_choice_nil text 1)))))

theorem orderly_aliasRef : aliasRef.Orderly text 2 :=
  ((orderly_exactly text _).after (orderly_name text)).labelled _

theorem orderly_injected : injected.Orderly text 1 := by
  have hminus := (orderly_exactly text .minus).optional
  exact ((orderly_token text _ _).map _).choice_cons
    (((hminus.both (orderly_token text _ _)).map _).choice_cons (orderly_choice_nil text 1))

theorem orderly_injector : injector.Orderly text 1 := by
  have hkind := ((orderly_exactly text .atSign).after (orderly_name text)).before
    (orderly_exactly text .equals)
  exact (((hkind.both (orderly_injected text)).map _).labelled _).mono (by decide)

theorem orderly_number : number.Orderly text 1 :=
  (((orderly_integer text).map _).choice_cons
    (((orderly_token text _ _).map _).choice_cons (orderly_choice_nil text 1))).labelled _

theorem orderly_imported : imported.Orderly text 1 := by
  have hqualifier := (orderly_name text).before (orderly_exactly text .colon)
  exact (((hqualifier.both (orderly_name text)).map _).labelled _).mono (by decide)

theorem orderly_operand : operand.Orderly text 1 := by
  have halias := ((orderly_aliasRef text).map Operand.aliasRef).mono (show 1 ≤ 2 by decide)
  have hleaf := halias.choice_cons (((orderly_address text).map Operand.address).choice_cons
    ((orderly_injector text).choice_cons ((orderly_imported text).choice_cons
      ((orderly_number text).choice_cons (orderly_choice_nil text 1)))))
  exact hleaf.spanned.map _

theorem orderly_opening : opening.Orderly text 1 := (orderly_exactly text _).labelled _

theorem orderly_closing : closing.Orderly text 1 := orderly_exactly text _

theorem orderly_operator : operator.Orderly text 1 := (orderly_token text _ _).labelled _

theorem orderly_cast : cast.Orderly text 2 :=
  ((orderly_exactly text _).after ((orderly_name text).spanned.map _)).labelled _

variable {text} {ls rest : List Lexeme}

/-- An operand is a leaf over the tokens that it takes. -/
theorem leaf_of_operand {tree : Tree} (h : operand.run ls = some (tree, rest)) :
    ∃ op, tree = .leaf (spanOf ls rest) op := by
  obtain ⟨⟨span, op⟩, hspanned, rfl⟩ := run_map_iff.mp h
  obtain ⟨-, rfl⟩ := run_spanned_iff.mp hspanned
  exact ⟨op, rfl⟩

theorem within_cast {span : Span} {c : Cast} (hls : InOrder text ls)
    (h : cast.run ls = some ((span, c), rest)) : span.Within text := by
  obtain ⟨word, middle, hword, hname⟩ := run_after_iff.mp h
  have hmiddle := hls.suffix ((orderly_exactly text .asWord).suffix hls hword)
  obtain ⟨⟨place, name⟩, hspanned, heq⟩ := run_map_iff.mp hname
  obtain ⟨-, rfl⟩ := run_spanned_iff.mp hspanned
  obtain ⟨rfl, -⟩ := Prod.mk.inj heq
  exact within_spanOf hmiddle rest

end Grammar

/-! ## Chains that wait -/

namespace Reading

variable {text : List Char} {ls : List Lexeme} {n m : Nat} {before : Option Pending}
  {braces : List (Option Pending)}

/-- Whether the chains that wait stand in the text, start one before the other from the inside out,
the innermost at `n` or before, and know the tokens behind them. -/
def Waits (text : List Char) (ls : List Lexeme) : Nat → List (Option Pending) → Prop
  | _, [] => True
  | n, none :: braces => Waits text ls n braces
  | n, some p :: braces => p.left.Within text ∧ p.left.span.start ≤ n ∧ p.tokens <:+ ls ∧
      Waits text ls p.left.span.start braces

theorem Waits.mono (h : Waits text ls n braces) (hle : n ≤ m) : Waits text ls m braces := by
  induction braces with
  | nil => trivial
  | cons before braces ih =>
    cases before with
    | none => exact ih h
    | some p => exact ⟨h.1, Nat.le_trans h.2.1 hle, h.2.2⟩

theorem Waits.tail (h : Waits text ls n (before :: braces)) : Waits text ls n braces := by
  cases before with
  | none => exact h
  | some p => exact h.2.2.2.mono h.2.1

/-- Whether the place of the reader fits to the chains that wait. -/
def Place.Waits (text : List Char) (ls : List Lexeme) (n : Nat) (braces : List (Option Pending)) :
    Place → Prop
  | .term before => Reading.Waits text ls n (before :: braces)
  | .behind chain => chain.Within text ∧ chain.span.start ≤ n ∧
      Reading.Waits text ls chain.span.start braces

/-- The chain with its next term stands behind those that wait for it. -/
theorem Waits.complete {term : Tree} (h : Waits text ls n (before :: braces))
    (hterm : term.Within text) (hle : n ≤ term.span.start) :
    Place.Waits text ls term.span.start braces (.behind (Pending.complete before term)) := by
  cases before with
  | none => exact ⟨hterm, Nat.le_refl _, Reading.Waits.mono h hle⟩
  | some p =>
    obtain ⟨hleft, hstart, -, hbraces⟩ := h
    have hfirst := Nat.le_trans hstart hle
    exact ⟨hleft.join hterm hfirst p.operator, hfirst, hbraces⟩

/-- What has been read where a term is missing. -/
def Result.Within (text : List Char) (ls : List Lexeme) (result : Option (Tree × List Lexeme)) :
    Prop :=
  ∀ tree rest, result = some (tree, rest) → tree.Within text ∧ rest <:+ ls

theorem within_abandon (h : Waits text ls n (before :: braces)) :
    Result.Within text ls (abandon braces before) := by
  induction braces generalizing before n with
  | nil =>
    intro tree rest hresult
    obtain ⟨p, rfl, heq⟩ := Option.map_eq_some_iff.mp hresult
    obtain ⟨rfl, rfl⟩ := Prod.mk.inj heq
    exact ⟨h.1, h.2.2.1⟩
  | cons outer braces ih => exact ih h.tail

/-! ## Steps -/

/-- What a reading of the tokens `ls` of a text keeps. -/
structure Within (text : List Char) (ls : List Lexeme) (r : Reading) : Prop where
  rest : r.tokens <:+ ls
  waits : ∃ n, (∀ l ∈ r.tokens, n ≤ l.span.start) ∧ r.place.Waits text ls n r.braces

theorem within_start (text : List Char) (ls : List Lexeme) : (start ls).Within text ls :=
  ⟨List.suffix_refl ls, 0, fun _ _ => Nat.zero_le _, trivial⟩

/-- Whether a step keeps the invariant, or what it ends with stands in the text. -/
def Outcome.Within (text : List Char) (ls : List Lexeme) :
    Reading ⊕ Option (Tree × List Lexeme) → Prop
  | .inl next => next.Within text ls
  | .inr result => Result.Within text ls result

variable {r : Reading}

theorem within_step_term (hls : InOrder text ls) (hrest : r.tokens <:+ ls)
    (hahead : ∀ l ∈ r.tokens, n ≤ l.span.start) (hplace : r.place = .term before)
    (hwaits : Waits text ls n (before :: r.braces)) : Outcome.Within text ls r.step := by
  have htokens := hls.suffix hrest
  unfold step
  rw [hplace]
  dsimp only
  split
  · next rest hopening =>
    have hsuffix := (Grammar.orderly_opening text).suffix htokens hopening
    exact ⟨hsuffix.trans hrest, n, fun l hl => hahead l (hsuffix.subset hl), hwaits⟩
  · split
    · next term rest hoperand =>
      -- the term starts with the first token, and all others behind it
      have hsuffix := (Grammar.orderly_operand text).suffix htokens hoperand
      obtain ⟨op, rfl⟩ := Grammar.leaf_of_operand hoperand
      obtain ⟨l, tail, htail, hbehind⟩ :=
        (Grammar.orderly_operand text).exists_cons htokens hoperand
      rw [htail] at htokens hahead
      have hstart := Parser.start_spanOf htokens hbehind
      have hle : n ≤ (Parser.spanOf r.tokens rest).start := by
        rw [htail, hstart]
        exact hahead l List.mem_cons_self
      refine ⟨hsuffix.trans hrest, _, ?_, hwaits.complete ?_ hle⟩
      · intro m hm
        show (Parser.spanOf r.tokens rest).start ≤ m.span.start
        rw [htail, hstart]
        exact Nat.le_of_lt (htokens.start_lt (hbehind.subset hm))
      · exact Parser.within_spanOf (hls.suffix hrest) rest
    · exact within_abandon hwaits

theorem within_step_behind {chain : Tree} (hls : InOrder text ls) (hrest : r.tokens <:+ ls)
    (hahead : ∀ l ∈ r.tokens, n ≤ l.span.start) (hplace : r.place = .behind chain)
    (hwaits : Place.Waits text ls n r.braces (.behind chain)) : Outcome.Within text ls r.step := by
  have htokens := hls.suffix hrest
  obtain ⟨hchain, hstart, hbraces⟩ := hwaits
  unfold step
  rw [hplace]
  dsimp only
  split
  · next op rest hoperator =>
    have hsuffix := (Grammar.orderly_operator text).suffix htokens hoperator
    exact ⟨hsuffix.trans hrest, n, fun l hl => hahead l (hsuffix.subset hl),
      ⟨hchain, hstart, hrest, hbraces⟩⟩
  · split
    · intro tree rest hresult
      obtain ⟨rfl, rfl⟩ := Prod.mk.inj (Option.some.inj hresult)
      exact ⟨hchain, hrest⟩
    · next before braces heq =>
      rw [heq] at hbraces
      split
      · next rest hclosing =>
        have hsuffix := (Grammar.orderly_closing text).suffix htokens hclosing
        obtain ⟨hcomplete, hle, hwaits⟩ := hbraces.complete hchain (Nat.le_refl _)
        exact ⟨hsuffix.trans hrest, n, fun l hl => hahead l (hsuffix.subset hl),
          ⟨hcomplete, Nat.le_trans hle hstart, hwaits⟩⟩
      · exact within_abandon hbraces

/-- A step keeps what is known of the chains that wait. -/
theorem within_step (hls : InOrder text ls) (h : r.Within text ls) :
    Outcome.Within text ls r.step := by
  obtain ⟨hrest, n, hahead, hwaits⟩ := h
  cases hplace : r.place with
  | term before =>
    rw [hplace] at hwaits
    exact within_step_term hls hrest hahead hplace hwaits
  | behind chain =>
    rw [hplace] at hwaits
    exact within_step_behind hls hrest hahead hplace hwaits

theorem within_run (hls : InOrder text ls) (h : r.Within text ls) (steps : Nat) :
    Result.Within text ls (r.run steps) := by
  induction steps generalizing r with
  | zero =>
    intro tree rest hresult
    cases hresult
  | succ steps ih =>
    have hstep := within_step hls h
    unfold run
    split
    · next next heq =>
      rw [heq] at hstep
      exact ih hstep
    · next result heq =>
      rw [heq] at hstep
      exact hstep

/-! ## Obstacles -/

/-- Whether all obstacles stand in a text. -/
structure Obstacles.Within (text : List Char) (o : Obstacles) : Prop where
  inside : ∀ x ∈ o.inside, x.Within text
  outside : ∀ old ∈ o.outside, ∀ x ∈ old, Obstacle.Within text x

theorem Obstacles.Within.furthest {o : Obstacles} (h : o.Within text) :
    ∀ x ∈ o.furthest, x.Within text := by
  obtain ⟨inside, outside⟩ := o
  obtain ⟨hinside, houtside⟩ := h
  unfold Obstacles.furthest
  dsimp only at *
  induction outside generalizing inside with
  | nil => exact hinside
  | cons old outside ih =>
    refine ih _ (Obstacle.within_merge? (houtside old List.mem_cons_self) hinside) ?_
    intro older holder
    exact houtside older (List.mem_cons_of_mem _ holder)

theorem within_observe {o : Obstacles} (htokens : InOrder text r.tokens) (h : o.Within text) :
    (r.observe o).Within text := by
  unfold observe
  split
  · split
    · refine ⟨?_, ?_⟩
      · intro x hx
        cases hx
      · intro old hold
        rcases List.mem_cons.mp hold with rfl | houter
        · exact h.inside
        · exact h.outside old houter
    · exact ⟨(Grammar.orderly_operand text).reports htokens
        ((Grammar.orderly_opening text).reports htokens h.inside), h.outside⟩
  · have hinside := (Grammar.orderly_operator text).reports htokens h.inside
    dsimp only
    split
    · exact ⟨hinside, h.outside⟩
    · split
      · exact ⟨hinside, h.outside⟩
      · next old outer heq =>
        refine ⟨Obstacle.within_merge? ?_
          ((Grammar.orderly_closing text).reports htokens hinside), ?_⟩
        · exact h.outside old (heq ▸ List.mem_cons_self)
        · intro older holder
          exact h.outside older (heq ▸ List.mem_cons_of_mem _ holder)

theorem within_report {o : Obstacles} (hls : InOrder text ls) (h : r.Within text ls)
    (ho : o.Within text) (steps : Nat) : ∀ x ∈ r.report steps o, x.Within text := by
  induction steps generalizing r o with
  | zero => exact ho.furthest
  | succ steps ih =>
    have hstep := within_step hls h
    have hobserve := within_observe (hls.suffix h.rest) ho
    unfold report
    split
    · next next heq =>
      rw [heq] at hstep
      exact ih hstep hobserve
    · exact hobserve.furthest

end Reading

/-! ## Expressions -/

namespace Grammar

open LinkAsm.Parser

variable {text : List Char} {ls rest : List Lexeme}

theorem orderly_expression (text : List Char) : expression.Orderly text 0 := by
  refine ⟨?_, ?_⟩
  · intro ls tree rest hls hrun
    obtain ⟨-, taken, rfl⟩ := Reading.within_run hls (Reading.within_start text ls) _ tree rest hrun
    exact ⟨taken, rfl, Nat.zero_le _⟩
  · intro ls old hls hold
    refine Reading.within_report hls (Reading.within_start text ls) ⟨hold, ?_⟩ _
    intro older holder
    cases holder

theorem orderly_expr (text : List Char) : expr.Orderly text 0 :=
  (((orderly_expression text).labelled _).both (orderly_cast text).optional).map _

theorem within_expr {e : Expr} (hls : InOrder text ls) (h : expr.run ls = some (e, rest)) :
    e.Within text := by
  obtain ⟨⟨tree, found⟩, hboth, rfl⟩ := run_map_iff.mp h
  obtain ⟨middle, htree, hcast⟩ := run_both_iff.mp hboth
  obtain ⟨hwithin, hmiddle⟩ :=
    Reading.within_run hls (Reading.within_start text ls) _ tree middle htree
  refine ⟨hwithin, ?_⟩
  rintro span c rfl
  rcases run_optional_iff.mp hcast with ⟨-, hnone, -⟩ | ⟨value, hvalue, hsome⟩
  · cases hnone
  · obtain rfl := Option.some.inj hsome
    exact within_cast (hls.suffix hmiddle) hvalue

end Grammar

namespace Expr

variable {text : List Char}

/-- An expression stands in its text. -/
theorem within_of_parse {e : Expr} (h : parse text = .ok e) : e.Within text := by
  unfold parse Parser.parseAll at h
  dsimp only at h
  split at h
  · next found tail hrun =>
    obtain rfl := Except.ok.inj h
    obtain ⟨-, middle, hvalue, -⟩ := Parser.run_before_iff.mp hrun
    exact Grammar.within_expr (inOrder_tokenize text) hvalue
  · cases h

/-- The failure to read an expression stands in its text. -/
theorem failure_within {failure : ParseFailure} (h : parse text = .error failure) :
    failure.span.Within text :=
  (Grammar.orderly_expr text).failure_within (inOrder_tokenize text) h

end Expr

end LinkAsm
