import Mathlib
import LinkAsm.Proofs.Expr.Operands

/-!
# Expressions read as they are written

`Expr.text` writes an expression with braces around every operator's two sides.  Read again, the
text is the same expression at other places.  Two kinds of leaf are in the way: a float, whose text
may be that of a whole number, and an anchor without an offset before a sign and a number, which are
read as its offset.

* `Tree.Written`: the tokens that a tree is written with.
* `Reading.reaches_of_written`: reading them makes the tree, in no more steps than there are tokens.
* `Reading.all_run`: what holds of every operand that is read holds of all leaves of the result.
* `Expr.parse_text`: an expression that was read is read again from its text.
-/

namespace LinkAsm

/-! ## Trees without their places -/

/-- A tree without its places. -/
def Tree.unplaced : Tree → Tree
  | .leaf _ operand => .leaf ⟨0, 0⟩ operand
  | .binary _ op left right => .binary ⟨0, 0⟩ op left.unplaced right.unplaced

/-- An expression without its places. -/
def Expr.unplaced (e : Expr) : Expr := ⟨e.tree.unplaced, e.cast.map fun c => (⟨0, 0⟩, c.2)⟩

theorem Tree.unplaced_join (left right : Tree) (op : Operator) :
    (left.join op right).unplaced = .binary ⟨0, 0⟩ op left.unplaced right.unplaced := rfl

/-! ## Trees that can be read again -/

/-- Whether a leaf is a float. -/
def Operand.isFloat : Operand → Bool
  | .float _ => true
  | _ => false

/-- Whether a tree is an anchor without an offset. -/
def Tree.isBareAnchor : Tree → Bool
  | .leaf _ operand => operand.isBareAnchor
  | .binary .. => false

/-- Whether a tree is a whole number. -/
def Tree.isInteger : Tree → Bool
  | .leaf _ (.integer _) => true
  | _ => false

/-- Whether an operator is also a sign. -/
def Operator.isSign : Operator → Bool
  | .add | .subtract => true
  | _ => false

/-- Whether a tree has no float, and no anchor without an offset before a sign and a number. -/
def Tree.isRereadable : Tree → Bool
  | .leaf _ operand => !operand.isFloat
  | .binary _ op left right => !(op.isSign && left.isBareAnchor && right.isInteger) &&
      left.isRereadable && right.isRereadable

/-! ## Tokens of trees -/

/-- The token of an operator. -/
def Operator.token : Operator → Token
  | .add => .plus
  | .subtract => .minus
  | .multiply => .asterisk
  | .divide => .solidus
  | .power => .caret

/-- The tokens that a tree is written with. -/
inductive Tree.Written : Tree → List Token → Prop
  | leaf {operand : Operand} {ts : List Token} (span : Span) (h : operand.Written ts) :
    Written (.leaf span operand) ts
  | binary {left right : Tree} {ts us : List Token} (span : Span) (op : Operator)
    (hleft : left.Written ts) (hright : right.Written us) :
    Written (.binary span op left right)
      (.leftBrace :: (ts ++ op.token :: (us ++ [.rightBrace])))

theorem Operator.text_eq (op : Operator) : op.text.toList = op.token.text.toList := by
  cases op <;> rfl

theorem Operator.tokensOf_text_append (op : Operator) (rest : List Char) :
    tokensOf (op.text.toList ++ rest) = op.token :: tokensOf rest := by
  rw [op.text_eq]
  cases op <;> exact Token.tokensOf_text_append trivial trivial

namespace Tree.Written

open LinkAsm.Token

variable {tree : Tree} {ts : List Token} {rest : List Char}

/-- The tokens of a tree are those of its text. -/
theorem tokensOf_text_append (h : tree.Written ts) (hrest : Stops rest) :
    tokensOf (tree.text.toList ++ rest) = ts ++ tokensOf rest := by
  induction h generalizing rest with
  | leaf span h => exact h.tokensOf_text_append hrest
  | @binary left right ts us span op hleft hright ihl ihr =>
    have hspace : ∀ cs, Stops (' ' :: cs) := fun cs => stops_cons cs (by decide)
    have hbrace : ∀ cs, Stops ('\x7d' :: cs) := fun cs => stops_cons cs (by decide)
    have htext : (Tree.binary span op left right).text.toList ++ rest =
        '\x7b' :: (left.text.toList ++ ' ' :: (op.text.toList ++ ' ' ::
          (right.text.toList ++ '\x7d' :: rest))) := by
      simp [Tree.text, String.toList_append]
    rw [htext, tokensOf_char (show ofChar? '\x7b' = some .leftBrace from rfl), ihl (hspace _),
      tokensOf_separator _ (by decide), op.tokensOf_text_append, tokensOf_separator _ (by decide),
      ihr (hbrace _), tokensOf_char (show ofChar? '\x7d' = some .rightBrace from rfl)]
    simp

theorem exists_cons (h : tree.Written ts) : ∃ t us, ts = t :: us := by
  cases h with
  | leaf span h => exact List.exists_cons_of_length_pos h.length_pos
  | binary span op hleft hright => exact ⟨_, _, rfl⟩

/-- Only a whole number is written with a whole number in front. -/
theorem isInteger_of_head {t : Token} (h : tree.Written (t :: ts)) (ht : t.isInteger = true) :
    tree.isInteger = true := by
  cases h with
  | leaf span h =>
    cases h with
    | integer hn => rfl
    | relative anchor hoffset => cases anchor <;> cases ht
    | _ => cases ht
  | binary span op hleft hright => cases ht

end Tree.Written

/-! ## Reading the tokens of trees -/

namespace Reading

open LinkAsm.Parser

variable {r middle last : Reading} {m n : Nat}

/-- Whether a reading gets to another one in a number of steps. -/
inductive Reaches : Nat → Reading → Reading → Prop
  | refl (r : Reading) : Reaches 0 r r
  | step {r next last : Reading} {n : Nat} (h : r.step = .inl next) (rest : Reaches n next last) :
    Reaches (n + 1) r last

theorem Reaches.single (h : r.step = .inl last) : Reaches 1 r last := .step h (.refl last)

theorem Reaches.trans (hfirst : Reaches m r middle) (hsecond : Reaches n middle last) :
    Reaches (m + n) r last := by
  induction hfirst with
  | refl r =>
    rw [Nat.zero_add]
    exact hsecond
  | step h rest ih =>
    rw [Nat.add_right_comm]
    exact .step h (ih hsecond)

theorem Reaches.run_add (h : Reaches m r last) (n : Nat) : r.run (m + n) = last.run n := by
  induction h with
  | refl r => rw [Nat.zero_add]
  | @step r next last m hstep rest ih =>
    rw [Nat.succ_add, run, hstep]
    exact ih

variable {braces : List (Option Pending)} {before : Option Pending} {ls rest : List Lexeme}

theorem step_opening (p : Span) :
    step ⟨braces, .term before, ⟨.leftBrace, p⟩ :: rest⟩ =
      .inl ⟨before :: braces, .term none, rest⟩ := rfl

theorem step_operand {term : Tree} (h : Grammar.operand.run ls = some (term, rest)) :
    step ⟨braces, .term before, ls⟩ =
      .inl ⟨braces, .behind (Pending.complete before term), rest⟩ := by
  have hopening : Grammar.opening.run ls = none := by
    cases ls with
    | nil => rfl
    | cons l ls =>
      obtain ⟨t, span⟩ := l
      cases t with
      | leftBrace => cases h
      | _ => rfl
  simp only [step, hopening, h]

theorem step_operator (chain : Tree) (op : Operator) (p : Span) :
    step ⟨braces, .behind chain, ⟨op.token, p⟩ :: rest⟩ =
      .inl ⟨braces, .term (some ⟨chain, op, ⟨op.token, p⟩ :: rest⟩), rest⟩ := by
  cases op <;> rfl

theorem step_closing (chain : Tree) (p : Span) :
    step ⟨before :: braces, .behind chain, ⟨.rightBrace, p⟩ :: rest⟩ =
      .inl ⟨braces, .behind (Pending.complete before chain), rest⟩ := rfl

/-- The left side of an operator ends before it, unless it takes the right side for an offset. -/
theorem termEnds_operator {left right : Tree} {op : Operator} {us : List Token}
    (h : (op.isSign && left.isBareAnchor && right.isInteger) = false) (hright : right.Written us)
    (more : List Token) : TermEnds left.isBareAnchor (op.token :: (us ++ more)) := by
  refine ⟨?_, ?_⟩
  · intro t ht
    obtain rfl := Option.some.inj ht
    cases op <;> rfl
  · intro hbare
    obtain ⟨t, us, rfl⟩ := hright.exists_cons
    have hinteger : op.isSign = true → t.isInteger = false := by
      intro hsign
      rw [hsign, hbare, Bool.true_and, Bool.true_and] at h
      exact Bool.eq_false_iff.mpr fun ht =>
        Bool.false_ne_true (h.symm.trans (hright.isInteger_of_head ht))
    cases op with
    | add | subtract => exact hinteger rfl
    | _ => rfl

/-- The tokens of a tree are read as the tree, in no more steps than there are tokens. -/
theorem reaches_of_written {tree : Tree} {ts more : List Token} (h : tree.Written ts)
    (hreadable : tree.isRereadable = true) (hmore : TermEnds tree.isBareAnchor more)
    (hls : ls.map (·.token) = ts ++ more) (braces : List (Option Pending))
    (before : Option Pending) :
    ∃ found rest n, Reaches n ⟨braces, .term before, ls⟩
        ⟨braces, .behind (Pending.complete before found), rest⟩ ∧
      n ≤ ts.length ∧ rest.map (·.token) = more ∧ found.unplaced = tree.unplaced := by
  induction h generalizing more ls braces before with
  | leaf span h =>
    obtain ⟨place, rest, hrun, hrest⟩ := Grammar.run_operand h hmore hls
    exact ⟨_, rest, 1, .single (step_operand hrun), h.length_pos, hrest, rfl⟩
  | @binary left right ts us span op hleft hright ihl ihr =>
    simp only [Tree.isRereadable, Bool.and_eq_true, Bool.not_eq_true'] at hreadable
    obtain ⟨⟨hoffset, hl⟩, hr⟩ := hreadable
    have hclosing : TermEnds right.isBareAnchor (.rightBrace :: more) := by
      refine ⟨?_, fun _ => rfl⟩
      intro t ht
      obtain rfl := Option.some.inj ht
      rfl
    simp only [List.cons_append, List.append_assoc, List.nil_append] at hls
    -- the chain in braces starts anew, so what waits for it is put aside until they are closed
    obtain ⟨p, ls₁, rfl, hls₁⟩ := exists_lexeme hls
    obtain ⟨l, ls₂, nl, hreachl, hnl, hls₂, hleq⟩ :=
      ihl hl (termEnds_operator hoffset hright _) hls₁ (before :: braces) none
    obtain ⟨q, ls₃, rfl, hls₃⟩ := exists_lexeme hls₂
    obtain ⟨r, ls₄, nr, hreachr, hnr, hls₄, hreq⟩ :=
      ihr hr hclosing hls₃ (before :: braces) (some ⟨l, op, ⟨op.token, q⟩ :: ls₃⟩)
    obtain ⟨s, rest, rfl, hrest⟩ := exists_lexeme hls₄
    have hreach := ((((Reaches.single (step_opening p)).trans hreachl).trans
      (.single (step_operator l op q))).trans hreachr).trans (.single (step_closing _ s))
    refine ⟨l.join op r, rest, _, hreach, ?_, hrest, ?_⟩
    · simp only [List.length_cons, List.length_append, List.length_nil]
      omega
    · rw [Tree.unplaced_join, hleq, hreq]
      rfl

end Reading

/-! ## Leaves of what was read -/

/-- Whether all leaves of a tree have a property. -/
def Tree.All (P : Operand → Prop) : Tree → Prop
  | .leaf _ operand => P operand
  | .binary _ _ left right => left.All P ∧ right.All P

namespace Reading

open LinkAsm.Parser

variable {P : Operand → Prop} {r : Reading} {braces : List (Option Pending)}
  {before : Option Pending} {text : List Char} {ls : List Lexeme}

/-- Whether all leaves of a chain that waits have a property. -/
def Waiting.All (P : Operand → Prop) (before : Option Pending) : Prop :=
  ∀ p ∈ before, p.left.All P

/-- Whether all leaves of the innermost chain have a property. -/
def Place.All (P : Operand → Prop) : Place → Prop
  | .term before => Waiting.All P before
  | .behind chain => chain.All P

/-- Whether all leaves that have been read have a property. -/
structure All (P : Operand → Prop) (r : Reading) : Prop where
  braces : ∀ before ∈ r.braces, Waiting.All P before
  place : r.place.All P

/-- Whether all leaves of a result have a property. -/
def Result.All (P : Operand → Prop) (result : Option (Tree × List Lexeme)) : Prop :=
  ∀ tree rest, result = some (tree, rest) → tree.All P

/-- Whether all leaves that have been read after a step have a property. -/
def Outcome.All (P : Operand → Prop) : Reading ⊕ Option (Tree × List Lexeme) → Prop
  | .inl next => next.All P
  | .inr result => Result.All P result

theorem all_start (P : Operand → Prop) (ls : List Lexeme) : (start ls).All P := by
  refine ⟨?_, ?_⟩
  · intro before hbefore
    cases hbefore
  · intro p hp
    cases hp

theorem all_complete {term : Tree} (hbefore : Waiting.All P before) (hterm : term.All P) :
    (Pending.complete before term).All P := by
  cases before with
  | none => exact hterm
  | some p => exact ⟨hbefore p rfl, hterm⟩

theorem all_abandon (hbraces : ∀ outer ∈ braces, Waiting.All P outer)
    (hbefore : Waiting.All P before) : Result.All P (abandon braces before) := by
  induction braces generalizing before with
  | nil =>
    intro tree rest hresult
    obtain ⟨p, rfl, heq⟩ := Option.map_eq_some_iff.mp hresult
    obtain ⟨rfl, -⟩ := Prod.mk.inj heq
    exact hbefore p rfl
  | cons outer braces ih =>
    obtain ⟨houter, hbraces⟩ := List.forall_mem_cons.mp hbraces
    exact ih hbraces houter

/-- A step adds a leaf only by reading an operand. -/
theorem all_step (hoperand : ∀ span op rest,
      Grammar.operand.run r.tokens = some (.leaf span op, rest) → P op)
    (h : r.All P) : Outcome.All P r.step := by
  obtain ⟨hbraces, hplace⟩ := h
  unfold step
  split
  · next before heq =>
    rw [heq] at hplace
    split
    · refine ⟨List.forall_mem_cons.mpr ⟨hplace, hbraces⟩, ?_⟩
      intro p hp
      cases hp
    · split
      · next term rest hrun =>
        obtain ⟨op, rfl⟩ := Grammar.leaf_of_operand hrun
        exact ⟨hbraces, all_complete hplace (hoperand _ op rest hrun)⟩
      · exact all_abandon hbraces hplace
  · next chain heq =>
    rw [heq] at hplace
    split
    · refine ⟨hbraces, ?_⟩
      intro p hp
      obtain rfl := Option.some.inj hp
      exact hplace
    · split
      · intro tree rest hresult
        obtain ⟨rfl, -⟩ := Prod.mk.inj (Option.some.inj hresult)
        exact hplace
      · next before braces hcons =>
        rw [hcons] at hbraces
        obtain ⟨hbefore, hbraces⟩ := List.forall_mem_cons.mp hbraces
        split
        · exact ⟨hbraces, all_complete hbefore hplace⟩
        · exact all_abandon hbraces hbefore

/-- What holds of every operand that can be read holds of all leaves of the result. -/
theorem all_run (hls : InOrder text ls) (hwithin : r.Within text ls)
    (hoperand : ∀ tail, tail <:+ ls → ∀ span op rest,
      Grammar.operand.run tail = some (.leaf span op, rest) → P op)
    (h : r.All P) (steps : Nat) : Result.All P (r.run steps) := by
  induction steps generalizing r with
  | zero =>
    intro tree rest hresult
    cases hresult
  | succ steps ih =>
    have hnext := within_step hls hwithin
    have hall := all_step (hoperand r.tokens hwithin.rest) h
    unfold run
    split
    · next next heq =>
      rw [heq] at hnext hall
      exact ih hnext hall
    · next result heq =>
      rw [heq] at hall
      exact hall

end Reading

theorem allProper_tokenize (text : List Char) : AllProper (tokenize text) := fun _ hl =>
  Token.proper_of_mem_tokenize hl

/-- All leaves of a tree that is read from a text are floats or have tokens to write them with. -/
theorem Grammar.all_expression {text : List Char} {tree : Tree} {rest : List Lexeme}
    (h : expression.run (tokenize text) = some (tree, rest)) :
    tree.All fun op => (∃ x, op = .float x) ∨ ∃ ts, op.Written ts := by
  refine Reading.all_run (inOrder_tokenize text) (Reading.within_start text _) ?_
    (Reading.all_start _ _) _ tree rest h
  intro tail htail span op rest hrun
  exact written_of_operand (fun l hl => allProper_tokenize text l (htail.subset hl)) hrun

theorem Tree.exists_written {tree : Tree} (hreadable : tree.isRereadable = true)
    (h : tree.All fun op => (∃ x, op = .float x) ∨ ∃ ts, op.Written ts) :
    ∃ ts, tree.Written ts := by
  induction tree with
  | leaf span operand =>
    rcases h with ⟨x, rfl⟩ | ⟨ts, hts⟩
    · cases hreadable
    · exact ⟨ts, .leaf span hts⟩
  | binary span op left right ihl ihr =>
    simp only [Tree.isRereadable, Bool.and_eq_true] at hreadable
    obtain ⟨⟨-, hl⟩, hr⟩ := hreadable
    obtain ⟨ts, hts⟩ := ihl hl h.1
    obtain ⟨us, hus⟩ := ihr hr h.2
    exact ⟨_, .binary span op hts hus⟩

/-! ## Casts -/

/-- The tokens of a cast. -/
def castTokens : Option (Span × Cast) → List Token
  | none => []
  | some (_, cast) => [.asWord, .name cast.name]

/-- Whether a cast is one that is read: that of its name. -/
def CastRead (cast : Option (Span × Cast)) : Prop :=
  ∀ span c, cast = some (span, c) → (Token.name c.name).Proper ∧ Cast.ofName c.name = c

namespace Grammar

open LinkAsm.Parser

variable {ls rest : List Lexeme} {found : Option (Span × Cast)}

theorem castRead_of_run (hls : AllProper ls) (h : cast.optional.run ls = some (found, rest)) :
    CastRead found := by
  rintro span c rfl
  rcases run_optional_iff.mp h with ⟨-, hnone, -⟩ | ⟨value, hvalue, hsome⟩
  · cases hnone
  · obtain rfl := Option.some.inj hsome
    obtain ⟨_, middle, hword, hname⟩ := run_after_iff.mp hvalue
    obtain ⟨⟨place, s⟩, hspanned, heq⟩ := run_map_iff.mp hname
    obtain ⟨hrun, -⟩ := run_spanned_iff.mp hspanned
    obtain ⟨-, rfl⟩ := Prod.mk.inj heq
    rw [Cast.name_ofName]
    exact ⟨(proper_name (proper_exactly hls hword) hrun).1, rfl⟩

theorem run_cast (h : CastRead found) (hls : ls.map (·.token) = castTokens found) :
    ∃ again, cast.optional.run ls = some (again, []) ∧
      again.map (fun c => ((⟨0, 0⟩ : Span), c.2)) = found.map fun c => (⟨0, 0⟩, c.2) := by
  cases found with
  | none =>
    obtain rfl := List.map_eq_nil_iff.mp hls
    exact ⟨none, rfl, rfl⟩
  | some value =>
    obtain ⟨span, c⟩ := value
    obtain ⟨p, ls₁, rfl, hls₁⟩ := exists_lexeme hls
    obtain ⟨q, ls₂, rfl, hls₂⟩ := exists_lexeme hls₁
    obtain rfl := List.map_eq_nil_iff.mp hls₂
    refine ⟨_, rfl, ?_⟩
    show some ((⟨0, 0⟩ : Span), Cast.ofName c.name) = some (⟨0, 0⟩, c)
    rw [(h span c rfl).2]

/-- A tree ends before its cast. -/
theorem termEnds_castTokens (bare : Bool) (found : Option (Span × Cast)) :
    TermEnds bare (castTokens found) := by
  cases found with
  | none =>
    refine ⟨?_, fun _ => rfl⟩
    intro t ht
    cases ht
  | some value =>
    refine ⟨?_, fun _ => rfl⟩
    intro t ht
    obtain rfl := Option.some.inj ht
    rfl

theorem operator_eq_none_of_castTokens (hls : ls.map (·.token) = castTokens found) :
    operator.run ls = none := by
  cases found with
  | none =>
    obtain rfl := List.map_eq_nil_iff.mp hls
    rfl
  | some value =>
    obtain ⟨p, ls, rfl, -⟩ := exists_lexeme hls
    rfl

/-- The tokens of a tree with its cast are read as the tree. -/
theorem run_expression {tree : Tree} {ts : List Token} (h : tree.Written ts)
    (hreadable : tree.isRereadable = true) (hls : ls.map (·.token) = ts ++ castTokens found) :
    ∃ again rest, expression.run ls = some (again, rest) ∧
      rest.map (·.token) = castTokens found ∧ again.unplaced = tree.unplaced := by
  obtain ⟨again, rest, n, hreach, hn, hrest, heq⟩ :=
    Reading.reaches_of_written h hreadable (termEnds_castTokens _ found) hls [] none
  refine ⟨again, rest, ?_, hrest, heq⟩
  -- the steps are no more than the tokens, so one is left to end with
  have hlength : ls.length = ts.length + (castTokens found).length := by
    rw [← List.length_append, ← hls, List.length_map]
  have hsteps : ls.length + 1 = n + (ls.length - n + 1) := by omega
  show (Reading.start ls).run (ls.length + 1) = _
  rw [hsteps, Reading.start, hreach.run_add, Reading.run]
  simp only [Reading.step, operator_eq_none_of_castTokens hrest, Pending.complete]

end Grammar

/-! ## Expressions -/

namespace Expr

open LinkAsm.Parser LinkAsm.Token

variable {text : List Char} {e : Expr} {ts : List Token}

theorem parse_eq_ok_iff :
    parse text = .ok e ↔ ∃ middle, Grammar.expression.run (tokenize text) = some (e.tree, middle) ∧
      Grammar.cast.optional.run middle = some (e.cast, []) := by
  unfold parse parseAll
  dsimp only
  constructor
  · intro h
    split at h
    · next found tail hrun =>
      obtain rfl := Except.ok.inj h
      obtain ⟨_, last, hexpr, hfinish⟩ := run_before_iff.mp hrun
      obtain ⟨⟨tree, cast⟩, hboth, rfl⟩ := run_map_iff.mp hexpr
      cases last with
      | nil => exact run_both_iff.mp hboth
      | cons l ls => cases hfinish
    · cases h
  · rintro ⟨middle, htree, hcast⟩
    have hexpr : Grammar.expr.run (tokenize text) = some (e, []) :=
      run_map_iff.mpr ⟨(e.tree, e.cast), run_both_iff.mpr ⟨middle, htree, hcast⟩, rfl⟩
    rw [run_before_iff.mpr ⟨(), [], hexpr, rfl⟩]

theorem tokensOf_text (h : e.tree.Written ts) (hcast : CastRead e.cast) :
    tokensOf e.text.toList = ts ++ castTokens e.cast := by
  obtain ⟨tree, cast⟩ := e
  cases cast with
  | none =>
    have htokens := h.tokensOf_text_append stops_nil
    rw [List.append_nil, tokensOf_nil] at htokens
    exact htokens
  | some value =>
    obtain ⟨span, c⟩ := value
    have hspace : ∀ cs, Stops (' ' :: cs) := fun cs => stops_cons cs (by decide)
    have htext : (Expr.mk tree (some (span, c))).text.toList =
        tree.text.toList ++ ' ' :: (['a', 's'] ++ ' ' :: (c.name.toList ++ [])) := by
      simp [Expr.text, String.toList_append]
    obtain ⟨⟨hname, has⟩, -⟩ := hcast span c rfl
    rw [htext, h.tokensOf_text_append (hspace _), tokensOf_separator _ (by decide),
      tokensOf_asWord fun d hd => (hspace _ d hd).1, tokensOf_separator _ (by decide),
      tokensOf_name hname has fun d hd => (stops_nil d hd).1, tokensOf_nil]
    rfl

/-- **An expression that was read is read again from its text**, cast included, if it has no float
and no anchor without an offset before a sign and a number. -/
theorem parse_text (h : parse text = .ok e) (hreadable : e.tree.isRereadable = true) :
    ∃ again, parse e.text.toList = .ok again ∧ again.unplaced = e.unplaced := by
  obtain ⟨middle, htree, hcast⟩ := parse_eq_ok_iff.mp h
  obtain ⟨ts, hts⟩ := Tree.exists_written hreadable (Grammar.all_expression htree)
  have hmiddle : AllProper middle := fun l hl => allProper_tokenize text l
    (((Grammar.orderly_expression text).suffix (inOrder_tokenize text) htree).subset hl)
  have hread := Grammar.castRead_of_run hmiddle hcast
  obtain ⟨tree, rest, hrun, hrest, htreeEq⟩ :=
    Grammar.run_expression hts hreadable (tokensOf_text hts hread)
  obtain ⟨cast, hcastRun, hcastEq⟩ := Grammar.run_cast hread hrest
  refine ⟨⟨tree, cast⟩, parse_eq_ok_iff.mpr ⟨rest, hrun, hcastRun⟩, ?_⟩
  rw [unplaced, unplaced, htreeEq, hcastEq]

/-- `$-0x10 * {$ - #a} ^ lib:b as Byte`: the second minus is no sign of an offset. -/
def anchored : Expr :=
  ⟨.binary ⟨0, 25⟩ .power
    (.binary ⟨0, 16⟩ .multiply (.leaf ⟨0, 6⟩ (.address (.relative .own (-16))))
      (.binary ⟨10, 16⟩ .subtract (.leaf ⟨10, 11⟩ (.address (.relative .own 0)))
        (.leaf ⟨14, 16⟩ (.aliasRef "a"))))
    (.leaf ⟨20, 25⟩ (.imported "lib" "b")), some (⟨29, 33⟩, .width .byte)⟩

theorem parse_text_anchored :
    parse "$-0x10 * \x7b$ - #a\x7d ^ lib:b as Byte".toList = .ok anchored ∧
      anchored.tree.isRereadable = true ∧
      ∃ again, parse anchored.text.toList = .ok again ∧ again.unplaced = anchored.unplaced := by
  have hparse : parse "$-0x10 * \x7b$ - #a\x7d ^ lib:b as Byte".toList = .ok anchored := by cbv
  exact ⟨hparse, by decide, parse_text hparse (by decide)⟩

example : (parse "$ + \x7b5\x7d".toList).map Expr.text = .ok "\x7b$ + 5\x7d" := by cbv

example : (parse "\x7b$ + 5\x7d".toList).map Expr.text = .ok "$+5" := by cbv

end Expr

end LinkAsm
