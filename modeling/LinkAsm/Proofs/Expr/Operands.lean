import Mathlib
import LinkAsm.Proofs.Expr.Places
import LinkAsm.Proofs.Token.Spelling

/-!
# Operands as they are written

A leaf is written as a few tokens without blanks between them.  Each of them ends where the next one
begins, so the text is read as these tokens, and these tokens as the leaf.  The one leaf that may
take more is `$` or `$$` without an offset, which goes on with a sign and a number.

* `Operand.Written`: the tokens that a leaf is written with.
* `Operand.Written.tokensOf_text_append`: they are the tokens of its text.
* `Grammar.run_operand`: they are read as the leaf.
* `Grammar.written_of_operand`: a leaf that was read has such tokens, unless it is a float.
-/

namespace LinkAsm

/-! ## Tokens one behind the other -/

namespace Token

variable {rest : List Char} {ts : List Token}

/-- Tokens written one behind the other. -/
def joined (ts : List Token) : List Char := ts.flatMap (·.text.toList)

@[simp] theorem joined_nil : joined [] = [] := rfl

@[simp] theorem joined_cons (t : Token) (ts : List Token) :
    joined (t :: ts) = t.text.toList ++ joined ts := rfl

/-- Whether tokens written before a text are read as they are: all are proper, and each ends where
the next one begins. -/
def Legible (rest : List Char) : List Token → Prop
  | [] => True
  | t :: ts => t.Proper ∧ t.EndsBefore (joined ts ++ rest) ∧ Legible rest ts

theorem Legible.tokensOf_joined_append (h : Legible rest ts) :
    tokensOf (joined ts ++ rest) = ts ++ tokensOf rest := by
  induction ts with
  | nil => rfl
  | cons t ts ih =>
    obtain ⟨hproper, hends, hts⟩ := h
    rw [joined_cons, List.append_assoc, tokensOf_text_append hproper hends, ih hts,
      List.cons_append]

theorem dollar_endsBefore_name {s : String} (hs : (Token.name s).Proper) (ts : List Token)
    (rest : List Char) : Token.dollar.EndsBefore (joined (.name s :: ts) ++ rest) := by
  show (s.toList ++ joined ts ++ rest).head? ≠ some '$'
  have hhead := head?_ne_dollar hs.1
  cases hcs : s.toList with
  | nil =>
    have hname := hs.1
    rw [hcs] at hname
    cases hname
  | cons c cs =>
    rw [hcs] at hhead
    exact hhead

end Token

/-! ## Tokens of operands -/

/-- The token of an anchor. -/
def Anchor.token : Anchor → Token
  | .own => .dollar
  | .global => .doubleDollar

/-- The tokens of a signed number of instructions; zero is left out. -/
def offsetTokens (n : Int) : List Token :=
  if n = 0 then [] else if n < 0 then [.minus, .decimal n.natAbs] else [.plus, .decimal n.natAbs]

/-- Whether a token is the value of a constant that is not quoted. -/
def Token.isWord : Token → Bool
  | .decimal _ | .hex _ | .float _ _ | .name _ => true
  | _ => false

/-- The tokens that a leaf is written with. -/
inductive Operand.Written : Operand → List Token → Prop
  | aliasRef {s : String} (hs : (Token.name s).Proper) : Written (.aliasRef s) [.hash, .name s]
  | label {s : String} (hs : (Token.name s).Proper) :
    Written (.address (.label s)) [.dollar, .name s]
  | block {s : String} (hs : (Token.name s).Proper) :
    Written (.address (.block s)) [.dollar, .dot, .name s]
  | importedLabel {q s : String} (hq : (Token.name q).Proper) (hs : (Token.name s).Proper) :
    Written (.address (.imported q s)) [.dollar, .name q, .colon, .name s]
  | relative (anchor : Anchor) {offset : Int} (hoffset : offset.natAbs < Grammar.offsetLimit) :
    Written (.address (.relative anchor offset)) (anchor.token :: offsetTokens offset)
  | word {kind : String} {t : Token} (hkind : (Token.name kind).Proper) (ht : t.Proper)
    (hword : t.isWord = true) :
    Written (.injector kind t.text) [.atSign, .name kind, .equals, t]
  | negative {kind : String} {t : Token} (hkind : (Token.name kind).Proper) (ht : t.Proper)
    (hword : t.isWord = true) :
    Written (.injector kind ("-" ++ t.text)) [.atSign, .name kind, .equals, .minus, t]
  | quoted {kind s : String} (hkind : (Token.name kind).Proper) (hs : (Token.quoted s).Proper) :
    Written (.quotedInjector kind s) [.atSign, .name kind, .equals, .quoted s]
  | imported {q s : String} (hq : (Token.name q).Proper) (hs : (Token.name s).Proper) :
    Written (.imported q s) [.name q, .colon, .name s]
  | integer {n : Nat} (hn : (Token.decimal n).Proper) : Written (.integer n) [.decimal n]

namespace Operand.Written

open LinkAsm.Token

variable {op : Operand} {ts : List Token} {rest : List Char}

theorem joined_offsetTokens (n : Int) : joined (offsetTokens n) = (offsetText n).toList := by
  unfold offsetTokens offsetText
  split
  · rfl
  · split <;> simp [Token.text, String.toList_append]

theorem text_eq (h : op.Written ts) : op.text.toList = joined ts := by
  cases h with
  | relative anchor hoffset =>
    rw [joined_cons, joined_offsetTokens]
    cases anchor <;>
      simp [Operand.text, AddressRef.text, Anchor.token, Token.text, String.toList_append]
  | _ => simp [Operand.text, AddressRef.text, Token.text, quotedText, String.toList_append]

theorem proper_decimal {n : Nat} (h : n < Grammar.offsetLimit) : (Token.decimal n).Proper :=
  Nat.lt_trans h (by decide)

theorem legible_offsetTokens {n : Int} (hn : n.natAbs < Grammar.offsetLimit) (hrest : Stops rest) :
    Legible rest (offsetTokens n) := by
  have hend : (Token.decimal n.natAbs).EndsBefore rest := hrest.endsBefore (by simp)
  unfold offsetTokens
  split
  · trivial
  · split
    · exact ⟨trivial, trivial, proper_decimal hn, hend, trivial⟩
    · exact ⟨trivial, trivial, proper_decimal hn, hend, trivial⟩

theorem stops_offsetTokens (n : Int) (hrest : Stops rest) :
    Stops (joined (offsetTokens n) ++ rest) := by
  unfold offsetTokens
  split
  · exact hrest
  · split
    · exact stops_cons (c := '-') _ (by decide)
    · exact stops_cons (c := '+') _ (by decide)

theorem ne_unrecognised_of_isWord {t : Token} (h : t.isWord = true) (s : String) :
    t ≠ .unrecognised s := by
  rintro rfl
  cases h

/-- Each token of a leaf ends where the next one begins. -/
theorem legible (h : op.Written ts) (hrest : Stops rest) : Legible rest ts := by
  have hname : ∀ s, (Token.name s).EndsBefore rest := fun s => hrest.endsBefore (by simp)
  have hcolon : ∀ s cs, (Token.name s).EndsBefore (':' :: cs) := fun s cs =>
    (stops_cons cs (by decide)).endsBefore (by simp)
  have hequals : ∀ s cs, (Token.name s).EndsBefore ('=' :: cs) := fun s cs =>
    (stops_cons cs (by decide)).endsBefore (by simp)
  cases h with
  | aliasRef hs => exact ⟨trivial, trivial, hs, hname _, trivial⟩
  | label hs => exact ⟨trivial, dollar_endsBefore_name hs _ _, hs, hname _, trivial⟩
  | block hs =>
    exact ⟨trivial, by simp [EndsBefore, Token.text], trivial, trivial, hs, hname _, trivial⟩
  | importedLabel hq hs =>
    exact ⟨trivial, dollar_endsBefore_name hq _ _, hq, hcolon _ _, trivial, trivial, hs, hname _,
      trivial⟩
  | relative anchor hoffset =>
    refine ⟨?_, ?_, legible_offsetTokens hoffset hrest⟩
    · cases anchor <;> trivial
    · cases anchor <;> exact (stops_offsetTokens _ hrest).endsBefore (by simp [Anchor.token])
  | word hkind ht hword =>
    exact ⟨trivial, trivial, hkind, hequals _ _, trivial, trivial, ht,
      hrest.endsBefore (ne_unrecognised_of_isWord hword), trivial⟩
  | negative hkind ht hword =>
    exact ⟨trivial, trivial, hkind, hequals _ _, trivial, trivial, trivial, trivial, ht,
      hrest.endsBefore (ne_unrecognised_of_isWord hword), trivial⟩
  | quoted hkind hs =>
    exact ⟨trivial, trivial, hkind, hequals _ _, trivial, trivial, hs, trivial, trivial⟩
  | imported hq hs => exact ⟨hq, hcolon _ _, trivial, trivial, hs, hname _, trivial⟩
  | integer hn => exact ⟨hn, hrest.endsBefore (by simp), trivial⟩

theorem length_pos (h : op.Written ts) : 0 < ts.length := by
  cases h <;> exact Nat.succ_pos _

/-- The tokens of a leaf are those of its text. -/
theorem tokensOf_text_append (h : op.Written ts) (hrest : Stops rest) :
    tokensOf (op.text.toList ++ rest) = ts ++ tokensOf rest := by
  rw [h.text_eq, (h.legible hrest).tokensOf_joined_append]

end Operand.Written

/-! ## What parsers accept -/

namespace Parser

variable {α : Type} {p : Parser α} {ps : List (Parser α)} {ls rest : List Lexeme} {x : α}

theorem run_choice_cons (h : (choice (p :: ps)).run ls = some (x, rest)) :
    p.run ls = some (x, rest) ∨ (choice ps).run ls = some (x, rest) := by
  rcases Option.or_eq_some_iff.mp h with hfirst | ⟨-, hothers⟩
  · exact Or.inl hfirst
  · exact Or.inr hothers

theorem run_labelled (label : String) (p : Parser α) : (labelled label p).run = p.run := rfl

theorem run_token {item : String} {pick : Token → Option α}
    (h : (token item pick).run ls = some (x, rest)) :
    ∃ l, ls = l :: rest ∧ pick l.token = some x := by
  cases ls with
  | nil => cases h
  | cons l ls =>
    obtain ⟨y, hy, heq⟩ := Option.map_eq_some_iff.mp h
    obtain ⟨rfl, rfl⟩ := Prod.mk.inj heq
    exact ⟨l, rfl, hy⟩

end Parser

/-! ## Reading the tokens of operands -/

/-- Whether a token may stand behind a term. -/
def Token.followsTerm : Token → Bool
  | .plus | .minus | .asterisk | .solidus | .caret | .rightBrace | .asWord => true
  | _ => false

/-- Whether a token is a whole number. -/
def Token.isInteger : Token → Bool
  | .decimal _ | .hex _ => true
  | _ => false

/-- Whether tokens start with a sign and a whole number. -/
def startsOffset : List Token → Bool
  | .plus :: t :: _ | .minus :: t :: _ => t.isInteger
  | _ => false

/-- Whether a leaf is an anchor without an offset. -/
def Operand.isBareAnchor : Operand → Bool
  | .address (.relative _ offset) => offset == 0
  | _ => false

/-- Whether a term ends before these tokens, so that they do not go on with it; `bare` is whether it
is an anchor without an offset. -/
structure TermEnds (bare : Bool) (more : List Token) : Prop where
  follows : ∀ t, more.head? = some t → t.followsTerm = true
  offset : bare = true → startsOffset more = false

/-- The first of a list of lexemes with a token in front. -/
theorem exists_lexeme {ls : List Lexeme} {t : Token} {ts : List Token}
    (h : ls.map (·.token) = t :: ts) :
    ∃ span rest, ls = ⟨t, span⟩ :: rest ∧ rest.map (·.token) = ts := by
  obtain ⟨⟨u, span⟩, rest, rfl, hu, hrest⟩ := List.map_eq_cons_iff.mp h
  obtain rfl : u = t := hu
  exact ⟨span, rest, rfl, hrest⟩

namespace Grammar

open LinkAsm.Parser

variable {op : Operand} {ls rest : List Lexeme} {ts more : List Token} {k : Int}

theorem run_offset_zero (h : startsOffset (ls.map (·.token)) = false) :
    offset.run ls = some (0, ls) := by
  cases ls with
  | nil => rfl
  | cons l ls =>
    obtain ⟨sign, span⟩ := l
    cases sign with
    | plus | minus =>
      cases ls with
      | nil => rfl
      | cons l ls =>
        obtain ⟨t, span⟩ := l
        cases t with
        | decimal n | hex n => cases h
        | _ => rfl
    | _ => rfl

theorem run_offset_sign {n : Nat} (hn : n < offsetLimit) (p q : Span) (ls : List Lexeme) :
    offset.run (⟨.plus, p⟩ :: ⟨.decimal n, q⟩ :: ls) = some ((n : Int), ls) ∧
      offset.run (⟨.minus, p⟩ :: ⟨.decimal n, q⟩ :: ls) = some (-(n : Int), ls) := by
  simp [offset, Parser.map, Parser.optional, checked, Parser.both, choice, exactly, token, integer,
    labelled, oneOf, hn]

theorem run_offset (hk : k.natAbs < offsetLimit) (hls : ls.map (·.token) = offsetTokens k ++ more)
    (hmore : k = 0 → startsOffset more = false) :
    ∃ rest, offset.run ls = some (k, rest) ∧ rest.map (·.token) = more := by
  unfold offsetTokens at hls
  split at hls
  · next hzero =>
    obtain rfl := hzero
    exact ⟨ls, run_offset_zero (by rw [hls]; exact hmore rfl), hls⟩
  · split at hls
    · next hneg =>
      obtain ⟨p, ls, rfl, hp⟩ := exists_lexeme hls
      obtain ⟨q, rest, rfl, hrest⟩ := exists_lexeme hp
      have hvalue : -((k.natAbs : Nat) : Int) = k := by omega
      exact ⟨rest, (run_offset_sign hk p q rest).2.trans (by rw [hvalue]), hrest⟩
    · next hneg =>
      obtain ⟨p, ls, rfl, hp⟩ := exists_lexeme hls
      obtain ⟨q, rest, rfl, hrest⟩ := exists_lexeme hp
      have hvalue : ((k.natAbs : Nat) : Int) = k := by omega
      exact ⟨rest, (run_offset_sign hk p q rest).1.trans (by rw [hvalue]), hrest⟩

theorem run_address_global (p : Span) (h : offset.run ls = some (k, rest)) :
    address.run (⟨.doubleDollar, p⟩ :: ls) = some (.relative .global k, rest) := by
  simp [address, labelled, choice, Parser.map, after, Parser.both, exactly, token, h]

theorem run_address_own (p : Span) (h : offset.run ls = some (k, rest))
    (hdot : (exactly .dot).run ls = none) (hname : name.run ls = none) :
    address.run (⟨.dollar, p⟩ :: ls) = some (.relative .own k, rest) := by
  have hdollar : (exactly .dollar).run (⟨.dollar, p⟩ :: ls) = some ((), ls) := rfl
  have hdouble : (exactly .doubleDollar).run (⟨.dollar, p⟩ :: ls) = none := rfl
  simp [address, labelled, choice, Parser.map, after, before, Parser.both, hdollar, hdouble, hdot,
    hname, h]

theorem run_address_label {s : String} (p q : Span) (hcolon : (exactly .colon).run ls = none) :
    address.run (⟨.dollar, p⟩ :: ⟨.name s, q⟩ :: ls) = some (.label s, ls) := by
  have hdollar : (exactly .dollar).run (⟨.dollar, p⟩ :: ⟨.name s, q⟩ :: ls) =
    some ((), ⟨.name s, q⟩ :: ls) := rfl
  have hdouble : (exactly .doubleDollar).run (⟨.dollar, p⟩ :: ⟨.name s, q⟩ :: ls) = none := rfl
  have hdot : (exactly .dot).run (⟨.name s, q⟩ :: ls) = none := rfl
  have hname : name.run (⟨.name s, q⟩ :: ls) = some (s, ls) := rfl
  simp [address, labelled, choice, Parser.map, after, before, Parser.both, hdollar, hdouble, hdot,
    hname, hcolon]

theorem run_operand_address {ref : AddressRef} (hhash : (exactly .hash).run ls = none)
    (h : address.run ls = some (ref, rest)) :
    operand.run ls = some (.leaf (spanOf ls rest) (.address ref), rest) := by
  simp [operand, choice, spanned, Parser.map, aliasRef, labelled, after, Parser.both, hhash, h]

theorem run_injected_word {t : Token} (h : t.isWord = true) (p q : Span) (ls : List Lexeme) :
    injected.run (⟨t, p⟩ :: ls) = some (fun kind => .injector kind t.text, ls) ∧
      injected.run (⟨.minus, p⟩ :: ⟨t, q⟩ :: ls) =
        some (fun kind => .injector kind ("-" ++ t.text), ls) := by
  cases t with
  | decimal n | hex n | float whole part | name s => exact ⟨rfl, rfl⟩
  | _ => cases h

theorem run_operand_injector {make : String → Operand} {kind : String} (p q r : Span)
    (h : injected.run ls = some (make, rest)) :
    ∃ span, operand.run (⟨.atSign, p⟩ :: ⟨.name kind, q⟩ :: ⟨.equals, r⟩ :: ls) =
      some (.leaf span (make kind), rest) := by
  have hinjector : injector.run (⟨.atSign, p⟩ :: ⟨.name kind, q⟩ :: ⟨.equals, r⟩ :: ls) =
      some (make kind, rest) := by
    rw [injector, run_labelled]
    refine run_map_iff.mpr ⟨(kind, make), run_both_iff.mpr ⟨ls, ?_, h⟩, rfl⟩
    rfl
  have halias : aliasRef.run (⟨.atSign, p⟩ :: ⟨.name kind, q⟩ :: ⟨.equals, r⟩ :: ls) = none := rfl
  have haddress : address.run (⟨.atSign, p⟩ :: ⟨.name kind, q⟩ :: ⟨.equals, r⟩ :: ls) = none := rfl
  refine ⟨spanOf (⟨.atSign, p⟩ :: ⟨.name kind, q⟩ :: ⟨.equals, r⟩ :: ls) rest, ?_⟩
  simp only [operand, choice, spanned, Parser.map, halias, haddress, hinjector, Option.map_none,
    Option.none_or, Option.some_or, Option.map_some]

/-- Tokens that may stand behind a term are no part of an address. -/
theorem run_eq_none_of_follows (hls : ls.map (·.token) = more)
    (h : ∀ t, more.head? = some t → t.followsTerm = true) :
    (exactly .dot).run ls = none ∧ name.run ls = none ∧ (exactly .colon).run ls = none := by
  obtain rfl := hls
  cases ls with
  | nil => exact ⟨rfl, rfl, rfl⟩
  | cons l ls =>
    obtain ⟨t, span⟩ := l
    have ht := h t rfl
    cases t with
    | plus | minus | asterisk | solidus | caret | rightBrace | asWord => exact ⟨rfl, rfl, rfl⟩
    | _ => cases ht

theorem follows_offsetTokens (h : ∀ t, more.head? = some t → t.followsTerm = true) :
    ∀ t, (offsetTokens k ++ more).head? = some t → t.followsTerm = true := by
  unfold offsetTokens
  split
  · exact h
  · split
    · intro t ht
      obtain rfl := Option.some.inj ht
      rfl
    · intro t ht
      obtain rfl := Option.some.inj ht
      rfl

/-- The tokens of a leaf are read as the leaf. -/
theorem run_operand (h : op.Written ts) (hmore : TermEnds op.isBareAnchor more)
    (hls : ls.map (·.token) = ts ++ more) :
    ∃ span rest, operand.run ls = some (.leaf span op, rest) ∧ rest.map (·.token) = more := by
  obtain ⟨hfollows, hbare⟩ := hmore
  cases h with
  | aliasRef hs =>
    obtain ⟨p, ls, rfl, hp⟩ := exists_lexeme hls
    obtain ⟨q, rest, rfl, hrest⟩ := exists_lexeme hp
    exact ⟨_, rest, rfl, hrest⟩
  | label hs =>
    obtain ⟨p, ls, rfl, hp⟩ := exists_lexeme hls
    obtain ⟨q, rest, rfl, hrest⟩ := exists_lexeme hp
    -- without the colon behind it a name is no qualifier
    obtain ⟨-, -, hcolon⟩ := run_eq_none_of_follows hrest hfollows
    exact ⟨_, rest, run_operand_address rfl (run_address_label p q hcolon), hrest⟩
  | block hs =>
    obtain ⟨p, ls, rfl, hp⟩ := exists_lexeme hls
    obtain ⟨q, ls, rfl, hq⟩ := exists_lexeme hp
    obtain ⟨r, rest, rfl, hrest⟩ := exists_lexeme hq
    exact ⟨_, rest, rfl, hrest⟩
  | importedLabel hq hs =>
    obtain ⟨p, ls, rfl, hp⟩ := exists_lexeme hls
    obtain ⟨q, ls, rfl, hq⟩ := exists_lexeme hp
    obtain ⟨r, ls, rfl, hr⟩ := exists_lexeme hq
    obtain ⟨s, rest, rfl, hrest⟩ := exists_lexeme hr
    exact ⟨_, rest, rfl, hrest⟩
  | relative anchor hoffset =>
    obtain ⟨p, ls, rfl, hp⟩ := exists_lexeme hls
    obtain ⟨rest, hrun, hrest⟩ := run_offset hoffset hp fun hzero => hbare (beq_iff_eq.mpr hzero)
    cases anchor with
    | own =>
      obtain ⟨hdot, hname, -⟩ := run_eq_none_of_follows hp (follows_offsetTokens hfollows)
      exact ⟨_, rest, run_operand_address rfl (run_address_own p hrun hdot hname), hrest⟩
    | global => exact ⟨_, rest, run_operand_address rfl (run_address_global p hrun), hrest⟩
  | word hkind ht hword =>
    obtain ⟨p, ls, rfl, hp⟩ := exists_lexeme hls
    obtain ⟨q, ls, rfl, hq⟩ := exists_lexeme hp
    obtain ⟨r, ls, rfl, hr⟩ := exists_lexeme hq
    obtain ⟨s, rest, rfl, hrest⟩ := exists_lexeme hr
    obtain ⟨span, hrun⟩ := run_operand_injector p q r (run_injected_word hword s s rest).1
    exact ⟨span, rest, hrun, hrest⟩
  | negative hkind ht hword =>
    obtain ⟨p, ls, rfl, hp⟩ := exists_lexeme hls
    obtain ⟨q, ls, rfl, hq⟩ := exists_lexeme hp
    obtain ⟨r, ls, rfl, hr⟩ := exists_lexeme hq
    obtain ⟨s, ls, rfl, hs⟩ := exists_lexeme hr
    obtain ⟨m, rest, rfl, hrest⟩ := exists_lexeme hs
    obtain ⟨span, hrun⟩ := run_operand_injector p q r (run_injected_word hword s m rest).2
    exact ⟨span, rest, hrun, hrest⟩
  | quoted hkind hs =>
    obtain ⟨p, ls, rfl, hp⟩ := exists_lexeme hls
    obtain ⟨q, ls, rfl, hq⟩ := exists_lexeme hp
    obtain ⟨r, ls, rfl, hr⟩ := exists_lexeme hq
    obtain ⟨s, rest, rfl, hrest⟩ := exists_lexeme hr
    exact ⟨_, rest, rfl, hrest⟩
  | imported hq hs =>
    obtain ⟨p, ls, rfl, hp⟩ := exists_lexeme hls
    obtain ⟨q, ls, rfl, hq⟩ := exists_lexeme hp
    obtain ⟨r, rest, rfl, hrest⟩ := exists_lexeme hq
    exact ⟨_, rest, rfl, hrest⟩
  | integer hn =>
    obtain ⟨p, rest, rfl, hrest⟩ := exists_lexeme hls
    exact ⟨_, rest, rfl, hrest⟩

end Grammar

/-! ## Operands that were read -/

/-- Whether all tokens of a list are proper. -/
def AllProper (ls : List Lexeme) : Prop := ∀ l ∈ ls, l.token.Proper

namespace Grammar

open LinkAsm.Parser

variable {ls rest : List Lexeme} {op : Operand}

theorem proper_exactly {t : Token} {x : Unit} (hls : AllProper ls)
    (h : (exactly t).run ls = some (x, rest)) : AllProper rest := by
  obtain ⟨l, rfl, -⟩ := run_token h
  exact (List.forall_mem_cons.mp hls).2

theorem proper_name {s : String} (hls : AllProper ls) (h : name.run ls = some (s, rest)) :
    (Token.name s).Proper ∧ AllProper rest := by
  rw [name, run_labelled] at h
  obtain ⟨⟨t, span⟩, rfl, hpick⟩ := run_token h
  obtain ⟨hproper, hrest⟩ := List.forall_mem_cons.mp hls
  dsimp only at hproper hpick
  split at hpick
  · obtain rfl := Option.some.inj hpick
    exact ⟨hproper, hrest⟩
  · cases hpick

theorem proper_integer {n : Nat} (hls : AllProper ls) (h : integer.run ls = some (n, rest)) :
    (Token.decimal n).Proper := by
  rw [integer, run_labelled] at h
  obtain ⟨⟨t, span⟩, rfl, hpick⟩ := run_token h
  have hproper := (List.forall_mem_cons.mp hls).1
  dsimp only at hproper hpick
  split at hpick
  · obtain rfl := Option.some.inj hpick
    exact hproper
  · obtain rfl := Option.some.inj hpick
    exact hproper
  · cases hpick

theorem natAbs_offset_lt {k : Int} (h : offset.run ls = some (k, rest)) :
    k.natAbs < offsetLimit := by
  unfold offset at h
  obtain ⟨found, hfound, rfl⟩ := run_map_iff.mp h
  rcases run_optional_iff.mp hfound with ⟨-, rfl, -⟩ | ⟨k, hsigned, rfl⟩
  · decide
  · obtain ⟨⟨⟨negative, n⟩, tail⟩, -, hcheck⟩ := Option.bind_eq_some_iff.mp hsigned
    dsimp only at hcheck
    split at hcheck
    · next value hvalue =>
      obtain ⟨rfl, -⟩ := Prod.mk.inj (Option.some.inj hcheck)
      split at hvalue
      · next hn =>
        obtain rfl := Except.ok.inj hvalue
        show (if negative = true then -(n : Int) else n).natAbs < offsetLimit
        split <;> omega
      · cases hvalue
    · cases hcheck

theorem written_of_aliasRef {s : String} (hls : AllProper ls)
    (h : aliasRef.run ls = some (s, rest)) : ∃ ts, (Operand.aliasRef s).Written ts := by
  obtain ⟨_, middle, hhash, hname⟩ := run_after_iff.mp h
  exact ⟨_, .aliasRef (proper_name (proper_exactly hls hhash) hname).1⟩

theorem written_of_address {ref : AddressRef} (hls : AllProper ls)
    (h : address.run ls = some (ref, rest)) : ∃ ts, (Operand.address ref).Written ts := by
  rcases run_choice_cons h with hglobal | h
  · obtain ⟨k, hafter, rfl⟩ := run_map_iff.mp hglobal
    obtain ⟨_, middle, -, hoffset⟩ := run_after_iff.mp hafter
    exact ⟨_, .relative .global (natAbs_offset_lt hoffset)⟩
  rcases run_choice_cons h with hblock | h
  · obtain ⟨s, hafter, rfl⟩ := run_map_iff.mp hblock
    obtain ⟨_, middle, hdot, hname⟩ := run_after_iff.mp hafter
    obtain ⟨_, behind, hdollar, hdot⟩ := run_after_iff.mp hdot
    exact ⟨_, .block (proper_name (proper_exactly (proper_exactly hls hdollar) hdot) hname).1⟩
  rcases run_choice_cons h with himported | h
  · obtain ⟨⟨q, s⟩, hboth, rfl⟩ := run_map_iff.mp himported
    obtain ⟨middle, hqualifier, hlabel⟩ := run_both_iff.mp hboth
    obtain ⟨_, behind, hqualifier, hcolon⟩ := run_before_iff.mp hqualifier
    obtain ⟨_, name, hdollar, hqualifier⟩ := run_after_iff.mp hqualifier
    obtain ⟨hq, hbehind⟩ := proper_name (proper_exactly hls hdollar) hqualifier
    exact ⟨_, .importedLabel hq (proper_name (proper_exactly hbehind hcolon) hlabel).1⟩
  rcases run_choice_cons h with hlabel | h
  · obtain ⟨s, hafter, rfl⟩ := run_map_iff.mp hlabel
    obtain ⟨_, middle, hdollar, hname⟩ := run_after_iff.mp hafter
    exact ⟨_, .label (proper_name (proper_exactly hls hdollar) hname).1⟩
  rcases run_choice_cons h with hown | h
  · obtain ⟨k, hafter, rfl⟩ := run_map_iff.mp hown
    obtain ⟨_, middle, -, hoffset⟩ := run_after_iff.mp hafter
    exact ⟨_, .relative .own (natAbs_offset_lt hoffset)⟩
  · cases h

theorem written_of_injected {kind : String} {make : String → Operand}
    (hkind : (Token.name kind).Proper) (hls : AllProper ls)
    (h : injected.run ls = some (make, rest)) : ∃ ts, (make kind).Written ts := by
  rcases run_choice_cons h with hquoted | h
  · obtain ⟨s, htoken, rfl⟩ := run_map_iff.mp hquoted
    obtain ⟨⟨t, span⟩, rfl, hpick⟩ := run_token htoken
    have hproper := (List.forall_mem_cons.mp hls).1
    dsimp only at hproper hpick
    split at hpick
    · obtain rfl := Option.some.inj hpick
      exact ⟨_, .quoted hkind hproper⟩
    · cases hpick
  rcases run_choice_cons h with hword | h
  · obtain ⟨⟨minus, text⟩, hboth, rfl⟩ := run_map_iff.mp hword
    obtain ⟨middle, hminus, htoken⟩ := run_both_iff.mp hboth
    have hmiddle : AllProper middle := by
      rcases run_optional_iff.mp hminus with ⟨-, -, rfl⟩ | ⟨_, hexactly, -⟩
      · exact hls
      · exact proper_exactly hls hexactly
    obtain ⟨⟨t, span⟩, rfl, hpick⟩ := run_token htoken
    have hproper : t.Proper := (List.forall_mem_cons.mp hmiddle).1
    have ⟨hisWord, htext⟩ : t.isWord = true ∧ t.text = text := by
      cases t with
      | decimal n | hex n | float whole part | name s => exact ⟨rfl, Option.some.inj hpick⟩
      | _ => cases hpick
    obtain rfl := htext
    cases minus with
    | none => exact ⟨_, .word hkind hproper hisWord⟩
    | some _ => exact ⟨_, .negative hkind hproper hisWord⟩
  · cases h

theorem written_of_injector (hls : AllProper ls) (h : injector.run ls = some (op, rest)) :
    ∃ ts, op.Written ts := by
  rw [injector, run_labelled] at h
  obtain ⟨⟨kind, make⟩, hboth, rfl⟩ := run_map_iff.mp h
  obtain ⟨middle, hkind, hmake⟩ := run_both_iff.mp hboth
  obtain ⟨_, behind, hkind, hequals⟩ := run_before_iff.mp hkind
  obtain ⟨_, first, hsign, hkind⟩ := run_after_iff.mp hkind
  obtain ⟨hname, hbehind⟩ := proper_name (proper_exactly hls hsign) hkind
  exact written_of_injected hname (proper_exactly hbehind hequals) hmake

theorem written_of_imported (hls : AllProper ls) (h : imported.run ls = some (op, rest)) :
    ∃ ts, op.Written ts := by
  rw [imported, run_labelled] at h
  obtain ⟨⟨q, s⟩, hboth, rfl⟩ := run_map_iff.mp h
  obtain ⟨middle, hqualifier, hsymbol⟩ := run_both_iff.mp hboth
  obtain ⟨_, behind, hqualifier, hcolon⟩ := run_before_iff.mp hqualifier
  obtain ⟨hq, hbehind⟩ := proper_name hls hqualifier
  exact ⟨_, .imported hq (proper_name (proper_exactly hbehind hcolon) hsymbol).1⟩

/-- A leaf that was read from proper tokens is a float, or there are tokens to write it with. -/
theorem written_of_operand {span : Span} (hls : AllProper ls)
    (h : operand.run ls = some (.leaf span op, rest)) :
    (∃ x, op = .float x) ∨ ∃ ts, op.Written ts := by
  obtain ⟨⟨place, found⟩, hspanned, heq⟩ := run_map_iff.mp h
  obtain ⟨-, rfl⟩ := Tree.leaf.inj heq
  obtain ⟨h, -⟩ := run_spanned_iff.mp hspanned
  rcases run_choice_cons h with halias | h
  · obtain ⟨s, hs, rfl⟩ := run_map_iff.mp halias
    exact Or.inr (written_of_aliasRef hls hs)
  rcases run_choice_cons h with haddress | h
  · obtain ⟨ref, href, rfl⟩ := run_map_iff.mp haddress
    exact Or.inr (written_of_address hls href)
  rcases run_choice_cons h with hinjector | h
  · exact Or.inr (written_of_injector hls hinjector)
  rcases run_choice_cons h with himported | h
  · exact Or.inr (written_of_imported hls himported)
  rcases run_choice_cons h with hnumber | h
  · rcases run_choice_cons hnumber with hinteger | hnumber
    · obtain ⟨n, hn, rfl⟩ := run_map_iff.mp hinteger
      exact Or.inr ⟨_, .integer (proper_integer hls hn)⟩
    rcases run_choice_cons hnumber with hfloat | hnumber
    · obtain ⟨x, -, rfl⟩ := run_map_iff.mp hfloat
      exact Or.inl ⟨x, rfl⟩
    · cases hnumber
  · cases h

end Grammar

end LinkAsm
