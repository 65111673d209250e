import Mathlib
import LinkAsm.Proofs.Token.Spelling

/-!
# Tokens with spaces between them

A text leaves open how its tokens are spelled and where they touch: `0X0f` and `0xF` are one number,
and `$$$` is two tokens.  Written out in their usual form with a space between each two, the tokens
are read again as they are.  A space goes on with no token, so no two tokens become one whatever
their kinds are, and the spaces and quotes inside quoted text stay inside it.

* `Token.spaced`: tokens written out.
* `Token.tokensOf_spaced`: all tokens that the reader can make are read again.
* `spacing_keeps_tokens`: so are the tokens of a text.
-/

namespace LinkAsm

namespace Token

/-- Tokens in their usual form, with a space between each two. -/
def spaced (ts : List Token) : String := " ".intercalate (ts.map text)

theorem toList_spaced_singleton (t : Token) : (spaced [t]).toList = t.text.toList := by
  rw [spaced, String.toList_intercalate, List.map_singleton, List.map_singleton,
    List.intercalate_singleton]

theorem toList_spaced_cons (t u : Token) (ts : List Token) :
    (spaced (t :: u :: ts)).toList = t.text.toList ++ ' ' :: (spaced (u :: ts)).toList := by
  simp only [spaced, String.toList_intercalate, List.map_cons, List.intercalate_cons_cons,
    List.append_assoc]
  rfl

/-- Proper tokens with spaces between them are read as they are. -/
theorem tokensOf_spaced {ts : List Token} (hproper : ∀ t ∈ ts, t.Proper)
    (hknown : ∀ s, .unrecognised s ∉ ts) : tokensOf (spaced ts).toList = ts := by
  induction ts with
  | nil => exact tokensOf_nil
  | cons t ts ih =>
    obtain ⟨ht, hts⟩ := List.forall_mem_cons.mp hproper
    have hne : ∀ s, t ≠ .unrecognised s := by
      rintro s rfl
      exact hknown s List.mem_cons_self
    have hrest := ih hts fun s hs => hknown s (List.mem_cons_of_mem _ hs)
    cases ts with
    | nil =>
      have hread := tokensOf_text_append ht (stops_nil.endsBefore hne)
      rwa [List.append_nil, tokensOf_nil, ← toList_spaced_singleton] at hread
    | cons u us =>
      have hend : t.EndsBefore (' ' :: (spaced (u :: us)).toList) :=
        (stops_cons _ (by decide)).endsBefore hne
      rw [toList_spaced_cons, tokensOf_text_append ht hend, tokensOf_separator _ (by decide), hrest]

end Token

/-- **Spaces keep tokens.**  If a text is all tokens, then the tokens written in their usual form with
single spaces between them are a text with the same tokens. -/
theorem spacing_keeps_tokens (text : List Char) (h : ∀ s, .unrecognised s ∉ tokensOf text) :
    tokensOf (Token.spaced (tokensOf text)).toList = tokensOf text := by
  refine Token.tokensOf_spaced ?_ h
  intro t ht
  obtain ⟨l, hl, rfl⟩ := List.mem_map.mp ht
  exact Token.proper_of_mem_tokenize hl

/-- Tokens that touch: a number with small digits, one with zeros in front, quoted text with spaces,
an escaped quote and a `$`, three `$`, and the word `as` beside a name that starts with it. -/
def crowded : List Char := "0X0fF+007.50\"a  \\\" $\"$$$as.ask 00".toList

theorem spacing_keeps_tokens_crowded :
    tokensOf crowded =
        [.hex 0xFF, .plus, .float "007" "50", .quoted "a  \\\" $", .doubleDollar, .dollar, .asWord,
          .dot, .name "ask", .decimal 0] ∧
      Token.spaced (tokensOf crowded) = "0xFF + 007.50 \"a  \\\" $\" $$ $ as . ask 0" ∧
      tokensOf (Token.spaced (tokensOf crowded)).toList = tokensOf crowded := by
  have htokens : tokensOf crowded =
      [.hex 0xFF, .plus, .float "007" "50", .quoted "a  \\\" $", .doubleDollar, .dollar, .asWord,
        .dot, .name "ask", .decimal 0] := by decide +kernel
  refine ⟨htokens, ?_, spacing_keeps_tokens crowded ?_⟩
  · rw [htokens]
    decide +kernel
  · rw [htokens]
    intro s hs
    simp at hs

end LinkAsm
