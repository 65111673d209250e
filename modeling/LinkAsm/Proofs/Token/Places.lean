import LinkAsm.Proofs.Text.Boundaries
import LinkAsm.Token.Lexer
import LinkAsm.Token.Parser

/-!
# Where tokens and failures stand

The tokens of a text stand in it one behind the other, and none is empty (`InOrder`).  A parser takes
tokens from the front, so all that it can name as the place of a value or an obstacle are tokens of
the text, and spans from the start of one to the end of a later one.

* `inOrder_tokenize`: the tokens of a text.
* `Parser.Orderly`: a parser takes at least so many tokens, and its obstacles stand in the text.
  There is one lemma for each way to make a parser.
* `Parser.Orderly.failure_within`: where a failed parse is reported.
-/

namespace LinkAsm

/-! ## Tokens -/

/-- Whether tokens stand in a text one behind the other, none of them empty. -/
structure InOrder (text : List Char) (ls : List Lexeme) : Prop where
  within : ∀ l ∈ ls, l.span.Within text
  nonempty : ∀ l ∈ ls, l.span.start < l.span.stop
  apart : ls.Pairwise fun l m => l.span.stop ≤ m.span.start

namespace InOrder

variable {text : List Char} {l m : Lexeme} {ls rest : List Lexeme}

theorem sublist (h : InOrder text ls) (hrest : rest.Sublist ls) : InOrder text rest :=
  ⟨fun m hm => h.within m (hrest.subset hm), fun m hm => h.nonempty m (hrest.subset hm),
    h.apart.sublist hrest⟩

theorem suffix (h : InOrder text ls) (hrest : rest <:+ ls) : InOrder text rest :=
  h.sublist hrest.sublist

/-- The first token starts before all others. -/
theorem start_lt (h : InOrder text (l :: ls)) (hm : m ∈ ls) : l.span.start < m.span.start := by
  have hstop := (List.pairwise_cons.mp h.apart).1 m hm
  have hl := h.nonempty l List.mem_cons_self
  omega

theorem start_le (h : InOrder text (l :: ls)) (hm : m ∈ l :: ls) :
    l.span.start ≤ m.span.start := by
  rcases List.mem_cons.mp hm with rfl | htail
  · exact Nat.le_refl _
  · exact Nat.le_of_lt (h.start_lt htail)

end InOrder

theorem Token.utf8Size_of_isSeparator {c : Char} (h : isSeparator c = true) : c.utf8Size = 1 := by
  rw [isSeparator, Bool.or_eq_true, beq_iff_eq, beq_iff_eq] at h
  rcases h with rfl | rfl <;> rfl

/-- The tokens of a part of a text that stands at `position`. -/
theorem Token.inOrder_scan {text : List Char} {position : Nat} {cs : List Char}
    (hat : Text.At text position cs) :
    InOrder text (scan position cs) ∧ ∀ l ∈ scan position cs, position ≤ l.span.start := by
  fun_induction scan position cs with
  | case1 position =>
    refine ⟨⟨?_, ?_, List.Pairwise.nil⟩, ?_⟩
    all_goals
      intro l hl
      cases hl
  | case2 position c cs hc ih =>
    have hrest : Text.At text (position + 1) cs := by
      have hright : Text.At text (position + Text.byteLength [c]) cs := Text.At.right hat
      rwa [Text.byteLength_cons, utf8Size_of_isSeparator hc] at hright
    refine ⟨(ih hrest).1, ?_⟩
    intro l hl
    exact Nat.le_of_succ_le ((ih hrest).2 l hl)
  | case3 position c cs hc token taken hread stop ih =>
    have hsplit : c :: cs = (c :: cs.take taken) ++ cs.drop taken := by
      rw [List.cons_append, List.take_append_drop]
    rw [hsplit] at hat
    obtain ⟨hinOrder, hbehind⟩ := ih hat.right
    have hlt : position < stop := by
      have hpos := c.utf8Size_pos
      show position < position + (c.utf8Size + _)
      omega
    refine ⟨⟨?_, ?_, List.pairwise_cons.mpr ⟨hbehind, hinOrder.apart⟩⟩, ?_⟩
    · intro l hl
      rcases List.mem_cons.mp hl with rfl | htail
      · exact hat.left.within
      · exact hinOrder.within l htail
    · intro l hl
      rcases List.mem_cons.mp hl with rfl | htail
      · exact hlt
      · exact hinOrder.nonempty l htail
    · intro l hl
      rcases List.mem_cons.mp hl with rfl | htail
      · exact Nat.le_refl _
      · exact Nat.le_trans (Nat.le_of_lt hlt) (hbehind l htail)

/-- The tokens of a text stand in it one behind the other. -/
theorem inOrder_tokenize (text : List Char) : InOrder text (tokenize text) :=
  (Token.inOrder_scan (Text.at_self text)).1

/-! ## Spans of tokens -/

namespace Parser

variable {text : List Char} {l : Lexeme} {ls rest : List Lexeme}

theorem within_spanOf (h : InOrder text ls) (rest : List Lexeme) :
    (spanOf ls rest).Within text := by
  have htaken := h.sublist (List.takeWhile_sublist fun l => Obstacle.isLeftOf (some l) rest.head?)
  unfold spanOf
  dsimp only
  split
  · next first last hfirst hlast =>
    have hlastMem := List.mem_of_getLast? hlast
    refine (htaken.within first (List.mem_of_head? hfirst)).through
      (htaken.within last hlastMem) ?_
    obtain ⟨others, hothers⟩ := List.head?_eq_some_iff.mp hfirst
    rw [hothers] at htaken hlastMem
    exact Nat.le_trans (htaken.start_le hlastMem) (htaken.within last hlastMem).le
  · exact Span.within_zero text

/-- A value that takes the first token starts with it. -/
theorem start_spanOf (h : InOrder text (l :: ls)) (hrest : rest <:+ ls) :
    (spanOf (l :: ls) rest).start = l.span.start := by
  have hleft : Obstacle.isLeftOf (some l) rest.head? = true := by
    cases rest with
    | nil => rfl
    | cons m rest => exact decide_eq_true (h.start_lt (hrest.subset List.mem_cons_self))
  have htaken : (l :: ls).takeWhile (fun l => Obstacle.isLeftOf (some l) rest.head?) =
      l :: ls.takeWhile fun l => Obstacle.isLeftOf (some l) rest.head? :=
    List.takeWhile_cons_of_pos hleft
  simp only [spanOf, htaken, List.head?_cons]
  cases hlast : (l :: ls.takeWhile fun l => Obstacle.isLeftOf (some l) rest.head?).getLast? with
  | none => cases List.getLast?_eq_none_iff.mp hlast
  | some last => rfl

end Parser

/-! ## Obstacles -/

/-- Whether an obstacle stands in a text. -/
structure Obstacle.Within (text : List Char) (o : Obstacle) : Prop where
  place : ∀ l, o.place = some l → l.span.Within text
  reason : ∀ message span, o.reason = .rejected message span → span.Within text

namespace Obstacle

variable {text : List Char} {o new : Obstacle} {old : Option Obstacle} {ls : List Lexeme}

theorem within_expected (h : InOrder text ls) (items : List String) :
    Within text ⟨ls.head?, .expected items⟩ := by
  refine ⟨?_, ?_⟩
  · intro l hl
    exact h.within l (List.mem_of_head? hl)
  · intro message span hreason
    cases hreason

theorem within_expect (h : InOrder text ls) (hold : ∀ o ∈ old, o.Within text) (item : String) :
    (expect item ls.head? old).Within text := by
  cases old with
  | none => exact within_expected h [item]
  | some o =>
    have ho : o.Within text := hold o rfl
    unfold expect
    dsimp only
    split
    · exact within_expected h [item]
    · split
      · exact ho
      · split
        · exact ho
        · split
          · exact ho
          · exact within_expected h _

theorem within_merge (ho : o.Within text) (hnew : new.Within text) : (o.merge new).Within text := by
  unfold merge
  split
  · exact hnew
  · split
    · exact ho
    · split
      · exact ho
      · exact hnew
      · refine ⟨ho.place, ?_⟩
        intro message span hreason
        cases hreason

theorem within_merge? {a b : Option Obstacle} (ha : ∀ o ∈ a, o.Within text)
    (hb : ∀ o ∈ b, o.Within text) : ∀ o ∈ merge? a b, o.Within text := by
  intro o ho
  cases a with
  | none =>
    cases b with
    | none => cases ho
    | some b => exact hb o ho
  | some a =>
    cases b with
    | none => exact ha o ho
    | some b =>
      obtain rfl := Option.some.inj ho
      exact within_merge (ha a rfl) (hb b rfl)

theorem within_label (h : InOrder text ls) (ho : o.Within text) (name : String) :
    (o.label name ls.head?).Within text := by
  unfold label
  split
  · exact ho
  · exact within_expected h [name]

end Obstacle

/-! ## What parsers accept -/

namespace Parser

variable {α β : Type} {p : Parser α} {q : Parser β} {ls rest : List Lexeme} {x : α} {y : β}

theorem run_map_iff {f : α → β} :
    (p.map f).run ls = some (y, rest) ↔ ∃ x, p.run ls = some (x, rest) ∧ f x = y := by
  constructor
  · intro h
    obtain ⟨⟨x, tail⟩, hx, heq⟩ := Option.map_eq_some_iff.mp h
    obtain ⟨rfl, rfl⟩ := Prod.mk.inj heq
    exact ⟨x, hx, rfl⟩
  · rintro ⟨x, hx, rfl⟩
    exact Option.map_eq_some_iff.mpr ⟨(x, rest), hx, rfl⟩

theorem run_both_iff :
    (p.both q).run ls = some ((x, y), rest) ↔
      ∃ middle, p.run ls = some (x, middle) ∧ q.run middle = some (y, rest) := by
  constructor
  · intro h
    obtain ⟨⟨x, middle⟩, hx, h⟩ := Option.bind_eq_some_iff.mp h
    obtain ⟨⟨y, tail⟩, hy, heq⟩ := Option.map_eq_some_iff.mp h
    obtain ⟨hpair, rfl⟩ := Prod.mk.inj heq
    obtain ⟨rfl, rfl⟩ := Prod.mk.inj hpair
    exact ⟨middle, hx, hy⟩
  · rintro ⟨middle, hx, hy⟩
    refine Option.bind_eq_some_iff.mpr ⟨(x, middle), hx, ?_⟩
    exact Option.map_eq_some_iff.mpr ⟨(y, rest), hy, rfl⟩

theorem run_before_iff :
    (p.before q).run ls = some (x, rest) ↔
      ∃ y middle, p.run ls = some (x, middle) ∧ q.run middle = some (y, rest) := by
  rw [before, run_map_iff]
  constructor
  · rintro ⟨⟨x, y⟩, hboth, rfl⟩
    exact ⟨y, run_both_iff.mp hboth⟩
  · rintro ⟨y, hboth⟩
    exact ⟨(x, y), run_both_iff.mpr hboth, rfl⟩

theorem run_after_iff :
    (p.after q).run ls = some (y, rest) ↔
      ∃ x middle, p.run ls = some (x, middle) ∧ q.run middle = some (y, rest) := by
  rw [after, run_map_iff]
  constructor
  · rintro ⟨⟨x, y⟩, hboth, rfl⟩
    exact ⟨x, run_both_iff.mp hboth⟩
  · rintro ⟨x, hboth⟩
    exact ⟨(x, y), run_both_iff.mpr hboth, rfl⟩

theorem run_spanned_iff {span : Span} :
    p.spanned.run ls = some ((span, x), rest) ↔
      p.run ls = some (x, rest) ∧ span = spanOf ls rest := by
  constructor
  · intro h
    obtain ⟨⟨x, tail⟩, hx, heq⟩ := Option.map_eq_some_iff.mp h
    obtain ⟨hpair, rfl⟩ := Prod.mk.inj heq
    obtain ⟨rfl, rfl⟩ := Prod.mk.inj hpair
    exact ⟨hx, rfl⟩
  · rintro ⟨hx, rfl⟩
    exact Option.map_eq_some_iff.mpr ⟨(x, rest), hx, rfl⟩

theorem run_optional_iff {value : Option α} :
    p.optional.run ls = some (value, rest) ↔
      p.run ls = none ∧ value = none ∧ rest = ls ∨
        ∃ x, p.run ls = some (x, rest) ∧ value = some x := by
  unfold optional
  dsimp only
  cases p.run ls with
  | none => simp [eq_comm]
  | some result =>
    obtain ⟨x, tail⟩ := result
    simp only [Option.some.injEq, Prod.mk.injEq, reduceCtorEq, false_and, false_or]
    constructor
    · rintro ⟨rfl, rfl⟩
      exact ⟨x, ⟨rfl, rfl⟩, rfl⟩
    · rintro ⟨x, ⟨rfl, rfl⟩, rfl⟩
      exact ⟨rfl, rfl⟩

end Parser

/-! ## Parsers -/

/-- Whether a parser takes at least `n` tokens from the front, and its obstacles stand in the text of
the tokens. -/
structure Parser.Orderly {α : Type} (text : List Char) (n : Nat) (p : Parser α) : Prop where
  consumes : ∀ {ls x rest}, InOrder text ls → p.run ls = some (x, rest) →
    ∃ taken, ls = taken ++ rest ∧ n ≤ taken.length
  reports : ∀ {ls old}, InOrder text ls → (∀ o ∈ old, Obstacle.Within text o) →
    ∀ o ∈ p.obstacle ls old, o.Within text

namespace Parser

variable {α β : Type} {text : List Char} {m n : Nat} {p : Parser α} {q : Parser β}
  {ls rest : List Lexeme} {x : α}

namespace Orderly

theorem suffix (h : p.Orderly text n) (hls : InOrder text ls) (hrun : p.run ls = some (x, rest)) :
    rest <:+ ls := by
  obtain ⟨taken, rfl, -⟩ := h.consumes hls hrun
  exact List.suffix_append taken rest

/-- A parser that takes a token takes the first. -/
theorem exists_cons (h : p.Orderly text (n + 1)) (hls : InOrder text ls)
    (hrun : p.run ls = some (x, rest)) : ∃ l tail, ls = l :: tail ∧ rest <:+ tail := by
  obtain ⟨taken, rfl, hlength⟩ := h.consumes hls hrun
  cases taken with
  | nil => exact absurd hlength (Nat.not_succ_le_zero n)
  | cons l taken => exact ⟨l, taken ++ rest, rfl, List.suffix_append taken rest⟩

theorem mono (h : p.Orderly text n) (hle : m ≤ n) : p.Orderly text m := by
  refine ⟨?_, h.reports⟩
  intro ls x rest hls hrun
  obtain ⟨taken, hsplit, hlength⟩ := h.consumes hls hrun
  exact ⟨taken, hsplit, Nat.le_trans hle hlength⟩

theorem map (h : p.Orderly text n) (f : α → β) : (p.map f).Orderly text n := by
  refine ⟨?_, h.reports⟩
  intro ls y rest hls hrun
  obtain ⟨x, hx, -⟩ := run_map_iff.mp hrun
  exact h.consumes hls hx

theorem both (hp : p.Orderly text m) (hq : q.Orderly text n) :
    (p.both q).Orderly text (m + n) := by
  refine ⟨?_, ?_⟩
  · rintro ls ⟨x, y⟩ rest hls hrun
    obtain ⟨middle, hx, hy⟩ := run_both_iff.mp hrun
    have hmiddle := hls.suffix (hp.suffix hls hx)
    obtain ⟨first, rfl, hfirst⟩ := hp.consumes hls hx
    obtain ⟨second, rfl, hsecond⟩ := hq.consumes hmiddle hy
    refine ⟨first ++ second, (List.append_assoc _ _ _).symm, ?_⟩
    rw [List.length_append]
    exact Nat.add_le_add hfirst hsecond
  · intro ls old hls hold
    have hfirst := hp.reports hls hold
    unfold Parser.both
    dsimp only
    split
    · exact hfirst
    · next x middle hx => exact hq.reports (hls.suffix (hp.suffix hls hx)) hfirst

theorem before (hp : p.Orderly text m) (hq : q.Orderly text n) :
    (p.before q).Orderly text (m + n) :=
  (hp.both hq).map _

theorem after (hp : p.Orderly text m) (hq : q.Orderly text n) :
    (p.after q).Orderly text (m + n) :=
  (hp.both hq).map _

theorem optional (h : p.Orderly text n) : p.optional.Orderly text 0 := by
  refine ⟨?_, h.reports⟩
  intro ls x rest hls hrun
  rcases run_optional_iff.mp hrun with ⟨-, -, rfl⟩ | ⟨y, hy, -⟩
  · exact ⟨[], rfl, Nat.zero_le _⟩
  · obtain ⟨taken, hsplit, -⟩ := h.consumes hls hy
    exact ⟨taken, hsplit, Nat.zero_le _⟩

theorem labelled (h : p.Orderly text n) (name : String) : (p.labelled name).Orderly text n := by
  refine ⟨h.consumes, ?_⟩
  intro ls old hls hold
  refine Obstacle.within_merge? hold ?_
  intro o ho
  obtain ⟨found, hfound, rfl⟩ := Option.map_eq_some_iff.mp ho
  refine Obstacle.within_label hls (h.reports hls ?_ found hfound) name
  intro o ho
  cases ho

theorem spanned (h : p.Orderly text n) : p.spanned.Orderly text n := by
  refine ⟨?_, h.reports⟩
  rintro ls ⟨span, x⟩ rest hls hrun
  exact h.consumes hls (run_spanned_iff.mp hrun).1

theorem checked (h : p.Orderly text n) (check : α → Except String β) :
    (p.checked check).Orderly text n := by
  refine ⟨?_, ?_⟩
  · intro ls y rest hls hrun
    obtain ⟨⟨x, tail⟩, hp, hrun⟩ := Option.bind_eq_some_iff.mp hrun
    dsimp only at hrun
    split at hrun
    · obtain ⟨-, rfl⟩ := Prod.mk.inj (Option.some.inj hrun)
      exact h.consumes hls hp
    · cases hrun
  · intro ls old hls hold
    unfold Parser.checked
    dsimp only
    split
    · exact h.reports hls hold
    · next x tail hx =>
      split
      · exact h.reports hls hold
      · intro o ho
        obtain rfl := Option.some.inj ho
        refine ⟨?_, ?_⟩
        · intro l hl
          exact hls.within l (List.mem_of_head? hl)
        · intro message span hreason
          obtain ⟨-, rfl⟩ := Reason.rejected.inj hreason
          exact within_spanOf hls tail

theorem choice_cons {ps : List (Parser α)} (hp : p.Orderly text n)
    (hps : (choice ps).Orderly text n) : (choice (p :: ps)).Orderly text n := by
  refine ⟨?_, ?_⟩
  · intro ls x rest hls hrun
    rcases Option.or_eq_some_iff.mp hrun with hfirst | ⟨-, hothers⟩
    · exact hp.consumes hls hfirst
    · exact hps.consumes hls hothers
  · intro ls old hls hold
    have hfirst := hp.reports hls hold
    unfold Parser.choice
    dsimp only
    split
    · exact hfirst
    · exact hps.reports hls hfirst

end Orderly

theorem orderly_choice_nil (text : List Char) (n : Nat) :
    (choice ([] : List (Parser α))).Orderly text n := by
  refine ⟨?_, fun _ hold => hold⟩
  intro ls x rest hls hrun
  cases hrun

theorem orderly_token (text : List Char) (item : String) (pick : Token → Option α) :
    (token item pick).Orderly text 1 := by
  refine ⟨?_, ?_⟩
  · intro ls x rest hls hrun
    cases ls with
    | nil => cases hrun
    | cons l ls =>
      obtain ⟨y, -, heq⟩ := Option.map_eq_some_iff.mp hrun
      obtain ⟨-, rfl⟩ := Prod.mk.inj heq
      exact ⟨[l], rfl, Nat.le_refl 1⟩
  · intro ls old hls hold
    unfold token
    dsimp only
    split
    · exact hold
    · intro o ho
      obtain rfl := Option.some.inj ho
      exact Obstacle.within_expect hls hold item

theorem orderly_finish (text : List Char) : finish.Orderly text 0 := by
  refine ⟨?_, ?_⟩
  · intro ls x rest hls hrun
    cases ls with
    | nil =>
      obtain ⟨-, rfl⟩ := Prod.mk.inj (Option.some.inj hrun)
      exact ⟨[], rfl, Nat.zero_le _⟩
    | cons l ls => cases hrun
  · intro ls old hls hold
    unfold finish
    dsimp only
    split
    · exact hold
    · intro o ho
      obtain rfl := Option.some.inj ho
      exact Obstacle.within_expect hls hold "end of input"

end Parser

/-! ## Failures -/

namespace ParseFailure

variable {text : List Char} {ls : List Lexeme}

theorem isBoundary_foldl_max (h : InOrder text ls) {n : Nat} (hn : Text.IsBoundary text n) :
    Text.IsBoundary text (ls.foldl (fun n l => max n l.span.stop) n) := by
  induction ls generalizing n with
  | nil => exact hn
  | cons l ls ih =>
    refine ih (h.suffix (List.suffix_cons l ls)) ?_
    show Text.IsBoundary text (max n l.span.stop)
    rcases Nat.le_total n l.span.stop with hle | hle
    · rw [Nat.max_eq_right hle]
      exact (h.within l List.mem_cons_self).stop
    · rw [Nat.max_eq_left hle]
      exact hn

theorem within_wholeSpan (h : InOrder text ls) : (wholeSpan ls).Within text :=
  ⟨Nat.zero_le _, Text.isBoundary_zero text, isBoundary_foldl_max h (Text.isBoundary_zero text)⟩

theorem within_ofObstacle {o : Obstacle} (h : InOrder text ls) (ho : o.Within text) :
    (ofObstacle ls o).span.Within text := by
  unfold ofObstacle
  split
  · next message span hreason => exact ho.reason message span hreason
  · split
    · exact within_wholeSpan h
    · next l hplace => exact ho.place l hplace

end ParseFailure

/-- A failed parse is reported in the text. -/
theorem Parser.Orderly.failure_within {α : Type} {text : List Char} {n : Nat} {p : Parser α}
    (h : p.Orderly text n) {ls : List Lexeme} (hls : InOrder text ls) {failure : ParseFailure}
    (hparse : p.parseAll ls = .error failure) : failure.span.Within text := by
  unfold parseAll at hparse
  dsimp only at hparse
  split at hparse
  · cases hparse
  · obtain rfl := Except.error.inj hparse
    split
    · next o ho =>
      refine ParseFailure.within_ofObstacle hls ((h.before (orderly_finish text)).reports hls ?_ o ho)
      intro o ho
      cases ho
    · exact ParseFailure.within_wholeSpan hls

end LinkAsm
