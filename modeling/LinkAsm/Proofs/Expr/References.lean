import Mathlib
import LinkAsm.Expr.Parser
import LinkAsm.Source.Line

/-!
# References to the names that lines define

Lines are recognised by their characters, references by their tokens.  Both take a name to be the
longest run of name characters behind a character that starts names, so what a line defines is one
token where it is referred to.  It is a name there unless it is the word `as`, which is kept for
casts: a line may define `as`, and nothing can refer to it.

* `isName_of_classify`: what a line defines is a name.
* `Token.scan_name`: the token that a name is.
* `refersTo_of_classify`: the three references to a name that some line defines.
-/

namespace LinkAsm

/-! ## Names that lines define -/

/-- Whether a text is a name. -/
def isName : List Char → Bool
  | [] => false
  | c :: cs => isNameStart c && cs.all isNameChar

/-- The name that a line defines in its object. -/
def LineKind.definedName? : LineKind → Option String
  | .label name | .block name => some name
  | .aliasDefinition definition => some definition.name
  | .importing _ | .instruction _ => none

theorem isName_of_takeName {text rest : List Char} {name : String}
    (h : takeName text = some (name, rest)) : isName name.toList = true := by
  cases text with
  | nil => cases h
  | cons c cs =>
    rw [takeName] at h
    split at h
    · next hc =>
      obtain ⟨rfl, -⟩ := Prod.mk.inj (Option.some.inj h)
      rw [String.toList_ofList, isName, hc, Bool.true_and]
      exact List.all_takeWhile
    · cases h

theorem isName_of_labelName? {line : List Char} {name : String}
    (h : labelName? line = some name) : isName name.toList = true := by
  unfold labelName? at h
  split at h
  · next found rest htake =>
    split at h
    · obtain rfl := Option.some.inj h
      exact isName_of_takeName htake
    · cases h
  · cases h

theorem isName_of_aliasDefinition {stop : Nat} {text : List Char} {d : AliasDefinition}
    (h : AliasDefinition.read? stop text = some d) : isName d.name.toList = true := by
  obtain ⟨inner, -, h⟩ := Option.bind_eq_some_iff.mp h
  obtain ⟨⟨name, rest⟩, htake, h⟩ := Option.bind_eq_some_iff.mp h
  obtain ⟨expression, -, h⟩ := Option.bind_eq_some_iff.mp h
  split at h
  · cases h
  · obtain rfl := Option.some.inj h
    exact isName_of_takeName htake

theorem isName_of_directive {span : Span} {text : List Char} {kind : LineKind} {name : String}
    (h : LineKind.directive span text = .ok kind) (hname : kind.definedName? = some name) :
    isName name.toList = true := by
  simp only [LineKind.directive] at h
  split at h
  · split at h
    · next d hd =>
      obtain rfl := Except.ok.inj h
      obtain rfl := Option.some.inj hname
      exact isName_of_aliasDefinition hd
    · cases h
  · split at h
    · obtain rfl := Except.ok.inj h
      cases hname
    · cases h
  · cases h

/-- What a line defines is a name. -/
theorem isName_of_classify {span : Span} {line : List Char} {kind : LineKind} {name : String}
    (h : LineKind.classify span line = .ok kind) (hname : kind.definedName? = some name) :
    isName name.toList = true := by
  unfold LineKind.classify at h
  split at h
  · next found hlabel =>
    obtain rfl := Except.ok.inj h
    obtain rfl := Option.some.inj hname
    exact isName_of_labelName? hlabel
  · split at h
    · split at h
      · next found hlabel =>
        obtain rfl := Except.ok.inj h
        obtain rfl := Option.some.inj hname
        exact isName_of_labelName? hlabel
      · cases h
    · exact isName_of_directive h hname
    · -- an instruction defines nothing
      cases hread : InstructionText.read span.stop line with
      | ok text =>
        rw [hread] at h
        obtain rfl := Except.ok.inj h
        cases hname
      | error err =>
        rw [hread] at h
        cases h

/-! ## Names as tokens -/

theorem isDigit_of_isNameStart {c : Char} (h : isNameStart c = true) : c.isDigit = false := by
  simp only [isNameStart, Char.isAlpha, Char.isUpper, Char.isLower, Char.isDigit, Bool.or_eq_true,
    Bool.and_eq_true, decide_eq_true_eq, beq_iff_eq, Bool.and_eq_false_iff,
    decide_eq_false_iff_not, UInt32.le_iff_toNat_le, ge_iff_le] at h ⊢
  have h9 : '9'.val.toNat = 57 := rfl
  have hA : 'A'.val.toNat = 65 := rfl
  have ha : 'a'.val.toNat = 97 := rfl
  rcases h with h | rfl
  · omega
  · decide

namespace Token

/-- A character of a class without blanks does not separate tokens. -/
theorem isSeparator_eq_false {p : Char → Bool} (hspace : p ' ' = false) (htab : p '\t' = false)
    {c : Char} (h : p c = true) : isSeparator c = false := by
  rw [isSeparator, Bool.or_eq_false_iff, beq_eq_false_iff_ne, beq_eq_false_iff_ne]
  constructor
  · rintro rfl
    exact Bool.false_ne_true (hspace.symm.trans h)
  · rintro rfl
    exact Bool.false_ne_true (htab.symm.trans h)

theorem scan_cons (position : Nat) {c : Char} {cs : List Char} {token : Token} {taken : Nat}
    (hc : isSeparator c = false) (h : read c cs = (token, taken)) :
    scan position (c :: cs) =
      ⟨token, ⟨position, position + Text.byteLength (c :: cs.take taken)⟩⟩ ::
        scan (position + Text.byteLength (c :: cs.take taken)) (cs.drop taken) := by
  rw [scan, if_neg (by rw [hc]; exact Bool.false_ne_true), h]

/-- A token that takes all of a text is the only one. -/
theorem scan_whole (position : Nat) {c : Char} {cs : List Char} {token : Token}
    (hc : isSeparator c = false) (h : read c cs = (token, cs.length)) :
    scan position (c :: cs) =
      [⟨token, ⟨position, position + Text.byteLength (c :: cs)⟩⟩] := by
  rw [scan_cons position hc h, List.take_length, List.drop_length, scan]

theorem read_of_isDigit {c : Char} (hc : c.isDigit = true) (cs : List Char) :
    read c cs = readNumber c cs := by
  rw [read, if_pos hc]

theorem read_of_isNameStart {c : Char} (hc : isNameStart c = true) (cs : List Char) :
    read c cs = readName c cs := by
  rw [read, isDigit_of_isNameStart hc, if_neg Bool.false_ne_true, if_pos hc]

theorem read_name {c : Char} {cs : List Char} (hc : isNameStart c = true)
    (hcs : cs.all isNameChar = true) (has : c :: cs ≠ ['a', 's']) :
    read c cs = (.name (String.ofList (c :: cs)), cs.length) := by
  have htake : cs.takeWhile isNameChar = cs :=
    List.takeWhile_eq_self_iff.mpr (List.all_eq_true.mp hcs)
  rw [read_of_isNameStart hc, readName]
  simp only [htake, if_neg has]

/-- A name is one token, that of the name unless it is the word `as`. -/
theorem scan_name (position : Nat) {name : String} (h : isName name.toList = true)
    (has : name ≠ "as") :
    scan position name.toList =
      [⟨.name name, ⟨position, position + Text.byteLength name.toList⟩⟩] := by
  cases hcs : name.toList with
  | nil =>
    rw [hcs] at h
    cases h
  | cons c cs =>
    rw [hcs, isName, Bool.and_eq_true_iff] at h
    obtain ⟨hc, hcs'⟩ := h
    have hword : c :: cs ≠ ['a', 's'] := by
      intro heq
      exact has (String.toList_inj.mp (hcs.trans heq))
    rw [scan_whole position (isSeparator_eq_false (by decide) (by decide) hc)
      (read_name hc hcs' hword), ← hcs, String.ofList_toList]

theorem scan_hash (position : Nat) (cs : List Char) :
    scan position ('#' :: cs) =
      ⟨.hash, ⟨position, position + 1⟩⟩ :: scan (position + 1) cs :=
  scan_cons position (by decide) (show read '#' cs = (.hash, 0) from rfl)

theorem scan_dot (position : Nat) (cs : List Char) :
    scan position ('.' :: cs) = ⟨.dot, ⟨position, position + 1⟩⟩ :: scan (position + 1) cs :=
  scan_cons position (by decide) (show read '.' cs = (.dot, 0) from rfl)

theorem scan_dollar (position : Nat) {cs : List Char} (h : cs.head? ≠ some '$') :
    scan position ('$' :: cs) =
      ⟨.dollar, ⟨position, position + 1⟩⟩ :: scan (position + 1) cs :=
  scan_cons position (by decide) (show read '$' cs = (.dollar, 0) from if_neg h)

end Token

theorem head?_ne_dollar {cs : List Char} (h : isName cs = true) : cs.head? ≠ some '$' := by
  cases cs with
  | nil => cases h
  | cons c cs =>
    intro hc
    obtain rfl := Option.some.inj hc
    rw [isName, Bool.and_eq_true_iff] at h
    exact absurd h.1 (by decide)

/-! ## References -/

/-- What a text refers to: as an operand of an instruction, and as an expression of one leaf. -/
structure RefersTo (text : List Char) (operand : InstructionOperand) (leaf : Operand) : Prop where
  operand_parse : InstructionOperand.parse text = .ok operand
  expr_parse : Expr.parse text = .ok ⟨.leaf ⟨0, Text.byteLength text⟩ leaf, none⟩

theorem refersTo_label {name : String} (h : isName name.toList = true) (has : name ≠ "as") :
    RefersTo ('$' :: name.toList) (.address (.label name)) (.address (.label name)) := by
  have htokens : tokenize ('$' :: name.toList) =
      [⟨.dollar, ⟨0, 1⟩⟩, ⟨.name name, ⟨1, 1 + Text.byteLength name.toList⟩⟩] := by
    rw [tokenize, Token.scan_dollar 0 (head?_ne_dollar h), Token.scan_name _ h has]
  constructor
  · rw [InstructionOperand.parse, htokens]
    rfl
  · rw [Expr.parse, htokens]
    rfl

theorem refersTo_block {name : String} (h : isName name.toList = true) (has : name ≠ "as") :
    RefersTo ('$' :: '.' :: name.toList) (.address (.block name)) (.address (.block name)) := by
  have hdot : ('.' :: name.toList).head? ≠ some '$' := by simp
  have htokens : tokenize ('$' :: '.' :: name.toList) =
      [⟨.dollar, ⟨0, 1⟩⟩, ⟨.dot, ⟨1, 2⟩⟩, ⟨.name name, ⟨2, 2 + Text.byteLength name.toList⟩⟩] := by
    rw [tokenize, Token.scan_dollar 0 hdot, Token.scan_dot, Token.scan_name _ h has]
  constructor
  · rw [InstructionOperand.parse, htokens]
    rfl
  · rw [Expr.parse, htokens, Text.byteLength_cons, Text.byteLength_cons, ← Nat.add_assoc]
    rfl

theorem refersTo_alias {name : String} (h : isName name.toList = true) (has : name ≠ "as") :
    RefersTo ('#' :: name.toList) (.aliasRef name) (.aliasRef name) := by
  have htokens : tokenize ('#' :: name.toList) =
      [⟨.hash, ⟨0, 1⟩⟩, ⟨.name name, ⟨1, 1 + Text.byteLength name.toList⟩⟩] := by
    rw [tokenize, Token.scan_hash, Token.scan_name _ h has]
  constructor
  · rw [InstructionOperand.parse, htokens]
    rfl
  · rw [Expr.parse, htokens]
    rfl

/-- **Every definable name but `as` can be referred to**: a name that some line defines, as a label,
an embedded block or an alias, is read in each of the three references as that name. -/
theorem refersTo_of_classify {span : Span} {line : List Char} {kind : LineKind} {name : String}
    (h : LineKind.classify span line = .ok kind) (hname : kind.definedName? = some name)
    (has : name ≠ "as") :
    RefersTo ('$' :: name.toList) (.address (.label name)) (.address (.label name)) ∧
      RefersTo ('$' :: '.' :: name.toList) (.address (.block name)) (.address (.block name)) ∧
      RefersTo ('#' :: name.toList) (.aliasRef name) (.aliasRef name) := by
  have hn : isName name.toList = true := isName_of_classify h hname
  exact ⟨refersTo_label hn has, refersTo_block hn has, refersTo_alias hn has⟩

/-- A name that starts like the cast and like a number of base sixteen. -/
theorem refersTo_of_classify_as0x :
    LineKind.classify ⟨0, 15⟩ "?alias as0x = 1".toList =
        .ok (.aliasDefinition ⟨"as0x", ['1'], 14⟩) ∧
      RefersTo "$as0x".toList (.address (.label "as0x")) (.address (.label "as0x")) ∧
      RefersTo "$.as0x".toList (.address (.block "as0x")) (.address (.block "as0x")) ∧
      RefersTo "#as0x".toList (.aliasRef "as0x") (.aliasRef "as0x") := by
  have h : LineKind.classify ⟨0, 15⟩ "?alias as0x = 1".toList =
      .ok (.aliasDefinition ⟨"as0x", ['1'], 14⟩) := by cbv
  exact ⟨h, refersTo_of_classify h rfl (by decide)⟩

/-- Lines may define `as`, and no reference to it is read. -/
theorem as_defined_not_referable :
    LineKind.classify ⟨0, 3⟩ "as:".toList = .ok (.label "as") ∧
      LineKind.classify ⟨0, 4⟩ ".as:".toList = .ok (.block "as") ∧
      LineKind.classify ⟨0, 13⟩ "?alias as = 1".toList =
        .ok (.aliasDefinition ⟨"as", ['1'], 12⟩) ∧
      ∀ text ∈ ["$as".toList, "$.as".toList, "#as".toList],
        (InstructionOperand.parse text).isOk = false ∧ (Expr.parse text).isOk = false := by
  refine ⟨by cbv, by cbv, by cbv, ?_⟩
  intro text htext
  simp only [List.mem_cons, List.not_mem_nil, or_false] at htext
  rcases htext with rfl | rfl | rfl
  · exact ⟨by cbv, by cbv⟩
  · exact ⟨by cbv, by cbv⟩
  · exact ⟨by cbv, by cbv⟩

end LinkAsm
