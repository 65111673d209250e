import Mathlib
import LinkAsm.Proofs.Pass.Ranges
import LinkAsm.Proofs.Token.Literals

/-!
# Numbers as operands

The number of a literal operand is checked three times: by the reader of tokens, which knows numbers
of 64 bits; when it becomes a word of 32 bits; and against the room that the instruction has for it.
What fails the second or the third check is an error, reported at the operand.  What fails the first
is no number to the reader, and an operand that cannot be read is passed on as it is, like the name
of a register.  So literals are checked up to 64 bits, and beyond that they are not.

* `Site.resolveOperand_of_lt`: literals of at most 64 bits.
* `Site.resolveOperand_of_le`: longer ones.
* `Site.literal_checked_iff`: which literals are checked.
-/

namespace LinkAsm

/-- The least number that an instruction has no room for: `word` has four bytes for it, written in
capitals or not, and every other one has three. -/
def InstructionText.inlineLimit (i : InstructionText) : Nat :=
  if i.mnemonic.toList.map Char.toLower = wordMnemonic.toList then 0x100000000 else 0x1000000

theorem InstructionText.inlineLimit_le (i : InstructionText) : i.inlineLimit ≤ 0x100000000 := by
  unfold inlineLimit
  split <;> decide

theorem InstructionText.holds_inlineBytes (i : InstructionText) (n : Nat) :
    (if i.inlineBytes = 3 then Width.triByte else .quadByte).holds n = true ↔
      n < i.inlineLimit := by
  rw [Width.holds_iff]
  by_cases hword : i.mnemonic.toList.map Char.toLower = wordMnemonic.toList
  · rw [inlineBytes, if_pos hword, inlineLimit, if_pos hword]
    rfl
  · rw [inlineBytes, if_neg hword, inlineLimit, if_neg hword]
    rfl

namespace OperandValue

/-- What becomes of a number in an instruction that has room for those below `limit`: it is the
operand's value if there is room, and otherwise the operand is an error, and whatever the log was, it
then has a failure at the operand's place. -/
structure Checked (limit n : Nat) (span : Span) (outcome : OperandValue × List Message) : Prop where
  value : n < limit → outcome = (.value ⟨.quadByte, .unsigned, n⟩, [])
  error : limit ≤ n → outcome.1 = .error ∧ ∀ log : Log, (log.addAll outcome.2).covers span = true

variable {limit n : Nat} {span : Span}

theorem checked_value (h : n < limit) :
    Checked limit n span (.value ⟨.quadByte, .unsigned, n⟩, []) := by
  refine ⟨fun _ => rfl, fun hle => ?_⟩
  omega

theorem checked_error (h : limit ≤ n) (hspan : span.overlaps span = true) {m : Message}
    (hm : m.isFailure = true) (hrange : m.range = some span) :
    Checked limit n span (.error, [m]) := by
  refine ⟨fun hlt => ?_, fun _ => ⟨rfl, fun log => log.covers_add hm hrange hspan⟩⟩
  omega

theorem not_checked_raw (h : limit ≤ n) (text : String) : ¬Checked limit n span (.raw text, []) := by
  intro hchecked
  cases (hchecked.error h).1

/-- A word of 32 bits is checked against the room in the instruction. -/
theorem checked_inlined (i : InstructionText) (n : Nat) (hspan : span.overlaps span = true) :
    Checked i.inlineLimit n span
      (inlined .reject ⟨.quadByte, .unsigned, n⟩ i.inlineBytes span) := by
  by_cases hfits : (if i.inlineBytes = 3 then Width.triByte else .quadByte).holds n = true
  · have hvalue : inlined .reject ⟨.quadByte, .unsigned, n⟩ i.inlineBytes span =
        (.value ⟨.quadByte, .unsigned, n⟩, []) := if_pos hfits
    rw [hvalue]
    exact checked_value ((i.holds_inlineBytes n).mp hfits)
  · have herror : ∃ m : Message, m.isFailure = true ∧ m.range = some span ∧
        inlined .reject ⟨.quadByte, .unsigned, n⟩ i.inlineBytes span = (.error, [m]) :=
      ⟨_, rfl, rfl, if_neg hfits⟩
    obtain ⟨m, hm, hrange, herror⟩ := herror
    rw [herror]
    rw [i.holds_inlineBytes, Nat.not_lt] at hfits
    exact checked_error hfits hspan hm hrange

end OperandValue

namespace Site

open OperandValue

variable {i : InstructionText} {operand : OperandText} {n : Nat}

/-- A literal of at most 64 bits is checked. -/
theorem resolveOperand_of_lt (s : Site) (values : NameMap AliasValue) (position : Nat)
    (hspan : operand.span.overlaps operand.span = true) (h : IsLiteral operand.text n)
    (hn : n < Token.numberLimit) :
    Checked i.inlineLimit n operand.span
      (s.resolveOperand .reject values i position operand) := by
  unfold resolveOperand
  simp only [h.parse_of_lt hn]
  cases hword : Word.ofNat .quadByte n with
  | ok w =>
    obtain ⟨-, rfl⟩ := Word.ofNat_eq_ok_iff.mp hword
    exact checked_inlined i n hspan
  | error e =>
    have hle : 0x100000000 ≤ n := by
      by_contra hlt
      have hok := Word.ofNat_eq_ok_iff.mpr ⟨(Nat.not_le.mp hlt : n < Width.quadByte.modulus), rfl⟩
      rw [hword] at hok
      cases hok
    exact checked_error (i.inlineLimit_le.trans hle) hspan rfl rfl

/-- A longer literal is passed on as it is. -/
theorem resolveOperand_of_le (s : Site) (policy : OversizedPolicy) (values : NameMap AliasValue)
    (i : InstructionText) (position : Nat) (h : IsLiteral operand.text n)
    (hn : Token.numberLimit ≤ n) :
    s.resolveOperand policy values i position operand = (.raw (String.ofList operand.text), []) := by
  obtain ⟨failure, hfailure⟩ := h.parse_of_le hn
  obtain ⟨c, cs, htext, hdigit⟩ := h.exists_cons
  unfold resolveOperand
  simp only [hfailure]
  -- a literal starts like no reference
  split
  · next hdollar =>
    obtain ⟨rfl, -⟩ := List.cons.inj (htext.symm.trans hdollar)
    exact absurd hdigit (by decide)
  · next hhash =>
    obtain ⟨rfl, -⟩ := List.cons.inj (htext.symm.trans hhash)
    exact absurd hdigit (by decide)
  · rfl

/-- **Literals are checked up to 64 bits.**  An operand of an instruction that is a literal, in a
pass of any kind that rejects values without room, is checked exactly if its number has at most 64
bits; with more bits it is passed on as it is, without a message. -/
theorem literal_checked_iff (s : Site) (values : NameMap AliasValue) (position : Nat)
    {text : List Char} {l : Line} (hl : l ∈ (Source.parse text).1.lines)
    (hkind : l.kind = .instruction i) (ho : operand ∈ i.operands) (h : IsLiteral operand.text n) :
    (Checked i.inlineLimit n operand.span (s.resolveOperand .reject values i position operand) ↔
        n < 0x10000000000000000) ∧
      (0x10000000000000000 ≤ n → s.resolveOperand .reject values i position operand =
        (.raw (String.ofList operand.text), [])) := by
  have hmarked := (Source.within_of_parse hl).kind
  rw [hkind] at hmarked
  have hspan : operand.span.overlaps operand.span = true :=
    Span.overlaps_self (hmarked operand ho).within.le
  refine ⟨⟨fun hchecked => ?_, s.resolveOperand_of_lt values position hspan h⟩,
    s.resolveOperand_of_le .reject values i position h⟩
  by_contra hlong
  have hle : i.inlineLimit ≤ n := i.inlineLimit_le.trans (by omega)
  rw [s.resolveOperand_of_le .reject values i position h (Nat.not_lt.mp hlong)] at hchecked
  exact not_checked_raw hle _ hchecked

/-- An object of one line in its local pass. -/
def oneLine (text : String) : Site :=
  ⟨.localTo ["Main"] false, "Main", (Source.parse text.toList).1⟩

/-- The operand of `ldc 16777216`: three bytes have no room for the number. -/
def threeByteLimit : OperandText := ⟨"16777216".toList, ⟨4, 12⟩⟩

theorem literal_checked_iff_threeByteLimit :
    (oneLine "ldc 16777216").source.lines =
        [⟨.instruction ⟨"ldc", [threeByteLimit]⟩, ⟨0, 12⟩, 0⟩] ∧
      IsLiteral threeByteLimit.text 16777216 ∧
      ((oneLine "ldc 16777216").resolveOperand .reject .empty ⟨"ldc", [threeByteLimit]⟩ 0
        threeByteLimit).1 = .error ∧
      (Log.empty.addAll ((oneLine "ldc 16777216").resolveOperand .reject .empty
        ⟨"ldc", [threeByteLimit]⟩ 0 threeByteLimit).2).covers ⟨4, 12⟩ = true := by
  have hlines : (oneLine "ldc 16777216").source.lines =
      [⟨.instruction ⟨"ldc", [threeByteLimit]⟩, ⟨0, 12⟩, 0⟩] := by cbv
  have hnumber : numeral 10 threeByteLimit.text = 16777216 := by cbv
  have hliteral : IsLiteral threeByteLimit.text 16777216 :=
    hnumber ▸ .decimal (by decide) (List.all_eq_true.mp (by cbv))
  have hchecked := ((literal_checked_iff (oneLine "ldc 16777216") .empty 0
    (hlines ▸ List.mem_cons_self) rfl List.mem_cons_self hliteral).1.mpr (by decide)).error
    (by decide)
  exact ⟨hlines, hliteral, hchecked.1, hchecked.2 .empty⟩

/-- The operand of `ldc 18446744073709551616`, a number of 65 bits. -/
def longLiteral : OperandText := ⟨"18446744073709551616".toList, ⟨4, 24⟩⟩

/-- A number of 65 bits is passed on without a message. -/
theorem longLiteral_not_checked :
    (oneLine "ldc 18446744073709551616").source.lines =
        [⟨.instruction ⟨"ldc", [longLiteral]⟩, ⟨0, 24⟩, 0⟩] ∧
      IsLiteral longLiteral.text 18446744073709551616 ∧
      (oneLine "ldc 18446744073709551616").resolveOperand .reject .empty ⟨"ldc", [longLiteral]⟩ 0
        longLiteral = (.raw "18446744073709551616", []) ∧
      ¬Checked (InstructionText.inlineLimit ⟨"ldc", [longLiteral]⟩) 18446744073709551616 ⟨4, 24⟩
        ((oneLine "ldc 18446744073709551616").resolveOperand .reject .empty ⟨"ldc", [longLiteral]⟩
          0 longLiteral) := by
  have hnumber : numeral 10 longLiteral.text = 18446744073709551616 := by cbv
  have hliteral : IsLiteral longLiteral.text 18446744073709551616 :=
    hnumber ▸ .decimal (by decide) (List.all_eq_true.mp (by cbv))
  have hraw := resolveOperand_of_le (oneLine "ldc 18446744073709551616") .reject .empty
    ⟨"ldc", [longLiteral]⟩ 0 hliteral (by decide)
  refine ⟨by cbv, hliteral, hraw, ?_⟩
  rw [hraw]
  exact not_checked_raw (by decide) _

end Site

end LinkAsm
