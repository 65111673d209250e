import Mathlib
import LinkAsm.Proofs.Pass.Failures
import LinkAsm.Proofs.Program.Stages
import LinkAsm.Proofs.Source.Reading

/-!
# What success means

A program succeeds if no message anywhere is a failure.  Logs drop messages that repeat others or
stand at the place of a failure, and an object keeps one log over all its stages; still no failure
is lost, because a log that was given one has failed.  So success says something of all that went
into the program: every object has its place, every line was read, every definition counts, and no
value is an error.

* `AssembledObject.faultless_of_log`: an object whose log has no failure.
* `Program.no_silent_error`: a program that succeeds.
-/

namespace LinkAsm

namespace AssembledObject

/-- An object in which nothing went wrong. -/
structure Faultless (policy : OversizedPolicy) (o : AssembledObject) : Prop where
  /-- Each line that holds more than blanks and a comment is in the source, at its place. -/
  classified : ∀ before line after, Text.lines o.text = before ++ line :: after →
    Text.trim (stripComment line) ≠ [] →
      ∃ l ∈ o.source.lines,
        Entry.read? (Text.byteLength before.flatten) line = some ⟨l.span, .ok l.kind⟩
  /-- No two lines define the same symbol. -/
  symbols_nodup : (o.source.lines.filterMap Line.symbolName?).Nodup
  /-- No two lines define the same embedded block. -/
  blocks_nodup : (o.source.lines.filterMap Line.blockName?).Nodup
  /-- Each line that defines a symbol has it in the table. -/
  symbol : ∀ l ∈ o.source.lines, ∀ name, l.symbolName? = some name →
    ∃ sym, o.result.symbols.find? name = some sym ∧ sym.span = l.span
  /-- Each line that defines an embedded block has it in the result. -/
  block : ∀ l ∈ o.source.lines, ∀ name, l.blockName? = some name →
    o.result.blocks.contains name = true
  value : ∀ name sym, o.result.symbols.find? name = some sym → sym.value ≠ .error
  operand : ∀ ins ∈ o.result.instructions, .error ∉ ins.operands
  /-- Under the strict policy, operands have three bytes except those of data. -/
  narrow : policy = .reject → ∀ ins ∈ o.result.instructions,
    ins.mnemonic.toList.map Char.toLower ≠ wordMnemonic.toList → ∀ v ∈ ins.operands, v.Narrow

/-- An object whose log has no failure. -/
theorem faultless_of_log {sources : NameMap (List Char)} {policy : OversizedPolicy}
    {o : AssembledObject} (hr : o.ReadFrom sources) (he : o.Extracted policy)
    (h : o.log.failed = false) : o.Faultless policy := by
  have hparse : (Source.parse o.text).2.failed = false :=
    Log.not_failed_of_imp hr.failed h
  have hresult : o.result.log.failed = false :=
    Log.not_failed_of_imp he.failed h
  obtain ⟨s, hsource, -, hextract⟩ := he.site
  rw [hextract] at hresult
  have hclean := Definitions.clean_ofLines s (s.ofLines_of_extract hresult)
  refine ⟨?_, ?_, ?_, ?_, ?_, ?_, ?_, ?_⟩
  · intro before line after hlines hline
    rw [hr.source]
    exact Source.exists_line_of_parse hparse hlines hline
  · rw [← hsource]
    exact hclean.symbols_nodup
  · rw [← hsource]
    exact hclean.blocks_nodup
  · rw [← hsource, hextract]
    intro l hl name hname
    exact s.symbol_of_extract hresult hl hname
  · rw [← hsource, hextract]
    intro l hl name hname
    exact Option.isSome_iff_exists.mpr ⟨_, (hclean.block l hl name hname).1⟩
  · rw [hextract]
    intro name sym hsym
    exact s.value_ne_error_of_extract hresult hsym
  · rw [hextract]
    intro ins hins
    exact s.error_notMem_operands hresult hins
  · rw [hextract]
    rintro rfl ins hins hword v hv
    exact s.narrow_of_extract hins hword hv

end AssembledObject

namespace Program

/-- **No error is silent.**  If a program succeeds, its build order has all objects, each once, and
no requirement is left.  Each object is read from its text and nothing went wrong in it: every line
is something, no definition was rejected, no symbol and no operand is an error, and operands fit
their instructions. -/
theorem no_silent_error {sources : NameMap (List Char)} {options : Options}
    (h : (assemble sources options).succeeded = true) :
    (assemble sources options).buildOrder.Perm sources.keys ∧
      (assemble sources options).unresolved = [] ∧
      (assemble sources options).objects.map (·.name) = (assemble sources options).buildOrder ∧
      ∀ o ∈ (assemble sources options).objects,
        sources.find? o.name = some o.text ∧ o.source = (Source.parse o.text).1 ∧
          o.Faultless options.oversized := by
  obtain ⟨settings, os, hlinked⟩ := linked_of_succeeded h
  have hpass := AssembledObject.forall₂_runFrom settings 0 [] os
  refine ⟨hlinked.complete, hlinked.unresolved, ?_, ?_⟩
  · rw [hlinked.buildOrder, hlinked.objects]
    exact AssembledObject.map_name_of_forall₂ hpass
  · intro o ho
    have hlog := log_of_succeeded h ho
    rw [hlinked.objects] at ho
    have hread := AssembledObject.readFrom_of_forall₂ hpass hlinked.readFrom o ho
    have hextracted := AssembledObject.extracted_of_mem_runFrom ho
    rw [hlinked.options] at hextracted
    exact ⟨hread.text, hread.source, AssembledObject.faultless_of_log hread hextracted hlog⟩

/-- Two objects: one takes a value from an alias and jumps into the other. -/
def jumpSources : NameMap (List Char) :=
  .ofList [
    ("A", "?import B\n?alias K = 2\n  load #K ; two\n  jump $B:x\n".toList),
    ("B", "x:\n.tail:\n  nop".toList)]

theorem no_silent_error_jumpSources :
    (assemble jumpSources {}).succeeded = true ∧
      (assemble jumpSources {}).buildOrder.Perm ["A", "B"] ∧
      ∀ o ∈ (assemble jumpSources {}).objects, o.Faultless .reject := by
  have h : (assemble jumpSources {}).succeeded = true := by cbv
  have hkeys : jumpSources.keys = ["A", "B"] := by cbv
  obtain ⟨hperm, -, -, hobjects⟩ := no_silent_error h
  exact ⟨h, hkeys ▸ hperm, fun o ho => (hobjects o ho).2.2⟩

end Program

end LinkAsm
