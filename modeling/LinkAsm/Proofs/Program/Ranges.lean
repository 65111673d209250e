import Mathlib
import LinkAsm.Proofs.Pass.Ranges
import LinkAsm.Proofs.Program.Stages

/-!
# Every message can be shown in its text

All that is reported of an object is reported by reading its text, by a pass over the lines that were
read, by placing it, or by ordering it among the others.  Messages of the first two stand in the
text; an object without a place is reported without one; an import that cannot be ordered is one of
the lines.  So the place of a message is a range of whole characters of the object's text.

* `AssembledObject.Sited`: what every stage keeps.
* `Program.ranges_valid`: the text at the place of a message.
-/

namespace LinkAsm

namespace AssembledObject

/-- Whether an object has the text that was given for it, with its lines and messages in it. -/
structure Sited (sources : NameMap (List Char)) (o : AssembledObject) : Prop where
  text : sources.find? o.name = some o.text
  lines : ∀ l ∈ o.source.lines, l.Within o.text
  log : o.log.Within o.text

variable {sources : NameMap (List Char)} {o : AssembledObject}

/-! ## Stages -/

theorem sited_ofText {name : String} {text : List Char} (h : (name, text) ∈ sources.entries)
    (known : List String) (options : Options) : (ofText known options name text).Sited sources := by
  have hlines : ∀ l ∈ (Source.parse text).1.lines, l.Within text :=
    fun l hl => Source.within_of_parse hl
  have hparse : (Source.parse text).2.Within text :=
    (Log.Within.empty text).addAll fun m hm => Source.errors_within hm
  refine ⟨NameMap.find?_eq_some_iff.mpr h, hlines, ?_⟩
  exact hparse.merge (Site.log_within_extract hlines options.oversized)

theorem Sited.placeAt (h : o.Sited sources) (start : Nat) : (o.placeAt start).Sited sources := by
  unfold AssembledObject.placeAt
  dsimp only
  split
  · exact ⟨h.text, h.lines, h.log⟩
  · split
    · exact ⟨h.text, h.lines, h.log⟩
    · refine ⟨h.text, h.lines, h.log.add ?_⟩
      -- memory has no room for the object as a whole
      intro r hr
      cases hr

theorem Sited.record (h : o.Sited sources) {result : PassResult}
    (hresult : result.log.Within o.text) : (o.record result).Sited sources :=
  ⟨h.text, h.lines, h.log.merge hresult⟩

theorem Sited.reportUnresolved (h : o.Sited sources) (unresolved : List Unresolved) :
    (o.reportUnresolved unresolved).Sited sources := by
  refine ⟨h.text, h.lines, h.log.addAll ?_⟩
  intro m hm
  obtain ⟨u, -, rfl⟩ := List.mem_map.mp hm
  intro r hr
  obtain ⟨directive, hdirective, rfl⟩ := Option.map_eq_some_iff.mp hr
  obtain ⟨l, hl, hkind⟩ := List.mem_filterMap.mp (List.mem_of_find?_eq_some hdirective)
  have hwithin := (h.lines l hl).kind
  split at hkind
  · next i hi =>
    obtain rfl := Option.some.inj hkind
    rw [hi] at hwithin
    exact hwithin
  · cases hkind

theorem sited_place {os : List AssembledObject} (h : ∀ o ∈ os, o.Sited sources) (start : Nat) :
    ∀ o ∈ place start os, o.Sited sources := by
  induction os generalizing start with
  | nil =>
    intro o ho
    cases ho
  | cons first os ih =>
    intro o ho
    rcases List.mem_cons.mp ho with rfl | hrest
    · exact (h first List.mem_cons_self).placeAt start
    · exact ih (fun o ho => h o (List.mem_cons_of_mem _ ho)) _ o hrest

theorem sited_runFrom {os : List AssembledObject} (h : ∀ o ∈ os, o.Sited sources)
    (settings : PassSettings) (count : Nat) (preceding : List SymbolTable) :
    ∀ o ∈ runFrom settings count preceding os, o.Sited sources := by
  induction os generalizing count preceding with
  | nil =>
    intro o ho
    cases ho
  | cons first os ih =>
    have hfirst := h first List.mem_cons_self
    intro o ho
    rcases List.mem_cons.mp ho with rfl | hrest
    · exact hfirst.record (Site.log_within_extract hfirst.lines _)
    · exact ih (fun o ho => h o (List.mem_cons_of_mem _ ho)) _ _ o hrest

end AssembledObject

namespace Program

open AssembledObject

variable {sources : NameMap (List Char)} {options : Options} {o : AssembledObject}

theorem sited_localObjects (h : o ∈ localObjects sources options) : o.Sited sources := by
  obtain ⟨⟨name, text⟩, hentry, rfl⟩ := List.mem_map.mp h
  exact sited_ofText hentry _ _

theorem sited_stopped {build : BuildOrder} {objects : List AssembledObject}
    (h : ∀ o ∈ objects, o.Sited sources) (ho : o ∈ (stopped options build objects).objects) :
    o.Sited sources := by
  have hreported : o ∈ objects.map (AssembledObject.reportUnresolved build.unresolved) := by
    rcases List.mem_append.mp ho with hselected | hleft
    · exact mem_of_mem_select hselected
    · exact (List.mem_filter.mp hleft).1
  obtain ⟨a, ha, rfl⟩ := List.mem_map.mp hreported
  exact (h a ha).reportUnresolved _

theorem sited_link {origin : Address} {known : List String} {objects : List AssembledObject}
    (h : ∀ o ∈ objects, o.Sited sources) (ho : o ∈ (link options origin known objects).objects) :
    o.Sited sources := by
  have hpass : ∀ settings : PassSettings,
      ∀ o ∈ runPass settings (place origin.value objects), o.Sited sources :=
    fun settings => sited_runFrom (sited_place h origin.value) settings 0 []
  unfold link at ho
  dsimp only at ho
  split at ho
  · exact hpass _ o ho
  · split at ho
    · exact hpass _ o ho
    · exact sited_runFrom (hpass _) _ 0 [] o ho

theorem sited_of_mem (h : o ∈ (assemble sources options).objects) : o.Sited sources := by
  rw [assemble_eq] at h
  split at h
  · cases h
  · split at h
    · exact sited_link (fun o ho => sited_localObjects (mem_of_mem_select ho)) h
    · exact sited_stopped (fun o ho => sited_localObjects ho) h

/-- **Every place of a message is a range of its object's text**: for all texts and options, the
range of a message of an object starts and ends between characters of the text that was given for
the object, and the text at the range can be shown. -/
theorem ranges_valid (ho : o ∈ (assemble sources options).objects) {m : Message}
    (hm : m ∈ o.log.messages) {r : Span} (hr : m.range = some r) :
    sources.find? o.name = some o.text ∧ r.start ≤ r.stop ∧ r.stop ≤ Text.byteLength o.text ∧
      Text.IsBoundary o.text r.start ∧ Text.IsBoundary o.text r.stop ∧
      ∃ cs, r.extract? o.text = some cs ∧ Text.At o.text r.start cs ∧
        r.start + Text.byteLength cs = r.stop := by
  have hsited := sited_of_mem ho
  have hwithin := hsited.log m hm r hr
  exact ⟨hsited.text, hwithin.le, hwithin.stop.le, hwithin.start, hwithin.stop, hwithin.extract?⟩

/-- An object that jumps to another which is not there, behind a comment that is not ASCII. -/
def beyondComment : NameMap (List Char) :=
  .ofList [("A", "; é\n?import X\n jmp $X:y\n".toList)]

theorem ranges_valid_beyondComment :
    ∃ o ∈ (assemble beyondComment { mockExternals := true }).objects, ∃ m ∈ o.log.messages,
      m.range = some ⟨20, 24⟩ ∧ Text.IsBoundary o.text 20 ∧ Text.IsBoundary o.text 24 ∧
        Span.extract? ⟨20, 24⟩ o.text = some "$X:y".toList := by
  have hobjects : (assemble beyondComment { mockExternals := true }).objects.map
      (fun o => (o.text, o.log.messages.map (·.range))) =
        [("; é\n?import X\n jmp $X:y\n".toList, [some ⟨20, 24⟩])] := by cbv
  obtain ⟨o, rest, hsplit, ho, -⟩ := List.map_eq_cons_iff.mp hobjects
  obtain ⟨htext, hranges⟩ := Prod.mk.inj ho
  obtain ⟨m, messages, hmessages, hm, -⟩ := List.map_eq_cons_iff.mp hranges
  have hmem : o ∈ (assemble beyondComment { mockExternals := true }).objects := by
    rw [hsplit]
    exact List.mem_cons_self
  have hmessage : m ∈ o.log.messages := by
    rw [hmessages]
    exact List.mem_cons_self
  obtain ⟨-, -, -, hstart, hstop, -⟩ := ranges_valid hmem hmessage hm
  refine ⟨o, hmem, m, hmessage, hm, hstart, hstop, ?_⟩
  rw [htext]
  cbv

end Program

end LinkAsm
