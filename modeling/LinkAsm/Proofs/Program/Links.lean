import Mathlib
import LinkAsm.Proofs.Order.Precedence
import LinkAsm.Proofs.Pass.Imports
import LinkAsm.Proofs.Program.LastPass

/-!
# References between objects

Every import of an object is one of its requirements, so an imported object stands before the one
that imports it.  Its table is among those that the last pass has made already, and of these it is
the only one with the name.  Hence what an object sees of another in the last pass is what the other
exports in the program, and nothing of an earlier pass.

* `Program.Linked.mem_before_of_import`: imported objects come first.
* `Program.Linked.tableOf?_lastSite`: the tables that the last pass finds.
* `Program.imports_linked`: what objects see of each other.
-/

namespace LinkAsm

namespace Program

open AssembledObject

/-- The build order was made from what the objects of the program require. -/
theorem demand_mem_localObjects {sources : NameMap (List Char)} {o : AssembledObject}
    (h : o.ReadFrom sources) (options : Options) :
    o.demand ∈ (localObjects sources options).map AssembledObject.demand := by
  refine List.mem_map.mpr ⟨ofText sources.keys options o.name o.text, ?_, ?_⟩
  · exact List.mem_map.mpr ⟨_, NameMap.find?_eq_some_iff.mp h.text, rfl⟩
  · rw [demand, demand, h.source]
    rfl

namespace Linked

variable {sources : NameMap (List Char)} {options : Options} {p : Program}
  {settings : PassSettings} {os before after : List AssembledObject} {x o : AssembledObject}

theorem name_mem_keys (h : Linked sources options p settings os) (ho : o ∈ p.objects) :
    o.name ∈ sources.keys := by
  refine h.complete.subset ?_
  rw [← h.map_name_objects]
  exact List.mem_map_of_mem ho

theorem eq_of_name_eq (h : Linked sources options p settings os) (hx : x ∈ p.objects)
    (ho : o ∈ p.objects) (hname : x.name = o.name) : x = o :=
  List.inj_on_of_nodup_map h.nodup_names hx ho hname

/-- Imported objects come first. -/
theorem mem_before_of_import (h : Linked sources options p settings os)
    (hsplit : p.objects = before ++ x :: after) {i : Import} (hi : i ∈ x.source.imports)
    (ho : o ∈ p.objects) (hname : o.name = i.object) : o ∈ before := by
  have hx : x ∈ p.objects := by simp [hsplit]
  have hdemands := map_demand_localObjects sources options
  have horder : (build sources options).order =
      before.map (·.name) ++ x.name :: after.map (·.name) := by
    rw [← h.ordered, ← h.map_name_objects, hsplit, List.map_append, List.map_cons]
  have hrequires : BuildOrder.Requires ((localObjects sources options).map AssembledObject.demand)
      x.name o.name :=
    ⟨x.demand, demand_mem_localObjects (h.readFrom_objects x hx) options, rfl, i.requirement,
      List.mem_map_of_mem hi, hname.symm⟩
  rcases BuildOrder.ordered_resolve (hdemands ▸ sources.keys_nodup) options.mockExternals _ _ _
    horder _ hrequires with hmem | ⟨-, hmissing⟩
  · obtain ⟨b, hb, hbname⟩ := List.mem_map.mp hmem
    have hb' : b ∈ p.objects := by simp [hsplit, hb]
    rwa [← h.eq_of_name_eq hb' ho hbname]
  · rw [hdemands] at hmissing
    exact absurd (h.name_mem_keys ho) hmissing

theorem object_symbols (h : Linked sources options p settings os) (ho : o ∈ p.objects) :
    o.result.symbols.object = o.name := by
  obtain ⟨before, after, hsplit⟩ := List.append_of_mem ho
  rw [h.result_eq hsplit, Site.object_symbols_extract]
  rfl

theorem labelsAddressed (h : Linked sources options p settings os) (ho : o ∈ p.objects) :
    o.result.symbols.LabelsAddressed := by
  obtain ⟨before, after, hsplit⟩ := List.append_of_mem ho
  rw [h.result_eq hsplit]
  exact Site.labelsAddressed_extract _ _

/-- The last pass finds the tables that objects have in the program. -/
theorem tableOf?_lastSite (h : Linked sources options p settings os) (known : List String)
    (hsplit : p.objects = before ++ x :: after) (ho : o ∈ before) :
    (p.lastSite known before x).context.tableOf? o.name = some o.result.symbols := by
  have hmem : ∀ b ∈ before, b ∈ p.objects := by
    intro b hb
    simp [hsplit, hb]
  -- no other object before this one has a table of that name
  have hname : ∀ b ∈ before, (b.result.symbols.object == o.name) = true → b = o := by
    intro b hb heq
    rw [beq_iff_eq, h.object_symbols (hmem b hb)] at heq
    exact h.eq_of_name_eq (hmem b hb) (hmem o ho) heq
  have hfind : before.find? (·.result.symbols.object == o.name) = some o := by
    cases hfound : before.find? (·.result.symbols.object == o.name) with
    | none =>
      have hne := List.find?_eq_none.mp hfound o ho
      exact absurd (beq_iff_eq.mpr (h.object_symbols (hmem o ho))) hne
    | some b =>
      have heq := List.find?_some hfound
      rw [hname b (List.mem_of_find?_eq_some hfound) heq]
  have htable : (p.lastSite known before x).context.tableOf? o.name =
      (before.map (·.result.symbols)).find? (·.object == o.name) := rfl
  rw [htable, List.find?_map]
  exact congrArg (Option.map (·.result.symbols)) hfind

end Linked

/-- **Objects see what others export in the program.**  The objects of a program that can be ordered
are in build order, and the result of each is that of a pass behind the tables of those before it.
If a qualifier means an object of the program, that object comes before, and aliases and addresses
behind the qualifier see what its table in the program exports. -/
theorem imports_linked {sources : NameMap (List Char)} {options : Options}
    {before after : List AssembledObject} {x : AssembledObject}
    (hordered : (assemble sources options).unresolved = [])
    (hsplit : (assemble sources options).objects = before ++ x :: after) :
    (assemble sources options).objects.map (·.name) = (assemble sources options).buildOrder ∧
      x.result = ((assemble sources options).lastSite sources.keys before x).extract
        options.oversized ∧
      ∀ qualifier directive, x.source.importFor? qualifier = some directive →
        ∀ o ∈ (assemble sources options).objects, o.name = directive.object →
          o ∈ before ∧
            ((assemble sources options).lastSite sources.keys before x).SeesExports qualifier o.name
              o.result.symbols := by
  have hx : x ∈ (assemble sources options).objects := by simp [hsplit]
  obtain ⟨settings, os, h⟩ := linked_of_unresolved hordered hx
  refine ⟨h.map_name_objects, h.result_eq hsplit, ?_⟩
  intro qualifier directive hfor o ho hname
  have hbefore := h.mem_before_of_import hsplit (List.mem_of_find?_eq_some hfor) ho hname
  have htable := h.tableOf?_lastSite sources.keys hsplit hbefore
  refine ⟨hbefore, ?_⟩
  rw [hname] at htable ⊢
  refine Site.seesExports_of_tableOf? (scope_lastPass _ sources.keys) hfor ?_ htable
    (h.labelsAddressed ho)
  rw [← hname]
  exact h.name_mem_keys ho

/-- The program starts with the second block of a library, which another object refers to. -/
def movedLibrary : NameMap (List Char) :=
  .ofList [("Lib", "a:\n nop\nstart:\n nop\n".toList),
    ("Main", "?import L = Lib\n jmp $L:start\n".toList)]

/-- The options of a program that starts with the block `Lib:start`. -/
def startInLibrary : Options := { baseOffset := 4096, entryPoint := some ⟨"Lib", "start"⟩ }

/-- The jump goes to the address that the block moves to; before that it stands at 4100. -/
theorem imports_linked_movedLibrary :
    (assemble movedLibrary startInLibrary).unresolved = [] ∧
      ∃ lib main, (assemble movedLibrary startInLibrary).objects = [lib, main] ∧
        (main.source.importFor? "L").map (·.object) = some lib.name ∧
        ∀ position span, (((assemble movedLibrary startInLibrary).lastSite movedLibrary.keys [lib]
          main).resolveWide (.imported "L" "start") position span).1 = .resolved ⟨4096⟩ := by
  have hordered : (assemble movedLibrary startInLibrary).unresolved = [] := by cbv
  have hseen : (assemble movedLibrary startInLibrary).objects.map (fun o => (o.name,
      (o.source.importFor? "L").map (·.object),
      (o.result.symbols.findExported? "start").map fun sym => (sym.kind, sym.value))) =
      [("Lib", none, some (.label, .word (Address.toWord ⟨4096⟩))), ("Main", some "Lib", none)] := by
    cbv
  obtain ⟨lib, rest, hobjects, hlib, hrest⟩ := List.map_eq_cons_iff.mp hseen
  obtain ⟨main, after, rfl, hmain, hafter⟩ := List.map_eq_cons_iff.mp hrest
  obtain rfl := List.map_eq_nil_iff.mp hafter
  simp only [Prod.mk.injEq] at hlib hmain
  obtain ⟨directive, hfor, hobject⟩ := Option.map_eq_some_iff.mp hmain.2.1
  obtain ⟨sym, hsym, hlabel⟩ := Option.map_eq_some_iff.mp hlib.2.2
  obtain ⟨hkind, hvalue⟩ := Prod.mk.inj hlabel
  have hsplit : (assemble movedLibrary startInLibrary).objects = [lib] ++ main :: [] := hobjects
  have hmem : lib ∈ (assemble movedLibrary startInLibrary).objects := by simp [hobjects]
  obtain ⟨-, -, hsees⟩ := imports_linked hordered hsplit
  have hview := (hsees "L" directive hfor lib hmem (hlib.1.trans hobject.symm)).2
  refine ⟨hordered, lib, main, hobjects, ?_, ?_⟩
  · rw [hmain.2.1, hlib.1]
  · intro position span
    exact (hview.address "start" position span ⟨4096⟩).mpr ⟨sym, hsym, hkind, hvalue⟩

end Program

end LinkAsm
