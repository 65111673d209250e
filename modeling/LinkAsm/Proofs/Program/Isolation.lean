import Mathlib
import LinkAsm.Proofs.Pass.View
import LinkAsm.Proofs.Program.LastPass

/-!
# Objects do not depend on unrelated ones

All objects of a program go through one placement and one list of tables, yet an object depends on
few others.  Two programs are compared whose objects have the same names, requirements and numbers
of instructions.  `Twin related` relates their objects one by one: all of them agree in what
placement and build order look at, and those whose name is `related` are equal.

If `related` holds of whatever a related object imports, every stage keeps the twins: a related
object looks up tables of related objects only, and these stand at the same places in both programs.

* `AssembledObject.twins_place`, `AssembledObject.twins_runFrom`: what stages keep.
* `Program.twins_assemble`: the objects of the two programs.
* `Program.unrelated_objects_isolated`: an object and all it imports decide what becomes of it.
-/

namespace LinkAsm

/-! ## Looking up by name -/

theorem optionRel_find? {α : Type} {rel : α → α → Prop} {key : α → String}
    (hkey : ∀ a b, rel a b → key b = key a) {xs ys : List α} (h : List.Forall₂ rel xs ys)
    (name : String) :
    Option.Rel rel (xs.find? (key · == name)) (ys.find? (key · == name)) := by
  induction h with
  | nil => exact .none
  | @cons a b _ _ hab _ ih =>
    rw [List.find?_cons, List.find?_cons, hkey a b hab]
    cases key a == name with
    | true => exact .some hab
    | false => exact ih

/-- Two lookups that find related values find the same, if related values under the name are
equal. -/
theorem find?_eq_of_forall₂ {α : Type} {rel : α → α → Prop} {key : α → String}
    (hkey : ∀ a b, rel a b → key b = key a) {xs ys : List α} (h : List.Forall₂ rel xs ys)
    {name : String} (heq : ∀ a b, rel a b → key a = name → b = a) :
    ys.find? (key · == name) = xs.find? (key · == name) := by
  have hrel := optionRel_find? hkey h name
  generalize ys.find? (key · == name) = found at hrel ⊢
  cases hx : xs.find? (key · == name) with
  | none =>
    rw [hx] at hrel
    cases hrel
    rfl
  | some a =>
    have hname : key a = name := beq_iff_eq.mp (List.find?_some (p := (key · == name)) hx)
    rw [hx] at hrel
    cases hrel with
    | some hab => rw [heq a _ hab hname]

namespace AssembledObject

/-! ## Twins -/

/-- Whether two objects agree in what other objects see of them before any pass, and are equal if
they are `related`. -/
structure Twin (related : String → Prop) (o o' : AssembledObject) : Prop where
  demand : o'.demand = o.demand
  count : o'.count = o.count
  same : related o.name → o' = o

/-- The same for tables. -/
structure TwinTable (related : String → Prop) (t t' : SymbolTable) : Prop where
  object : t'.object = t.object
  same : related t.object → t' = t

variable {related : String → Prop} {o o' : AssembledObject}

theorem Twin.name (h : Twin related o o') : o'.name = o.name := congrArg Demand.object h.demand

/-- A later stage of two twins makes twins if it treats related ones alike. -/
theorem Twin.of_continues (h : Twin related o o') {a a' : AssembledObject} (ha : o.Continues a)
    (ha' : o'.Continues a') (hsame : related o.name → a' = a) : Twin related a a' := by
  have hdemand : a'.demand = o'.demand ∧ a.demand = o.demand := by
    simp only [AssembledObject.demand, ha.name, ha.source, ha'.name, ha'.source, and_self]
  have hcount : a'.count = o'.count ∧ a.count = o.count := by
    simp only [AssembledObject.count, ha.source, ha'.source, and_self]
  refine ⟨?_, ?_, ?_⟩
  · rw [hdemand.1, hdemand.2, h.demand]
  · rw [hcount.1, hcount.2, h.count]
  · rw [ha.name]
    exact hsame

theorem twins_place {os os' : List AssembledObject} (h : List.Forall₂ (Twin related) os os')
    (start : Nat) : List.Forall₂ (Twin related) (place start os) (place start os') := by
  induction h generalizing start with
  | nil => exact .nil
  | @cons o o' os os' ho _ ih =>
    rw [place, place, ho.count]
    refine .cons ?_ (ih _)
    refine ho.of_continues (continues_placeAt start o) (continues_placeAt start o') ?_
    intro hrelated
    rw [ho.same hrelated]

/-- Two passes over a related object are the same. -/
theorem extract_twin {settings : PassSettings} {count : Nat}
    {preceding preceding' : List SymbolTable}
    (htables : List.Forall₂ (TwinTable related) preceding preceding')
    (himports : ∀ i ∈ o.source.imports, related i.object) (policy : OversizedPolicy) :
    Site.extract ⟨o.context settings count preceding', o.name, o.source⟩ policy =
      Site.extract ⟨o.context settings count preceding, o.name, o.source⟩ policy := by
  have hview : Site.SameView ⟨o.context settings count preceding, o.name, o.source⟩
      ⟨o.context settings count preceding', o.name, o.source⟩ := by
    refine ⟨rfl, rfl, rfl, fun _ _ => rfl, fun _ _ => rfl, rfl, rfl, rfl, rfl, rfl, rfl, ?_⟩
    intro i hi
    refine find?_eq_of_forall₂ (fun _ _ ht => ht.object) htables ?_
    rintro t t' ht hname
    exact ht.same (hname ▸ himports i hi)
  exact hview.extract_eq policy

theorem twins_runFrom {settings : PassSettings} {os os' : List AssembledObject}
    (h : List.Forall₂ (Twin related) os os')
    (himports : ∀ o ∈ os, related o.name → ∀ i ∈ o.source.imports, related i.object) (count : Nat)
    {preceding preceding' : List SymbolTable}
    (htables : List.Forall₂ (TwinTable related) preceding preceding') :
    List.Forall₂ (Twin related) (runFrom settings count preceding os)
      (runFrom settings count preceding' os') := by
  induction h generalizing count preceding preceding' with
  | nil => exact .nil
  | @cons o o' os os' ho _ ih =>
    have hextract : related o.name →
        Site.extract ⟨o'.context settings count preceding', o'.name, o'.source⟩
            settings.options.oversized =
          Site.extract ⟨o.context settings count preceding, o.name, o.source⟩
            settings.options.oversized := by
      intro hrelated
      rw [ho.same hrelated]
      exact extract_twin htables (himports o List.mem_cons_self hrelated) _
    rw [runFrom, runFrom, ho.count]
    refine .cons ?_ (ih (fun a ha => himports a (List.mem_cons_of_mem _ ha)) _ ?_)
    · refine ho.of_continues (continues_record o _) (continues_record o' _) ?_
      intro hrelated
      rw [hextract hrelated, ho.same hrelated]
    · refine List.rel_append htables (.cons ⟨?_, ?_⟩ .nil)
      · rw [Site.object_symbols_extract, Site.object_symbols_extract, ho.name]
      · rw [Site.object_symbols_extract]
        intro hrelated
        rw [hextract hrelated]

end AssembledObject

namespace Program

open AssembledObject

variable {related : String → Prop}

theorem twins_select {os os' : List AssembledObject} (h : List.Forall₂ (Twin related) os os')
    (names : List String) : List.Forall₂ (Twin related) (select names os) (select names os') := by
  refine List.rel_filterMap (R := (· = ·)) ?_ (List.forall₂_same.mpr fun _ _ => rfl)
  rintro name _ rfl
  exact optionRel_find? (fun _ _ ho => ho.name) h name

theorem twins_reportUnresolved {os os' : List AssembledObject}
    (h : List.Forall₂ (Twin related) os os') (unresolved : List Unresolved) :
    List.Forall₂ (Twin related) (os.map (reportUnresolved unresolved))
      (os'.map (reportUnresolved unresolved)) := by
  refine List.rel_map ?_ h
  intro o o' ho
  refine ⟨ho.demand, ho.count, ?_⟩
  intro hrelated
  rw [ho.same hrelated]

/-! ## Programs of one shape -/

/-- Whether an object of a program imports another. -/
def Imports (sources : NameMap (List Char)) (x y : String) : Prop :=
  ∃ text, sources.find? x = some text ∧ ∃ i ∈ (Source.parse text).1.imports, i.object = y

/-- The name, the requirements and the number of instructions of each object. -/
def shape (sources : NameMap (List Char)) : List (Demand × Nat) :=
  sources.entries.map fun (name, text) =>
    let source := (Source.parse text).1
    (⟨name, source.imports.map Import.requirement⟩, source.instructionCount)

variable {sources sources' : NameMap (List Char)} {options : Options}

theorem keys_eq_of_shape (hshape : shape sources' = shape sources) :
    sources'.keys = sources.keys := by
  have hkeys : ∀ m, (shape m).map (·.1.object) = m.keys := by
    intro m
    rw [shape, List.map_map, NameMap.keys]
    rfl
  rw [← hkeys, ← hkeys, hshape]

theorem twins_localObjects (hshape : shape sources' = shape sources)
    (hsame : ∀ name, related name → sources'.find? name = sources.find? name) (options : Options) :
    List.Forall₂ (Twin related) (localObjects sources options) (localObjects sources' options) := by
  rw [localObjects, localObjects, keys_eq_of_shape hshape, List.forall₂_map_left_iff,
    List.forall₂_map_right_iff]
  rw [shape, shape, ← congrFun₂ List.forall₂_eq_eq_eq, List.forall₂_map_left_iff,
    List.forall₂_map_right_iff] at hshape
  refine List.forall₂_iff_zip.mpr ⟨hshape.length_eq.symm, ?_⟩
  rintro ⟨name, text⟩ ⟨name', text'⟩ hmem
  obtain ⟨hentry, hentry'⟩ := List.of_mem_zip hmem
  obtain ⟨hdemand, hcount⟩ := Prod.mk.inj ((List.forall₂_iff_zip.mp hshape.flip).2 hmem)
  obtain rfl : name' = name := congrArg Demand.object hdemand
  refine ⟨hdemand, hcount, ?_⟩
  intro hrelated
  have heq : sources'.find? name' = sources.find? name' := hsame name' hrelated
  rw [NameMap.find?_eq_some_iff.mpr hentry, NameMap.find?_eq_some_iff.mpr hentry'] at heq
  rw [Option.some.inj heq]

theorem build_eq_of_twins (h : List.Forall₂ (Twin related) (localObjects sources options)
      (localObjects sources' options)) : build sources' options = build sources options := by
  have hdemands : (localObjects sources' options).map demand =
      (localObjects sources options).map demand := by
    refine (congrFun₂ List.forall₂_eq_eq_eq _ _).mp ?_
    rw [List.forall₂_map_left_iff, List.forall₂_map_right_iff]
    exact h.flip.imp fun _ _ ho => ho.demand
  rw [build, build, hdemands]

/-- The objects of two programs of one shape are twins, if the texts of related objects are the same
and related objects import related ones. -/
theorem twins_assemble (hentry : options.entryPoint = none)
    (hshape : shape sources' = shape sources)
    (hsame : ∀ name, related name → sources'.find? name = sources.find? name)
    (himports : ∀ x y, related x → Imports sources x y → related y) :
    List.Forall₂ (Twin related) (assemble sources options).objects
      (assemble sources' options).objects := by
  have hlocal := twins_localObjects hshape hsame options
  have hbuild := build_eq_of_twins hlocal
  have hordered : List.Forall₂ (Twin related) (orderedObjects sources options)
      (orderedObjects sources' options) := by
    rw [orderedObjects, orderedObjects, hbuild]
    exact twins_select hlocal _
  rw [assemble_eq, assemble_eq, keys_eq_of_shape hshape, hbuild]
  cases options.validate sources.keys with
  | error message => exact .nil
  | ok origin =>
    cases (build sources options).isComplete with
    | true =>
      simp only [if_true, link, hentry]
      have hplaced := twins_place hordered origin.value
      refine twins_runFrom hplaced ?_ 0 .nil
      intro o ho hrelated i hi
      have hread := readFrom_of_forall₂ (forall₂_place origin.value _) readFrom_orderedObjects o ho
      exact himports o.name _ hrelated ⟨o.text, hread.text, i, hread.source ▸ hi, rfl⟩
    | false =>
      have hreported := twins_reportUnresolved hlocal (build sources options).unresolved
      refine List.rel_append (twins_select hreported _) (List.rel_filter ?_ hreported)
      intro o o' ho
      simp only [ho.name]

/-- **An object depends on what it imports alone.**  Take two programs without an entry point whose
objects have the same names, requirements and numbers of instructions.  If an object and all that it
leads to through imports have the same texts in both, the object is the same in both: its places,
its symbols and blocks, its instructions and its messages. -/
theorem unrelated_objects_isolated {sources sources' : NameMap (List Char)} {options : Options}
    {x : String} (hentry : options.entryPoint = none) (hshape : shape sources' = shape sources)
    (hsame : ∀ y, Relation.ReflTransGen (Imports sources) x y →
      sources'.find? y = sources.find? y) :
    (assemble sources' options).objects.find? (·.name == x) =
      (assemble sources options).objects.find? (·.name == x) := by
  have htwins : List.Forall₂ (Twin (Relation.ReflTransGen (Imports sources) x))
      (assemble sources options).objects (assemble sources' options).objects :=
    twins_assemble hentry hshape hsame fun _ _ hreach himport => hreach.tail himport
  refine find?_eq_of_forall₂ (fun _ _ ho => ho.name) htwins ?_
  rintro o o' ho rfl
  exact ho.same .refl

/-- An object that jumps into a library, and one with the given text beside them. -/
def besideLibrary (text : String) : NameMap (List Char) :=
  .ofList [("Beside", text.toList), ("Lib", "x:\n nop\n".toList),
    ("Main", "?import L = Lib\n jmp $L:x\n".toList)]

theorem reachable_besideLibrary {y : String}
    (h : Relation.ReflTransGen (Imports (besideLibrary "?alias K = 1\n load #K\n")) "Main" y) :
    y = "Main" ∨ y = "Lib" := by
  have hmain : ((besideLibrary "?alias K = 1\n load #K\n").find? "Main").map
      (fun text => (Source.parse text).1.imports.map (·.object)) = some ["Lib"] := by cbv
  have hlib : ((besideLibrary "?alias K = 1\n load #K\n").find? "Lib").map
      (fun text => (Source.parse text).1.imports.map (·.object)) = some [] := by cbv
  induction h with
  | refl => exact Or.inl rfl
  | tail _ himport ih =>
    obtain ⟨text, htext, i, hi, rfl⟩ := himport
    have hobject : i.object ∈ (Source.parse text).1.imports.map (·.object) :=
      List.mem_map_of_mem hi
    rcases ih with rfl | rfl
    · rw [htext, Option.map_some, Option.some.injEq] at hmain
      rw [hmain] at hobject
      exact Or.inr (List.mem_singleton.mp hobject)
    · rw [htext, Option.map_some, Option.some.injEq] at hlib
      rw [hlib] at hobject
      cases hobject

/-- The object in front has other symbols and operands, among them a label that the library has
too. -/
theorem unrelated_objects_isolated_besideLibrary :
    shape (besideLibrary "x:\n jmp $x\n") = shape (besideLibrary "?alias K = 1\n load #K\n") ∧
      ∃ main,
        (assemble (besideLibrary "?alias K = 1\n load #K\n") {}).objects.find?
          (·.name == "Main") = some main ∧
        (assemble (besideLibrary "x:\n jmp $x\n") {}).objects.find? (·.name == "Main") =
          some main := by
  have hshape : shape (besideLibrary "x:\n jmp $x\n") =
      shape (besideLibrary "?alias K = 1\n load #K\n") := by cbv
  have hsame : ∀ y, Relation.ReflTransGen (Imports (besideLibrary "?alias K = 1\n load #K\n")) "Main"
      y → (besideLibrary "x:\n jmp $x\n").find? y =
        (besideLibrary "?alias K = 1\n load #K\n").find? y := by
    intro y hy
    rcases reachable_besideLibrary hy with rfl | rfl <;> cbv
  have hmain : ((assemble (besideLibrary "?alias K = 1\n load #K\n") {}).objects.find?
      (·.name == "Main")).isSome = true := by cbv
  obtain ⟨main, hfound⟩ := Option.isSome_iff_exists.mp hmain
  exact ⟨hshape, main, hfound, (unrelated_objects_isolated rfl hshape hsame).trans hfound⟩

end Program

end LinkAsm
