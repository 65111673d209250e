import LinkAsm.Proofs.Program.Stages

/-!
# The last pass of a program

A pass hands the table of each object on to the objects behind it.  The tables that an object sees in
the last pass are therefore those that the objects before it have in the program, and the number of
instructions before it can be counted in the program too.  So the last pass over an object can be
told from the program alone: `Program.lastSite` is the object as that pass sees it.

* `AssembledObject.result_of_runFrom`: what a pass hands on.
* `Program.Linked.result_eq`: the result of an object is that of its last site.
-/

namespace LinkAsm

namespace AssembledObject

/-- An object in a pass sees the tables that the objects before it have after the pass. -/
theorem result_of_runFrom {settings : PassSettings} {count : Nat} {preceding : List SymbolTable}
    {os before after : List AssembledObject} {o : AssembledObject}
    (h : runFrom settings count preceding os = before ++ o :: after) :
    o.result = Site.extract ⟨o.context settings (count + total before)
      (preceding ++ before.map (·.result.symbols)), o.name, o.source⟩ settings.options.oversized := by
  induction os generalizing count preceding before with
  | nil => cases before <;> cases h
  | cons a os ih =>
    rw [runFrom] at h
    cases before with
    | nil =>
      obtain ⟨rfl, -⟩ := List.cons.inj h
      rw [List.map_nil, List.append_nil]
      rfl
    | cons b before =>
      obtain ⟨rfl, hrest⟩ := List.cons.inj h
      have hresult := ih hrest
      rw [total_cons, List.map_cons, List.append_cons, ← Nat.add_assoc]
      exact hresult

end AssembledObject

namespace Program

open AssembledObject

/-- The byte at which an object starts that stands behind others. -/
def startBehind (options : Options) (before : List AssembledObject) : Int :=
  options.baseOffset + (Address.instructionBytes * total before : Nat)

/-- An object behind others as the last pass sees it; `known` are the names of all objects. -/
def lastSite (p : Program) (known : List String) (before : List AssembledObject)
    (o : AssembledObject) : Site :=
  ⟨o.context (p.lastPass known) (total before) (before.map (·.result.symbols)), o.name, o.source⟩

namespace Linked

variable {sources : NameMap (List Char)} {options : Options} {p : Program}
  {settings : PassSettings} {os before after : List AssembledObject} {o : AssembledObject}

theorem options_eq (h : Linked sources options p settings os) : p.options = options := by
  rw [← h.options, h.lastPass]
  rfl

theorem map_name_objects (h : Linked sources options p settings os) :
    p.objects.map (·.name) = p.buildOrder := by
  rw [h.objects, h.buildOrder]
  exact map_name_of_forall₂ (forall₂_runFrom settings 0 [] os)

theorem nodup_names (h : Linked sources options p settings os) :
    (p.objects.map (·.name)).Nodup := by
  rw [h.map_name_objects]
  exact h.complete.nodup_iff.mpr sources.keys_nodup

theorem readFrom_objects (h : Linked sources options p settings os) :
    ∀ o ∈ p.objects, o.ReadFrom sources := by
  rw [h.objects]
  exact readFrom_of_forall₂ (forall₂_runFrom settings 0 [] os) h.readFrom

theorem startBehind_eq (h : Linked sources options p settings os)
    (before : List AssembledObject) :
    startBehind options before =
      (settings.origin.value + Address.instructionBytes * total before : Nat) := by
  rw [startBehind, ← (Address.value_of_ofInt h.origin).1]
  omega

theorem placedFrom (h : Linked sources options p settings os) :
    PlacedFrom settings.origin.value p.objects := by
  rw [h.objects]
  exact h.placed.runFrom settings 0 []

/-- An object behind others is placed at the byte where it starts. -/
theorem placedAt (h : Linked sources options p settings os)
    (hsplit : p.objects = before ++ o :: after) :
    o.PlacedAt (settings.origin.value + Address.instructionBytes * total before) :=
  (hsplit ▸ h.placedFrom).split

/-- **The result of an object is told by the program**: it is that of the pass over the object behind
the tables that the program shows. -/
theorem result_eq (h : Linked sources options p settings os)
    (hsplit : p.objects = before ++ o :: after) :
    o.result = (p.lastSite sources.keys before o).extract options.oversized := by
  have hresult := result_of_runFrom (h.objects.symm.trans hsplit)
  rw [Nat.zero_add, List.nil_append, h.options, h.lastPass] at hresult
  exact hresult

end Linked

end Program

end LinkAsm
