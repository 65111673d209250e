import LinkAsm.NameMap
import LinkAsm.Source.Line

/-!
# Build order

Every object is processed after the objects that it requires.  Objects without requirements come
first; then, round by round, those whose requirements are all placed, each round in the order of
names.  When a round places nothing, what is left requires an object that is not there or lies on,
or leads to, a cycle.

* `BuildOrder.resolve`: the order, and the requirements that kept objects out of it.
-/

namespace LinkAsm

/-- An object and what it requires. -/
structure Demand where
  object : String
  requirements : List Requirement
deriving DecidableEq, Repr

/-- A requirement that keeps an object out of the build order. -/
structure Unresolved where
  object : String
  requirement : Requirement
deriving DecidableEq, Repr

namespace Unresolved

/-- The text of an unresolved requirement. -/
def text (u : Unresolved) : String :=
  u.object ++ " requires " ++ u.requirement.text ++ ", which cannot be placed before it"

/-- Requirements of whole objects come before those of a symbol, and symbols are in order. -/
def symbolLe : Option String → Option String → Bool
  | none, _ => true
  | some _, none => false
  | some a, some b => a ≤ b

/-- The order of the report: by object, then by the object required, then by its symbol. -/
def le (u v : Unresolved) : Bool :=
  u.object < v.object ||
    (u.object == v.object &&
      (u.requirement.object < v.requirement.object ||
        (u.requirement.object == v.requirement.object &&
          symbolLe u.requirement.symbol v.requirement.symbol)))

end Unresolved

/-- The order of objects, and what kept others out of it. -/
structure BuildOrder where
  order : List String
  unresolved : List Unresolved
deriving DecidableEq, Repr

namespace BuildOrder

/-- Whether every object has its place. -/
def isComplete (b : BuildOrder) : Bool := b.unresolved.isEmpty

/-- Whether a requirement is met once `placed` are placed.  With `mock`, so is every requirement of
an object that is not among the `known`. -/
def satisfied (mock : Bool) (known placed : List String) (r : Requirement) : Bool :=
  r.object ∈ placed || (mock && r.object ∉ known)

/-- Whether all requirements of an object are met. -/
def ready (mock : Bool) (known placed : List String) (d : Demand) : Bool :=
  d.requirements.all (satisfied mock known placed)

/-- What a test leaves out is less than all, if the test takes something. -/
theorem length_left_lt {α : Type} (p : α → Bool) {xs : List α} (h : ¬(xs.filter p).isEmpty) :
    (xs.filter fun x => !p x).length < xs.length := by
  have hne : xs.filter p ≠ [] := by simpa using h
  obtain ⟨x, hx⟩ := List.exists_mem_of_ne_nil _ hne
  obtain ⟨hmem, hp⟩ := List.mem_filter.mp hx
  exact List.length_filter_lt_length_iff_exists.mpr ⟨x, hmem, by simp [hp]⟩

/-- The objects placed after all rounds, and the demands that are left. -/
def rounds (mock : Bool) (known placed : List String) (pending : List Demand) :
    List String × List Demand :=
  let parts := pending.partition (ready mock known placed)
  if _h : parts.1.isEmpty then (placed, pending)
  else rounds mock known (placed ++ parts.1.map (·.object)) parts.2
termination_by pending.length
decreasing_by
  simp only [parts, List.partition_eq_filter_filter] at *
  exact length_left_lt _ (by assumption)

/-- A round places the demands that are ready and leaves the others. -/
theorem rounds_eq (mock : Bool) (known placed : List String) (pending : List Demand) :
    rounds mock known placed pending =
      if (pending.filter (ready mock known placed)).isEmpty then (placed, pending)
      else rounds mock known (placed ++ (pending.filter (ready mock known placed)).map (·.object))
        (pending.filter fun d => !ready mock known placed d) := by
  rw [rounds]
  simp [List.partition_eq_filter_filter, Function.comp_def]

/-- The order of objects; of two demands of one object the first counts. -/
def resolve (demands : List Demand) (mock : Bool) : BuildOrder :=
  let demands : List Demand :=
    (NameMap.ofList (demands.map fun d => (d.object, d))).values
  let known := demands.map (·.object)
  let first := (demands.filter (·.requirements.isEmpty)).map (·.object)
  let (order, left) := rounds mock known first (demands.filter fun d => !d.requirements.isEmpty)
  let unresolved := left.flatMap fun d =>
    (d.requirements.filter fun r => !satisfied mock known order r).map (⟨d.object, ·⟩)
  ⟨order, unresolved.eraseDups.mergeSort Unresolved.le⟩

end BuildOrder

end LinkAsm
