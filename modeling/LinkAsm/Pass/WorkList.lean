import LinkAsm.Diagnostic.Log
import LinkAsm.Pass.Evaluate

/-!
# Aliases that wait for each other

Aliases are evaluated in the order of a queue.  One that needs the value of another is parked until
the other has it, and goes to the end of the queue then.  Whatever is parked when the queue is empty
waits for an alias on a cycle, or for one that leads to a cycle, and gets an error.

Each step either finishes an alias or parks one, so the aliases that are left, and of these the
queued ones, become fewer: `WorkList.run` ends.
-/

namespace LinkAsm

/-- An alias to be evaluated. -/
structure PendingAlias where
  name : String
  expr : Expr
  /-- Where the text of the expression starts in the object's text. -/
  origin : Nat
  /-- The number of instructions of the object before the alias. -/
  position : Nat

/-- An alias that waits for another. -/
structure Parked where
  dependency : String
  waiting : PendingAlias

/-- The state of evaluation. -/
structure WorkList where
  queue : List PendingAlias
  /-- The aliases that wait, in the order in which they were parked. -/
  parked : List Parked
  values : NameMap AliasValue
  log : Log

namespace WorkList

/-- The messages that an outcome leaves: its notes, and its error. -/
def messages (pending : PendingAlias) (value : AliasValue) (notes : List Message) : List Message :=
  notes.map (·.shift pending.origin) ++
    match value.shift pending.origin with
    | .error e => [e.report]
    | _ => []

/-- The state after an alias has got its value: the aliases that waited for it are queued. -/
def finish (w : WorkList) (rest : List PendingAlias) (pending : PendingAlias) (value : AliasValue)
    (notes : List Message) : WorkList where
  queue := rest ++ (w.parked.filter (·.dependency == pending.name)).map (·.waiting)
  parked := w.parked.filter fun p => !(p.dependency == pending.name)
  values := w.values.insert pending.name (value.shift pending.origin)
  log := w.log.addAll (messages pending value notes)

/-- The state after an alias has been parked. -/
def park (w : WorkList) (rest : List PendingAlias) (pending : PendingAlias) (dependency : String) :
    WorkList :=
  { w with queue := rest, parked := w.parked ++ [⟨dependency, pending⟩] }

/-- The number of aliases that are left. -/
def left (w : WorkList) : Nat := w.queue.length + w.parked.length

theorem left_finish_lt (w : WorkList) {rest : List PendingAlias} {pending : PendingAlias}
    (h : w.queue = pending :: rest) (value : AliasValue) (notes : List Message) :
    (w.finish rest pending value notes).left < w.left := by
  have hsplit := w.parked.length_eq_countP_add_countP (·.dependency == pending.name)
  simp only [List.countP_eq_length_filter, Bool.not_eq_true, Bool.decide_eq_false] at hsplit
  simp only [left, finish, List.length_append, List.length_map, h, List.length_cons]
  omega

theorem left_park_eq (w : WorkList) {rest : List PendingAlias} {pending : PendingAlias}
    (h : w.queue = pending :: rest) (dependency : String) :
    (w.park rest pending dependency).left = w.left := by
  simp only [left, park, List.length_append, h, List.length_cons, List.length_nil]
  omega

/-- The state when the queue is empty; `evaluate` gives the outcome of an alias under the values
that there are. -/
def run (evaluate : NameMap AliasValue → PendingAlias → AliasValue × List Message) (w : WorkList) :
    WorkList :=
  match _hq : w.queue with
  | [] => w
  | pending :: rest =>
    match evaluate w.values pending with
    | (.dependsOn dependency, _) => run evaluate (w.park rest pending dependency)
    | (value, notes) => run evaluate (w.finish rest pending value notes)
termination_by (w.left, w.queue.length)
decreasing_by
  · rw [left_park_eq w _hq]
    exact Prod.Lex.right _ (by simp [park, _hq])
  · exact Prod.Lex.left _ _ (left_finish_lt w _hq value notes)

/-- The error of an alias that still waits. -/
def stuckError (p : Parked) : AliasError :=
  ⟨p.waiting.expr.tree.span.shift p.waiting.origin, .dependencyCycle p.dependency⟩

/-- The state after every alias that still waits has got its error, in the order of what they wait
for. -/
def giveUp (w : WorkList) : WorkList :=
  let stuck := w.parked.mergeSort fun p q => p.dependency ≤ q.dependency
  { queue := []
    parked := []
    values := stuck.foldl (fun values p => values.insert p.waiting.name (.error (stuckError p)))
      w.values
    log := w.log.addAll (stuck.map fun p => (stuckError p).report) }

end WorkList

/-- The values of all aliases of an object and the log about them.  `known` holds the aliases that
have a value from the start. -/
def Site.evaluateAliases (s : Site) (pending : List PendingAlias) (known : NameMap AliasValue)
    (log : Log) : NameMap AliasValue × Log :=
  let declared := pending.map (·.name) ++ known.keys
  let evaluate (values : NameMap AliasValue) (p : PendingAlias) :=
    s.evaluate ⟨values, declared⟩ p.position p.expr
  let done := (WorkList.run evaluate ⟨pending, [], known, log⟩).giveUp
  (done.values, done.log)

end LinkAsm
