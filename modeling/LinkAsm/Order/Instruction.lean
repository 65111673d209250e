import LinkAsm.NameMap
import LinkAsm.Options

/-!
# Instruction order

The instructions of all objects, in build order, are numbered from zero.  A program that starts with
another block than its first has that block moved to the front; the block that was first follows,
and then all other instructions in their old order.  A block reaches from its label to the next
label at a later position, or to the end of its object.

The order is found by a walk over all numbers.  It starts with the block of the entry point, splices
the first block in as soon as it comes past its end, and takes every number that it has not taken
yet.  Behind the two blocks the instructions of an object are then brought together.

* `InstructionOrder.natural`: every instruction stays.
* `InstructionOrder.rearranged`: the walk.
* `InstructionOrder.startingAt`: the order for an entry point.
-/

namespace LinkAsm

/-- The instructions and block labels of one object. -/
structure Layout where
  object : String
  count : Nat
  labels : NameMap Nat
deriving Repr

/-- Where an instruction stood and where it stands. -/
structure Placement where
  /-- Its number before reordering. -/
  natural : Nat
  /-- Its number after reordering. -/
  reordered : Nat
  object : String
  /-- Its position in its object. -/
  line : Nat
deriving DecidableEq, Repr

/-- An entry point that the program does not have. -/
inductive EntryError where
  | unknownObject (object : String)
  | unknownLabel (object label : String)
deriving DecidableEq, Repr

/-- The text of an entry error. -/
def EntryError.message : EntryError → String
  | .unknownObject object => "entry point object " ++ object ++ " is not part of the program"
  | .unknownLabel object label => "object " ++ object ++ " has no block label " ++ label

namespace Layout

/-- The number of instructions of a program. -/
def total (layout : List Layout) : Nat := layout.foldr (fun l n => l.count + n) 0

/-- The object and position of each instruction of a program, in build order. -/
def slots (layout : List Layout) : List (String × Nat) :=
  layout.flatMap fun o => (List.range o.count).map (o.object, ·)

/-- Which object the instruction with a number belongs to: how many objects stand before that one. -/
def owner : List Layout → Nat → Nat
  | [], _ => 0
  | o :: os, i => if i < o.count then 0 else owner os (i - o.count) + 1

/-- Objects with the number of their first instruction; `n` come before the first object. -/
def starts (n : Nat) : List Layout → List (Layout × Nat)
  | [] => []
  | o :: os => (o, n) :: starts (n + o.count) os

/-- The first and last-but-one number of the block at `position` in an object that starts at
`start`. -/
def blockRange (o : Layout) (start position : Nat) : Nat × Nat :=
  let later := o.labels.values.filter (position < ·)
  let stop := min (later.min?.getD o.count) o.count
  (start + min position o.count, start + stop)

/-- The range of the block that a program starts with: that at the first instruction of all. -/
def firstRange (layout : List Layout) : Nat × Nat :=
  match (starts 0 layout).find? (0 < ·.1.count) with
  | none => (0, 0)
  | some (o, start) => o.blockRange start 0

end Layout

/-- A permutation of the instructions of a program. -/
structure InstructionOrder where
  /-- Where each instruction stands, by its number before reordering. -/
  placements : List Placement
  /-- The numbers before reordering, in the order after it. -/
  order : List Nat
deriving DecidableEq, Repr

namespace InstructionOrder

/-- The permutation with the given order of numbers. -/
def ofOrder (layout : List Layout) (order : List Nat) : InstructionOrder where
  placements := (Layout.slots layout).zipIdx.map fun ((object, line), i) =>
    ⟨i, order.idxOf i, object, line⟩
  order := order

/-- The permutation that moves nothing. -/
def natural (layout : List Layout) : InstructionOrder :=
  ofOrder layout (List.range (Layout.total layout))

/-- The numbers from the first of a range up to, and not including, its second. -/
def numbers (range : Nat × Nat) : List Nat := List.range' range.1 (range.2 - range.1)

/-- An order with numbers put behind it, without those that it has already. -/
def place (order added : List Nat) : List Nat :=
  added.foldl (fun order i => if i ∈ order then order else order ++ [i]) order

/-- How far a walk over all numbers has come: the order so far, and whether the first block of the
program has been spliced into it. -/
structure Walk where
  order : List Nat
  spliced : Bool
deriving DecidableEq, Repr

/-- The walk at a number.  The numbers of the first block are passed over; the whole block is spliced
in before the first number behind it. -/
def Walk.step (first : Nat × Nat) (w : Walk) (i : Nat) : Walk :=
  if first.1 ≤ i ∧ i < first.2 then w
  else if !w.spliced && first.2 ≤ i then ⟨place (place w.order (numbers first)) [i], true⟩
  else { w with order := place w.order [i] }

/-- The order that a walk over all numbers below `total` ends with, if it starts with the numbers of
`target`.  Whatever the walk has missed comes at the end. -/
def walked (total : Nat) (target first : Nat × Nat) : List Nat :=
  let w := (List.range total).foldl (Walk.step first) ⟨place [] (numbers target), false⟩
  place (if w.spliced then w.order else place w.order (numbers first)) (List.range total)

/-- Numbers with those of one object brought together: the objects in the order in which they first
appear, the numbers of each in the order that they have. -/
def closeGaps (layout : List Layout) (rest : List Nat) : List Nat :=
  let owners := rest.map (Layout.owner layout)
  rest.mergeSort fun i j =>
    owners.idxOf (Layout.owner layout i) ≤ owners.idxOf (Layout.owner layout j)

/-- The order with the block of the entry point before the first block of the program. -/
def rearranged (layout : List Layout) (target first : Nat × Nat) : List Nat :=
  let order := walked (Layout.total layout) target first
  let moved := target.2 - target.1 + (first.2 - first.1)
  order.take moved ++ closeGaps layout (order.drop moved)

/-- The permutation for a program that starts at an entry point. -/
def startingAt (layout : List Layout) (entry : EntryPoint) : Except EntryError InstructionOrder :=
  match (Layout.starts 0 layout).find? (·.1.object == entry.object) with
  | none => .error (.unknownObject entry.object)
  | some (o, start) =>
    match o.labels.find? entry.label with
    | none => .error (.unknownLabel entry.object entry.label)
    | some position =>
      let target := o.blockRange start position
      let first := Layout.firstRange layout
      if target.2 ≤ target.1 || target.1 = first.1 then .ok (natural layout)
      else .ok (ofOrder layout (rearranged layout target first))

/-- The number of instructions. -/
def size (o : InstructionOrder) : Nat := o.placements.length

/-- Whether there are no instructions. -/
def isEmpty (o : InstructionOrder) : Bool := o.placements.isEmpty

/-- Whether every instruction stays. -/
def isNatural (o : InstructionOrder) : Bool :=
  o.placements.all fun p => p.natural == p.reordered

/-- The placement of the instruction with a number before reordering. -/
def byNatural? (o : InstructionOrder) (n : Nat) : Option Placement := o.placements[n]?

/-- The placement of the instruction with a number after reordering. -/
def byReordered? (o : InstructionOrder) (n : Nat) : Option Placement :=
  o.order[n]?.bind o.byNatural?

/-- The placement of the instruction at a position of an object. -/
def byLocation? (o : InstructionOrder) (object : String) (line : Nat) : Option Placement :=
  (o.placements.filter (·.object == object))[line]?

/-- The number after reordering; beyond the program it is the number before. -/
def translate (o : InstructionOrder) (n : Nat) : Nat :=
  match o.byNatural? n with
  | some p => p.reordered
  | none => n

end InstructionOrder

end LinkAsm
