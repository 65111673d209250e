import Mathlib.Data.List.Perm.Basic
import LinkAsm.Order.Build

/-!
# Complete build orders

A round moves demands from those that are left to the order, so the order and what is left are
always all objects.  When the rounds end, whatever is left has a requirement that is not met, and
this is reported.  So an order without reports has every object in it once.

* `BuildOrder.rounds_induction`: what every round keeps holds after all rounds.
* `BuildOrder.rounds_accounted`: nothing is lost, and what is left is not ready.
* `BuildOrder.order_perm_of_isComplete`: a complete order is an order of all objects.
-/

namespace LinkAsm.BuildOrder

/-- What every round keeps holds after all rounds, and then no demand that is left is ready. -/
theorem rounds_induction (mock : Bool) (known placed : List String) (pending : List Demand)
    {P : List String → List Demand → Prop} (start : P placed pending)
    (step : ∀ order left, P order left →
      P (order ++ (left.filter (ready mock known order)).map (·.object))
        (left.filter fun d => !ready mock known order d)) :
    P (rounds mock known placed pending).1 (rounds mock known placed pending).2 ∧
      ∀ d ∈ (rounds mock known placed pending).2,
        ready mock known (rounds mock known placed pending).1 d = false := by
  induction hn : pending.length using Nat.strongRecOn generalizing placed pending with
  | _ n ih =>
    rw [rounds_eq]
    split
    · next hnone =>
      rw [List.isEmpty_iff, List.filter_eq_nil_iff] at hnone
      exact ⟨start, fun d hd => Bool.eq_false_iff.mpr (hnone d hd)⟩
    · next hsome =>
      have hlt := length_left_lt (ready mock known placed) hsome
      exact ih _ (hn ▸ hlt) _ _ (step placed pending start) rfl

/-- What is kept by rounds: nothing is lost, and what is left at the end is not ready. -/
structure Accounted (mock : Bool) (known placed : List String) (pending : List Demand)
    (result : List String × List Demand) : Prop where
  complete : (result.1 ++ result.2.map (·.object)).Perm (placed ++ pending.map (·.object))
  subset : ∀ d ∈ result.2, d ∈ pending
  blocked : ∀ d ∈ result.2, ready mock known result.1 d = false

theorem rounds_accounted (mock : Bool) (known placed : List String) (pending : List Demand) :
    Accounted mock known placed pending (rounds mock known placed pending) := by
  have hrounds := rounds_induction mock known placed pending (P := fun order left =>
    (order ++ left.map (·.object)).Perm (placed ++ pending.map (·.object)) ∧
      ∀ d ∈ left, d ∈ pending) ⟨.refl _, fun d hd => hd⟩ ?_
  · exact ⟨hrounds.1.1, hrounds.1.2, hrounds.2⟩
  · rintro order left ⟨hperm, hsub⟩
    refine ⟨?_, ?_⟩
    · have hsplit := (List.filter_append_perm (ready mock known order) left).map (·.object)
      rw [List.map_append] at hsplit
      rw [List.append_assoc]
      exact (hsplit.append_left order).trans hperm
    · intro d hd
      exact hsub d (List.mem_filter.mp hd).1

/-! ## The order of all objects -/

/-- The demands in the order of names. -/
def byName (demands : List Demand) : List Demand :=
  (NameMap.ofList (demands.map fun d => (d.object, d))).values

/-- The result of all rounds. -/
def placement (demands : List Demand) (mock : Bool) : List String × List Demand :=
  rounds mock ((byName demands).map (·.object))
    (((byName demands).filter (·.requirements.isEmpty)).map (·.object))
    ((byName demands).filter fun d => !d.requirements.isEmpty)

theorem order_resolve (demands : List Demand) (mock : Bool) :
    (resolve demands mock).order = (placement demands mock).1 := rfl

theorem mem_unresolved_iff {demands : List Demand} {mock : Bool} {u : Unresolved} :
    u ∈ (resolve demands mock).unresolved ↔
      ∃ d ∈ (placement demands mock).2, ∃ r ∈ d.requirements,
        satisfied mock ((byName demands).map (·.object)) (placement demands mock).1 r = false ∧
          ⟨d.object, r⟩ = u := by
  have hunfold : (resolve demands mock).unresolved =
      ((placement demands mock).2.flatMap fun d =>
        (d.requirements.filter fun r =>
          !satisfied mock ((byName demands).map (·.object)) (placement demands mock).1 r).map
            (Unresolved.mk d.object)).eraseDups.mergeSort Unresolved.le := rfl
  rw [hunfold, List.mem_mergeSort, List.mem_eraseDups]
  simp only [List.mem_flatMap, List.mem_map, List.mem_filter, Bool.not_eq_true', and_assoc]

variable {demands : List Demand} {mock : Bool}

theorem byName_perm (hd : (demands.map (·.object)).Nodup) : (byName demands).Perm demands := by
  have hnames : ((demands.map fun d => (d.object, d)).map (·.1)).Nodup := by
    rw [List.map_map]
    exact hd
  have hentries := (NameMap.entries_ofList_perm hnames).map (·.2)
  rw [List.map_map] at hentries
  exact hentries.trans (List.Perm.of_eq (List.map_id _))

theorem placement_accounted (demands : List Demand) (mock : Bool) :
    Accounted mock ((byName demands).map (·.object))
      (((byName demands).filter (·.requirements.isEmpty)).map (·.object))
      ((byName demands).filter fun d => !d.requirements.isEmpty) (placement demands mock) :=
  rounds_accounted ..

/-- The objects of the order and those left are together all objects. -/
theorem placement_perm (hd : (demands.map (·.object)).Nodup) (mock : Bool) :
    ((placement demands mock).1 ++ (placement demands mock).2.map (·.object)).Perm
      (demands.map (·.object)) := by
  have hcomplete := (placement_accounted demands mock).complete
  have hsplit := List.filter_append_perm (fun d : Demand => d.requirements.isEmpty) (byName demands)
  rw [← List.map_append] at hcomplete
  exact hcomplete.trans ((hsplit.trans (byName_perm hd)).map _)

/-- Whatever is left is reported. -/
theorem left_eq_nil_of_isComplete (h : (resolve demands mock).isComplete = true) :
    (placement demands mock).2 = [] := by
  rw [List.eq_nil_iff_forall_not_mem]
  intro d hd
  have hblocked := (placement_accounted demands mock).blocked d hd
  obtain ⟨r, hr, hunmet⟩ := List.all_eq_false.mp hblocked
  have hmem : ⟨d.object, r⟩ ∈ (resolve demands mock).unresolved :=
    mem_unresolved_iff.mpr ⟨d, hd, r, hr, Bool.eq_false_iff.mpr hunmet, rfl⟩
  rw [List.isEmpty_iff.mp h] at hmem
  cases hmem

/-- **A complete order is an order of all objects.** -/
theorem order_perm_of_isComplete (hd : (demands.map (·.object)).Nodup)
    (h : (resolve demands mock).isComplete = true) :
    (resolve demands mock).order.Perm (demands.map (·.object)) := by
  have hperm := placement_perm hd mock
  rw [left_eq_nil_of_isComplete h, List.map_nil, List.append_nil] at hperm
  exact hperm

/-- A report is about one of the objects. -/
theorem object_mem_of_mem_unresolved (hd : (demands.map (·.object)).Nodup) {u : Unresolved}
    (hu : u ∈ (resolve demands mock).unresolved) : u.object ∈ demands.map (·.object) := by
  obtain ⟨d, hleft, r, -, -, rfl⟩ := mem_unresolved_iff.mp hu
  have hmem := (List.mem_filter.mp ((placement_accounted demands mock).subset d hleft)).1
  exact List.mem_map_of_mem ((byName_perm hd).subset hmem)

end LinkAsm.BuildOrder
