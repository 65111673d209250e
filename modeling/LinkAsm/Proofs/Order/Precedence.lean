import Mathlib
import LinkAsm.Proofs.Graph
import LinkAsm.Proofs.Order.Build

/-!
# Which objects have a place in the build order

Requirements are the edges of a graph on the names of objects.  A round places objects whose
requirements are placed before, so the order only ever grows by objects that stand behind all they
require: `Ordered` is kept by every round.  Along an edge from a placed object the position in the
order falls, hence a placed object leads to no cycle.

When no demand that is left is ready, each has a requirement that is not placed.  That requirement is
missing or is left itself.  As only finitely many objects are left, going on from one to the next ends
at a missing object or in a cycle (`exists_cycle_or_of_forall_exists`).

* `BuildOrder.rounds_ordered`: objects stand behind what they require.
* `BuildOrder.sound_and_complete`: the objects of the order, and those left out.
-/

namespace LinkAsm.BuildOrder

open Relation

variable {demands : List Demand} {mock : Bool}

/-- Whether an object requires another. -/
def Requires (demands : List Demand) (a b : String) : Prop :=
  ∃ d ∈ demands, d.object = a ∧ ∃ r ∈ d.requirements, r.object = b

/-- Whether a requirement of an object needs no place: it may be missing, and is. -/
def Excused (demands : List Demand) (mock : Bool) (name : String) : Prop :=
  mock = true ∧ name ∉ demands.map (·.object)

/-- Whether an object can never be placed: it is on a cycle, or missing when it must not be. -/
def Unplaceable (demands : List Demand) (mock : Bool) (name : String) : Prop :=
  TransGen (Requires demands) name name ∨ mock = false ∧ name ∉ demands.map (·.object)

/-- Whether each object of an order stands behind all that it requires. -/
def Ordered (demands : List Demand) (mock : Bool) (order : List String) : Prop :=
  ∀ before name after, order = before ++ name :: after → ∀ target, Requires demands name target →
    target ∈ before ∨ Excused demands mock target

theorem Requires.mem {a b : String} (h : Requires demands a b) : a ∈ demands.map (·.object) := by
  obtain ⟨d, hd, rfl, -⟩ := h
  exact List.mem_map_of_mem hd

theorem requires_iff_of_perm {others : List Demand} (h : others.Perm demands) {a b : String} :
    Requires others a b ↔ Requires demands a b := by
  simp only [Requires, h.mem_iff]

/-! ## What rounds place -/

theorem satisfied_iff {known placed : List String} {r : Requirement} :
    satisfied mock known placed r = true ↔
      r.object ∈ placed ∨ mock = true ∧ r.object ∉ known := by
  simp [satisfied]

/-- Objects whose requirements are all in an order can be put at its end. -/
theorem Ordered.append {order new : List String} (h : Ordered demands mock order)
    (hnew : ∀ name ∈ new, ∀ target, Requires demands name target →
      target ∈ order ∨ Excused demands mock target) : Ordered demands mock (order ++ new) := by
  intro before name after heq target hreq
  rcases List.append_eq_append_iff.mp heq with ⟨front, rfl, hrest⟩ | ⟨back, rfl, hrest⟩
  · have hname : name ∈ new := by simp [hrest]
    exact (hnew name hname target hreq).imp_left (List.mem_append_left _)
  · rcases List.append_eq_cons_iff.mp hrest.symm with ⟨rfl, hhead⟩ | ⟨tail, rfl, -⟩
    · have hname : name ∈ new := by simp [hhead]
      simpa using hnew name hname target hreq
    · exact h before name tail rfl target hreq

/-- A demand that is ready can be put at the end. -/
theorem excused_of_ready (hd : (demands.map (·.object)).Nodup) {placed : List String} {d : Demand}
    (hmem : d ∈ demands) (hready : ready mock (demands.map (·.object)) placed d = true)
    {target : String} (h : Requires demands d.object target) :
    target ∈ placed ∨ Excused demands mock target := by
  obtain ⟨d', hd', hname, r, hr, rfl⟩ := h
  obtain rfl : d' = d := List.inj_on_of_nodup_map hd hd' hmem hname
  exact satisfied_iff.mp (List.all_eq_true.mp hready r hr)

/-- **Objects stand behind what they require** after all rounds, if they did before. -/
theorem rounds_ordered (hd : (demands.map (·.object)).Nodup) {placed : List String}
    {pending : List Demand} (hplaced : Ordered demands mock placed)
    (hpending : ∀ d ∈ pending, d ∈ demands) :
    Ordered demands mock (rounds mock (demands.map (·.object)) placed pending).1 := by
  refine (rounds_induction mock _ placed pending
    (P := fun order left => Ordered demands mock order ∧ ∀ d ∈ left, d ∈ demands)
    ⟨hplaced, hpending⟩ ?_).1.1
  rintro order left ⟨horder, hleft⟩
  refine ⟨horder.append ?_, ?_⟩
  · intro name hname target hreq
    obtain ⟨d, hmem, rfl⟩ := List.mem_map.mp hname
    obtain ⟨hmem, hready⟩ := List.mem_filter.mp hmem
    exact excused_of_ready hd (hleft d hmem) hready hreq
  · intro d hmem
    exact hleft d (List.mem_filter.mp hmem).1

/-- Objects without requirements can stand anywhere. -/
theorem ordered_of_free (hd : (demands.map (·.object)).Nodup) :
    Ordered demands mock ((demands.filter (·.requirements.isEmpty)).map (·.object)) := by
  rintro before name after heq target ⟨d', hd', rfl, r, hr, -⟩
  have hname : d'.object ∈ (demands.filter (·.requirements.isEmpty)).map (·.object) := by simp [heq]
  obtain ⟨d, hmem, hobject⟩ := List.mem_map.mp hname
  obtain ⟨hmem, hempty⟩ := List.mem_filter.mp hmem
  obtain rfl : d = d' := List.inj_on_of_nodup_map hd hmem hd' hobject
  rw [List.isEmpty_iff.mp hempty] at hr
  cases hr

theorem ordered_resolve (hd : (demands.map (·.object)).Nodup) (mock : Bool) :
    Ordered demands mock (resolve demands mock).order := by
  have hperm := byName_perm hd
  have hnodup := (hperm.map (·.object)).nodup_iff.mpr hd
  have horder : Ordered (byName demands) mock (placement demands mock).1 :=
    rounds_ordered hnodup (ordered_of_free hnodup) fun d hmem => (List.mem_filter.mp hmem).1
  rw [order_resolve]
  intro before name after heq target hreq
  have htarget := horder before name after heq target ((requires_iff_of_perm hperm).mpr hreq)
  rwa [Excused, (hperm.map (·.object)).mem_iff] at htarget

/-! ## Placed objects lead to no cycle -/

/-- From a placed object a requirement leads to one that stands earlier, if it is not missing. -/
theorem Ordered.idxOf_lt {order : List String} (h : Ordered demands mock order)
    (hnodup : order.Nodup) {a b : String} (ha : a ∈ order) (hreq : Requires demands a b)
    (hb : b ∈ demands.map (·.object)) : b ∈ order ∧ order.idxOf b < order.idxOf a := by
  obtain ⟨before, after, rfl⟩ := List.append_of_mem ha
  have hfresh : a ∉ before := by
    intro hmem
    exact (List.nodup_append.mp hnodup).2.2 a hmem a List.mem_cons_self rfl
  rcases h before a after rfl b hreq with hmem | hexcused
  · refine ⟨List.mem_append_left _ hmem, ?_⟩
    rw [List.idxOf_append_of_mem hmem, List.idxOf_append_of_notMem hfresh, List.idxOf_cons_self]
    exact List.idxOf_lt_length_of_mem hmem
  · exact absurd hb hexcused.2

theorem Ordered.idxOf_lt_of_transGen {order : List String} (h : Ordered demands mock order)
    (hnodup : order.Nodup) {a b : String} (ha : a ∈ order) (hpath : TransGen (Requires demands) a b)
    (hb : b ∈ demands.map (·.object)) : b ∈ order ∧ order.idxOf b < order.idxOf a := by
  induction hpath with
  | single hreq => exact h.idxOf_lt hnodup ha hreq hb
  | tail _ hreq ih =>
    obtain ⟨hc, hlt⟩ := ih hreq.mem
    obtain ⟨hmem, hlt'⟩ := h.idxOf_lt hnodup hc hreq hb
    exact ⟨hmem, hlt'.trans hlt⟩

/-- What a placed object leads to is placed too, or may be missing. -/
theorem Ordered.mem_of_reflTransGen {order : List String} (h : Ordered demands mock order)
    {a b : String} (ha : a ∈ order) (hpath : ReflTransGen (Requires demands) a b) :
    b ∈ order ∨ Excused demands mock b := by
  induction hpath with
  | refl => exact Or.inl ha
  | tail _ hreq ih =>
    rcases ih with hmem | hexcused
    · obtain ⟨before, after, rfl⟩ := List.append_of_mem hmem
      exact (h before _ after rfl _ hreq).imp_left (List.mem_append_left _)
    · exact absurd hreq.mem hexcused.2

/-- A placed object leads to none that cannot be placed. -/
theorem Ordered.not_unplaceable {order : List String} (h : Ordered demands mock order)
    (hnodup : order.Nodup) (hlisted : ∀ name ∈ order, name ∈ demands.map (·.object))
    {a b : String} (ha : a ∈ order) (hpath : ReflTransGen (Requires demands) a b) :
    ¬Unplaceable demands mock b := by
  rintro (hcycle | ⟨hmock, hmissing⟩)
  · obtain ⟨c, hreq, -⟩ := TransGen.head'_iff.mp hcycle
    rcases h.mem_of_reflTransGen ha hpath with hmem | hexcused
    · exact lt_irrefl _ (h.idxOf_lt_of_transGen hnodup hmem hcycle hreq.mem).2
    · exact hexcused.2 hreq.mem
  · rcases h.mem_of_reflTransGen ha hpath with hmem | hexcused
    · exact hmissing (hlisted b hmem)
    · rw [hmock] at hexcused
      exact Bool.noConfusion hexcused.1

/-! ## What is left leads to a cycle or to a missing object -/

theorem mem_left_of_notMem_order (hd : (demands.map (·.object)).Nodup) {name : String}
    (hname : name ∈ demands.map (·.object)) (hout : name ∉ (resolve demands mock).order) :
    name ∈ (placement demands mock).2.map (·.object) := by
  have hmem := (placement_perm hd mock).mem_iff.mpr hname
  rw [order_resolve] at hout
  exact (List.mem_append.mp hmem).resolve_left hout

/-- What is left requires something that is left too, or that is missing. -/
theorem exists_requires_of_left (hd : (demands.map (·.object)).Nodup) {name : String}
    (h : name ∈ (placement demands mock).2.map (·.object)) :
    ∃ target, Requires demands name target ∧
      (target ∈ (placement demands mock).2.map (·.object) ∨
        mock = false ∧ target ∉ demands.map (·.object)) := by
  have haccounted := placement_accounted demands mock
  obtain ⟨d, hleft, rfl⟩ := List.mem_map.mp h
  obtain ⟨r, hr, hunmet⟩ := List.all_eq_false.mp (haccounted.blocked d hleft)
  rw [satisfied_iff, ((byName_perm hd).map (·.object)).mem_iff, not_or, not_and] at hunmet
  have hmem : d ∈ demands :=
    (byName_perm hd).subset (List.mem_filter.mp (haccounted.subset d hleft)).1
  refine ⟨r.object, ⟨d, hmem, rfl, r, hr, rfl⟩, ?_⟩
  by_cases hlisted : r.object ∈ demands.map (·.object)
  · exact Or.inl (mem_left_of_notMem_order hd hlisted hunmet.1)
  · refine Or.inr ⟨Bool.eq_false_iff.mpr ?_, hlisted⟩
    intro hmock
    exact hunmet.2 hmock hlisted

/-- **The build order is sound and complete.**  It has objects of the program only, each at most
once, and each behind all that it requires; with `mock`, requirements that are not of the program are
left aside.  An object is left out exactly if its requirements lead to a cycle or, without `mock`, to
an object that is not of the program. -/
theorem sound_and_complete (hd : (demands.map (·.object)).Nodup) (mock : Bool) :
    (resolve demands mock).order.Nodup ∧
      (∀ name ∈ (resolve demands mock).order, name ∈ demands.map (·.object)) ∧
      (∀ before name after, (resolve demands mock).order = before ++ name :: after →
        ∀ target, Requires demands name target →
          target ∈ before ∨ mock = true ∧ target ∉ demands.map (·.object)) ∧
      ∀ name ∈ demands.map (·.object), name ∉ (resolve demands mock).order ↔
        ∃ target, ReflTransGen (Requires demands) name target ∧
          (TransGen (Requires demands) target target ∨
            mock = false ∧ target ∉ demands.map (·.object)) := by
  have hperm := placement_perm hd mock
  have hnodup : (resolve demands mock).order.Nodup :=
    (List.nodup_append.mp (hperm.nodup_iff.mpr hd)).1
  have hlisted : ∀ name ∈ (resolve demands mock).order, name ∈ demands.map (·.object) :=
    fun name hname => hperm.subset (List.mem_append_left _ hname)
  have hordered := ordered_resolve hd mock
  refine ⟨hnodup, hlisted, hordered, ?_⟩
  intro name hname
  constructor
  · intro hout
    exact exists_cycle_or_of_forall_exists (fun x hx => exists_requires_of_left hd hx)
      (mem_left_of_notMem_order hd hname hout)
  · rintro ⟨target, hpath, hunplaceable⟩ hmem
    exact hordered.not_unplaceable hnodup hlisted hmem hpath hunplaceable

/-- Two objects that require each other, one that requires the first of them, one that requires a
missing object, and two that can be placed. -/
def ringDemands : List Demand :=
  [⟨"E", [⟨"A", some "x"⟩]⟩, ⟨"A", [⟨"B", none⟩]⟩, ⟨"B", [⟨"A", none⟩]⟩, ⟨"D", [⟨"C", none⟩]⟩,
    ⟨"C", []⟩, ⟨"F", [⟨"D", none⟩, ⟨"Missing", none⟩]⟩]

theorem sound_and_complete_ringDemands :
    (ringDemands.map (·.object)).Nodup ∧
      (resolve ringDemands false).order = ["C", "D"] ∧
      (resolve ringDemands true).order = ["C", "D", "F"] ∧
      (∃ target, ReflTransGen (Requires ringDemands) "F" target ∧
        (TransGen (Requires ringDemands) target target ∨
          false = false ∧ target ∉ ringDemands.map (·.object))) ∧
      ∃ target, ReflTransGen (Requires ringDemands) "E" target ∧
        (TransGen (Requires ringDemands) target target ∨
          true = false ∧ target ∉ ringDemands.map (·.object)) := by
  have hd : (ringDemands.map (·.object)).Nodup := by decide
  have hstrict : (resolve ringDemands false).order = ["C", "D"] := by cbv
  have hmock : (resolve ringDemands true).order = ["C", "D", "F"] := by cbv
  refine ⟨hd, hstrict, hmock, ?_, ?_⟩
  · refine ((sound_and_complete hd false).2.2.2 "F" (by decide)).mp ?_
    rw [hstrict]
    decide
  · refine ((sound_and_complete hd true).2.2.2 "E" (by decide)).mp ?_
    rw [hmock]
    decide

end LinkAsm.BuildOrder
