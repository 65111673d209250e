import Mathlib
import LinkAsm.Proofs.Order.Rounds

/-!
# What is reported of a build order

Assembly goes on if no requirement is reported, whatever the order is.  So an object must not be left
out without a report.  Rounds end when no demand that is left is ready, and a report is about what
made a demand not ready: the same test, on the same order.  Each object that is left therefore has a
report, and no report is about an object that has its place.

* `BuildOrder.strictlySorted_unresolved`: reports are sorted, each once.
* `BuildOrder.mem_unresolved_iff_unmet`: which requirements are reported.
* `BuildOrder.exists_report`: every object that is left has a report.
* `BuildOrder.unresolved_exact`: all of it, and when an order is complete.
-/

namespace LinkAsm.BuildOrder

variable {demands : List Demand} {mock : Bool}

theorem strictlySorted_unresolved (demands : List Demand) (mock : Bool) :
    (resolve demands mock).unresolved.Pairwise fun u v => reportKey u < reportKey v := by
  obtain ⟨hsorted, hnodup⟩ := unresolved_sorted demands mock
  refine (hsorted.and hnodup).imp ?_
  rintro u v ⟨hle, hne⟩
  exact lt_of_le_of_ne hle fun hkey => hne (reportKey_injective hkey)

/-- A requirement is reported exactly if its object is left out and what it requires is not in the
order; with `mock`, only if that is an object of the program. -/
theorem mem_unresolved_iff_unmet (hd : (demands.map (·.object)).Nodup) {u : Unresolved} :
    u ∈ (resolve demands mock).unresolved ↔
      (∃ d ∈ demands, d.object = u.object ∧ u.requirement ∈ d.requirements) ∧
        u.object ∉ (resolve demands mock).order ∧
        u.requirement.object ∉ (resolve demands mock).order ∧
        (mock = true → u.requirement.object ∈ demands.map (·.object)) := by
  rw [mem_unresolved_iff_order hd]
  constructor
  · rintro ⟨d, hmem, hout, r, hr, hunmet, rfl⟩
    rw [Excused, not_or, not_and, not_not] at hunmet
    exact ⟨⟨d, hmem, rfl, hr⟩, hout, hunmet⟩
  · rintro ⟨⟨d, hmem, hname, hr⟩, hout, hunmet⟩
    refine ⟨d, hmem, hname ▸ hout, u.requirement, hr, ?_, ?_⟩
    · rwa [Excused, not_or, not_and, not_not]
    · rw [hname]

/-- Every object that is left out has a report. -/
theorem exists_report (hd : (demands.map (·.object)).Nodup) {name : String}
    (hname : name ∈ demands.map (·.object)) (hout : name ∉ (resolve demands mock).order) :
    ∃ u ∈ (resolve demands mock).unresolved, u.object = name := by
  obtain ⟨d, hleft, rfl⟩ := List.mem_map.mp (mem_left_of_notMem_order hd hname hout)
  obtain ⟨r, hr, hunmet⟩ :=
    List.all_eq_false.mp ((placement_accounted demands mock).blocked d hleft)
  refine ⟨⟨d.object, r⟩, ?_, rfl⟩
  exact mem_unresolved_iff.mpr ⟨d, hleft, r, hr, Bool.eq_false_iff.mpr hunmet, rfl⟩

/-- An order is complete exactly if it has all objects. -/
theorem isComplete_iff (hd : (demands.map (·.object)).Nodup) :
    (resolve demands mock).isComplete = true ↔
      ∀ name ∈ demands.map (·.object), name ∈ (resolve demands mock).order := by
  rw [isComplete, List.isEmpty_iff, List.eq_nil_iff_forall_not_mem]
  constructor
  · intro hnone name hname
    by_contra hout
    obtain ⟨u, hu, -⟩ := exists_report hd hname hout
    exact hnone u hu
  · intro hall u hu
    obtain ⟨⟨d, hmem, hname, -⟩, hout, -⟩ := (mem_unresolved_iff_unmet hd).mp hu
    exact hout (hall _ (hname ▸ List.mem_map_of_mem hmem))

/-- **Reports are exact.**  They are strictly sorted by object, then by the object required, then by
its symbol.  A requirement of an object is reported exactly if the object is left out of the order
and what it requires is not in the order; with `mock`, only if that is an object of the program.  Every
object that is left out has a report, so an order is complete exactly if it has all objects. -/
theorem unresolved_exact (hd : (demands.map (·.object)).Nodup) (mock : Bool) :
    ((resolve demands mock).unresolved.Pairwise fun u v => reportKey u < reportKey v) ∧
      (∀ u, u ∈ (resolve demands mock).unresolved ↔
        (∃ d ∈ demands, d.object = u.object ∧ u.requirement ∈ d.requirements) ∧
          u.object ∉ (resolve demands mock).order ∧
          u.requirement.object ∉ (resolve demands mock).order ∧
          (mock = true → u.requirement.object ∈ demands.map (·.object))) ∧
      (∀ name ∈ demands.map (·.object), name ∉ (resolve demands mock).order →
        ∃ u ∈ (resolve demands mock).unresolved, u.object = name) ∧
      ((resolve demands mock).isComplete = true ↔
        ∀ name ∈ demands.map (·.object), name ∈ (resolve demands mock).order) :=
  ⟨strictlySorted_unresolved demands mock, fun _ => mem_unresolved_iff_unmet hd,
    fun _ hname hout => exists_report hd hname hout, isComplete_iff hd⟩

/-- Two objects that require each other.  One of them requires the other as a whole, one of its
symbols twice, a missing object, and one that can be placed. -/
def entangledDemands : List Demand :=
  [⟨"B", [⟨"Missing", none⟩, ⟨"A", some "y"⟩, ⟨"C", none⟩, ⟨"A", none⟩, ⟨"A", some "y"⟩]⟩,
    ⟨"A", [⟨"B", none⟩]⟩, ⟨"C", []⟩]

theorem unresolved_exact_entangledDemands :
    (entangledDemands.map (·.object)).Nodup ∧
      ((resolve entangledDemands false).unresolved.Pairwise fun u v => reportKey u < reportKey v) ∧
      (⟨"B", ⟨"Missing", none⟩⟩ : Unresolved) ∈ (resolve entangledDemands false).unresolved ∧
      (⟨"B", ⟨"Missing", none⟩⟩ : Unresolved) ∉ (resolve entangledDemands true).unresolved ∧
      (⟨"B", ⟨"A", some "y"⟩⟩ : Unresolved) ∈ (resolve entangledDemands true).unresolved ∧
      (∃ u ∈ (resolve entangledDemands true).unresolved, u.object = "A") ∧
      (resolve entangledDemands true).isComplete = false := by
  have hd : (entangledDemands.map (·.object)).Nodup := by decide
  -- the order alone is evaluated, without sorting reports
  have hstrict : (placement entangledDemands false).1 = ["C"] := by cbv
  have hmock : (placement entangledDemands true).1 = ["C"] := by cbv
  obtain ⟨hsorted, hmem, -⟩ := unresolved_exact hd false
  obtain ⟨-, hmem', hreport, hcomplete⟩ := unresolved_exact hd true
  rw [order_resolve, hstrict] at hmem
  rw [order_resolve, hmock] at hmem' hreport hcomplete
  refine ⟨hd, hsorted, (hmem _).mpr (by decide), ?_, (hmem' _).mpr (by decide),
    hreport "A" (by decide) (by decide), ?_⟩
  · rw [hmem']
    decide
  · rw [Bool.eq_false_iff, ne_eq, hcomplete]
    decide

end LinkAsm.BuildOrder
