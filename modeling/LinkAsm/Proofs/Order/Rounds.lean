import Mathlib
import LinkAsm.Proofs.Order.Precedence

/-!
# The build order is canonical

No round is ever counted while objects are placed, yet the order is that of rounds.  An object without
requirements has round zero, and any other comes one round after the last of the objects that it
requires (`IsRound`).  After the start and `n` rounds the order has exactly the objects that can be
placed up to round `n` (`Reached`): a demand is ready when all it requires has been placed in earlier
rounds, and it was not ready before.  Within a round, objects come in the order of their names.

Rounds and names say nothing of the list that the demands came in, so neither does the result.

* `BuildOrder.mem_order_iff_placeable`: which objects are in the order.
* `BuildOrder.sorted_order`: the order goes by rounds and names.
* `BuildOrder.exists_isRound`: there are rounds.
* `BuildOrder.resolve_canonical`: the order, and what does not change it.
-/

namespace LinkAsm.BuildOrder

open Relation

variable {demands others : List Demand} {mock : Bool} {round : String → Nat}

/-- Whether an object of the program can be placed: it leads to none that cannot. -/
def Placeable (demands : List Demand) (mock : Bool) (name : String) : Prop :=
  name ∈ demands.map (·.object) ∧
    ∀ target, ReflTransGen (Requires demands) name target → ¬Unplaceable demands mock target

/-- The requirements of an object that are of the program. -/
def listed (demands : List Demand) (d : Demand) : Finset Requirement :=
  (d.requirements.filter (·.object ∈ demands.map (·.object))).toFinset

/-- The round of an object from the rounds of those that it requires: zero without requirements, and
otherwise one more than the last of the requirements that are of the program. -/
def nextRound (demands : List Demand) (round : String → Nat) (d : Demand) : Nat :=
  if d.requirements = [] then 0 else 1 + (listed demands d).sup (round ·.object)

/-- Whether every object that can be placed has its round. -/
def IsRound (demands : List Demand) (mock : Bool) (round : String → Nat) : Prop :=
  ∀ d ∈ demands, Placeable demands mock d.object → round d.object = nextRound demands round d

/-- Whether an object comes before another by round and, within a round, by name. -/
def Before (round : String → Nat) (a b : String) : Prop :=
  round a < round b ∨ round a = round b ∧ a < b

theorem mem_listed {d : Demand} {r : Requirement} :
    r ∈ listed demands d ↔ r ∈ d.requirements ∧ r.object ∈ demands.map (·.object) := by
  simp [listed]

/-! ## What can be placed -/

/-- What is required by an object that can be placed can be placed too, or may be missing. -/
theorem Placeable.of_requires {a b : String} (h : Placeable demands mock a)
    (hreq : Requires demands a b) : Placeable demands mock b ∨ Excused demands mock b := by
  by_cases hb : b ∈ demands.map (·.object)
  · exact Or.inl ⟨hb, fun target hpath => h.2 target (.head hreq hpath)⟩
  · refine Or.inr ⟨?_, hb⟩
    by_contra hmock
    exact h.2 b (.single hreq) (Or.inr ⟨Bool.eq_false_iff.mpr hmock, hb⟩)

/-- An object can be placed if all that it requires can be placed or may be missing. -/
theorem placeable_of_requires {a : String} (ha : a ∈ demands.map (·.object))
    (h : ∀ b, Requires demands a b → Placeable demands mock b ∨ Excused demands mock b) :
    Placeable demands mock a := by
  have hnext : ∀ b target, Requires demands a b → ReflTransGen (Requires demands) b target →
      ¬Unplaceable demands mock target := by
    intro b target hreq hpath
    rcases h b hreq with hplaceable | ⟨hmock, hmissing⟩
    · exact hplaceable.2 target hpath
    · -- a missing object requires nothing
      rcases ReflTransGen.cases_head hpath with rfl | ⟨c, hreq', -⟩
      · rintro (hcycle | ⟨hstrict, -⟩)
        · obtain ⟨c, hreq', -⟩ := TransGen.head'_iff.mp hcycle
          exact hmissing hreq'.mem
        · rw [hmock] at hstrict
          cases hstrict
      · exact absurd hreq'.mem hmissing
  refine ⟨ha, fun target hpath => ?_⟩
  rcases ReflTransGen.cases_head hpath with rfl | ⟨b, hreq, hrest⟩
  · rintro (hcycle | ⟨-, hmissing⟩)
    · obtain ⟨b, hreq, hback⟩ := TransGen.head'_iff.mp hcycle
      exact hnext b a hreq hback (Or.inl hcycle)
    · exact hmissing ha
  · exact hnext b target hreq hrest

theorem nodup_order (hd : (demands.map (·.object)).Nodup) (mock : Bool) :
    (resolve demands mock).order.Nodup :=
  (List.nodup_append.mp ((placement_perm hd mock).nodup_iff.mpr hd)).1

/-- **The order has the objects that can be placed.** -/
theorem mem_order_iff_placeable (hd : (demands.map (·.object)).Nodup) {name : String} :
    name ∈ (resolve demands mock).order ↔ Placeable demands mock name := by
  have hlisted : ∀ name ∈ (resolve demands mock).order, name ∈ demands.map (·.object) :=
    fun name hname => (placement_perm hd mock).subset (List.mem_append_left _ hname)
  constructor
  · intro hmem
    refine ⟨hlisted name hmem, fun target hpath => ?_⟩
    exact (ordered_resolve hd mock).not_unplaceable (nodup_order hd mock) hlisted hmem hpath
  · rintro ⟨hname, hplaceable⟩
    by_contra hout
    obtain ⟨target, hpath, hunplaceable⟩ := exists_cycle_or_of_forall_exists
      (fun x hx => exists_requires_of_left hd hx) (mem_left_of_notMem_order hd hname hout)
    exact hplaceable target hpath hunplaceable

/-! ## Rounds -/

theorem round_lt_of_requires (hround : IsRound demands mock round) {d : Demand} (hd : d ∈ demands)
    (hplaceable : Placeable demands mock d.object) {r : Requirement} (hr : r ∈ d.requirements)
    (hlisted : r.object ∈ demands.map (·.object)) : round r.object < round d.object := by
  have hle : round r.object ≤ (listed demands d).sup (round ·.object) :=
    Finset.le_sup (f := fun r : Requirement => round r.object) (mem_listed.mpr ⟨hr, hlisted⟩)
  rw [hround d hd hplaceable, nextRound, if_neg (List.ne_nil_of_mem hr)]
  omega

/-- What has been reached after the start and `n` rounds: the objects that can be placed up to round
`n` are in the order, by rounds and names, and all others are left, by names. -/
structure Reached (demands : List Demand) (mock : Bool) (round : String → Nat) (n : Nat)
    (order : List String) (left : List Demand) : Prop where
  mem_iff : ∀ name, name ∈ order ↔ Placeable demands mock name ∧ round name ≤ n
  sorted : order.Pairwise (Before round)
  left_iff : ∀ d, d ∈ left ↔ d ∈ demands ∧ d.object ∉ order
  names : left.Pairwise (·.object < ·.object)

/-- Demands of one round come in the order of their names. -/
theorem pairwise_before_of_round {ds : List Demand} {n : Nat}
    (hnames : ds.Pairwise (·.object < ·.object)) (hround : ∀ d ∈ ds, round d.object = n) :
    (ds.map (·.object)).Pairwise (Before round) := by
  refine List.pairwise_map.mpr (hnames.imp_of_mem ?_)
  intro a b ha hb hlt
  exact Or.inr ⟨(hround a ha).trans (hround b hb).symm, hlt⟩

/-- An object without requirements can be placed at once. -/
theorem placeable_of_free (hd : (demands.map (·.object)).Nodup) {d : Demand} (hmem : d ∈ demands)
    (hfree : d.requirements = []) : Placeable demands mock d.object := by
  refine placeable_of_requires (List.mem_map_of_mem hmem) ?_
  rintro b ⟨d', hd', hname, r, hr, -⟩
  obtain rfl : d' = d := List.inj_on_of_nodup_map hd hd' hmem hname
  rw [hfree] at hr
  cases hr

theorem reached_start (hd : (demands.map (·.object)).Nodup)
    (hnames : demands.Pairwise (·.object < ·.object)) (hround : IsRound demands mock round) :
    Reached demands mock round 0 ((demands.filter (·.requirements.isEmpty)).map (·.object))
      (demands.filter fun d => !d.requirements.isEmpty) := by
  have hzero : ∀ d ∈ demands, d.requirements = [] → round d.object = 0 := by
    intro d hmem hfree
    rw [hround d hmem (placeable_of_free hd hmem hfree), nextRound, if_pos hfree]
  have hfree : ∀ d, d ∈ demands.filter (·.requirements.isEmpty) ↔
      d ∈ demands ∧ d.requirements = [] := by
    intro d
    rw [List.mem_filter, List.isEmpty_iff]
  refine ⟨?_, ?_, ?_, hnames.filter _⟩
  · intro name
    simp only [List.mem_map, hfree]
    constructor
    · rintro ⟨d, ⟨hmem, hnone⟩, rfl⟩
      exact ⟨placeable_of_free hd hmem hnone, (hzero d hmem hnone).le⟩
    · rintro ⟨hplaceable, hle⟩
      obtain ⟨d, hmem, rfl⟩ := List.mem_map.mp hplaceable.1
      refine ⟨d, ⟨hmem, ?_⟩, rfl⟩
      by_contra hsome
      rw [hround d hmem hplaceable, nextRound, if_neg hsome] at hle
      omega
  · refine pairwise_before_of_round (n := 0) (hnames.filter _) fun d hmem => ?_
    exact hzero d ((hfree d).mp hmem).1 ((hfree d).mp hmem).2
  · intro d
    simp only [List.mem_filter, Bool.not_eq_true', List.mem_map, not_exists, not_and,
      List.isEmpty_eq_false_iff]
    refine and_congr_right fun hmem => ⟨?_, ?_⟩
    · rintro hsome d' ⟨hmem', hnone⟩ hname
      obtain rfl : d' = d := List.inj_on_of_nodup_map hd hmem' hmem hname
      exact hsome (List.isEmpty_iff.mp hnone)
    · intro hall hnone
      exact hall d ⟨hmem, List.isEmpty_iff.mpr hnone⟩ rfl

namespace Reached

variable {n : Nat} {order : List String} {left : List Demand}

/-- A demand that is left is ready exactly if its object can be placed in the next round. -/
theorem ready_iff (h : Reached demands mock round n order left)
    (hd : (demands.map (·.object)).Nodup) (hround : IsRound demands mock round) {d : Demand}
    (hleft : d ∈ left) :
    ready mock (demands.map (·.object)) order d = true ↔
      Placeable demands mock d.object ∧ round d.object = n + 1 := by
  obtain ⟨hmem, hout⟩ := (h.left_iff d).mp hleft
  constructor
  · intro hready
    have hplaceable : Placeable demands mock d.object := by
      refine placeable_of_requires (List.mem_map_of_mem hmem) fun b hreq => ?_
      exact (excused_of_ready hd hmem hready hreq).imp_left fun hb => ((h.mem_iff b).mp hb).1
    refine ⟨hplaceable, ?_⟩
    have hlate : n < round d.object := by
      by_contra hle
      exact hout ((h.mem_iff _).mpr ⟨hplaceable, Nat.not_lt.mp hle⟩)
    have hsup : (listed demands d).sup (round ·.object) ≤ n := by
      refine Finset.sup_le fun r hr => ?_
      obtain ⟨hr, hlisted⟩ := mem_listed.mp hr
      have hmet := satisfied_iff.mp (List.all_eq_true.mp hready r hr)
      have hplaced : r.object ∈ order := hmet.resolve_right fun hmissing => hmissing.2 hlisted
      exact ((h.mem_iff _).mp hplaced).2
    have heq := hround d hmem hplaceable
    unfold nextRound at heq
    split at heq <;> omega
  · rintro ⟨hplaceable, heq⟩
    refine List.all_eq_true.mpr fun r hr => satisfied_iff.mpr ?_
    rcases hplaceable.of_requires ⟨d, hmem, rfl, r, hr, rfl⟩ with htarget | hexcused
    · have hlt := round_lt_of_requires hround hmem hplaceable hr htarget.1
      exact Or.inl ((h.mem_iff _).mpr ⟨htarget, by omega⟩)
    · exact Or.inr hexcused

/-- **A round reaches the next number.** -/
theorem step (h : Reached demands mock round n order left) (hd : (demands.map (·.object)).Nodup)
    (hround : IsRound demands mock round) :
    Reached demands mock round (n + 1)
      (order ++ (left.filter (ready mock (demands.map (·.object)) order)).map (·.object))
      (left.filter fun d => !ready mock (demands.map (·.object)) order d) := by
  have hnew : ∀ d ∈ left.filter (ready mock (demands.map (·.object)) order),
      Placeable demands mock d.object ∧ round d.object = n + 1 := by
    intro d hmem
    obtain ⟨hleft, hready⟩ := List.mem_filter.mp hmem
    exact (h.ready_iff hd hround hleft).mp hready
  refine ⟨?_, ?_, ?_, h.names.filter _⟩
  · intro name
    rw [List.mem_append, h.mem_iff, List.mem_map]
    constructor
    · rintro (⟨hplaceable, hle⟩ | ⟨d, hmem, rfl⟩)
      · exact ⟨hplaceable, by omega⟩
      · exact ⟨(hnew d hmem).1, (hnew d hmem).2.le⟩
    · rintro ⟨hplaceable, hle⟩
      by_cases hearly : round name ≤ n
      · exact Or.inl ⟨hplaceable, hearly⟩
      · obtain ⟨d, hmem, rfl⟩ := List.mem_map.mp hplaceable.1
        have hleft : d ∈ left :=
          (h.left_iff d).mpr ⟨hmem, fun hin => hearly ((h.mem_iff _).mp hin).2⟩
        have hready := (h.ready_iff hd hround hleft).mpr ⟨hplaceable, by omega⟩
        exact Or.inr ⟨d, List.mem_filter.mpr ⟨hleft, hready⟩, rfl⟩
  · refine List.pairwise_append.mpr ⟨h.sorted, ?_, ?_⟩
    · exact pairwise_before_of_round (h.names.filter _) fun d hmem => (hnew d hmem).2
    · intro a ha b hb
      obtain ⟨d, hmem, rfl⟩ := List.mem_map.mp hb
      have hle := ((h.mem_iff a).mp ha).2
      have heq := (hnew d hmem).2
      exact Or.inl (by omega)
  · intro d
    simp only [List.mem_filter, Bool.not_eq_true', h.left_iff, List.mem_append, List.mem_map,
      not_or, not_exists, not_and, and_assoc]
    refine and_congr_right fun hmem => and_congr_right fun _ => ⟨?_, ?_⟩
    · rintro hwaits d' hmem' - hready hname
      obtain rfl : d' = d := List.inj_on_of_nodup_map hd hmem' hmem hname
      rw [hwaits] at hready
      cases hready
    · intro hall
      rw [Bool.eq_false_iff]
      intro hready
      exact hall d hmem ‹_› hready rfl

end Reached

/-- Rounds reach some number and end there. -/
theorem rounds_reached (hd : (demands.map (·.object)).Nodup)
    (hnames : demands.Pairwise (·.object < ·.object)) (hround : IsRound demands mock round) :
    ∃ n, Reached demands mock round n
      (rounds mock (demands.map (·.object))
        ((demands.filter (·.requirements.isEmpty)).map (·.object))
        (demands.filter fun d => !d.requirements.isEmpty)).1
      (rounds mock (demands.map (·.object))
        ((demands.filter (·.requirements.isEmpty)).map (·.object))
        (demands.filter fun d => !d.requirements.isEmpty)).2 := by
  refine (rounds_induction mock _ _ _ (P := fun order left =>
    ∃ n, Reached demands mock round n order left) ⟨0, reached_start hd hnames hround⟩ ?_).1
  rintro order left ⟨n, h⟩
  exact ⟨n + 1, h.step hd hround⟩

/-! ## Demands that say the same -/

/-- What a demand says: its object, and which requirements it has. -/
def shape (d : Demand) : String × Finset Requirement := (d.object, d.requirements.toFinset)

theorem shape_eq_iff {d e : Demand} :
    shape e = shape d ↔ e.object = d.object ∧ ∀ r, r ∈ e.requirements ↔ r ∈ d.requirements := by
  simp [shape, Finset.ext_iff]

/-- Whether two lists of demands say the same, up to the order of the list and the order and number
of the requirements. -/
def SameDemands (others demands : List Demand) : Prop := (others.map shape).Perm (demands.map shape)

instance : Decidable (SameDemands others demands) :=
  inferInstanceAs (Decidable (List.Perm _ _))

namespace SameDemands

theorem of_perm (h : others.Perm demands) : SameDemands others demands := h.map _

theorem names (h : SameDemands others demands) :
    (others.map (·.object)).Perm (demands.map (·.object)) := by
  have hfst := List.Perm.map Prod.fst h
  rw [List.map_map, List.map_map] at hfst
  exact hfst

theorem exists_shape_eq (h : SameDemands others demands) {d : Demand} (hd : d ∈ demands) :
    ∃ e ∈ others, shape e = shape d :=
  List.mem_map.mp (h.mem_iff.mpr (List.mem_map_of_mem hd))

theorem requires (h : SameDemands others demands) {a b : String} (hreq : Requires demands a b) :
    Requires others a b := by
  obtain ⟨d, hd, rfl, r, hr, rfl⟩ := hreq
  obtain ⟨e, he, hshape⟩ := h.exists_shape_eq hd
  obtain ⟨hname, hrequirements⟩ := shape_eq_iff.mp hshape
  exact ⟨e, he, hname, r, (hrequirements r).mpr hr, rfl⟩

theorem requires_eq (h : SameDemands others demands) : Requires others = Requires demands := by
  ext a b
  exact ⟨requires (List.Perm.symm h), h.requires⟩

theorem placeable_iff (h : SameDemands others demands) {name : String} :
    Placeable others mock name ↔ Placeable demands mock name := by
  simp only [Placeable, Unplaceable, h.requires_eq, h.names.mem_iff]

theorem nextRound_eq (h : SameDemands others demands) {d e : Demand} (hshape : shape e = shape d) :
    nextRound others round e = nextRound demands round d := by
  obtain ⟨-, hrequirements⟩ := shape_eq_iff.mp hshape
  have hnil : e.requirements = [] ↔ d.requirements = [] := by
    simp only [List.eq_nil_iff_forall_not_mem, hrequirements]
  have hlisted : listed others e = listed demands d := by
    ext r
    rw [mem_listed, mem_listed, h.names.mem_iff, hrequirements]
  simp only [nextRound, hnil, hlisted]

theorem isRound (h : SameDemands others demands) (hround : IsRound demands mock round) :
    IsRound others mock round := by
  intro e he hplaceable
  obtain ⟨d, hd, hshape⟩ := exists_shape_eq (List.Perm.symm h) he
  obtain ⟨hname, -⟩ := shape_eq_iff.mp hshape
  rw [h.nextRound_eq hshape.symm, ← hname]
  exact hround d hd (h.placeable_iff.mp (hname ▸ hplaceable))

end SameDemands

/-! ## The order -/

theorem byName_sorted (hd : (demands.map (·.object)).Nodup) :
    (byName demands).Pairwise (·.object < ·.object) := by
  have hnames : ((demands.map fun d => (d.object, d)).map (·.1)).Nodup := by
    rw [List.map_map]
    exact hd
  refine List.pairwise_map.mpr ((List.pairwise_map.mp (NameMap.sorted _)).imp_of_mem ?_)
  -- each demand stands at its own name
  have hkey : ∀ entry ∈ (NameMap.ofList (demands.map fun d => (d.object, d))).entries,
      entry.1 = entry.2.object := by
    intro entry hentry
    obtain ⟨d, -, rfl⟩ := List.mem_map.mp ((NameMap.entries_ofList_perm hnames).subset hentry)
    rfl
  intro a b ha hb hlt
  rwa [hkey a ha, hkey b hb] at hlt

/-- **The order goes by rounds and names.** -/
theorem sorted_order (hd : (demands.map (·.object)).Nodup) (hround : IsRound demands mock round) :
    (resolve demands mock).order.Pairwise (Before round) := by
  have hsame := SameDemands.of_perm (byName_perm hd)
  have hnodup := hsame.names.nodup_iff.mpr hd
  obtain ⟨n, hreached⟩ := rounds_reached hnodup (byName_sorted hd) (hsame.isRound hround)
  exact hreached.sorted

/-- What has no effect on the requirements of the program has none on the round. -/
theorem nextRound_congr {before : String → Nat} {d : Demand}
    (h : ∀ r ∈ d.requirements, r.object ∈ demands.map (·.object) →
      round r.object = before r.object) : nextRound demands round d = nextRound demands before d := by
  have hsup : (listed demands d).sup (round ·.object) = (listed demands d).sup (before ·.object) :=
    Finset.sup_congr rfl fun r hr => h r (mem_listed.mp hr).1 (mem_listed.mp hr).2
  rw [nextRound, nextRound, hsup]

namespace Ordered

variable {order : List String} {name : String}

theorem front (h : Ordered demands mock (order ++ [name])) : Ordered demands mock order := by
  intro before a after heq
  exact h before a (after ++ [name]) (by simp [heq])

/-- Nothing in an order requires its last object. -/
theorem mem_front (h : Ordered demands mock (order ++ [name])) (hnodup : (order ++ [name]).Nodup)
    {a b : String} (ha : a ∈ order ++ [name]) (hreq : Requires demands a b)
    (hb : b ∈ demands.map (·.object)) : b ∈ order := by
  obtain ⟨hmem, hlt⟩ := h.idxOf_lt hnodup ha hreq hb
  refine (List.mem_append.mp hmem).resolve_right fun hlast => ?_
  have hnew : name ∉ order := fun hold =>
    (List.nodup_append.mp hnodup).2.2 _ hold _ (List.mem_singleton_self _) rfl
  have hlength := List.idxOf_lt_length_of_mem ha
  rw [List.mem_singleton.mp hlast, List.idxOf_append_of_notMem hnew] at hlt
  rw [List.length_append, List.length_singleton] at hlength
  omega

end Ordered

/-- Of each name there is one round at most. -/
theorem exists_nextRound (hd : (demands.map (·.object)).Nodup) (round : String → Nat)
    (name : String) :
    ∃ value, ∀ d ∈ demands, d.object = name → nextRound demands round d = value := by
  by_cases hname : ∃ d ∈ demands, d.object = name
  · obtain ⟨d, hmem, hname⟩ := hname
    refine ⟨nextRound demands round d, fun d' hmem' hname' => ?_⟩
    rw [List.inj_on_of_nodup_map hd hmem' hmem (hname'.trans hname.symm)]
  · exact ⟨0, fun d hmem hd => absurd ⟨d, hmem, hd⟩ hname⟩

/-- Rounds can be given one after the other along an order, where none depends on those that come
later. -/
theorem exists_round_of_ordered (hd : (demands.map (·.object)).Nodup) {order : List String}
    (hnodup : order.Nodup) (hordered : Ordered demands mock order) :
    ∃ round : String → Nat, ∀ d ∈ demands, d.object ∈ order →
      round d.object = nextRound demands round d := by
  induction order using List.reverseRecOn with
  | nil => exact ⟨fun _ => 0, fun d _ hmem => absurd hmem List.not_mem_nil⟩
  | append_singleton order name ih =>
    obtain ⟨hfront, -, hfresh⟩ := List.nodup_append.mp hnodup
    obtain ⟨round, hround⟩ := ih hfront hordered.front
    obtain ⟨value, hvalue⟩ := exists_nextRound hd round name
    refine ⟨Function.update round name value, fun d hmem hplaced => ?_⟩
    -- the new round is not one that others depend on
    have hsame : nextRound demands (Function.update round name value) d =
        nextRound demands round d := by
      refine nextRound_congr fun r hr hlisted => Function.update_of_ne ?_ _ _
      have hearlier := hordered.mem_front hnodup hplaced ⟨d, hmem, rfl, r, hr, rfl⟩ hlisted
      exact hfresh _ hearlier _ (List.mem_singleton_self _)
    rw [hsame]
    by_cases hname : d.object = name
    · rw [hname, Function.update_self, hvalue d hmem hname]
    · rw [Function.update_of_ne hname]
      refine hround d hmem ((List.mem_append.mp hplaced).resolve_right fun hlast => ?_)
      exact hname (List.mem_singleton.mp hlast)

/-- **There are rounds.** -/
theorem exists_isRound (hd : (demands.map (·.object)).Nodup) (mock : Bool) :
    ∃ round, IsRound demands mock round := by
  obtain ⟨round, hround⟩ :=
    exists_round_of_ordered hd (nodup_order hd mock) (ordered_resolve hd mock)
  exact ⟨round, fun d hmem hplaceable =>
    hround d hmem ((mem_order_iff_placeable hd).mpr hplaceable)⟩

/-! ## The reports -/

/-- An object that is not in the order is left. -/
theorem mem_left_iff (hd : (demands.map (·.object)).Nodup) {d : Demand} :
    d ∈ (placement demands mock).2 ↔ d ∈ demands ∧ d.object ∉ (resolve demands mock).order := by
  have hmem : ∀ d ∈ (placement demands mock).2, d ∈ demands := fun d hleft =>
    (byName_perm hd).subset
      (List.mem_filter.mp ((placement_accounted demands mock).subset d hleft)).1
  constructor
  · intro hleft
    refine ⟨hmem d hleft, fun hplaced => ?_⟩
    exact (List.nodup_append.mp ((placement_perm hd mock).nodup_iff.mpr hd)).2.2 _ hplaced _
      (List.mem_map_of_mem hleft) rfl
  · rintro ⟨hdemand, hout⟩
    obtain ⟨d', hleft, hname⟩ := List.mem_map.mp
      (mem_left_of_notMem_order hd (List.mem_map_of_mem hdemand) hout)
    obtain rfl : d' = d := List.inj_on_of_nodup_map hd (hmem d' hleft) hdemand hname
    exact hleft

/-- A report is about a requirement that is not met, of an object that is not in the order. -/
theorem mem_unresolved_iff_order (hd : (demands.map (·.object)).Nodup) {u : Unresolved} :
    u ∈ (resolve demands mock).unresolved ↔
      ∃ d ∈ demands, d.object ∉ (resolve demands mock).order ∧ ∃ r ∈ d.requirements,
        ¬(r.object ∈ (resolve demands mock).order ∨ Excused demands mock r.object) ∧
          ⟨d.object, r⟩ = u := by
  simp only [mem_unresolved_iff, mem_left_iff hd, and_assoc, ← Bool.not_eq_true, satisfied_iff,
    ((byName_perm hd).map (·.object)).mem_iff, order_resolve, Excused]

theorem nodup_eraseDups {α : Type} [BEq α] [LawfulBEq α] (xs : List α) : xs.eraseDups.Nodup := by
  induction hn : xs.length using Nat.strongRecOn generalizing xs with
  | _ n ih =>
    cases xs with
    | nil => exact List.nodup_nil
    | cons x xs =>
      rw [List.eraseDups_cons]
      have hlength := List.length_filter_le (fun y => !y == x) xs
      refine List.nodup_cons.mpr ⟨fun hmem => ?_, ih _ ?_ _ rfl⟩
      · simp [List.mem_eraseDups] at hmem
      · rw [← hn, List.length_cons]
        omega

/-- What the requirements of one object are sorted by: that of no symbol comes first. -/
def symbolKey : Option String → WithBot String
  | none => ⊥
  | some name => name

/-- What reports are sorted by. -/
def reportKey (u : Unresolved) : String ×ₗ String ×ₗ WithBot String :=
  toLex (u.object, toLex (u.requirement.object, symbolKey u.requirement.symbol))

theorem symbolKey_injective : Function.Injective symbolKey := by
  intro a b h
  cases a <;> cases b <;> simp_all [symbolKey]

theorem reportKey_injective : Function.Injective reportKey := by
  rintro ⟨a, b, s⟩ ⟨a', b', s'⟩ h
  obtain ⟨rfl, hrest⟩ := Prod.ext_iff.mp (toLex_inj.mp h)
  obtain ⟨rfl, hsymbol⟩ := Prod.ext_iff.mp (toLex_inj.mp hrest)
  obtain rfl := symbolKey_injective hsymbol
  rfl

theorem symbolLe_iff {a b : Option String} :
    Unresolved.symbolLe a b = true ↔ symbolKey a ≤ symbolKey b := by
  cases a <;> cases b <;> simp [Unresolved.symbolLe, symbolKey]

theorem le_iff_reportKey {u v : Unresolved} : u.le v = true ↔ reportKey u ≤ reportKey v := by
  simp [Unresolved.le, reportKey, Prod.Lex.le_iff, symbolLe_iff]

/-- Reports are sorted, and there are no two of one requirement. -/
theorem unresolved_sorted (demands : List Demand) (mock : Bool) :
    (resolve demands mock).unresolved.Pairwise (fun u v => reportKey u ≤ reportKey v) ∧
      (resolve demands mock).unresolved.Nodup := by
  have hunfold : ∃ reports : List Unresolved,
      (resolve demands mock).unresolved = reports.eraseDups.mergeSort Unresolved.le := ⟨_, rfl⟩
  obtain ⟨reports, heq⟩ := hunfold
  rw [heq]
  refine ⟨?_, (List.mergeSort_perm _ _).nodup_iff.mpr (nodup_eraseDups _)⟩
  refine (List.pairwise_mergeSort ?_ ?_ _).imp le_iff_reportKey.mp
  · intro u v w huv hvw
    exact le_iff_reportKey.mpr ((le_iff_reportKey.mp huv).trans (le_iff_reportKey.mp hvw))
  · intro u v
    rw [Bool.or_eq_true, le_iff_reportKey, le_iff_reportKey]
    exact le_total _ _

/-- Of reports with the same members there is one sorted list. -/
theorem unresolved_eq_of_mem_iff
    (h : ∀ u, u ∈ (resolve others mock).unresolved ↔ u ∈ (resolve demands mock).unresolved) :
    (resolve others mock).unresolved = (resolve demands mock).unresolved := by
  obtain ⟨hsorted, hnodup⟩ := unresolved_sorted others mock
  obtain ⟨hsorted', hnodup'⟩ := unresolved_sorted demands mock
  refine ((List.perm_ext_iff_of_nodup hnodup hnodup').mpr h).eq_of_pairwise ?_ hsorted hsorted'
  intro u v _ _ huv hvu
  exact reportKey_injective (le_antisymm huv hvu)

/-! ## The result -/

theorem before_asymm {a b : String} (hab : Before round a b) : ¬Before round b a := by
  rintro (hlt | ⟨heq, hlt⟩)
  · rcases hab with hlt' | ⟨heq', -⟩ <;> omega
  · rcases hab with hlt' | ⟨-, hlt'⟩
    · omega
    · exact String.lt_asymm hlt hlt'

/-- Demands that say the same have the same order. -/
theorem order_eq_of_sameDemands (hd : (demands.map (·.object)).Nodup)
    (h : SameDemands others demands) : (resolve others mock).order = (resolve demands mock).order := by
  have hd' := h.names.nodup_iff.mpr hd
  obtain ⟨round, hround⟩ := exists_isRound hd mock
  have hsorted := sorted_order hd hround
  have hsorted' := sorted_order hd' (h.isRound hround)
  have hne : ∀ a b, Before round a b → a ≠ b := by
    rintro a b hlt rfl
    exact before_asymm hlt hlt
  have hperm : (resolve others mock).order.Perm (resolve demands mock).order := by
    refine (List.perm_ext_iff_of_nodup (hsorted'.imp (hne _ _)) (hsorted.imp (hne _ _))).mpr ?_
    intro name
    rw [mem_order_iff_placeable hd', mem_order_iff_placeable hd, h.placeable_iff]
  refine hperm.eq_of_pairwise ?_ hsorted' hsorted
  intro a b _ _ hab hba
  exact absurd hba (before_asymm hab)

/-- Demands that say the same have the same reports. -/
theorem mem_unresolved_of_sameDemands (hd : (demands.map (·.object)).Nodup)
    (h : SameDemands others demands) {u : Unresolved}
    (hu : u ∈ (resolve demands mock).unresolved) : u ∈ (resolve others mock).unresolved := by
  have horder : (resolve others mock).order = (resolve demands mock).order :=
    order_eq_of_sameDemands hd h
  rw [mem_unresolved_iff_order hd] at hu
  rw [mem_unresolved_iff_order (h.names.nodup_iff.mpr hd), horder]
  obtain ⟨d, hmem, hout, r, hr, hunmet, rfl⟩ := hu
  obtain ⟨e, he, hshape⟩ := h.exists_shape_eq hmem
  obtain ⟨hname, hrequirements⟩ := shape_eq_iff.mp hshape
  refine ⟨e, he, hname ▸ hout, r, (hrequirements r).mpr hr, ?_, by rw [hname]⟩
  rwa [Excused, h.names.mem_iff]

/-- **The build order is canonical.**  Every object that can be placed has a round: zero without
requirements, and otherwise one more than the last of those that it requires.  The order has the
objects that can be placed, sorted by round and then by name.  So neither the order of the demands nor
the order or the number of the requirements of one object changes anything in the result. -/
theorem resolve_canonical (hd : (demands.map (·.object)).Nodup) (mock : Bool) :
    (∃ round, IsRound demands mock round) ∧
      (∀ round, IsRound demands mock round →
        (resolve demands mock).order.Pairwise (Before round) ∧
          ∀ name, name ∈ (resolve demands mock).order ↔ Placeable demands mock name) ∧
      ∀ others, SameDemands others demands → resolve others mock = resolve demands mock := by
  refine ⟨exists_isRound hd mock, ?_, ?_⟩
  · intro round hround
    exact ⟨sorted_order hd hround, fun name => mem_order_iff_placeable hd⟩
  · intro others hsame
    have horder : (resolve others mock).order = (resolve demands mock).order :=
      order_eq_of_sameDemands hd hsame
    have hreports : (resolve others mock).unresolved = (resolve demands mock).unresolved := by
      refine unresolved_eq_of_mem_iff fun u => ⟨?_, mem_unresolved_of_sameDemands hd hsame⟩
      exact mem_unresolved_of_sameDemands (hsame.names.nodup_iff.mpr hd) (List.Perm.symm hsame)
    cases hothers : resolve others mock
    cases hdemands : resolve demands mock
    rw [hothers, hdemands] at horder hreports
    exact congrArg₂ BuildOrder.mk horder hreports

/-- Two objects that require a third, one that requires both of them, one that requires a missing
object, and one that requires itself. -/
def diamondDemands : List Demand :=
  [⟨"E", [⟨"B", none⟩, ⟨"A", some "x"⟩]⟩, ⟨"C", [⟨"Missing", none⟩]⟩, ⟨"B", [⟨"D", none⟩]⟩,
    ⟨"D", []⟩, ⟨"A", [⟨"D", none⟩]⟩, ⟨"F", [⟨"F", none⟩]⟩]

/-- The same demands, listed differently. -/
def shuffledDemands : List Demand :=
  [⟨"D", []⟩, ⟨"A", [⟨"D", none⟩, ⟨"D", none⟩]⟩, ⟨"B", [⟨"D", none⟩]⟩, ⟨"C", [⟨"Missing", none⟩]⟩,
    ⟨"E", [⟨"A", some "x"⟩, ⟨"B", none⟩, ⟨"A", some "x"⟩]⟩, ⟨"F", [⟨"F", none⟩]⟩]

def diamondRound (name : String) : Nat := if name = "D" then 0 else if name = "E" then 2 else 1

theorem resolve_canonical_diamondDemands :
    (diamondDemands.map (·.object)).Nodup ∧ IsRound diamondDemands true diamondRound ∧
      (resolve diamondDemands true).order.Pairwise (Before diamondRound) ∧
      (resolve diamondDemands true).order = ["D", "A", "B", "C", "E"] ∧
      Placeable diamondDemands true "E" ∧ SameDemands shuffledDemands diamondDemands ∧
      resolve shuffledDemands true = resolve diamondDemands true := by
  have hd : (diamondDemands.map (·.object)).Nodup := by decide
  have hround : IsRound diamondDemands true diamondRound := by
    have hself : Requires diamondDemands "F" "F" :=
      ⟨⟨"F", [⟨"F", none⟩]⟩, by decide, rfl, ⟨"F", none⟩, by decide, rfl⟩
    have hother : ∀ d ∈ diamondDemands, d.object ≠ "F" →
        diamondRound d.object = nextRound diamondDemands diamondRound d := by decide
    intro d hmem hplaceable
    refine hother d hmem fun hname => hplaceable.2 "F" ?_ (Or.inl (.single hself))
    rw [hname]
  have horder : (resolve diamondDemands true).order = ["D", "A", "B", "C", "E"] := by cbv
  have hsame : SameDemands shuffledDemands diamondDemands := by decide
  obtain ⟨-, hcanonical, hinvariant⟩ := resolve_canonical hd true
  refine ⟨hd, hround, (hcanonical _ hround).1, horder, ?_, hsame, hinvariant _ hsame⟩
  exact ((hcanonical _ hround).2 "E").mp (by rw [horder]; decide)

end LinkAsm.BuildOrder
