import Mathlib
import LinkAsm.Proofs.Order.Reordering

/-!
# The block of an entry point

The block at a position of an object has the instructions from there on that no later label is at
or before (`Layout.InBlock`).  A program starts with the block of its entry point: the first
instruction of that block gets number zero, unless the block is empty.  If the block is empty or
starts where the program starts anyway, nothing moves at all.

* `Layout.mem_numbers_blockRange`: the range of a block has the numbers of its instructions.
* `InstructionOrder.startingAt_eq`: the order for an entry point.
* `InstructionOrder.startingAt_of_idle`: when nothing moves.
* `InstructionOrder.translate_startingAt`: what comes first.
-/

namespace LinkAsm

namespace Layout

/-- Whether an instruction of an object is in the block at `position`: it is not before the block,
and no label behind `position` is at or before it. -/
def InBlock (o : Layout) (position k : Nat) : Prop :=
  position ≤ k ∧ k < o.count ∧ ∀ later ∈ o.labels.values, position < later → k < later

instance (o : Layout) (position k : Nat) : Decidable (o.InBlock position k) :=
  inferInstanceAs (Decidable (_ ∧ _ ∧ _))

theorem lt_min?_getD_iff (xs : List Nat) {n k : Nat} (hk : k < n) :
    k < xs.min?.getD n ↔ ∀ x ∈ xs, k < x := by
  cases hmin : xs.min? with
  | none =>
    rw [List.min?_eq_none_iff] at hmin
    simp [hmin, hk]
  | some m =>
    obtain ⟨hmem, hle⟩ := List.min?_eq_some_iff.mp hmin
    rw [Option.getD_some]
    refine ⟨fun h x hx => Nat.lt_of_lt_of_le h (hle x hx), fun h => h m hmem⟩

/-- The range of a block has the numbers of its instructions. -/
theorem mem_numbers_blockRange {o : Layout} {start position k : Nat} :
    start + k ∈ InstructionOrder.numbers (o.blockRange start position) ↔ o.InBlock position k := by
  rw [InstructionOrder.mem_numbers]
  by_cases hk : k < o.count
  · have hstop := lt_min?_getD_iff (o.labels.values.filter (position < ·)) hk
    simp only [List.mem_filter, decide_eq_true_eq, and_imp] at hstop
    simp only [blockRange, InBlock, ← hstop]
    omega
  · simp only [blockRange, InBlock]
    omega

/-- A block that has an instruction starts with the one at its position. -/
theorem InBlock.blockRange_eq {o : Layout} {position k : Nat} (h : o.InBlock position k)
    (start : Nat) : (o.blockRange start position).1 = start + position ∧
      start + position < (o.blockRange start position).2 := by
  have hmem : start + k ∈ InstructionOrder.numbers (o.blockRange start position) :=
    mem_numbers_blockRange.mpr h
  rw [InstructionOrder.mem_numbers] at hmem
  obtain ⟨hle, hlt, -⟩ := h
  have hfirst : (o.blockRange start position).1 = start + position := by
    simp only [blockRange]
    omega
  omega

theorem blockRange_of_empty {o : Layout} {position : Nat} (h : ∀ k, ¬o.InBlock position k)
    (start : Nat) : (o.blockRange start position).2 ≤ (o.blockRange start position).1 := by
  by_contra hlt
  have hfirst : start + min position o.count ∈
      InstructionOrder.numbers (o.blockRange start position) :=
    InstructionOrder.mem_numbers.mpr ⟨Nat.le_refl _, Nat.not_le.mp hlt⟩
  exact h _ (mem_numbers_blockRange.mp hfirst)

/-- An object is found where it starts. -/
theorem find?_starts_split (n : Nat) {before after : List Layout} {o : Layout}
    (h : ((before ++ o :: after).map (·.object)).Nodup) :
    (starts n (before ++ o :: after)).find? (·.1.object == o.object) =
      some (o, n + total before) := by
  induction before generalizing n with
  | nil => simp [starts, total]
  | cons b before ih =>
    rw [List.cons_append, List.map_cons, List.nodup_cons] at h
    have hne : (b.object == o.object) = false := by
      refine beq_eq_false_iff_ne.mpr fun heq => h.1 ?_
      simp [heq]
    rw [List.cons_append, starts, List.find?_cons, hne, total_cons, ← Nat.add_assoc]
    exact ih (n + b.count) h.2

end Layout

namespace InstructionOrder

variable {before after : List Layout} {o : Layout} {entry : EntryPoint} {position : Nat}

/-- The order for an entry point at a label of an object. -/
theorem startingAt_eq (hobject : o.object = entry.object)
    (hd : ((before ++ o :: after).map (·.object)).Nodup)
    (hlabel : o.labels.find? entry.label = some position) :
    startingAt (before ++ o :: after) entry =
      if (o.blockRange (Layout.total before) position).2 ≤
          (o.blockRange (Layout.total before) position).1 ||
        (o.blockRange (Layout.total before) position).1 = 0 then
        .ok (natural (before ++ o :: after))
      else .ok (ofOrder (before ++ o :: after) (movedToFront (Layout.total (before ++ o :: after))
        (o.blockRange (Layout.total before) position)
        (Layout.firstRange (before ++ o :: after)))) := by
  have hfound := Layout.find?_starts_split 0 hd
  rw [Nat.zero_add, hobject] at hfound
  simp only [startingAt, hfound, hlabel, Layout.firstRange_fst]
  split
  · rfl
  · next hcond =>
    simp only [Bool.or_eq_true, decide_eq_true_eq, not_or, Nat.not_le] at hcond
    have hmem : (o, Layout.total before) ∈ Layout.starts 0 (before ++ o :: after) :=
      List.mem_of_find?_eq_some hfound
    have hposition : position ∈ o.labels.values :=
      List.mem_map.mpr ⟨_, NameMap.find?_eq_some_iff.mp hlabel, rfl⟩
    have hzero := Layout.firstRange_fst (before ++ o :: after)
    have hle := Layout.firstRange_le_of_target hmem hposition hcond.1 (hzero ▸ hcond.2)
    rw [rearranged_eq _ hzero hle]

/-- An order for an entry point exists only if the program has its label. -/
theorem exists_label_of_startingAt {layout : List Layout} {m : InstructionOrder}
    (hm : startingAt layout entry = .ok m) :
    ∃ o ∈ layout, o.object = entry.object ∧
      ∃ position, o.labels.find? entry.label = some position := by
  unfold startingAt at hm
  split at hm
  · cases hm
  · next o start ho =>
    split at hm
    · cases hm
    · next position hposition =>
      have hmem := Layout.mem_of_mem_starts (List.mem_of_find?_eq_some ho)
      have hobject : (o.object == entry.object) = true :=
        List.find?_some (p := fun x : Layout × Nat => x.1.object == entry.object) ho
      exact ⟨o, hmem, beq_iff_eq.mp hobject, position, hposition⟩

/-- Nothing moves for a block that is empty or is the first of the program. -/
theorem startingAt_of_idle (hobject : o.object = entry.object)
    (hd : ((before ++ o :: after).map (·.object)).Nodup)
    (hlabel : o.labels.find? entry.label = some position)
    (hidle : (∀ k, ¬o.InBlock position k) ∨ position = 0 ∧ Layout.total before = 0) :
    startingAt (before ++ o :: after) entry = .ok (natural (before ++ o :: after)) := by
  rw [startingAt_eq hobject hd hlabel, if_pos]
  rw [Bool.or_eq_true, decide_eq_true_eq, decide_eq_true_eq]
  rcases hidle with hempty | ⟨rfl, hzero⟩
  · exact Or.inl (Layout.blockRange_of_empty hempty _)
  · refine Or.inr ?_
    simp [Layout.blockRange, hzero]

theorem idxOf_movedToFront {total : Nat} {first second : Nat × Nat} (h : first.1 < first.2) :
    (movedToFront total first second).idxOf first.1 = 0 := by
  obtain ⟨n, hn⟩ : ∃ n, first.2 - first.1 = n + 1 := ⟨first.2 - first.1 - 1, by omega⟩
  rw [movedToFront, numbers, hn, List.range'_succ]
  simp

/-- The first instruction of a block comes first in the order that starts with it. -/
theorem translate_startingAt {m : InstructionOrder} {k : Nat} (hobject : o.object = entry.object)
    (hd : ((before ++ o :: after).map (·.object)).Nodup)
    (hlabel : o.labels.find? entry.label = some position)
    (hk : o.InBlock position k) (hm : startingAt (before ++ o :: after) entry = .ok m) :
    m.translate (Layout.total before + position) = 0 := by
  obtain ⟨hstart, hlt⟩ := hk.blockRange_eq (Layout.total before)
  rw [startingAt_eq hobject hd hlabel] at hm
  split at hm
  · next hcond =>
    cases hm
    rw [translate_natural]
    simp only [Bool.or_eq_true, decide_eq_true_eq] at hcond
    omega
  · cases hm
    have hbound : Layout.total before + position < Layout.total (before ++ o :: after) := by
      have hmem := Layout.mem_starts_split 0 before o after
      have := (Layout.bounds_of_mem_starts hmem).2
      have := hk.1
      have := hk.2.1
      omega
    rw [translate_of_lt _ hbound, ← hstart]
    exact idxOf_movedToFront (by omega)

end InstructionOrder

end LinkAsm
