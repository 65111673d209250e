import Mathlib
import LinkAsm.Order.Instruction

/-!
# What the walk ends with

The walk of `InstructionOrder.rearranged` passes over the numbers of the first block, splices that
block in behind its end, takes up at the end what it has missed, and sorts everything behind the two
blocks by object.  If the first block starts with number zero and the block of the entry point stands
behind it, most of this does nothing.  After `n` numbers the walk has the two blocks and all other
numbers below `n` in their order (`foldl_step`), so nothing is missed; and these numbers increase, so
their objects are together already.

* `InstructionOrder.movedToFront`: the two blocks, then all other numbers as they are.
* `InstructionOrder.rearranged_eq`: the walk ends with this order.
-/

namespace LinkAsm

/-- A later number belongs to the same object or to a later one. -/
theorem Layout.owner_mono (layout : List Layout) {i j : Nat} (h : i ≤ j) :
    owner layout i ≤ owner layout j := by
  induction layout generalizing i j with
  | nil => exact Nat.le_refl _
  | cons o os ih =>
    have hrest := ih (i := i - o.count) (j := j - o.count) (by omega)
    simp only [owner]
    split
    · exact Nat.zero_le _
    · rw [if_neg (by omega)]
      omega

namespace InstructionOrder

theorem mem_numbers {range : Nat × Nat} {i : Nat} :
    i ∈ numbers range ↔ range.1 ≤ i ∧ i < range.2 := by
  rw [numbers, List.mem_range'_1]
  omega

theorem nodup_numbers (range : Nat × Nat) : (numbers range).Nodup := List.nodup_range'

/-- All numbers below `total` with those of two ranges moved to the front. -/
def movedToFront (total : Nat) (first second : Nat × Nat) : List Nat :=
  let front := numbers first ++ numbers second
  front ++ (List.range total).filter (· ∉ front)

theorem mem_movedToFront {total i : Nat} {first second : Nat × Nat} :
    i ∈ movedToFront total first second ↔
      i ∈ numbers first ++ numbers second ∨ i < total := by
  simp only [movedToFront, List.mem_append, List.mem_filter, List.mem_range, decide_eq_true_eq]
  tauto

/-! ## Taking numbers up -/

/-- Numbers that differ from each other are put behind an order, but for those that it has. -/
theorem place_eq {added : List Nat} (hd : added.Nodup) (order : List Nat) :
    place order added = order ++ added.filter (· ∉ order) := by
  induction added generalizing order with
  | nil => simp [place]
  | cons i added ih =>
    obtain ⟨hi, hd⟩ := List.nodup_cons.mp hd
    have hstep : place order (i :: added) = place (if i ∈ order then order else order ++ [i]) added :=
      rfl
    rw [hstep, ih hd]
    split
    · next hmem => rw [List.filter_cons_of_neg (by simpa using hmem)]
    · next hnew =>
      rw [List.filter_cons_of_pos (by simpa using hnew), List.append_assoc, List.singleton_append]
      congr 2
      refine List.filter_congr fun j hj => ?_
      have hne : j ≠ i := by
        rintro rfl
        exact hi hj
      simp [hne]

theorem place_of_subset {order added : List Nat} (hd : added.Nodup) (h : ∀ i ∈ added, i ∈ order) :
    place order added = order := by
  rw [place_eq hd, List.filter_eq_nil_iff.mpr, List.append_nil]
  intro i hi
  simpa using h i hi

/-! ## The walk -/

section Walk

variable {target first : Nat × Nat}

theorem movedToFront_succ (n : Nat) (target first : Nat × Nat) :
    place (movedToFront n target first) [n] = movedToFront (n + 1) target first := by
  have hlast : [n].filter (· ∉ movedToFront n target first) =
      [n].filter (· ∉ numbers target ++ numbers first) := by
    refine List.filter_congr fun i hi => ?_
    obtain rfl := List.mem_singleton.mp hi
    simp [mem_movedToFront]
  rw [place_eq (List.nodup_singleton n), hlast]
  simp [movedToFront, List.range_succ]

/-- Below the end of the first block there is nothing but this block. -/
theorem movedToFront_of_le (hzero : first.1 = 0) {n : Nat} (hn : n ≤ first.2) :
    movedToFront n target first = numbers target ++ numbers first := by
  rw [movedToFront, List.filter_eq_nil_iff.mpr, List.append_nil]
  intro i hi
  have hfirst : i ∈ numbers first := by
    rw [List.mem_range] at hi
    rw [mem_numbers]
    omega
  simp [hfirst]

/-- The first block has none of the numbers behind it. -/
theorem place_first (hle : first.2 ≤ target.1) :
    place (numbers target) (numbers first) = numbers target ++ numbers first := by
  rw [place_eq (nodup_numbers first), List.filter_eq_self.mpr]
  intro i hi
  rw [mem_numbers] at hi
  have hout : i ∉ numbers target := by
    rw [mem_numbers]
    omega
  simpa using hout

/-- **The walk after `n` numbers**: it has not come past the first block yet, or it has the two
blocks and every other number below `n`. -/
theorem foldl_step (hzero : first.1 = 0) (hle : first.2 ≤ target.1) (n : Nat) :
    (List.range n).foldl (Walk.step first) ⟨numbers target, false⟩ =
      if n ≤ first.2 then ⟨numbers target, false⟩ else ⟨movedToFront n target first, true⟩ := by
  induction n with
  | zero => simp
  | succ n ih =>
    rw [List.range_succ, List.foldl_concat, ih]
    rcases Nat.lt_trichotomy n first.2 with hlt | heq | hgt
    · -- the number is one of the first block
      rw [if_pos (by omega), if_pos (by omega), Walk.step, if_pos (by omega)]
    · -- the first number behind the block
      have hsplice : place (numbers target) (numbers first) = movedToFront n target first :=
        (place_first hle).trans (movedToFront_of_le hzero (by omega)).symm
      rw [if_pos (by omega), if_neg (by omega), Walk.step, if_neg (by omega),
        if_pos (by simpa using heq.ge), hsplice, movedToFront_succ]
    · rw [if_neg (by omega), if_neg (by omega), Walk.step, if_neg (by omega), if_neg (by simp),
        movedToFront_succ]

/-- The walk misses nothing. -/
theorem walked_eq (hzero : first.1 = 0) (hle : first.2 ≤ target.1) (total : Nat) :
    walked total target first = movedToFront total target first := by
  have hstart : place [] (numbers target) = numbers target := by
    simp [place_eq (nodup_numbers target)]
  have hend : place (movedToFront total target first) (List.range total) =
      movedToFront total target first := by
    refine place_of_subset List.nodup_range fun i hi => ?_
    exact mem_movedToFront.mpr (Or.inr (List.mem_range.mp hi))
  simp only [walked, hstart, foldl_step hzero hle]
  split
  · next hshort =>
    rw [if_neg Bool.false_ne_true, place_first hle, ← movedToFront_of_le hzero hshort, hend]
  · rw [if_pos rfl, hend]

end Walk

/-! ## Closing gaps -/

/-- In a list that increases, what is larger comes first no earlier. -/
theorem idxOf_le_of_le {keys : List Nat} (hs : keys.Pairwise (· ≤ ·)) {a b : Nat} (ha : a ∈ keys)
    (hb : b ∈ keys) (hab : a ≤ b) : keys.idxOf a ≤ keys.idxOf b := by
  by_contra hlt
  rw [Nat.not_le] at hlt
  have ha' := List.idxOf_lt_length_of_mem ha
  have hb' := List.idxOf_lt_length_of_mem hb
  have hba : keys[keys.idxOf b] ≤ keys[keys.idxOf a] := List.pairwise_iff_getElem.mp hs _ _ hb' ha' hlt
  rw [List.getElem_idxOf, List.getElem_idxOf] at hba
  exact absurd hlt (by rw [Nat.le_antisymm hab hba]; exact lt_irrefl _)

/-- Numbers that increase have no gaps to close. -/
theorem closeGaps_eq_self {layout : List Layout} {rest : List Nat} (h : rest.Pairwise (· ≤ ·)) :
    closeGaps layout rest = rest := by
  have howners : (rest.map (Layout.owner layout)).Pairwise (· ≤ ·) :=
    List.pairwise_map.mpr (h.imp (Layout.owner_mono layout))
  refine List.mergeSort_of_pairwise (h.imp_of_mem ?_)
  intro i j hi hj hij
  rw [decide_eq_true_eq]
  exact idxOf_le_of_le howners (List.mem_map_of_mem hi) (List.mem_map_of_mem hj)
    (Layout.owner_mono layout hij)

/-- **The walk moves the two blocks to the front and leaves the rest as it is.** -/
theorem rearranged_eq (layout : List Layout) {target first : Nat × Nat} (hzero : first.1 = 0)
    (hle : first.2 ≤ target.1) :
    rearranged layout target first = movedToFront (Layout.total layout) target first := by
  have hlength : target.2 - target.1 + (first.2 - first.1) =
      (numbers target ++ numbers first).length := by
    simp [numbers]
  have hrest : ((List.range (Layout.total layout)).filter
      (· ∉ numbers target ++ numbers first)).Pairwise (· ≤ ·) :=
    List.pairwise_le_range.filter _
  rw [rearranged, walked_eq hzero hle, hlength, movedToFront, List.take_left, List.drop_left,
    closeGaps_eq_self hrest]

end InstructionOrder

end LinkAsm
