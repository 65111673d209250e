import Mathlib
import LinkAsm.Proofs.Order.Blocks

/-!
# The exact sequence of instructions

A program that starts at an entry point has the instructions of that block first, then those of the
block that was first, and then all others as they were.  This file says so in terms of blocks
(`Layout.blockNumbers`, `Layout.firstBlock`), without the ranges that the walk is made with, and of
the lookup by the number after reordering.

Blocks end where labels stand.  So of two instructions that follow each other in an object without a
label between them, both are in a block or none is, and they stay together wherever their block goes.

* `InstructionOrder.sequence_ofOrder`: an order is what its lookup reads.
* `InstructionOrder.startingAt_eq_error_iff`: which entry points a program does not have.
* `InstructionOrder.infix_movedToFront`: what follows each other and is in the same blocks stays
  together.
* `InstructionOrder.startingAt_sequence`: the sequence for an entry point.
-/

namespace LinkAsm

/-! ## Blocks as lists of numbers -/

namespace Layout

/-- The numbers of the block at `position` in an object that starts at `start`, in order. -/
def blockNumbers (o : Layout) (start position : Nat) : List Nat :=
  ((List.range o.count).filter (o.InBlock position ·)).map (start + ·)

/-- The numbers of the block that a program starts with: that at the first instruction of the first
object that has any. -/
def firstBlock : List Layout → List Nat
  | [] => []
  | o :: os => if o.count = 0 then firstBlock os else o.blockNumbers 0 0

theorem mem_blockNumbers {o : Layout} {start position i : Nat} :
    i ∈ o.blockNumbers start position ↔ ∃ k, o.InBlock position k ∧ start + k = i := by
  simp only [blockNumbers, List.mem_map, List.mem_filter, List.mem_range, decide_eq_true_eq]
  refine exists_congr fun k => and_congr_left fun _ => ?_
  exact and_iff_right_of_imp fun h => h.2.1

theorem mem_numbers_blockRange_iff {o : Layout} {start position i : Nat} :
    i ∈ InstructionOrder.numbers (o.blockRange start position) ↔
      ∃ k, o.InBlock position k ∧ start + k = i := by
  constructor
  · intro h
    have hstart : start ≤ i := by
      rw [InstructionOrder.mem_numbers] at h
      simp only [blockRange] at h
      omega
    obtain ⟨k, rfl⟩ := Nat.exists_eq_add_of_le hstart
    exact ⟨k, mem_numbers_blockRange.mp h, rfl⟩
  · rintro ⟨k, hk, rfl⟩
    exact mem_numbers_blockRange.mpr hk

/-- The range of a block is the list of its numbers. -/
theorem numbers_blockRange (o : Layout) (start position : Nat) :
    InstructionOrder.numbers (o.blockRange start position) = o.blockNumbers start position := by
  have hrange : (InstructionOrder.numbers (o.blockRange start position)).Pairwise (· < ·) :=
    List.pairwise_lt_range'
  have hblock : (o.blockNumbers start position).Pairwise (· < ·) := by
    refine List.pairwise_map.mpr ((List.pairwise_lt_range.filter _).imp ?_)
    intro a b hab
    omega
  refine List.Perm.eq_of_pairwise' hrange hblock ?_
  rw [List.perm_ext_iff_of_nodup hrange.nodup hblock.nodup]
  intro i
  rw [mem_numbers_blockRange_iff, mem_blockNumbers]

/-- The range of the first block of a program is the list of its numbers. -/
theorem numbers_firstRange (layout : List Layout) :
    InstructionOrder.numbers (firstRange layout) = firstBlock layout := by
  induction layout with
  | nil => rfl
  | cons o os ih =>
    by_cases hc : o.count = 0
    · have hskip : firstRange (o :: os) = firstRange os := by
        simp [firstRange, starts, hc]
      rw [firstBlock, if_pos hc, hskip, ih]
    · have hfound : firstRange (o :: os) = o.blockRange 0 0 := by
        simp [firstRange, starts, Nat.pos_of_ne_zero hc]
      rw [firstBlock, if_neg hc, hfound, numbers_blockRange]

/-- Whether an instruction is in a block is the same for the one before it, if no label stands
between them. -/
theorem inBlock_succ_iff {o : Layout} {position k : Nat}
    (hp : position ∈ o.labels.values ∨ position = 0) (hk : k + 1 < o.count)
    (hlabel : k + 1 ∉ o.labels.values) : o.InBlock position (k + 1) ↔ o.InBlock position k := by
  have hne : position ≠ k + 1 := by
    rintro rfl
    exact hp.elim hlabel (Nat.succ_ne_zero k)
  constructor
  · rintro ⟨hle, -, hlater⟩
    refine ⟨by omega, by omega, ?_⟩
    intro later hmem hlt
    have := hlater later hmem hlt
    omega
  · rintro ⟨hle, -, hlater⟩
    refine ⟨by omega, hk, ?_⟩
    intro later hmem hlt
    have hk' := hlater later hmem hlt
    have hother : later ≠ k + 1 := by
      rintro rfl
      exact hlabel hmem
    omega

section Distinct

variable {layout : List Layout} {o p : Layout} {start start' k : Nat}

/-- A number belongs to one position of one object. -/
theorem eq_of_starts_eq (hd : (layout.map (·.object)).Nodup) (ho : (o, start) ∈ starts 0 layout)
    (hp : (p, start') ∈ starts 0 layout) {j : Nat} (hj : j < o.count) (hk : k < p.count)
    (heq : start + j = start' + k) : p = o ∧ j = k := by
  have hslot := slots_eq_of_mem_starts ho hj
  have hslot' := slots_eq_of_mem_starts hp hk
  rw [Nat.sub_zero, heq] at hslot
  rw [Nat.sub_zero, hslot, Option.some.injEq, Prod.mk.injEq] at hslot'
  refine ⟨?_, hslot'.2⟩
  exact List.inj_on_of_nodup_map hd (mem_of_mem_starts hp) (mem_of_mem_starts ho) hslot'.1.symm

/-- Whether a number is in a block is the same for the number before it, if no label stands between
them. -/
theorem succ_mem_blockNumbers_iff (hd : (layout.map (·.object)).Nodup)
    (ho : (o, start) ∈ starts 0 layout) (hp : (p, start') ∈ starts 0 layout) {position : Nat}
    (hposition : position ∈ o.labels.values ∨ position = 0) (hk : k + 1 < p.count)
    (hlabel : k + 1 ∉ p.labels.values) :
    start' + k + 1 ∈ o.blockNumbers start position ↔ start' + k ∈ o.blockNumbers start position := by
  simp only [mem_blockNumbers]
  constructor
  · rintro ⟨j, hj, heq⟩
    obtain ⟨rfl, rfl⟩ := eq_of_starts_eq (k := k + 1) hd ho hp hj.2.1 hk heq
    exact ⟨k, (inBlock_succ_iff hposition hk hlabel).mp hj, by omega⟩
  · rintro ⟨j, hj, heq⟩
    obtain ⟨rfl, rfl⟩ := eq_of_starts_eq hd ho hp hj.2.1 (Nat.lt_of_succ_lt hk) heq
    exact ⟨j + 1, (inBlock_succ_iff hposition hk hlabel).mpr hj, by omega⟩

/-- The same of the first block of the program. -/
theorem succ_mem_firstBlock_iff (hd : (layout.map (·.object)).Nodup)
    (hp : (p, start') ∈ starts 0 layout) (hk : k + 1 < p.count)
    (hlabel : k + 1 ∉ p.labels.values) :
    start' + k + 1 ∈ firstBlock layout ↔ start' + k ∈ firstBlock layout := by
  rw [← numbers_firstRange]
  unfold firstRange
  split
  · simp [InstructionOrder.mem_numbers]
  · next f first hf =>
    rw [numbers_blockRange]
    exact succ_mem_blockNumbers_iff hd (List.mem_of_find?_eq_some hf) hp (Or.inr rfl) hk hlabel

end Distinct

end Layout

namespace InstructionOrder

/-! ## Reading the order back -/

/-- The numbers before reordering, as the instructions follow each other after it. -/
def sequence (m : InstructionOrder) : List Nat :=
  (List.range m.size).filterMap fun j => (m.byReordered? j).map (·.natural)

theorem sequence_ofOrder {layout : List Layout} {order : List Nat}
    (hp : order.Perm (List.range (Layout.total layout))) :
    (ofOrder layout order).sequence = order := by
  have hread : ∀ j, ((ofOrder layout order).byReordered? j).map (·.natural) = order[j]? := by
    intro j
    cases hj : order[j]? with
    | none => simp [byReordered?, ofOrder, hj]
    | some i =>
      have hi : i < Layout.total layout := (mem_order_iff hp).mp (List.mem_of_getElem? hj)
      have hnatural := natural_byNatural? layout order i
      rw [if_pos hi] at hnatural
      rw [byReordered?, show (ofOrder layout order).order[j]? = some i from hj, Option.bind_some,
        hnatural]
  have hall : order.map some = (List.range order.length).map (order[·]?) := by
    refine List.ext_getElem (by simp) fun j h _ => ?_
    have hj : j < order.length := by simpa using h
    simp [hj]
  simp only [sequence, hread, size_ofOrder, ← length_order hp]
  calc
    (List.range order.length).filterMap (order[·]?)
        = ((List.range order.length).map (order[·]?)).filterMap id := by
          rw [List.filterMap_map, Function.id_comp]
    _ = order := by rw [← hall, List.filterMap_map, Function.id_comp, List.filterMap_some]

theorem isNatural_natural (layout : List Layout) : (natural layout).isNatural = true := by
  refine List.all_eq_true.mpr fun p hp => ?_
  obtain ⟨o, start, k, ho, hk, rfl⟩ := exists_starts_of_mem hp
  have hlt : start + k < Layout.total layout := by
    have hb := (Layout.bounds_of_mem_starts ho).2
    omega
  have hstays := translate_natural layout (start + k)
  rw [natural, translate_of_lt _ hlt] at hstays
  exact beq_iff_eq.mpr hstays.symm

/-! ## Entry points that are not there -/

theorem startingAt_eq_error_iff {layout : List Layout} (hd : (layout.map (·.object)).Nodup)
    (entry : EntryPoint) (e : EntryError) :
    startingAt layout entry = .error e ↔
      e = .unknownObject entry.object ∧ (∀ o ∈ layout, o.object ≠ entry.object) ∨
      e = .unknownLabel entry.object entry.label ∧
        ∃ o ∈ layout, o.object = entry.object ∧ o.labels.find? entry.label = none := by
  by_cases hobject : ∃ o ∈ layout, o.object = entry.object
  · obtain ⟨o, ho, hname⟩ := hobject
    have hnone : ¬∀ p ∈ layout, p.object ≠ entry.object := fun h => h o ho hname
    obtain ⟨before, after, rfl⟩ := List.append_of_mem ho
    have hfound := Layout.find?_starts_split 0 hd
    rw [hname] at hfound
    cases hlabel : o.labels.find? entry.label with
    | none =>
      have hlacks : ∃ p ∈ before ++ o :: after, p.object = entry.object ∧
          p.labels.find? entry.label = none := ⟨o, ho, hname, hlabel⟩
      simp only [startingAt, hfound, hlabel, Except.error.injEq, hnone, and_false, false_or, hlacks,
        and_true]
      exact eq_comm
    | some position =>
      have hhas : ¬∃ p ∈ before ++ o :: after, p.object = entry.object ∧
          p.labels.find? entry.label = none := by
        rintro ⟨p, hp, hpname, hlacks⟩
        obtain rfl : p = o := List.inj_on_of_nodup_map hd hp ho (hpname.trans hname.symm)
        rw [hlabel] at hlacks
        cases hlacks
      simp only [hnone, and_false, false_or, hhas, iff_false]
      rw [startingAt_eq hname hd hlabel]
      split <;> simp
  · push Not at hobject
    have hmissing : (Layout.starts 0 layout).find? (·.1.object == entry.object) = none := by
      rw [List.find?_eq_none]
      intro x hx
      simpa using hobject x.1 (Layout.mem_of_mem_starts hx)
    have hlacks : ¬∃ o ∈ layout, o.object = entry.object ∧ o.labels.find? entry.label = none := by
      rintro ⟨o, ho, hname, -⟩
      exact hobject o ho hname
    simp only [startingAt, hmissing, Except.error.injEq, hlacks, and_false, or_false]
    constructor
    · rintro rfl
      exact ⟨rfl, hobject⟩
    · rintro ⟨rfl, -⟩
      rfl

/-! ## What stays together -/

/-- Of two numbers that follow each other in a list without repetition, the second has the next
place. -/
theorem idxOf_of_infix {order : List Nat} (hd : order.Nodup) {i j : Nat} (h : [i, j] <:+: order) :
    order.idxOf j = order.idxOf i + 1 := by
  obtain ⟨before, after, rfl⟩ := h
  have hi : i ∉ before := by
    simp only [List.append_assoc, List.nodup_append, List.mem_append, List.mem_cons] at hd
    exact fun hmem => hd.2.2 i hmem i (by simp) rfl
  have hj : j ∉ before := by
    simp only [List.append_assoc, List.nodup_append, List.mem_append, List.mem_cons] at hd
    exact fun hmem => hd.2.2 j hmem j (by simp) rfl
  have hij : i ≠ j := by
    rintro rfl
    simp [List.nodup_append] at hd
  rw [List.append_assoc, List.idxOf_append_of_notMem hi, List.idxOf_append_of_notMem hj]
  simp [List.idxOf_cons_ne _ hij]

theorem infix_range' {start length i : Nat} (hi : start ≤ i) (hlt : i + 1 < start + length) :
    [i, i + 1] <:+: List.range' start length := by
  refine ⟨List.range' start (i - start), List.range' (i + 2) (start + length - (i + 2)), ?_⟩
  have hpair : [i, i + 1] = List.range' i 2 := by simp [List.range'_succ]
  have hfront : List.range' start (i - start) ++ List.range' i 2 =
      List.range' start (i - start + 2) := by
    rw [← List.range'_append_1, Nat.add_sub_cancel' hi]
  have hback : start + (i - start + 2) = i + 2 := by omega
  rw [hpair, hfront, ← hback, List.range'_append_1]
  congr 1
  omega

/-- Two numbers, the second the next after the first, stay together if each of the two ranges has
both or none. -/
theorem infix_movedToFront {total i : Nat} {first second : Nat × Nat} (hi : i + 1 < total)
    (hfirst : i + 1 ∈ numbers first ↔ i ∈ numbers first)
    (hsecond : i + 1 ∈ numbers second ↔ i ∈ numbers second) :
    [i, i + 1] <:+: movedToFront total first second := by
  have hrange : ∀ range, i ∈ numbers range → i + 1 ∈ numbers range →
      [i, i + 1] <:+: numbers range := by
    intro range h h'
    rw [mem_numbers] at h h'
    exact infix_range' h.1 (by omega)
  unfold movedToFront
  by_cases h1 : i ∈ numbers first
  · have htogether := hrange first h1 (hfirst.mpr h1)
    exact htogether.trans ((List.prefix_append _ _).trans (List.prefix_append _ _)).isInfix
  · by_cases h2 : i ∈ numbers second
    · have htogether := hrange second h2 (hsecond.mpr h2)
      exact htogether.trans ((List.suffix_append _ _).isInfix.trans (List.prefix_append _ _).isInfix)
    · -- both are among the numbers that are left as they are
      have hpair : [i, i + 1] <:+: List.range total := by
        rw [List.range_eq_range']
        exact infix_range' (Nat.zero_le i) (by omega)
      have hleft := hpair.filter fun j => decide (j ∉ numbers first ++ numbers second)
      have hkeep : [i, i + 1].filter (fun j => decide (j ∉ numbers first ++ numbers second)) =
          [i, i + 1] := by
        simp [h1, h2, hfirst, hsecond]
      rw [hkeep] at hleft
      exact hleft.trans (List.suffix_append _ _).isInfix

/-! ## The sequence for an entry point -/

/-- A range is empty or starts with zero exactly if its list of numbers does. -/
theorem idle_iff (range : Nat × Nat) :
    (decide (range.2 ≤ range.1) || decide (range.1 = 0)) = true ↔
      numbers range = [] ∨ (numbers range).head? = some 0 := by
  rw [Bool.or_eq_true, decide_eq_true_eq, decide_eq_true_eq]
  rcases Nat.lt_or_ge range.1 range.2 with hlt | hle
  · obtain ⟨n, hn⟩ : ∃ n, range.2 - range.1 = n + 1 := ⟨range.2 - range.1 - 1, by omega⟩
    rw [numbers, hn, List.range'_succ, List.head?_cons, Option.some.injEq]
    simp [Nat.not_le.mpr hlt]
  · simp [numbers, hle]

section Moved

variable {layout : List Layout} {order : List Nat}

/-- An order that does not start with the first instruction moves something. -/
theorem isNatural_eq_false (hp : order.Perm (List.range (Layout.total layout))) {i : Nat}
    (hhead : order.head? = some i) (hi : i ≠ 0) : (ofOrder layout order).isNatural = false := by
  rw [Bool.eq_false_iff]
  intro hnatural
  obtain ⟨tail, rfl⟩ := List.head?_eq_some_iff.mp hhead
  have hstays := translate_of_isNatural hnatural i
  rw [translate_of_lt _ ((mem_order_iff hp).mp List.mem_cons_self), List.idxOf_cons_self] at hstays
  exact hi hstays.symm

/-- What follows each other in an order does so behind the translation. -/
theorem translate_of_infix (hp : order.Perm (List.range (Layout.total layout))) {i j : Nat}
    (h : [i, j] <:+: order) :
    (ofOrder layout order).translate j = (ofOrder layout order).translate i + 1 := by
  have hi : i < Layout.total layout := (mem_order_iff hp).mp (h.subset (by simp))
  have hj : j < Layout.total layout := (mem_order_iff hp).mp (h.subset (by simp))
  rw [translate_of_lt _ hi, translate_of_lt _ hj]
  exact idxOf_of_infix (nodup_order hp) h

end Moved

/-- The order of the walk in terms of blocks. -/
theorem movedToFront_blocks (layout : List Layout) (o : Layout) (start position : Nat) :
    movedToFront (Layout.total layout) (o.blockRange start position) (Layout.firstRange layout) =
      o.blockNumbers start position ++ Layout.firstBlock layout ++
        (List.range (Layout.total layout)).filter
          (· ∉ o.blockNumbers start position ++ Layout.firstBlock layout) := by
  rw [movedToFront, Layout.numbers_blockRange, Layout.numbers_firstRange]

/-- Two instructions without a label between them stay together when blocks are moved. -/
theorem infix_of_unlabelled {layout : List Layout} (hd : (layout.map (·.object)).Nodup)
    {o p : Layout} {start start' position k : Nat} (ho : (o, start) ∈ Layout.starts 0 layout)
    (hposition : position ∈ o.labels.values) (hp : (p, start') ∈ Layout.starts 0 layout)
    (hk : k + 1 < p.count) (hlabel : k + 1 ∉ p.labels.values) :
    [start' + k, start' + k + 1] <:+:
      movedToFront (Layout.total layout) (o.blockRange start position)
        (Layout.firstRange layout) := by
  have hlt := (Layout.bounds_of_mem_starts hp).2
  refine infix_movedToFront (by omega) ?_ ?_
  · rw [Layout.numbers_blockRange]
    exact Layout.succ_mem_blockNumbers_iff hd ho hp (Or.inl hposition) hk hlabel
  · rw [Layout.numbers_firstRange]
    exact Layout.succ_mem_firstBlock_iff hd hp hk hlabel

/-- **The exact sequence.**  A program has no order for an entry point exactly if it lacks the object
or the object lacks the label.  Otherwise everything stays as it is if the block of the entry point is
empty or comes first anyway; if not, this block comes first, the first block of the program behind it,
and then all other instructions as they were.  Only in the former case is every instruction where it
was, and in both cases two instructions that follow each other in an object stay together, if there is
no label at the second. -/
theorem startingAt_sequence {layout : List Layout} (hd : (layout.map (·.object)).Nodup)
    (entry : EntryPoint) :
    (∀ e, startingAt layout entry = .error e ↔
      e = .unknownObject entry.object ∧ (∀ o ∈ layout, o.object ≠ entry.object) ∨
      e = .unknownLabel entry.object entry.label ∧
        ∃ o ∈ layout, o.object = entry.object ∧ o.labels.find? entry.label = none) ∧
    ∀ before o after position, layout = before ++ o :: after → o.object = entry.object →
      o.labels.find? entry.label = some position →
      let block := o.blockNumbers (Layout.total before) position
      let first := Layout.firstBlock layout
      let total := Layout.total layout
      ∃ m, startingAt layout entry = .ok m ∧
        m.sequence = (if block = [] ∨ block.head? = some 0 then List.range total
          else block ++ first ++ (List.range total).filter (· ∉ block ++ first)) ∧
        (m.isNatural = true ↔ block = [] ∨ block.head? = some 0) ∧
        ∀ before' p after' k, layout = before' ++ p :: after' → k + 1 < p.count →
          k + 1 ∉ p.labels.values →
          m.translate (Layout.total before' + k + 1) = m.translate (Layout.total before' + k) + 1 := by
  refine ⟨startingAt_eq_error_iff hd entry, ?_⟩
  rintro before o after position rfl hobject hlabel block first total
  have hstart := startingAt_eq hobject hd hlabel
  have hidle := idle_iff (o.blockRange (Layout.total before) position)
  rw [Layout.numbers_blockRange] at hidle
  by_cases h : block = [] ∨ block.head? = some 0
  · rw [if_pos (hidle.mpr h)] at hstart
    refine ⟨_, hstart, ?_, iff_of_true (isNatural_natural _) h, ?_⟩
    · rw [if_pos h]
      exact sequence_ofOrder (.refl _)
    · intro before' p after' k _ _ _
      rw [translate_natural, translate_natural]
  · rw [if_neg (mt hidle.mp h)] at hstart
    obtain ⟨order, hp, horder⟩ := exists_order_of_startingAt hstart
    obtain rfl : movedToFront _ _ _ = order := congrArg InstructionOrder.order horder
    have hblocks := movedToFront_blocks (before ++ o :: after) o (Layout.total before) position
    refine ⟨_, hstart, ?_, ?_, ?_⟩
    · rw [if_neg h, sequence_ofOrder hp, hblocks]
    · obtain ⟨hne, hzero⟩ := not_or.mp h
      obtain ⟨i, tail, hcons⟩ : ∃ i tail, o.blockNumbers (Layout.total before) position = i :: tail :=
        List.exists_cons_of_ne_nil hne
      have hi : i ≠ 0 := by
        rintro rfl
        exact hzero (congrArg List.head? hcons)
      have hfalse := isNatural_eq_false hp (i := i) (by rw [hblocks, hcons]; rfl) hi
      simp [h, hfalse]
    · intro before' p after' k hsplit hk hnone
      have hobjects := Layout.mem_starts_split 0 before o after
      have hpair := Layout.mem_starts_split 0 before' p after'
      rw [← hsplit] at hpair
      rw [Nat.zero_add] at hobjects hpair
      have hlabelled : position ∈ o.labels.values :=
        List.mem_map.mpr ⟨_, NameMap.find?_eq_some_iff.mp hlabel, rfl⟩
      exact translate_of_infix hp (infix_of_unlabelled hd hobjects hlabelled hpair hk hnone)

/-- Three objects, one of them empty, the last with a label behind its end. -/
def threeObjects : List Layout :=
  [⟨"A", 2, .ofList [("a", 0)]⟩, ⟨"B", 0, .ofList [("b", 0)]⟩,
    ⟨"C", 4, .ofList [("c", 1), ("d", 3), ("e", 9)]⟩]

/-- The program of three objects starts with the second and third instruction of the last object,
which stay together. -/
theorem startingAt_sequence_threeObjects :
    (threeObjects.map (·.object)).Nodup ∧
      ∃ m, startingAt threeObjects ⟨"C", "c"⟩ = .ok m ∧ m.sequence = [3, 4, 0, 1, 2, 5] ∧
        m.isNatural = false ∧ m.translate 4 = m.translate 3 + 1 := by
  have hd : (threeObjects.map (·.object)).Nodup := by decide
  have hlabel : (NameMap.ofList [("c", 1), ("d", 3), ("e", 9)]).find? "c" = some 1 := by decide
  obtain ⟨m, hm, hsequence, hnatural, htogether⟩ := (startingAt_sequence hd ⟨"C", "c"⟩).2
    [⟨"A", 2, .ofList [("a", 0)]⟩, ⟨"B", 0, .ofList [("b", 0)]⟩] _ [] 1 rfl rfl hlabel
  refine ⟨hd, m, hm, ?_, ?_, ?_⟩
  · refine hsequence.trans ?_
    decide
  · rw [Bool.eq_false_iff, ne_eq, hnatural]
    decide
  · exact htogether [⟨"A", 2, .ofList [("a", 0)]⟩, ⟨"B", 0, .ofList [("b", 0)]⟩] _ [] 1 rfl
      (by decide) (by decide)

end InstructionOrder

end LinkAsm
