import Mathlib
import LinkAsm.Proofs.Order.Walk

/-!
# The instruction order is a permutation

An instruction order is looked up in three ways: by the number before reordering, by the number
after it, and by object and position.  This file proves that the three agree and that reordering is
a permutation of the numbers below the number of instructions.

Everything is proved for `ofOrder layout order`, where `order` is any permutation of the numbers,
and the two ways to make an order are of that form: `natural` by definition, and `startingAt`
because the block of the entry point and the first block of the program share no instruction
(`firstRange_le_of_target`).

* `Layout.slots_eq_of_mem_starts`: which object and position a number belongs to.
* `InstructionOrder.movedToFront_perm`: moving two blocks to the front loses nothing.
* `InstructionOrder.lookups_coherent`: the three lookups and the translation.
-/

namespace LinkAsm

/-! ## Numbers, objects and positions -/

namespace Layout

theorem slots_cons (o : Layout) (os : List Layout) :
    slots (o :: os) = (List.range o.count).map (o.object, ·) ++ slots os := rfl

theorem total_cons (o : Layout) (os : List Layout) : total (o :: os) = o.count + total os := rfl

@[simp] theorem length_slots (layout : List Layout) : (slots layout).length = total layout := by
  induction layout with
  | nil => rfl
  | cons o os ih =>
    rw [slots_cons, total_cons, List.length_append, List.length_map, List.length_range, ih]

theorem mem_of_mem_starts {n start : Nat} {o : Layout} {layout : List Layout}
    (h : (o, start) ∈ starts n layout) : o ∈ layout := by
  induction layout generalizing n with
  | nil => simp [starts] at h
  | cons a os ih =>
    rcases List.mem_cons.mp h with heq | hrest
    · exact (Prod.mk.inj heq).1 ▸ List.mem_cons_self
    · exact List.mem_cons_of_mem _ (ih hrest)

theorem exists_mem_starts {o : Layout} {layout : List Layout} (n : Nat) (h : o ∈ layout) :
    ∃ start, (o, start) ∈ starts n layout := by
  induction layout generalizing n with
  | nil => simp at h
  | cons a os ih =>
    rcases List.mem_cons.mp h with rfl | hrest
    · exact ⟨n, List.mem_cons_self⟩
    · obtain ⟨start, hs⟩ := ih (n + a.count) hrest
      exact ⟨start, List.mem_cons_of_mem _ hs⟩

/-- An object starts behind the instructions of the objects before it. -/
theorem mem_starts_split (n : Nat) (before : List Layout) (o : Layout) (after : List Layout) :
    (o, n + total before) ∈ starts n (before ++ o :: after) := by
  induction before generalizing n with
  | nil => exact List.mem_cons_self
  | cons b before ih =>
    rw [total_cons, ← Nat.add_assoc]
    exact List.mem_cons_of_mem _ (ih (n + b.count))

/-- The instructions of an object lie between the first and the last of the program. -/
theorem bounds_of_mem_starts {n start : Nat} {o : Layout} {layout : List Layout}
    (h : (o, start) ∈ starts n layout) : n ≤ start ∧ start + o.count ≤ n + total layout := by
  induction layout generalizing n with
  | nil => simp [starts] at h
  | cons a os ih =>
    rw [total_cons]
    rcases List.mem_cons.mp h with heq | hrest
    · obtain ⟨rfl, rfl⟩ := Prod.mk.inj heq
      omega
    · have := ih hrest
      omega

/-- Every number below the total belongs to an object. -/
theorem exists_starts_of_lt {i n : Nat} {layout : List Layout} (h : i < total layout) :
    ∃ o start, (o, start) ∈ starts n layout ∧ start ≤ n + i ∧ n + i < start + o.count := by
  induction layout generalizing i n with
  | nil => simp [total] at h
  | cons a os ih =>
    rw [total_cons] at h
    by_cases hi : i < a.count
    · exact ⟨a, n, List.mem_cons_self, by omega, by omega⟩
    · obtain ⟨o, start, hs, h1, h2⟩ := ih (i := i - a.count) (n := n + a.count) (by omega)
      exact ⟨o, start, List.mem_cons_of_mem _ hs, by omega, by omega⟩

theorem zipIdx_map_range (f : Nat → String × Nat) (c n : Nat) :
    ((List.range c).map f).zipIdx n = (List.range c).map fun k => (f k, n + k) := by
  apply List.ext_getElem
  · simp
  · intro k h₁ h₂
    simp

theorem filter_slots_of_notMem {name : String} {layout : List Layout} (n : Nat)
    (h : name ∉ layout.map (·.object)) :
    ((slots layout).zipIdx n).filter (·.1.1 == name) = [] := by
  rw [List.filter_eq_nil_iff]
  rintro ⟨⟨object, line⟩, i⟩ hmem heq
  have hslot := List.fst_mem_of_mem_zipIdx hmem
  obtain ⟨o, ho, hline⟩ := List.mem_flatMap.mp hslot
  obtain ⟨k, -, hk⟩ := List.mem_map.mp hline
  apply h
  rw [← beq_iff_eq.mp heq]
  exact List.mem_map.mpr ⟨o, ho, (Prod.mk.inj hk).1⟩

/-- The numbers of an object's instructions follow each other, in the order of their positions. -/
theorem filter_slots_of_mem_starts {n start : Nat} {o : Layout} {layout : List Layout}
    (hd : (layout.map (·.object)).Nodup) (h : (o, start) ∈ starts n layout) :
    ((slots layout).zipIdx n).filter (·.1.1 == o.object) =
      (List.range o.count).map fun k => ((o.object, k), start + k) := by
  induction layout generalizing n with
  | nil => simp [starts] at h
  | cons a os ih =>
    obtain ⟨ha, hos⟩ := List.nodup_cons.mp hd
    rw [slots_cons, List.zipIdx_append, List.filter_append, zipIdx_map_range, List.length_map,
      List.length_range]
    rcases List.mem_cons.mp h with heq | hrest
    · obtain ⟨rfl, rfl⟩ := Prod.mk.inj heq
      rw [filter_slots_of_notMem _ ha, List.append_nil, List.filter_eq_self]
      intro x hx
      obtain ⟨k, -, rfl⟩ := List.mem_map.mp hx
      exact beq_self_eq_true _
    · have hne : a.object ≠ o.object := by
        intro heq
        exact ha (List.mem_map.mpr ⟨o, mem_of_mem_starts hrest, heq.symm⟩)
      rw [ih hos hrest, List.filter_eq_nil_iff.mpr, List.nil_append]
      intro x hx
      obtain ⟨k, -, rfl⟩ := List.mem_map.mp hx
      simpa using hne

/-- The object and position of the instruction with a given number. -/
theorem slots_eq_of_mem_starts {n start k : Nat} {o : Layout} {layout : List Layout}
    (h : (o, start) ∈ starts n layout) (hk : k < o.count) :
    (slots layout)[start - n + k]? = some (o.object, k) := by
  induction layout generalizing n with
  | nil => simp [starts] at h
  | cons a os ih =>
    rw [slots_cons]
    rcases List.mem_cons.mp h with heq | hrest
    · obtain ⟨rfl, rfl⟩ := Prod.mk.inj heq
      rw [Nat.sub_self, Nat.zero_add, List.getElem?_append_left (by simpa using hk)]
      simp [hk]
    · have hb := (bounds_of_mem_starts hrest).1
      rw [List.getElem?_append_right (by simp; omega), ← ih hrest]
      congr 1
      simp
      omega

/-! ## Blocks -/

theorem blockRange_snd_le (o : Layout) (start position : Nat) :
    (o.blockRange start position).2 ≤ start + o.count := by
  simp only [blockRange]
  omega

/-- A block ends where a later label of its object stands, or before. -/
theorem blockRange_snd_le_label {o : Layout} {start position later : Nat}
    (hmem : later ∈ o.labels.values) (hlt : position < later) :
    (o.blockRange start position).2 ≤ start + later := by
  have hl : later ∈ o.labels.values.filter (position < ·) := by simp [hmem, hlt]
  have hle : (o.labels.values.filter (position < ·)).min?.getD o.count ≤ later :=
    List.min?_getD_le_of_mem hl
  simp only [blockRange]
  omega

theorem firstRange_snd_le (layout : List Layout) : (firstRange layout).2 ≤ total layout := by
  unfold firstRange
  split
  · exact Nat.zero_le _
  · next f first hf =>
    have hb := (bounds_of_mem_starts (List.mem_of_find?_eq_some hf)).2
    have := blockRange_snd_le f first 0
    omega

/-- The first object with instructions starts where the program starts, and every other object with
instructions starts behind it. -/
theorem find?_nonempty {n : Nat} {layout : List Layout} {f o : Layout} {first start : Nat}
    (hf : (starts n layout).find? (0 < ·.1.count) = some (f, first))
    (ho : (o, start) ∈ starts n layout) (hc : 0 < o.count) :
    first = n ∧ ((o = f ∧ start = first) ∨ first + f.count ≤ start) := by
  induction layout generalizing n with
  | nil => simp [starts] at ho
  | cons a os ih =>
    rw [starts, List.find?_cons] at hf
    by_cases ha : 0 < a.count
    · simp only [ha, decide_true, Option.some.injEq, Prod.mk.injEq] at hf
      obtain ⟨rfl, rfl⟩ := hf
      refine ⟨rfl, ?_⟩
      rcases List.mem_cons.mp ho with heq | hrest
      · exact Or.inl (Prod.mk.inj heq)
      · exact Or.inr (bounds_of_mem_starts hrest).1
    · simp only [ha, decide_false] at hf
      rcases List.mem_cons.mp ho with heq | hrest
      · exact absurd ((Prod.mk.inj heq).1 ▸ hc) ha
      · have hzero : a.count = 0 := by omega
        rw [hzero, Nat.add_zero] at hf hrest
        exact ih hf hrest

/-- The first block of a program starts with its first instruction. -/
theorem firstRange_fst (layout : List Layout) : (firstRange layout).1 = 0 := by
  unfold firstRange
  split
  · rfl
  · next f first hf =>
    have hcount : 0 < f.count := by simpa using List.find?_some hf
    obtain ⟨rfl, -⟩ := find?_nonempty hf (List.mem_of_find?_eq_some hf) hcount
    simp [blockRange]

/-- The block of an entry point lies behind the first block of the program, unless it is empty or
is that block. -/
theorem firstRange_le_of_target {layout : List Layout} {o : Layout} {start position : Nat}
    (ho : (o, start) ∈ starts 0 layout) (hp : position ∈ o.labels.values)
    (hne : (o.blockRange start position).1 < (o.blockRange start position).2)
    (hfirst : (o.blockRange start position).1 ≠ (firstRange layout).1) :
    (firstRange layout).2 ≤ (o.blockRange start position).1 := by
  have hle := blockRange_snd_le o start position
  have hc : position < o.count := by
    simp only [blockRange] at hne hle
    omega
  have hstart : (o.blockRange start position).1 = start + position := by
    simp only [blockRange]
    omega
  rw [hstart] at hfirst ⊢
  unfold firstRange at hfirst ⊢
  split at hfirst
  · exact Nat.zero_le _
  · next f first hf =>
    obtain ⟨rfl, hcase⟩ := find?_nonempty hf ho (by omega)
    rcases hcase with ⟨rfl, rfl⟩ | hbehind
    · have hpos : 0 < position := by
        rcases Nat.eq_zero_or_pos position with rfl | hpos
        · exact absurd (by simp [blockRange]) hfirst
        · exact hpos
      exact blockRange_snd_le_label hp hpos
    · have := blockRange_snd_le f 0 0
      omega

end Layout

/-! ## Moving two blocks to the front -/

namespace InstructionOrder

/-- Two ranges, one behind the other, are moved to the front without loss. -/
theorem movedToFront_perm {total : Nat} {first second : Nat × Nat} (hle : second.2 ≤ first.1)
    (hfirst : first.2 ≤ total) (hsecond : second.2 ≤ total) :
    (movedToFront total first second).Perm (List.range total) := by
  have hfront : (numbers first ++ numbers second).Nodup := by
    refine List.nodup_append.mpr ⟨nodup_numbers first, nodup_numbers second, ?_⟩
    intro i hi j hj
    have h1 := mem_numbers.mp hi
    have h2 := mem_numbers.mp hj
    omega
  have hall : (movedToFront total first second).Nodup := by
    refine List.nodup_append.mpr ⟨hfront, List.nodup_range.filter _, ?_⟩
    intro i hi j hj heq
    have hnot := (List.mem_filter.mp hj).2
    rw [decide_eq_true_eq] at hnot
    exact hnot (heq ▸ hi)
  rw [List.perm_ext_iff_of_nodup hall List.nodup_range]
  intro i
  simp only [movedToFront, List.mem_append, List.mem_filter, List.mem_range, mem_numbers,
    decide_eq_true_eq, not_or]
  omega

/-- The order for an entry point is one of the permutations of the numbers. -/
theorem exists_order_of_startingAt {layout : List Layout} {entry : EntryPoint}
    {m : InstructionOrder} (h : startingAt layout entry = .ok m) :
    ∃ order, order.Perm (List.range (Layout.total layout)) ∧ m = ofOrder layout order := by
  unfold startingAt at h
  split at h
  · cases h
  · next o start ho =>
    split at h
    · cases h
    · next position hpos =>
      have hmem := List.mem_of_find?_eq_some ho
      have hlabel : position ∈ o.labels.values :=
        List.mem_map.mpr ⟨_, NameMap.find?_eq_some_iff.mp hpos, rfl⟩
      dsimp only at h
      split at h
      · cases h
        exact ⟨_, .refl _, rfl⟩
      · next hcond =>
        cases h
        simp only [Bool.or_eq_true, decide_eq_true_eq, not_or, Nat.not_le] at hcond
        have hle := Layout.firstRange_le_of_target hmem hlabel hcond.1 hcond.2
        rw [rearranged_eq layout (Layout.firstRange_fst layout) hle]
        refine ⟨_, movedToFront_perm hle ?_ ?_, rfl⟩
        · have hb := (Layout.bounds_of_mem_starts hmem).2
          have := Layout.blockRange_snd_le o start position
          omega
        · exact Layout.firstRange_snd_le layout

/-! ## The three lookups -/

theorem getElem?_placements (layout : List Layout) (order : List Nat) (i : Nat) :
    (ofOrder layout order).placements[i]? =
      (Layout.slots layout)[i]?.map fun slot => ⟨i, order.idxOf i, slot.1, slot.2⟩ := by
  simp only [ofOrder, List.getElem?_map, List.getElem?_zipIdx, Option.map_map, Nat.zero_add]
  rfl

@[simp] theorem size_ofOrder (layout : List Layout) (order : List Nat) :
    (ofOrder layout order).size = Layout.total layout := by
  simp [size, ofOrder]

theorem byNatural?_of_mem_starts {layout : List Layout} (order : List Nat) {o : Layout}
    {start k : Nat} (ho : (o, start) ∈ Layout.starts 0 layout) (hk : k < o.count) :
    (ofOrder layout order).byNatural? (start + k) =
      some ⟨start + k, order.idxOf (start + k), o.object, k⟩ := by
  have hslot := Layout.slots_eq_of_mem_starts ho hk
  rw [Nat.sub_zero] at hslot
  rw [byNatural?, getElem?_placements, hslot]
  rfl

theorem byNatural?_eq_none {layout : List Layout} (order : List Nat) {i : Nat}
    (hi : Layout.total layout ≤ i) : (ofOrder layout order).byNatural? i = none := by
  rw [byNatural?, getElem?_placements, List.getElem?_eq_none (by simpa using hi)]
  rfl

theorem natural_byNatural? (layout : List Layout) (order : List Nat) (i : Nat) :
    ((ofOrder layout order).byNatural? i).map (·.natural) =
      if i < Layout.total layout then some i else none := by
  split
  · next hi =>
    obtain ⟨o, start, ho, h1, h2⟩ := Layout.exists_starts_of_lt (n := 0) hi
    obtain ⟨k, rfl⟩ : ∃ k, i = start + k := ⟨i - start, by omega⟩
    rw [byNatural?_of_mem_starts order ho (by omega)]
    rfl
  · next hi => rw [byNatural?_eq_none order (by omega), Option.map_none]

/-- What an object's positions are looked up to. -/
theorem byLocation?_of_mem_starts {layout : List Layout} (order : List Nat)
    (hd : (layout.map (·.object)).Nodup) {o : Layout} {start : Nat}
    (ho : (o, start) ∈ Layout.starts 0 layout) (k : Nat) :
    (ofOrder layout order).byLocation? o.object k =
      if k < o.count then some ⟨start + k, order.idxOf (start + k), o.object, k⟩ else none := by
  have hf := Layout.filter_slots_of_mem_starts hd ho
  simp only [byLocation?, ofOrder, List.filter_map, Function.comp_def, hf, List.getElem?_map]
  split
  · next hk => simp [hk]
  · next hk => simp [hk]

theorem byLocation?_eq_none {layout : List Layout} (order : List Nat) {object : String}
    (h : object ∉ layout.map (·.object)) (k : Nat) :
    (ofOrder layout order).byLocation? object k = none := by
  have hf := Layout.filter_slots_of_notMem 0 h
  simp [byLocation?, ofOrder, List.filter_map, Function.comp_def, hf]

/-- An object's positions are looked up exactly as far as it has instructions. -/
theorem isSome_byLocation?_iff {layout : List Layout} (order : List Nat)
    (hd : (layout.map (·.object)).Nodup) (object : String) (k : Nat) :
    ((ofOrder layout order).byLocation? object k).isSome ↔
      ∃ o ∈ layout, o.object = object ∧ k < o.count := by
  constructor
  · intro h
    by_cases hmem : object ∈ layout.map (·.object)
    · obtain ⟨o, ho, rfl⟩ := List.mem_map.mp hmem
      obtain ⟨start, hs⟩ := Layout.exists_mem_starts 0 ho
      rw [byLocation?_of_mem_starts order hd hs] at h
      refine ⟨o, ho, rfl, ?_⟩
      by_contra hk
      rw [if_neg hk] at h
      cases h
    · rw [byLocation?_eq_none order hmem] at h
      cases h
  · rintro ⟨o, ho, rfl, hk⟩
    obtain ⟨start, hs⟩ := Layout.exists_mem_starts 0 ho
    rw [byLocation?_of_mem_starts order hd hs, if_pos hk]
    rfl

theorem exists_starts_of_mem {layout : List Layout} {order : List Nat} {p : Placement}
    (h : p ∈ (ofOrder layout order).placements) :
    ∃ o start k, (o, start) ∈ Layout.starts 0 layout ∧ k < o.count ∧
      p = ⟨start + k, order.idxOf (start + k), o.object, k⟩ := by
  obtain ⟨i, hi⟩ := List.mem_iff_getElem?.mp h
  have hlt : i < Layout.total layout := by
    rw [← size_ofOrder layout order]
    exact (List.getElem?_eq_some_iff.mp hi).1
  obtain ⟨o, start, ho, h1, h2⟩ := Layout.exists_starts_of_lt (n := 0) hlt
  obtain ⟨k, rfl⟩ : ∃ k, i = start + k := ⟨i - start, by omega⟩
  refine ⟨o, start, k, ho, by omega, ?_⟩
  have hnat := byNatural?_of_mem_starts order ho (k := k) (by omega)
  rw [byNatural?, hi] at hnat
  exact Option.some.inj hnat

/-! ## Reordering is a permutation -/

section Permutation

variable {layout : List Layout} {order : List Nat}

theorem translate_of_lt (order : List Nat) {i : Nat} (hi : i < Layout.total layout) :
    (ofOrder layout order).translate i = order.idxOf i := by
  obtain ⟨o, start, ho, h1, h2⟩ := Layout.exists_starts_of_lt (n := 0) hi
  obtain ⟨k, rfl⟩ : ∃ k, i = start + k := ⟨i - start, by omega⟩
  rw [translate, byNatural?_of_mem_starts order ho (by omega)]

theorem translate_of_le (order : List Nat) {i : Nat} (hi : Layout.total layout ≤ i) :
    (ofOrder layout order).translate i = i := by
  rw [translate, byNatural?_eq_none order hi]

/-- Where the instruction at a position of an object stands. -/
theorem byLocation?_eq_translate (order : List Nat) (hd : (layout.map (·.object)).Nodup) {o : Layout}
    {start k : Nat} (ho : (o, start) ∈ Layout.starts 0 layout) (hk : k < o.count) :
    (ofOrder layout order).byLocation? o.object k =
      some ⟨start + k, (ofOrder layout order).translate (start + k), o.object, k⟩ := by
  have hlt : start + k < Layout.total layout := by
    have hb := (Layout.bounds_of_mem_starts ho).2
    omega
  rw [byLocation?_of_mem_starts order hd ho, if_pos hk, translate_of_lt order hlt]

theorem translate_natural (layout : List Layout) (i : Nat) : (natural layout).translate i = i := by
  by_cases hi : i < Layout.total layout
  · have hlt : i < (List.range (Layout.total layout)).length := by simpa using hi
    have hindex := List.nodup_range.idxOf_getElem i hlt
    rw [List.getElem_range] at hindex
    rw [natural, translate_of_lt _ hi, hindex]
  · exact translate_of_le _ (by omega)

/-- An order that moves nothing translates nothing. -/
theorem translate_of_isNatural (h : (ofOrder layout order).isNatural = true) (i : Nat) :
    (ofOrder layout order).translate i = i := by
  have hnumber := natural_byNatural? layout order i
  rw [translate]
  cases hp : (ofOrder layout order).byNatural? i with
  | none => rfl
  | some p =>
    have hstays := List.all_eq_true.mp h p (List.mem_of_getElem? hp)
    rw [hp] at hnumber
    split at hnumber
    · exact (beq_iff_eq.mp hstays).symm.trans (Option.some.inj hnumber)
    · cases hnumber

variable (hp : order.Perm (List.range (Layout.total layout)))
include hp

theorem mem_order_iff {i : Nat} : i ∈ order ↔ i < Layout.total layout := by
  rw [hp.mem_iff, List.mem_range]

theorem length_order : order.length = Layout.total layout := by
  rw [hp.length_eq, List.length_range]

theorem nodup_order : order.Nodup := hp.nodup_iff.mpr List.nodup_range

theorem mapsTo_translate :
    Set.MapsTo (ofOrder layout order).translate {i | i < Layout.total layout}
      {i | i < Layout.total layout} := by
  intro i hi
  rw [translate_of_lt order hi, Set.mem_ofPred_eq, ← length_order hp]
  exact List.idxOf_lt_length_of_mem ((mem_order_iff hp).mpr hi)

theorem injOn_translate :
    Set.InjOn (ofOrder layout order).translate {i | i < Layout.total layout} := by
  intro i hi j hj heq
  rw [translate_of_lt order hi, translate_of_lt order hj] at heq
  exact (List.idxOf_inj ((mem_order_iff hp).mpr hi)).mp heq

theorem surjOn_translate :
    Set.SurjOn (ofOrder layout order).translate {i | i < Layout.total layout}
      {i | i < Layout.total layout} := by
  intro j hj
  have hlt : j < order.length := by
    rw [length_order hp]
    exact hj
  have hi : order[j] < Layout.total layout := (mem_order_iff hp).mp (List.getElem_mem hlt)
  refine ⟨order[j], hi, ?_⟩
  rw [translate_of_lt order hi, (nodup_order hp).idxOf_getElem j hlt]

theorem bijOn_translate :
    Set.BijOn (ofOrder layout order).translate {i | i < Layout.total layout}
      {i | i < Layout.total layout} :=
  ⟨mapsTo_translate hp, injOn_translate hp, surjOn_translate hp⟩

/-- The numbers after reordering are the numbers before it in another order. -/
theorem reordered_perm :
    ((ofOrder layout order).placements.map (·.reordered)).Perm
      (List.range (Layout.total layout)) := by
  have hmap : (ofOrder layout order).placements.map (·.reordered) =
      (List.range (Layout.total layout)).map order.idxOf := by
    apply List.ext_getElem?
    intro i
    by_cases hi : i < Layout.total layout
    · obtain ⟨o, start, ho, h1, h2⟩ := Layout.exists_starts_of_lt (n := 0) hi
      obtain ⟨k, rfl⟩ : ∃ k, i = start + k := ⟨i - start, by omega⟩
      have hnat := byNatural?_of_mem_starts order ho (k := k) (by omega)
      rw [byNatural?] at hnat
      rw [List.getElem?_map, hnat, List.getElem?_map, List.getElem?_range hi]
      rfl
    · have hnone : (ofOrder layout order).byNatural? i = none :=
        byNatural?_eq_none order (by omega)
      rw [byNatural?] at hnone
      rw [List.getElem?_map, hnone, List.getElem?_eq_none (by simp; omega)]
      rfl
  have hself : order.map order.idxOf = List.range (Layout.total layout) := by
    apply List.ext_getElem
    · rw [List.length_map, length_order hp, List.length_range]
    · intro i h₁ h₂
      rw [List.getElem_map, List.getElem_range, (nodup_order hp).idxOf_getElem i (by simpa using h₁)]
  calc
    (ofOrder layout order).placements.map (·.reordered)
        = (List.range (Layout.total layout)).map order.idxOf := hmap
    List.Perm _ (order.map order.idxOf) := (hp.map _).symm
    _ = List.range (Layout.total layout) := hself

theorem byReordered?_of_mem {p : Placement} (h : p ∈ (ofOrder layout order).placements) :
    (ofOrder layout order).byReordered? p.reordered = some p := by
  obtain ⟨o, start, k, ho, hk, rfl⟩ := exists_starts_of_mem h
  have hb := (Layout.bounds_of_mem_starts ho).2
  have hmem : start + k ∈ order := (mem_order_iff hp).mpr (by omega)
  have hget : (ofOrder layout order).order[order.idxOf (start + k)]? = some (start + k) :=
    List.getElem?_idxOf hmem
  rw [byReordered?, hget, Option.bind_some, byNatural?_of_mem_starts order ho hk]

end Permutation

/-- **The three lookups agree and reordering is a permutation**, of the order in which instructions
stand by nature and of every order that starts at an entry point. -/
theorem lookups_coherent (layout : List Layout) (hd : (layout.map (·.object)).Nodup)
    (m : InstructionOrder)
    (hm : m = natural layout ∨ ∃ entry, startingAt layout entry = .ok m) :
    m.size = Layout.total layout ∧
    (∀ i, (m.byNatural? i).map (·.natural) = if i < Layout.total layout then some i else none) ∧
    (m.placements.map (·.reordered)).Perm (List.range (Layout.total layout)) ∧
    (∀ p ∈ m.placements,
      m.byReordered? p.reordered = some p ∧ m.byLocation? p.object p.line = some p) ∧
    (∀ object k, (m.byLocation? object k).isSome ↔
      ∃ o ∈ layout, o.object = object ∧ k < o.count) ∧
    Set.BijOn m.translate {i | i < Layout.total layout} {i | i < Layout.total layout} ∧
    (∀ i, Layout.total layout ≤ i → m.translate i = i) := by
  obtain ⟨order, hp, rfl⟩ :
      ∃ order, order.Perm (List.range (Layout.total layout)) ∧ m = ofOrder layout order := by
    rcases hm with rfl | ⟨entry, hentry⟩
    · exact ⟨_, .refl _, rfl⟩
    · exact exists_order_of_startingAt hentry
  refine ⟨size_ofOrder layout order, natural_byNatural? layout order, reordered_perm hp, ?_,
    isSome_byLocation?_iff order hd, bijOn_translate hp, fun i => translate_of_le order⟩
  intro p hmem
  refine ⟨byReordered?_of_mem hp hmem, ?_⟩
  obtain ⟨o, start, k, ho, hk, rfl⟩ := exists_starts_of_mem hmem
  rw [byLocation?_of_mem_starts order hd ho, if_pos hk]

/-- Three objects, one of them empty and one with a label behind its end, that start at the second
block of the last. -/
theorem lookups_coherent_three_objects :
    ∃ m, startingAt [⟨"A", 2, .ofList [("a", 0)]⟩, ⟨"B", 0, .ofList [("b", 0)]⟩,
        ⟨"C", 3, .ofList [("c", 1), ("d", 9)]⟩] ⟨"C", "c"⟩ = .ok m ∧
      m.order = [3, 4, 0, 1, 2] ∧
      (m.placements.map (·.reordered)).Perm (List.range 5) ∧
      Set.BijOn m.translate {i | i < 5} {i | i < 5} := by
  have hm : startingAt [⟨"A", 2, .ofList [("a", 0)]⟩, ⟨"B", 0, .ofList [("b", 0)]⟩,
      ⟨"C", 3, .ofList [("c", 1), ("d", 9)]⟩] ⟨"C", "c"⟩ =
        .ok ⟨[⟨0, 2, "A", 0⟩, ⟨1, 3, "A", 1⟩, ⟨2, 4, "C", 0⟩, ⟨3, 0, "C", 1⟩, ⟨4, 1, "C", 2⟩],
          [3, 4, 0, 1, 2]⟩ := by cbv
  have h := lookups_coherent _ (by decide) _ (Or.inr ⟨_, hm⟩)
  exact ⟨_, hm, rfl, h.2.2.1, h.2.2.2.2.2.1⟩

end InstructionOrder

end LinkAsm
