import LinkAsm.Text.Basic
import LinkAsm.Text.Span

/-!
# Places in a text

A byte position is a boundary of a text if a character starts there or the text ends there.  A span
lies within a text if both its ends are boundaries, the first not behind the second; these are the
spans that have a text (`Span.Within.extract?`).

Parts of a text are found with `Text.At`: the part `cs` stands at byte `n`.  A part of a part is a
part, so spans that count from the start of a part can be moved to where it stands.

* `Text.At.within_shift`: a span of a part is a span of the text, moved.
* `Span.Marks`: a span is the place of some characters.
-/

namespace LinkAsm

namespace Text

/-! ## Boundaries -/

/-- Whether a byte position is the end of the first characters of a text. -/
def IsBoundary (text : List Char) (n : Nat) : Prop :=
  ∃ before after, text = before ++ after ∧ byteLength before = n

theorem isBoundary_zero (text : List Char) : IsBoundary text 0 := ⟨[], text, rfl, rfl⟩

theorem IsBoundary.le {text : List Char} {n : Nat} (h : IsBoundary text n) :
    n ≤ byteLength text := by
  obtain ⟨before, after, rfl, rfl⟩ := h
  rw [byteLength_append]
  exact Nat.le_add_right _ _

theorem IsBoundary.append {cs : List Char} {n : Nat} (h : IsBoundary cs n)
    (before after : List Char) : IsBoundary (before ++ cs ++ after) (n + byteLength before) := by
  obtain ⟨first, rest, rfl, rfl⟩ := h
  refine ⟨before ++ first, rest ++ after, ?_, ?_⟩
  · simp only [List.append_assoc]
  · rw [byteLength_append, Nat.add_comm]

/-- Of two texts that start alike, the one with fewer bytes is the start of the other. -/
theorem exists_append_of_byteLength_le {a b c d : List Char} (h : a ++ b = c ++ d)
    (hle : byteLength a ≤ byteLength c) : ∃ middle, c = a ++ middle ∧ b = middle ++ d := by
  rcases List.append_eq_append_iff.mp h with ⟨middle, hc, hb⟩ | ⟨middle, ha, hd⟩
  · exact ⟨middle, hc, hb⟩
  · -- then `a` is `c` and more, and more than nothing has bytes
    cases middle with
    | nil =>
      rw [List.append_nil] at ha
      exact ⟨[], by rw [ha, List.append_nil], by rw [hd]; rfl⟩
    | cons m middle =>
      rw [ha, byteLength_append, byteLength_cons] at hle
      have hpos := m.utf8Size_pos
      omega

/-! ## Parts -/

/-- Whether the characters `cs` stand in a text at byte `n`. -/
def At (text : List Char) (n : Nat) (cs : List Char) : Prop :=
  ∃ before after, text = before ++ cs ++ after ∧ byteLength before = n

theorem at_self (text : List Char) : At text 0 text := ⟨[], [], by simp, rfl⟩

theorem at_front {cs text : List Char} (h : cs <+: text) : At text 0 cs := by
  obtain ⟨after, rfl⟩ := h
  exact ⟨[], after, rfl, rfl⟩

theorem at_back {cs text : List Char} (h : cs <:+ text) :
    At text (byteLength text - byteLength cs) cs := by
  obtain ⟨before, rfl⟩ := h
  refine ⟨before, [], by rw [List.append_nil], ?_⟩
  rw [byteLength_append, Nat.add_sub_cancel]

theorem byteLength_pos {cs : List Char} (h : cs ≠ []) : 0 < byteLength cs := by
  obtain ⟨c, rest, rfl⟩ := List.exists_cons_of_ne_nil h
  exact Nat.add_pos_left c.utf8Size_pos _

theorem byteLength_le_of_suffix {cs text : List Char} (h : cs <:+ text) :
    byteLength cs ≤ byteLength text := by
  obtain ⟨before, rfl⟩ := h
  rw [byteLength_append]
  exact Nat.le_add_left _ _

namespace At

variable {text cs ds : List Char} {n k : Nat}

theorem trans (h : At text n cs) (h' : At cs k ds) : At text (n + k) ds := by
  obtain ⟨before, after, rfl, rfl⟩ := h
  obtain ⟨first, rest, rfl, rfl⟩ := h'
  refine ⟨before ++ first, rest ++ after, ?_, byteLength_append before first⟩
  simp only [List.append_assoc]

theorem left (h : At text n (cs ++ ds)) : At text n cs :=
  h.trans (at_front (List.prefix_append cs ds))

theorem right (h : At text n (cs ++ ds)) : At text (n + byteLength cs) ds := by
  have hright := h.trans (at_back (List.suffix_append cs ds))
  rwa [byteLength_append, Nat.add_sub_cancel] at hright

theorem isBoundary (h : At text n cs) (hk : IsBoundary cs k) : IsBoundary text (k + n) := by
  obtain ⟨before, after, rfl, rfl⟩ := h
  exact hk.append before after

/-- What follows the place of a part begins with the part. -/
theorem exists_dropBytes (h : At text n cs) :
    ∃ rest, Text.dropBytes text n = some rest ∧ cs <+: rest := by
  obtain ⟨before, after, rfl, rfl⟩ := h
  rw [List.append_assoc]
  exact ⟨cs ++ after, dropBytes_append before (cs ++ after), List.prefix_append cs after⟩

/-- A part at the end of a part that ends at byte `stop`. -/
theorem suffix {stop : Nat} (h : At text n cs) (hstop : stop = n + byteLength cs)
    (hds : ds <:+ cs) : At text (stop - byteLength ds) ds := by
  have hle := byteLength_le_of_suffix hds
  have hat := h.trans (at_back hds)
  rwa [show n + (byteLength cs - byteLength ds) = stop - byteLength ds by omega] at hat

end At

/-! ## Blanks -/

theorem trimStart_isSuffix (cs : List Char) : trimStart cs <:+ cs := List.dropWhile_suffix isBlank

theorem trimEnd_isPrefix (cs : List Char) : trimEnd cs <+: cs := by
  have hsuffix := List.reverse_prefix.mpr (List.dropWhile_suffix isBlank (l := cs.reverse))
  rwa [List.reverse_reverse] at hsuffix

/-- A text without the blanks around it stands behind the first of them. -/
theorem At.trim {text cs : List Char} {n : Nat} (h : At text n cs) :
    At text (n + (byteLength cs - byteLength (trimStart cs))) (Text.trim cs) :=
  (h.trans (at_back (trimStart_isSuffix cs))).trans (at_front (trimEnd_isPrefix _))

end Text

/-! ## Spans -/

namespace Span

/-- Whether a span is a range of whole characters of a text. -/
structure Within (s : Span) (text : List Char) : Prop where
  le : s.start ≤ s.stop
  start : Text.IsBoundary text s.start
  stop : Text.IsBoundary text s.stop

variable {s t : Span} {text cs : List Char}

theorem within_zero (text : List Char) : Within ⟨0, 0⟩ text :=
  ⟨Nat.le_refl 0, Text.isBoundary_zero text, Text.isBoundary_zero text⟩

theorem Within.through (h : s.Within text) (h' : t.Within text) (hle : s.start ≤ t.stop) :
    (s.through t).Within text :=
  ⟨hle, h.start, h'.stop⟩

/-- A span within a text divides it. -/
theorem Within.split (h : s.Within text) :
    ∃ before cs after, text = before ++ (cs ++ after) ∧ Text.byteLength before = s.start ∧
      s.start + Text.byteLength cs = s.stop := by
  obtain ⟨before, rest, htext, hstart⟩ := h.start
  obtain ⟨first, after, htext', hstop⟩ := h.stop
  have hle : Text.byteLength before ≤ Text.byteLength first := by
    rw [hstart, hstop]
    exact h.le
  obtain ⟨cs, hfirst, hrest⟩ :=
    Text.exists_append_of_byteLength_le (htext.symm.trans htext') hle
  refine ⟨before, cs, after, ?_, hstart, ?_⟩
  · rw [htext, hrest]
  · rw [← hstart, ← hstop, hfirst, Text.byteLength_append]

/-- A span within a text has the characters between its ends. -/
theorem Within.extract? (h : s.Within text) :
    ∃ cs, s.extract? text = some cs ∧ Text.At text s.start cs ∧
      s.start + Text.byteLength cs = s.stop := by
  obtain ⟨before, cs, after, rfl, hstart, hstop⟩ := h.split
  refine ⟨cs, ?_, ⟨before, after, (List.append_assoc _ _ _).symm, hstart⟩, hstop⟩
  rw [Span.extract?, if_pos h.le, ← hstart, Text.dropBytes_append, Option.bind_some,
    show s.stop - Text.byteLength before = Text.byteLength cs by omega, Text.takeBytes_append]

end Span

namespace Text.At

variable {text cs : List Char} {n : Nat}

theorem within (h : At text n cs) : Span.Within ⟨n, n + byteLength cs⟩ text := by
  obtain ⟨before, after, rfl, rfl⟩ := h
  refine ⟨Nat.le_add_right _ _, ⟨before, cs ++ after, List.append_assoc _ _ _, rfl⟩, ?_⟩
  exact ⟨before ++ cs, after, rfl, byteLength_append before cs⟩

theorem within_shift {s : Span} (h : At text n cs) (hs : s.Within cs) : (s.shift n).Within text :=
  ⟨Nat.add_le_add_right hs.le n, h.isBoundary hs.start, h.isBoundary hs.stop⟩

end Text.At

/-- Whether a span is the place of the characters `cs` in a text. -/
structure Span.Marks (s : Span) (text cs : List Char) : Prop where
  part : Text.At text s.start cs
  stop : s.stop = s.start + Text.byteLength cs

/-- The text at a span is what the span is the place of. -/
theorem Span.Marks.extract? {s : Span} {text cs : List Char} (h : s.Marks text cs) :
    s.extract? text = some cs := by
  obtain ⟨⟨before, after, rfl, hstart⟩, hstop⟩ := h
  rw [Span.extract?, if_pos (by omega), List.append_assoc, ← hstart, Text.dropBytes_append,
    Option.bind_some, show s.stop - Text.byteLength before = Text.byteLength cs by omega,
    Text.takeBytes_append]

/-- A place in a part is a place in the text, moved. -/
theorem Span.Marks.shift {s : Span} {text cs ds : List Char} {n : Nat} (h : s.Marks cs ds)
    (hat : Text.At text n cs) : (s.shift n).Marks text ds := by
  refine ⟨?_, ?_⟩
  · show Text.At text (s.start + n) ds
    rw [Nat.add_comm]
    exact hat.trans h.part
  · show s.stop + n = s.start + n + Text.byteLength ds
    rw [h.stop]
    omega

/-- A place is that of a text which stands by itself, moved. -/
theorem Span.Marks.eq_shift {s : Span} {text cs : List Char} (h : s.Marks text cs) :
    s = (⟨0, Text.byteLength cs⟩ : Span).shift s.start := by
  obtain ⟨start, stop⟩ := s
  have hstop : stop = start + Text.byteLength cs := h.stop
  rw [hstop, Span.shift, Nat.zero_add, Nat.add_comm]

theorem Span.Marks.within {s : Span} {text cs : List Char} (h : s.Marks text cs) :
    s.Within text := by
  have hwithin := h.part.within
  rwa [← h.stop] at hwithin

end LinkAsm
