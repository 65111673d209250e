import LinkAsm.Text.Basic

/-!
# Spans

A span is a range of byte positions.  Two spans overlap when they share a byte; an empty span is
taken to stand for the byte that it precedes, so it overlaps a span that holds that byte, and
another empty span at the same place.
-/

namespace LinkAsm

/-- The bytes from `start` up to, and not including, `stop`. -/
structure Span where
  start : Nat
  stop : Nat
deriving DecidableEq, Repr, Inhabited

namespace Span

/-- The span moved `n` bytes to the right. -/
def shift (s : Span) (n : Nat) : Span := ⟨s.start + n, s.stop + n⟩

/-- The least span from the start of `s` to the end of `t`. -/
def through (s t : Span) : Span := ⟨s.start, t.stop⟩

/-- The text at a span, if both its ends are places to cut. -/
def extract? (s : Span) (text : List Char) : Option (List Char) :=
  if s.start ≤ s.stop then
    (Text.dropBytes text s.start).bind (Text.takeBytes · (s.stop - s.start))
  else none

/-- Whether the place of an empty span at `n` lies in `t`. -/
def touches (n : Nat) (t : Span) : Bool :=
  t.start ≤ n && n < max t.stop (t.start + 1)

/-- Whether two spans share a byte, an empty span standing for the byte it precedes. -/
def overlaps (s t : Span) : Bool :=
  if s.start = s.stop then touches s.start t
  else if t.start = t.stop then touches t.start s
  else s.start < t.stop && t.start < s.stop

theorem overlaps_comm (s t : Span) : s.overlaps t = t.overlaps s := by
  unfold overlaps
  by_cases hs : s.start = s.stop
  · by_cases ht : t.start = t.stop
    · -- two empty spans overlap where they are the same
      rw [if_pos hs, if_pos ht, touches, touches, Bool.eq_iff_iff]
      simp only [Bool.and_eq_true, decide_eq_true_eq]
      omega
    · rw [if_pos hs, if_neg ht, if_pos hs]
  · by_cases ht : t.start = t.stop
    · rw [if_neg hs, if_pos ht, if_pos ht]
    · rw [if_neg hs, if_neg ht, if_neg ht, if_neg hs, Bool.and_comm]

/-- A span that does not end before it starts overlaps itself, also if it is empty. -/
theorem overlaps_self {s : Span} (h : s.start ≤ s.stop) : s.overlaps s = true := by
  unfold overlaps
  split
  · simp only [touches, Bool.and_eq_true, decide_eq_true_eq]
    omega
  · simp only [Bool.and_eq_true, decide_eq_true_eq]
    omega

end Span

end LinkAsm
