import LinkAsm.Proofs.Diagnostic.Merging

/-!
# What a log makes of all that it is given

A log starts empty; then messages are added to it and other logs are merged into it, in any order.
Messages are dropped on the way, but never the only failure: what is dropped is there already, or
stands at the place of a failure that is.  So a log has failed exactly if it was ever given a failure.

A failure keeps later messages away from its place.  Whether spans overlap is tested with the older
one first, and the test is symmetric, so it does not matter which of the two spans is empty.

* `Log.failed_ofUpdates`: which histories fail.
* `Log.Apart`: what is recorded behind a failure stands elsewhere; every update keeps it.
* `Log.failures_conserved`: both, for every history.
-/

namespace LinkAsm

theorem Message.isFailure_iff {m : Message} :
    m.isFailure = true ↔ m.severity = .critical ∨ m.severity = .fatal := by
  unfold isFailure
  cases m.severity <;> decide

/-- Whether a later message stands elsewhere, if the earlier one is a failure and both have a
place. -/
def Message.Spares (m later : Message) : Prop :=
  m.isFailure = true → ∀ r t, m.range = some r → later.range = some t → r.overlaps t = false

namespace Log

/-! ## Histories -/

/-- What can be done to a log. -/
inductive Update where
  | add (m : Message)
  | merge (other : Log)

/-- The messages that an update offers to a log. -/
def Update.offered : Update → List Message
  | .add m => [m]
  | .merge other => other.messages

/-- The log after an update. -/
def update (log : Log) : Update → Log
  | .add m => log.add m
  | .merge other => log.merge other

/-- The log that starts empty, after all updates of a history. -/
def ofUpdates (us : List Update) : Log := us.foldl update empty

/-! ## Failures -/

theorem failed_update (log : Log) (u : Update) :
    (log.update u).failed = (log.failed || u.offered.any Message.isFailure) := by
  cases u with
  | add m => simp [update, Update.offered, failed_add]
  | merge other => exact failed_merge log other

theorem failed_foldl_update (log : Log) (us : List Update) :
    (us.foldl update log).failed =
      (log.failed || us.any fun u => u.offered.any Message.isFailure) := by
  induction us generalizing log with
  | nil => simp
  | cons u us ih => rw [List.foldl_cons, ih, failed_update, List.any_cons, Bool.or_assoc]

/-- A history fails exactly if it offers a failure. -/
theorem failed_ofUpdates (us : List Update) :
    (ofUpdates us).failed = true ↔ ∃ u ∈ us, ∃ m ∈ u.offered, m.isFailure = true := by
  rw [ofUpdates, failed_foldl_update, failed_empty, Bool.false_or]
  simp only [List.any_eq_true]

/-! ## Places -/

/-- Whether all that is recorded behind a failure stands elsewhere. -/
def Apart (log : Log) : Prop := log.messages.Pairwise Message.Spares

variable {log : Log} {m : Message}

/-- What a log accepts stands at the place of none of its failures. -/
theorem spares_of_accepts (h : log.accepts m = true) {old : Message} (hold : old ∈ log.messages) :
    old.Spares m := by
  intro hfailure r t hr ht
  rw [accepts, ht] at h
  have hclear := List.any_eq_false.mp ((Bool.not_eq_true' _).mp h) old hold
  rw [hfailure, hr, Bool.true_and] at hclear
  exact Bool.eq_false_iff.mpr hclear

theorem accepts_of_spares (h : ∀ old ∈ log.messages, old.Spares m) : log.accepts m = true := by
  unfold accepts
  cases ht : m.range with
  | none => rfl
  | some t =>
    refine (Bool.not_eq_true' _).mpr (List.any_eq_false.mpr ?_)
    intro old hold hcovers
    rw [Bool.and_eq_true] at hcovers
    cases hr : old.range with
    | none =>
      rw [hr] at hcovers
      exact Bool.false_ne_true hcovers.2
    | some r =>
      have hclear := h old hold hcovers.1 r t hr ht
      rw [hr] at hcovers
      exact Bool.false_ne_true (hclear.symm.trans hcovers.2)

/-- Where all messages stand elsewhere than the failures before them, all of them are recorded. -/
theorem messages_addAll {ms : List Message} (h : (log.messages ++ ms).Pairwise Message.Spares) :
    (log.addAll ms).messages = log.messages ++ ms := by
  induction ms generalizing log with
  | nil => exact (List.append_nil _).symm
  | cons m ms ih =>
    have haccepts : log.accepts m = true := by
      refine accepts_of_spares ?_
      intro old hold
      exact (List.pairwise_append.mp h).2.2 old hold m List.mem_cons_self
    have hadd : log.add m = log.push m := if_pos haccepts
    have hsplit : log.messages ++ m :: ms = (log.push m).messages ++ ms := by
      rw [push, List.append_assoc, List.singleton_append]
    rw [hsplit] at h ⊢
    rw [← ih h, ← hadd]
    rfl

theorem Apart.push (h : log.Apart) (haccepts : log.accepts m = true) : (log.push m).Apart := by
  refine List.pairwise_append.mpr ⟨h, List.pairwise_singleton _ _, ?_⟩
  intro old hold new hnew
  rw [List.mem_singleton.mp hnew]
  exact spares_of_accepts haccepts hold

theorem Apart.add (h : log.Apart) (m : Message) : (log.add m).Apart := by
  unfold Log.add
  split
  · next haccepts => exact h.push haccepts
  · exact h

theorem Apart.offer (h : log.Apart) (m : Message) : (log.offer m).Apart := by
  unfold Log.offer
  split
  · exact h
  · exact h.add m

theorem Apart.merge (h : log.Apart) (other : Log) : (log.merge other).Apart := by
  obtain ⟨ms⟩ := other
  induction ms generalizing log with
  | nil => exact h
  | cons m ms ih =>
    rw [merge_cons]
    exact ih (h.offer m)

theorem Apart.update (h : log.Apart) (u : Update) : (log.update u).Apart := by
  cases u with
  | add m => exact h.add m
  | merge other => exact h.merge other

theorem apart_ofUpdates (us : List Update) : (ofUpdates us).Apart :=
  List.foldlRecOn us update List.Pairwise.nil fun _ h u _ => h.update u

/-- **Failures are conserved and keep their places.**  After any history of messages added and logs
merged, a log has failed exactly if one of the messages that it was offered is critical or fatal; and
what is recorded behind such a message does not overlap it, whichever of the two is looked at
first. -/
theorem failures_conserved (us : List Update) :
    ((ofUpdates us).failed = true ↔
        ∃ u ∈ us, ∃ m ∈ u.offered, m.severity = .critical ∨ m.severity = .fatal) ∧
      (ofUpdates us).messages.Pairwise fun m later =>
        m.severity = .critical ∨ m.severity = .fatal →
          ∀ r t, m.range = some r → later.range = some t →
            r.overlaps t = false ∧ t.overlaps r = false := by
  constructor
  · simp only [failed_ofUpdates, Message.isFailure_iff]
  · refine (apart_ofUpdates us).imp ?_
    intro m later hspares hfailure r t hr ht
    have hclear := hspares (Message.isFailure_iff.mpr hfailure) r t hr ht
    exact ⟨hclear, (t.overlaps_comm r).trans hclear⟩

end Log

end LinkAsm
