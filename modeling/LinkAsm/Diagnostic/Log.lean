import LinkAsm.Diagnostic.Message

/-!
# Logs

A log is the list of an object's messages in the order of their arrival.  A failure keeps later
messages about the same place out: what follows from an error is not reported again.  Merging a log
into another also skips the messages that are there already.

* `Log.failed_add`, `Log.failed_addAll`, `Log.failed_merge`: a log has failed exactly when one of the
  messages it was given is a failure, whether that message is recorded or not.
-/

namespace LinkAsm

/-- Messages in the order of their arrival. -/
structure Log where
  messages : List Message
deriving DecidableEq, Repr

namespace Log

/-- No message yet. -/
def empty : Log := ⟨[]⟩

/-- Whether a failure is recorded at a place that overlaps `range`. -/
def covers (log : Log) (range : Span) : Bool :=
  log.messages.any fun m => m.isFailure && m.range.any (·.overlaps range)

/-- Whether `add` records a message: not if a failure covers its place. -/
def accepts (log : Log) (m : Message) : Bool :=
  match m.range with
  | none => true
  | some range => !log.covers range

/-- The log with a message at its end, whatever is there. -/
def push (log : Log) (m : Message) : Log := ⟨log.messages ++ [m]⟩

/-- The log with a message, unless a failure covers its place. -/
def add (log : Log) (m : Message) : Log := if log.accepts m then log.push m else log

/-- The log with those messages of another that are new and not covered. -/
def merge (log other : Log) : Log :=
  other.messages.foldl (fun l m => if m ∈ l.messages then l else l.add m) log

/-- The log with the messages of a list, each added. -/
def addAll (log : Log) (ms : List Message) : Log := ms.foldl add log

/-- Whether a failure is recorded. -/
def failed (log : Log) : Bool := log.messages.any Message.isFailure

/-- The number of messages. -/
def size (log : Log) : Nat := log.messages.length

/-- Whether there is no message. -/
def isEmpty (log : Log) : Bool := log.messages.isEmpty

theorem failed_of_covers {log : Log} {range : Span} (h : log.covers range = true) :
    log.failed = true := by
  simp only [covers, failed, List.any_eq_true, Bool.and_eq_true] at *
  obtain ⟨m, hm, hf, _⟩ := h
  exact ⟨m, hm, hf⟩

theorem failed_push (log : Log) (m : Message) :
    (log.push m).failed = (log.failed || m.isFailure) := by
  simp [failed, push]

/-- Adding a message fails a log exactly when the log had failed or the message is a failure. -/
theorem failed_add (log : Log) (m : Message) :
    (log.add m).failed = (log.failed || m.isFailure) := by
  unfold add
  split
  · exact failed_push log m
  · next h =>
    unfold accepts at h
    split at h
    · simp at h
    · have : log.failed = true := failed_of_covers (by simpa using h)
      simp [this]

theorem failed_add_failure (log : Log) {m : Message} (h : m.isFailure = true) :
    (log.add m).failed = true := by
  rw [failed_add, h, Bool.or_true]

theorem failed_addAll (log : Log) (ms : List Message) :
    (log.addAll ms).failed = (log.failed || ms.any Message.isFailure) := by
  induction ms generalizing log with
  | nil => simp [addAll]
  | cons m ms ih =>
    have hstep : log.addAll (m :: ms) = (log.add m).addAll ms := rfl
    rw [hstep, ih, failed_add, List.any_cons, Bool.or_assoc]

theorem failed_of_mem {log : Log} {m : Message} (hm : m ∈ log.messages) (hf : m.isFailure = true) :
    log.failed = true :=
  List.any_eq_true.mpr ⟨m, hm, hf⟩

/-- Merging fails a log exactly when one of the two had failed. -/
theorem failed_merge (log other : Log) : (log.merge other).failed = (log.failed || other.failed) := by
  obtain ⟨ms⟩ := other
  induction ms generalizing log with
  | nil => simp [merge, failed]
  | cons m ms ih =>
    have hstep : log.merge ⟨m :: ms⟩ =
        (if m ∈ log.messages then log else log.add m).merge ⟨ms⟩ := rfl
    have hfirst : (if m ∈ log.messages then log else log.add m).failed =
        (log.failed || m.isFailure) := by
      split
      · next hmem =>
        cases hf : m.isFailure with
        | false => rw [Bool.or_false]
        | true => rw [failed_of_mem hmem hf, Bool.true_or]
      · exact failed_add log m
    rw [hstep, ih, hfirst, Bool.or_assoc]
    rfl

/-- Failures that would show in a log without any are not there. -/
theorem not_failed_of_imp {log other : Log} (h : log.failed = true → other.failed = true)
    (hother : other.failed = false) : log.failed = false :=
  Bool.eq_false_iff.mpr fun hlog => Bool.false_ne_true (hother.symm.trans (h hlog))

@[simp] theorem failed_empty : empty.failed = false := rfl

end Log

end LinkAsm
