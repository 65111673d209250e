import LinkAsm.Diagnostic.Log

/-!
# Merging a log twice

Merging offers a log the messages of another one by one.  A message that was offered is settled: it
is in the log, or a failure covers its place.  Logs grow at their end only, so it stays settled, and
offering it again changes nothing.

* `Log.prefix_merge`: merging keeps what is there.
* `Log.settles_merge`: it settles all messages of the other log.
* `Log.merge_merge`: so merging a log twice is merging it once.
* `Log.exists_new_merge`: what merging adds.
* `Log.merge_idempotent`: all of this about any two logs.
-/

namespace LinkAsm

namespace Log

/-- The log with a message, if the message is new and not covered. -/
def offer (log : Log) (m : Message) : Log := if m ∈ log.messages then log else log.add m

/-- Whether a message is in a log or a failure covers its place. -/
def Settles (log : Log) (m : Message) : Prop := m ∈ log.messages ∨ log.accepts m = false

theorem merge_cons (log : Log) (m : Message) (ms : List Message) :
    log.merge ⟨m :: ms⟩ = (log.offer m).merge ⟨ms⟩ := rfl

/-! ## Logs grow at their end -/

theorem prefix_add (log : Log) (m : Message) : log.messages <+: (log.add m).messages := by
  unfold add
  split
  · exact List.prefix_append log.messages [m]
  · exact List.prefix_rfl

theorem prefix_addAll (log : Log) (ms : List Message) :
    log.messages <+: (log.addAll ms).messages := by
  induction ms generalizing log with
  | nil => exact List.prefix_rfl
  | cons m ms ih => exact (prefix_add log m).trans (ih (log.add m))

theorem prefix_offer (log : Log) (m : Message) : log.messages <+: (log.offer m).messages := by
  unfold offer
  split
  · exact List.prefix_rfl
  · exact prefix_add log m

theorem prefix_merge (log other : Log) : log.messages <+: (log.merge other).messages := by
  obtain ⟨ms⟩ := other
  induction ms generalizing log with
  | nil => exact List.prefix_rfl
  | cons m ms ih =>
    rw [merge_cons]
    exact (prefix_offer log m).trans (ih _)

/-! ## Where messages come from -/

theorem mem_of_mem_add {log : Log} {m x : Message} (h : x ∈ (log.add m).messages) :
    x ∈ log.messages ∨ x = m := by
  unfold add at h
  split at h
  · rcases List.mem_append.mp h with hold | hnew
    · exact Or.inl hold
    · exact Or.inr (List.mem_singleton.mp hnew)
  · exact Or.inl h

theorem mem_of_mem_addAll {log : Log} {ms : List Message} {x : Message}
    (h : x ∈ (log.addAll ms).messages) : x ∈ log.messages ∨ x ∈ ms := by
  induction ms generalizing log with
  | nil => exact Or.inl h
  | cons m ms ih =>
    rcases ih h with hadd | hms
    · rcases mem_of_mem_add hadd with hold | rfl
      · exact Or.inl hold
      · exact Or.inr List.mem_cons_self
    · exact Or.inr (List.mem_cons_of_mem _ hms)

theorem mem_of_mem_merge {log other : Log} {x : Message} (h : x ∈ (log.merge other).messages) :
    x ∈ log.messages ∨ x ∈ other.messages := by
  obtain ⟨ms⟩ := other
  induction ms generalizing log with
  | nil => exact Or.inl h
  | cons m ms ih =>
    rw [merge_cons] at h
    rcases ih h with hoffer | hms
    · unfold offer at hoffer
      split at hoffer
      · exact Or.inl hoffer
      · rcases mem_of_mem_add hoffer with hold | rfl
        · exact Or.inl hold
        · exact Or.inr List.mem_cons_self
    · exact Or.inr (List.mem_cons_of_mem _ hms)

/-! ## Settled messages -/

/-- A log that grows covers what it covered. -/
theorem covers_mono {log log' : Log} (h : log.messages <+: log'.messages) {range : Span}
    (hc : log.covers range = true) : log'.covers range = true := by
  obtain ⟨m, hm, hf⟩ := List.any_eq_true.mp hc
  exact List.any_eq_true.mpr ⟨m, h.subset hm, hf⟩

/-- A failure covers its place once it was added, whether it is recorded or not. -/
theorem covers_add (log : Log) {m : Message} (hf : m.isFailure = true) {range : Span}
    (hr : m.range = some range) (hself : range.overlaps range = true) :
    (log.add m).covers range = true := by
  unfold add
  split
  · refine List.any_eq_true.mpr ⟨m, List.mem_append_right _ (List.mem_singleton_self m), ?_⟩
    rw [hf, hr, Bool.true_and]
    exact hself
  · next hcovered =>
    unfold accepts at hcovered
    rw [hr] at hcovered
    simpa using hcovered

theorem Settles.mono {log log' : Log} {m : Message} (hs : log.Settles m)
    (h : log.messages <+: log'.messages) : log'.Settles m := by
  rcases hs with hmem | hcovered
  · exact Or.inl (h.subset hmem)
  · refine Or.inr ?_
    unfold accepts at hcovered ⊢
    cases hr : m.range with
    | none =>
      rw [hr] at hcovered
      cases hcovered
    | some range =>
      simp only [hr, Bool.not_eq_false'] at hcovered ⊢
      exact covers_mono h hcovered

theorem settles_offer (log : Log) (m : Message) : (log.offer m).Settles m := by
  unfold offer
  split
  · next hmem => exact Or.inl hmem
  · unfold add
    split
    · exact Or.inl (List.mem_append_right _ (List.mem_singleton_self m))
    · next hcovered => exact Or.inr (Bool.eq_false_iff.mpr hcovered)

theorem offer_of_settles {log : Log} {m : Message} (h : log.Settles m) : log.offer m = log := by
  unfold offer
  split
  · rfl
  · next hnew =>
    have hcovered := h.resolve_left hnew
    rw [add, hcovered]
    rfl

theorem settles_merge (log : Log) {other : Log} {m : Message} (hm : m ∈ other.messages) :
    (log.merge other).Settles m := by
  obtain ⟨ms⟩ := other
  induction ms generalizing log with
  | nil => cases hm
  | cons first ms ih =>
    rw [merge_cons]
    rcases List.mem_cons.mp hm with rfl | hrest
    · exact (settles_offer log m).mono (prefix_merge _ _)
    · exact ih _ hrest

theorem merge_of_settles {log other : Log} (h : ∀ m ∈ other.messages, log.Settles m) :
    log.merge other = log := by
  obtain ⟨ms⟩ := other
  induction ms with
  | nil => rfl
  | cons m ms ih =>
    rw [merge_cons, offer_of_settles (h m List.mem_cons_self)]
    exact ih fun other hother => h other (List.mem_cons_of_mem _ hother)

/-- Merging a log twice is merging it once. -/
theorem merge_merge (log other : Log) : (log.merge other).merge other = log.merge other :=
  merge_of_settles fun _ hm => settles_merge log hm

/-! ## What merging adds -/

theorem accepts_eq_false_iff {log : Log} {m : Message} :
    log.accepts m = false ↔ ∃ range, m.range = some range ∧ log.covers range = true := by
  unfold accepts
  cases m.range with
  | none => simp
  | some range => simp

theorem offer_cases (log : Log) (m : Message) :
    log.offer m = log ∨ m ∉ log.messages ∧ log.offer m = log.push m := by
  unfold offer
  split
  · exact Or.inl rfl
  · next hnew =>
    unfold add
    split
    · exact Or.inr ⟨hnew, rfl⟩
    · exact Or.inl rfl

/-- Merging adds messages of the other log in their order, each once and none that is there. -/
theorem exists_new_merge (log other : Log) :
    ∃ new, (log.merge other).messages = log.messages ++ new ∧ new.Sublist other.messages ∧
      new.Nodup ∧ ∀ m ∈ new, m ∉ log.messages := by
  obtain ⟨ms⟩ := other
  induction ms generalizing log with
  | nil => exact ⟨[], (List.append_nil _).symm, List.Sublist.slnil, List.nodup_nil, by simp⟩
  | cons m ms ih =>
    rw [merge_cons]
    rcases offer_cases log m with hsame | ⟨hm, hpush⟩
    · rw [hsame]
      obtain ⟨new, heq, hsub, hnew⟩ := ih log
      exact ⟨new, heq, hsub.cons m, hnew⟩
    · rw [hpush]
      obtain ⟨new, heq, hsub, hnodup, hfresh⟩ := ih (log.push m)
      have happend : ∀ x ∈ new, x ∉ log.messages ∧ x ≠ m := by
        intro x hx
        have hx' := hfresh x hx
        rw [push, List.mem_append, List.mem_singleton, not_or] at hx'
        exact hx'
      refine ⟨m :: new, ?_, hsub.cons_cons m, ?_, ?_⟩
      · rw [heq, push, List.append_assoc, List.singleton_append]
      · exact List.nodup_cons.mpr ⟨fun hmem => (happend m hmem).2 rfl, hnodup⟩
      · exact List.forall_mem_cons.mpr ⟨hm, fun x hx => (happend x hx).1⟩

/-- **Merging is idempotent.**  Whatever two logs hold, also messages that were pushed without a
test, merging one into the other a second time changes nothing.  The messages of the first stay as
they are and where they are; behind them stand new ones of the other, in its order and each once;
and a message of the other that is not there has a place that some recorded failure covers. -/
theorem merge_idempotent (log other : Log) :
    (log.merge other).merge other = log.merge other ∧
      ∃ new, (log.merge other).messages = log.messages ++ new ∧ new.Sublist other.messages ∧
        new.Nodup ∧ (∀ m ∈ new, m ∉ log.messages) ∧
        ∀ m ∈ other.messages, m ∉ (log.merge other).messages →
          ∃ range, m.range = some range ∧ (log.merge other).covers range = true := by
  refine ⟨merge_merge log other, ?_⟩
  obtain ⟨new, heq, hsub, hnodup, hfresh⟩ := exists_new_merge log other
  refine ⟨new, heq, hsub, hnodup, hfresh, ?_⟩
  intro m hm habsent
  exact accepts_eq_false_iff.mp ((settles_merge log hm).resolve_left habsent)

end Log

end LinkAsm
