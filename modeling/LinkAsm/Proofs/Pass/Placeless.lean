import LinkAsm.Proofs.Pass.Ranges

/-!
# Messages without a place

A message without a place is about an object as a whole.  No log turns one away, and none is among
the messages of reading a text or of a pass: these are about a line, an operand or an expression.

* `Log.placeless_add`, `Log.placeless_merge`: what becomes of the messages without a place.
* `Site.placeless_extract`, `Source.placeless_parse`: a pass and a reading leave none.
-/

namespace LinkAsm

/-! ## Logs -/

namespace Log

/-- The messages without a place. -/
def placeless (log : Log) : List Message := log.messages.filter (·.range.isNone)

theorem placeless_eq_nil_iff {log : Log} :
    log.placeless = [] ↔ ∀ m ∈ log.messages, m.range ≠ none := by
  simp only [placeless, List.filter_eq_nil_iff, Option.isNone_iff_eq_none, ne_eq]

theorem placeless_push (log : Log) (m : Message) :
    (log.push m).placeless = log.placeless ++ [m].filter (·.range.isNone) :=
  List.filter_append ..

/-- A message without a place is recorded, whatever is there. -/
theorem placeless_add_of_eq_none (log : Log) {m : Message} (h : m.range = none) :
    (log.add m).placeless = log.placeless ++ [m] := by
  have haccepts : log.accepts m = true := by
    unfold accepts
    rw [h]
  have hfilter : [m].filter (·.range.isNone) = [m] := by
    rw [List.filter_singleton, h]
    rfl
  rw [add, if_pos haccepts, placeless_push, hfilter]

theorem placeless_add (log : Log) {m : Message} (h : m.range ≠ none) :
    (log.add m).placeless = log.placeless := by
  have hfilter : [m].filter (·.range.isNone) = [] := by
    rw [List.filter_singleton, Option.isNone_eq_false_iff.mpr (Option.isSome_iff_ne_none.mpr h)]
    rfl
  unfold add
  split
  · rw [placeless_push, hfilter, List.append_nil]
  · rfl

theorem placeless_addAll (log : Log) {ms : List Message} (h : ∀ m ∈ ms, m.range ≠ none) :
    (log.addAll ms).placeless = log.placeless := by
  induction ms generalizing log with
  | nil => rfl
  | cons m ms ih =>
    have hstep : log.addAll (m :: ms) = (log.add m).addAll ms := rfl
    rw [hstep, ih (log.add m) fun x hx => h x (List.mem_cons_of_mem _ hx)]
    exact log.placeless_add (h m List.mem_cons_self)

/-- Merging a log in which all messages have a place adds none without. -/
theorem placeless_merge (log : Log) {other : Log} (h : other.placeless = []) :
    (log.merge other).placeless = log.placeless := by
  obtain ⟨ms⟩ := other
  rw [placeless_eq_nil_iff] at h
  induction ms generalizing log with
  | nil => rfl
  | cons m ms ih =>
    have hoffer : (log.offer m).placeless = log.placeless := by
      unfold offer
      split
      · rfl
      · exact log.placeless_add (h m List.mem_cons_self)
    rw [merge_cons, ih (log.offer m) fun x hx => h x (List.mem_cons_of_mem _ hx), hoffer]

end Log

/-! ## Aliases -/

namespace Site

variable {s : Site} {aliases : AliasScope} {position : Nat} {m : Message}

theorem range_ne_none_of_mem_evaluate {e : Expr}
    (h : m ∈ (s.evaluate aliases position e).2) : m.range ≠ none := by
  obtain ⟨leaf, -, hrange⟩ := exists_leaf_of_mem_evaluate h
  rw [hrange]
  exact Option.some_ne_none leaf.1

end Site

namespace WorkList

variable {w w' : WorkList}

theorem range_ne_none_of_mem_messages {p : PendingAlias} {v : AliasValue} {notes : List Message}
    (hnotes : ∀ m ∈ notes, m.range ≠ none) : ∀ m ∈ messages p v notes, m.range ≠ none := by
  intro m hm
  rcases List.mem_append.mp hm with hnote | herror
  · obtain ⟨note, hmem, rfl⟩ := List.mem_map.mp hnote
    exact fun hnone => hnotes note hmem (Option.map_eq_none_iff.mp hnone)
  · cases v with
    | error e =>
      rw [List.mem_singleton.mp herror]
      exact Option.some_ne_none _
    | word w => cases herror
    | deferred => cases herror
    | dependsOn name => cases herror

theorem placeless_step {s : Site} {declared : List String} (h : Step (s.outcome declared) w w') :
    w'.log.placeless = w.log.placeless := by
  cases h with
  | park => rfl
  | finish =>
    refine w.log.placeless_addAll (range_ne_none_of_mem_messages ?_)
    exact fun m hm => Site.range_ne_none_of_mem_evaluate hm

theorem placeless_giveUp (w : WorkList) : w.giveUp.log.placeless = w.log.placeless := by
  refine w.log.placeless_addAll ?_
  intro m hm
  obtain ⟨p, -, rfl⟩ := List.mem_map.mp hm
  exact Option.some_ne_none _

end WorkList

/-! ## Definitions -/

namespace Definitions

variable {s : Site}

theorem placeless_blockValue (log : Log) (l : Line) :
    (log.addAll (blockValue s l).2).placeless = log.placeless := by
  refine log.placeless_addAll ?_
  intro m hm
  unfold blockValue at hm
  split at hm
  · cases hm
  · cases hm
  · rw [List.mem_singleton.mp hm]
    exact Option.some_ne_none _

/-- What a line adds is reported at the line, or at the expression in it. -/
theorem placeless_addLine (d : Definitions) (l : Line) :
    (d.addLine s l).log.placeless = d.log.placeless := by
  have hcritical : ∀ (log : Log) (code : Code) (span : Span) (text : String),
      (log.add (.critical code span text)).placeless = log.placeless :=
    fun log code span text => log.placeless_add (Option.some_ne_none span)
  unfold addLine
  split
  · simp only [addLabel]
    split
    · exact (hcritical _ _ _ _).trans (placeless_blockValue d.log l)
    · exact placeless_blockValue d.log l
  · simp only [addBlock]
    split
    · exact hcritical _ _ _ _
    · exact placeless_blockValue d.log l
  · unfold addAlias
    split
    · exact hcritical _ _ _ _
    · dsimp only
      split
      · rfl
      · exact hcritical _ _ _ _
  · unfold addImport
    split
    · split
      · exact hcritical _ _ _ _
      · rfl
    · rfl
  · rfl

theorem placeless_ofLines (s : Site) : (ofLines s).log.placeless = [] := by
  unfold ofLines
  refine List.foldlRecOn s.source.lines (addLine s) (motive := fun d => d.log.placeless = []) ?_ ?_
  · rfl
  · intro d hd l _
    rw [placeless_addLine, hd]

end Definitions

/-! ## Passes and readings -/

namespace Site

theorem placeless_aliases (s : Site) : s.aliases.2.placeless = [] := by
  rw [log_aliases, WorkList.placeless_giveUp]
  exact WorkList.invariant_run (P := fun w => w.log.placeless = [])
    (fun _ _ hstep h => (WorkList.placeless_step hstep).trans h) (Definitions.placeless_ofLines s)

/-- **All messages of a pass have a place.** -/
theorem placeless_extract (s : Site) (policy : OversizedPolicy) :
    (s.extract policy).log.placeless = [] := by
  refine (Log.placeless_addAll _ ?_).trans s.placeless_aliases
  intro m hm
  obtain ⟨result, hresult, hmem⟩ := List.mem_flatMap.mp hm
  obtain ⟨l, -, hline⟩ := List.mem_filterMap.mp hresult
  unfold resolveLine? at hline
  split at hline
  · obtain rfl := Option.some.inj hline
    obtain ⟨resolved, hresolved, hmessage⟩ := List.mem_flatMap.mp hmem
    obtain ⟨o, -, rfl⟩ := List.mem_map.mp hresolved
    rw [range_of_mem_resolveOperand hmessage]
    exact Option.some_ne_none _
  · cases hline

end Site

/-- All messages of reading a text have a place. -/
theorem Source.placeless_parse (text : List Char) : (Source.parse text).2.placeless = [] := by
  refine Log.placeless_addAll .empty ?_
  intro m hm
  obtain ⟨e, -, he⟩ := List.mem_filterMap.mp hm
  unfold Entry.error? at he
  split at he
  · cases he
  · obtain rfl := Option.some.inj he
    exact Option.some_ne_none _

end LinkAsm
