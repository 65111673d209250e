import Mathlib
import LinkAsm.Proofs.Pass.Definitions
import LinkAsm.Proofs.Pass.Monotone

/-!
# Every alias gets its value

The work list of `WorkList.run` is followed step by step.  `Step` says what a step does with the
first alias of the queue, and `Accounted` is what every step keeps:

* the aliases in the queue, those parked and those with a value are together the declared ones, so
  none is lost and none has two values;
* no value waits for an alias;
* a value is what its expression evaluates to under the values that there are now, and not only
  under those that there were when it was found.

The last rests on a law of the outcomes: a settled one does not change when values are added.  What
is parked when the queue is empty gets an error, so in the end all declared aliases have a value.

* `WorkList.steps_run`: a run is a finite number of steps and ends with an empty queue.
* `Site.evaluateAliases_adequate`: the values of an object's aliases.
-/

namespace LinkAsm

namespace WorkList

variable {evaluate : NameMap AliasValue → PendingAlias → AliasValue × List Message}

/-! ## Steps and runs -/

/-- What a step does with the first alias of the queue. -/
inductive Step (evaluate : NameMap AliasValue → PendingAlias → AliasValue × List Message) :
    WorkList → WorkList → Prop
  /-- It waits for another alias. -/
  | park {w : WorkList} {p : PendingAlias} {rest : List PendingAlias} {dependency : String}
      (hq : w.queue = p :: rest) (hv : (evaluate w.values p).1 = .dependsOn dependency) :
      Step evaluate w (w.park rest p dependency)
  /-- It gets its value. -/
  | finish {w : WorkList} {p : PendingAlias} {rest : List PendingAlias}
      (hq : w.queue = p :: rest) (hv : (evaluate w.values p).1.Settled) :
      Step evaluate w (w.finish rest p (evaluate w.values p).1 (evaluate w.values p).2)

/-- Steps make the aliases that are left fewer, or of these the queued ones. -/
theorem Step.decreases {w w' : WorkList} (h : Step evaluate w w') :
    Prod.Lex (· < ·) (· < ·) (w'.left, w'.queue.length) (w.left, w.queue.length) := by
  cases h with
  | park hq hv =>
    rw [left_park_eq w hq]
    exact Prod.Lex.right _ (by simp [WorkList.park, hq])
  | finish hq hv => exact Prod.Lex.left _ _ (left_finish_lt w hq _ _)

/-- There is no endless run. -/
theorem wellFounded_step
    (evaluate : NameMap AliasValue → PendingAlias → AliasValue × List Message) :
    WellFounded fun w' w => Step evaluate w w' := by
  have hmeasure := InvImage.wf (fun w : WorkList => (w.left, w.queue.length))
    (Prod.lex Nat.lt_wfRel Nat.lt_wfRel).wf
  exact Subrelation.wf (fun h => h.decreases) hmeasure

theorem run_of_nil {w : WorkList} (h : w.queue = []) : run evaluate w = w := by
  unfold run
  split
  · rfl
  · next hq => rw [h] at hq; cases hq

theorem exists_step (evaluate : NameMap AliasValue → PendingAlias → AliasValue × List Message)
    {w : WorkList} (h : w.queue ≠ []) :
    ∃ w', Step evaluate w w' ∧ run evaluate w = run evaluate w' := by
  rw [run]
  split
  · next hq => exact absurd hq h
  · next p rest hq =>
    split
    · next dependency notes hv =>
      exact ⟨_, .park hq (by rw [hv]), rfl⟩
    · next value notes hsettled hv =>
      have hfinish : Step evaluate w (w.finish rest p value notes) := by
        have hstep : (evaluate w.values p).1.Settled → _ := Step.finish hq
        rw [hv] at hstep
        exact hstep hsettled
      exact ⟨_, hfinish, rfl⟩

/-- A run is a finite number of steps and ends with an empty queue. -/
theorem steps_run (evaluate : NameMap AliasValue → PendingAlias → AliasValue × List Message)
    (w : WorkList) :
    Relation.ReflTransGen (Step evaluate) w (run evaluate w) ∧ (run evaluate w).queue = [] := by
  induction w using (wellFounded_step evaluate).induction with
  | _ w ih =>
    by_cases hq : w.queue = []
    · rw [run_of_nil hq]
      exact ⟨.refl, hq⟩
    · obtain ⟨w', hstep, hrun⟩ := exists_step evaluate hq
      rw [hrun]
      exact ⟨.head hstep (ih w' hstep).1, (ih w' hstep).2⟩

/-- What every step keeps holds at the end of a run. -/
theorem invariant_run {P : WorkList → Prop} (hstep : ∀ w w', Step evaluate w w' → P w → P w')
    {w : WorkList} (h : P w) : P (run evaluate w) := by
  have hsteps := (steps_run evaluate w).1
  generalize run evaluate w = w' at hsteps
  induction hsteps with
  | refl => exact h
  | tail _ hlast ih => exact hstep _ _ hlast ih

/-! ## What steps keep -/

/-- The aliases without a value. -/
def waiting (w : WorkList) : List PendingAlias := w.queue ++ w.parked.map (·.waiting)

/-- Whether an alias is named in the expression of another. -/
def Names (p : PendingAlias) (name : String) : Prop :=
  ∃ span, (span, .aliasRef name) ∈ p.expr.tree.leaves

/-- Whether an alias has the error of waiting for another forever. -/
def OnCycle (values : NameMap AliasValue) (name dependency : String) : Prop :=
  ∃ span, values.find? name = some (.error ⟨span, .dependencyCycle dependency⟩)

/-- What the work list needs of the outcomes of aliases. -/
structure Lawful (evaluate : NameMap AliasValue → PendingAlias → AliasValue × List Message)
    (declared : List String) : Prop where
  /-- Settled outcomes do not change when values of declared aliases are added. -/
  stable : ∀ values values' p, AliasScope.Grows ⟨values, declared⟩ ⟨values', declared⟩ →
    (evaluate values p).1.Settled → (evaluate values' p).1 = (evaluate values p).1
  /-- An alias waits for one that it names and that has no value. -/
  waits : ∀ values p dependency, (∀ name v, values.find? name = some v → v.Settled) →
    (evaluate values p).1 = .dependsOn dependency →
      Names p dependency ∧ dependency ∈ declared ∧ values.find? dependency = none

/-- What is kept while the aliases `pending` of all `declared` ones are evaluated. -/
structure Accounted (evaluate : NameMap AliasValue → PendingAlias → AliasValue × List Message)
    (pending : List PendingAlias) (declared : List String) (w : WorkList) : Prop where
  /-- Each declared alias waits or has a value. -/
  complete : (w.waiting.map (·.name) ++ w.values.keys).Perm declared
  /-- What waits is one of the aliases to be evaluated. -/
  waiting_mem : ∀ p ∈ w.waiting, p ∈ pending
  settled : ∀ name v, w.values.find? name = some v → v.Settled
  /-- A value is the outcome of its expression under the values that there are. -/
  sound : ∀ p ∈ pending, ∀ v, w.values.find? p.name = some v →
    v = (evaluate w.values p).1.shift p.origin
  /-- A parked alias waits for one without a value. -/
  parked : ∀ q ∈ w.parked, Names q.waiting q.dependency ∧ q.dependency ∈ declared ∧
    w.values.find? q.dependency = none

theorem waiting_finish_perm {w : WorkList} {p : PendingAlias} {rest : List PendingAlias}
    (hq : w.queue = p :: rest) (v : AliasValue) (notes : List Message) :
    w.waiting.Perm (p :: (w.finish rest p v notes).waiting) := by
  have hsplit := (List.filter_append_perm (fun q : Parked => q.dependency == p.name) w.parked).map
    (·.waiting)
  simp only [waiting, finish, hq, List.cons_append, List.append_assoc]
  rw [List.map_append] at hsplit
  exact (hsplit.symm.append_left rest).cons p

theorem waiting_park_perm {w : WorkList} {p : PendingAlias} {rest : List PendingAlias}
    (hq : w.queue = p :: rest) (dependency : String) :
    w.waiting.Perm (w.park rest p dependency).waiting := by
  simp only [waiting, park, hq, List.cons_append, List.map_append, List.map_cons, List.map_nil]
  rw [← List.append_assoc]
  exact (List.perm_append_singleton p _).symm

/-- What waits after a step waited before it. -/
theorem Step.mem_waiting {w w' : WorkList} (h : Step evaluate w w') {p : PendingAlias}
    (hp : p ∈ w'.waiting) : p ∈ w.waiting := by
  cases h with
  | park hq _ => exact (waiting_park_perm hq _).symm.subset hp
  | finish hq _ => exact (waiting_finish_perm hq _ _).symm.subset (List.mem_cons_of_mem _ hp)

namespace Accounted

variable {pending : List PendingAlias} {declared : List String} {w : WorkList}

theorem find?_eq_none_of_waiting (h : Accounted evaluate pending declared w)
    (hd : declared.Nodup) {p : PendingAlias} (hp : p ∈ w.waiting) :
    w.values.find? p.name = none := by
  have hnodup := h.complete.nodup_iff.mpr hd
  rw [NameMap.find?_eq_none_iff]
  intro hkey
  exact (List.nodup_append.mp hnodup).2.2 _ (List.mem_map_of_mem hp) _ hkey rfl

/-- Values that are added to do not change what was found before. -/
theorem sound_of_grows (hs : Lawful evaluate declared) (h : Accounted evaluate pending declared w)
    {values : NameMap AliasValue}
    (hg : AliasScope.Grows ⟨w.values, declared⟩ ⟨values, declared⟩) {p : PendingAlias}
    (hp : p ∈ pending) {v : AliasValue} (hv : w.values.find? p.name = some v) :
    v = (evaluate values p).1.shift p.origin := by
  have hsound := h.sound p hp v hv
  have hsettled : (evaluate w.values p).1.Settled :=
    AliasValue.settled_shift_iff.mp (hsound ▸ h.settled p.name v hv)
  rw [hs.stable _ _ p hg hsettled]
  exact hsound

theorem park (hs : Lawful evaluate declared) (h : Accounted evaluate pending declared w)
    {p : PendingAlias} {rest : List PendingAlias} (hq : w.queue = p :: rest) {dependency : String}
    (hv : (evaluate w.values p).1 = .dependsOn dependency) :
    Accounted evaluate pending declared (w.park rest p dependency) := by
  have hperm := waiting_park_perm hq dependency
  refine ⟨?_, ?_, h.settled, h.sound, ?_⟩
  · exact ((hperm.symm.map _).append_right _).trans h.complete
  · intro q hmem
    exact h.waiting_mem q (hperm.symm.subset hmem)
  · intro q hmem
    rcases List.mem_append.mp hmem with hold | hnew
    · exact h.parked q hold
    · obtain rfl := List.mem_singleton.mp hnew
      exact hs.waits w.values p dependency h.settled hv

/-- An alias that gets its value no longer waits. -/
theorem complete_finish (hd : declared.Nodup) (h : Accounted evaluate pending declared w)
    {p : PendingAlias} {rest : List PendingAlias} (hq : w.queue = p :: rest) (v : AliasValue)
    (notes : List Message) :
    ((w.finish rest p v notes).waiting.map (·.name) ++ (w.finish rest p v notes).values.keys).Perm
      declared := by
  have hperm := waiting_finish_perm hq v notes
  have hnone := h.find?_eq_none_of_waiting hd (hperm.symm.subset List.mem_cons_self)
  have hkeys := NameMap.keys_insert_perm (v.shift p.origin) (NameMap.find?_eq_none_iff.mp hnone)
  calc
    List.Perm _ ((w.finish rest p v notes).waiting.map (·.name) ++ p.name :: w.values.keys) :=
      hkeys.append_left _
    List.Perm _ (p.name :: ((w.finish rest p v notes).waiting.map (·.name) ++ w.values.keys)) :=
      List.perm_middle
    List.Perm _ (w.waiting.map (·.name) ++ w.values.keys) :=
      (hperm.symm.map (·.name)).append_right _
    List.Perm _ declared := h.complete

/-- A new value leaves the values that there were. -/
theorem grows_finish (hd : declared.Nodup) (h : Accounted evaluate pending declared w)
    {p : PendingAlias} {rest : List PendingAlias} (hq : w.queue = p :: rest) (v : AliasValue)
    (notes : List Message) :
    AliasScope.Grows ⟨w.values, declared⟩ ⟨(w.finish rest p v notes).values, declared⟩ := by
  have hp := (waiting_finish_perm hq v notes).symm.subset List.mem_cons_self
  refine ⟨rfl, ?_, ?_⟩
  · intro name old hname
    have hne : name ≠ p.name := by
      rintro rfl
      rw [h.find?_eq_none_of_waiting hd hp] at hname
      cases hname
    exact (NameMap.find?_insert_of_ne _ _ hne).trans hname
  · intro name new hname
    exact (h.complete_finish hd hq v notes).subset
      (List.mem_append_right _ (NameMap.mem_keys_iff.mpr ⟨new, hname⟩))

theorem finish (hs : Lawful evaluate declared) (hd : declared.Nodup)
    (hn : (pending.map (·.name)).Nodup) (h : Accounted evaluate pending declared w)
    {p : PendingAlias} {rest : List PendingAlias} (hq : w.queue = p :: rest)
    (hv : (evaluate w.values p).1.Settled) (notes : List Message) :
    Accounted evaluate pending declared (w.finish rest p (evaluate w.values p).1 notes) := by
  have hperm := waiting_finish_perm hq (evaluate w.values p).1 notes
  have hp := h.waiting_mem p (hperm.symm.subset List.mem_cons_self)
  have hgrows := h.grows_finish hd hq (evaluate w.values p).1 notes
  refine ⟨h.complete_finish hd hq _ notes, ?_, ?_, ?_, ?_⟩
  · intro q hmem
    exact h.waiting_mem q (hperm.symm.subset (List.mem_cons_of_mem _ hmem))
  · intro name v hname
    by_cases he : name = p.name
    · rw [he, WorkList.finish, NameMap.find?_insert_self] at hname
      exact Option.some.inj hname ▸ AliasValue.settled_shift_iff.mpr hv
    · rw [WorkList.finish, NameMap.find?_insert_of_ne _ _ he] at hname
      exact h.settled name v hname
  · intro q hqmem v hname
    by_cases he : q.name = p.name
    · have heq : q = p := List.inj_on_of_nodup_map hn hqmem hp he
      subst heq
      rw [WorkList.finish, NameMap.find?_insert_self] at hname
      rw [← Option.some.inj hname]
      exact congrArg _ (hs.stable _ _ q hgrows hv).symm
    · rw [WorkList.finish, NameMap.find?_insert_of_ne _ _ he] at hname
      exact h.sound_of_grows hs hgrows hqmem hname
  · -- what waited for `p` is in the queue again
    intro q hmem
    obtain ⟨hparked, hother⟩ := List.mem_filter.mp hmem
    have hne : q.dependency ≠ p.name := by simpa using hother
    obtain ⟨hnames, hdeclared, hfree⟩ := h.parked q hparked
    exact ⟨hnames, hdeclared, (NameMap.find?_insert_of_ne _ _ hne).trans hfree⟩

theorem step (hs : Lawful evaluate declared) (hd : declared.Nodup)
    (hn : (pending.map (·.name)).Nodup) {w' : WorkList} (hstep : Step evaluate w w')
    (h : Accounted evaluate pending declared w) : Accounted evaluate pending declared w' := by
  cases hstep with
  | park hq hv => exact h.park hs hq hv
  | finish hq hv => exact h.finish hs hd hn hq hv _

/-! ## What is left at the end -/

/-- Giving up adds an error for each alias that still waits. -/
theorem entries_giveUp_perm (hd : declared.Nodup) (h : Accounted evaluate pending declared w)
    (hq : w.queue = []) :
    w.giveUp.values.entries.Perm
      (w.parked.map (fun p => (p.waiting.name, .error (stuckError p))) ++ w.values.entries) := by
  have hsort := List.mergeSort_perm w.parked fun p q => decide (p.dependency ≤ q.dependency)
  have hwaiting : w.waiting.map (·.name) = w.parked.map (·.waiting.name) := by
    simp [waiting, hq]
  have hnodup := h.complete.nodup_iff.mpr hd
  rw [hwaiting] at hnodup
  have hsorted := ((hsort.map (·.waiting.name)).append_right w.values.keys).nodup_iff.mpr hnodup
  have hentries := NameMap.entries_foldl_insert_perm (fun p : Parked => p.waiting.name)
    (fun p => AliasValue.error (stuckError p)) hsorted
  exact hentries.trans ((hsort.map _).append_right _)

theorem keys_giveUp_perm (hd : declared.Nodup) (h : Accounted evaluate pending declared w)
    (hq : w.queue = []) : w.giveUp.values.keys.Perm declared := by
  have hentries := (h.entries_giveUp_perm hd hq).map (·.1)
  have hcomplete := h.complete
  simp only [waiting, hq, List.nil_append, List.map_map] at hcomplete
  simp only [List.map_append, List.map_map] at hentries
  exact hentries.trans hcomplete

theorem find?_giveUp (hd : declared.Nodup) (h : Accounted evaluate pending declared w)
    (hq : w.queue = []) {name : String} {v : AliasValue} :
    w.giveUp.values.find? name = some v ↔
      (∃ p ∈ w.parked, p.waiting.name = name ∧ .error (stuckError p) = v) ∨
        w.values.find? name = some v := by
  rw [NameMap.find?_eq_some_iff, (h.entries_giveUp_perm hd hq).mem_iff, List.mem_append,
    NameMap.find?_eq_some_iff]
  simp only [List.mem_map, Prod.mk.injEq]

/-- In the end no value waits for an alias. -/
theorem settled_giveUp (hd : declared.Nodup) (h : Accounted evaluate pending declared w)
    (hq : w.queue = []) {name : String} {v : AliasValue}
    (hv : w.giveUp.values.find? name = some v) : v.Settled := by
  rcases (h.find?_giveUp hd hq).mp hv with ⟨p, -, -, rfl⟩ | hfound
  · exact AliasValue.settled_error _
  · exact h.settled name v hfound

/-- What still waits in the end waits for an alias that still waits. -/
theorem exists_parked (h : Accounted evaluate pending declared w) (hq : w.queue = [])
    {q : Parked} (hmem : q ∈ w.parked) : ∃ r ∈ w.parked, r.waiting.name = q.dependency := by
  obtain ⟨-, hdeclared, hfree⟩ := h.parked q hmem
  have hall := h.complete.symm.subset hdeclared
  simp only [waiting, hq, List.nil_append, List.map_map, List.mem_append] at hall
  rcases hall with hwaiting | hkey
  · exact List.mem_map.mp hwaiting
  · exact absurd hkey (NameMap.find?_eq_none_iff.mp hfree)

/-- In the end an alias waits for one that waits too, or has the value of its expression under the
values of all aliases. -/
theorem sound_giveUp (hs : Lawful evaluate declared) (hd : declared.Nodup)
    (hn : (pending.map (·.name)).Nodup) (hmem : ∀ p ∈ pending, p.name ∈ declared)
    (h : Accounted evaluate pending declared w)
    (hq : w.queue = []) {p : PendingAlias} (hp : p ∈ pending) :
    (∃ dependency, OnCycle w.giveUp.values p.name dependency ∧ Names p dependency ∧
        ∃ next, OnCycle w.giveUp.values dependency next) ∨
      w.giveUp.values.find? p.name = some ((evaluate w.giveUp.values p).1.shift p.origin) := by
  have hkeys := h.keys_giveUp_perm hd hq
  have hgrows : AliasScope.Grows ⟨w.values, declared⟩ ⟨w.giveUp.values, declared⟩ := by
    refine ⟨rfl, ?_, ?_⟩
    · intro name v hv
      exact (h.find?_giveUp hd hq).mpr (Or.inr hv)
    · intro name v hv
      exact hkeys.subset (NameMap.mem_keys_iff.mpr ⟨v, hv⟩)
  obtain ⟨v, hv⟩ := NameMap.mem_keys_iff.mp (hkeys.symm.subset (hmem p hp))
  rcases (h.find?_giveUp hd hq).mp hv with ⟨q, hparked, hname, rfl⟩ | hfound
  · have hwaiting : q.waiting ∈ pending :=
      h.waiting_mem _ (List.mem_append_right _ (List.mem_map_of_mem hparked))
    have heq : q.waiting = p := List.inj_on_of_nodup_map hn hwaiting hp hname
    obtain ⟨r, hr, hrname⟩ := h.exists_parked hq hparked
    have hcycle := (h.find?_giveUp hd hq).mpr (Or.inl ⟨r, hr, hrname, rfl⟩)
    exact Or.inl ⟨q.dependency, ⟨_, hv⟩, heq ▸ (h.parked q hparked).1, r.dependency, ⟨_, hcycle⟩⟩
  · rw [← h.sound_of_grows hs hgrows hp hfound]
    exact Or.inr hv

end Accounted

end WorkList

namespace Site

/-- The outcome of an alias of an object under values of its aliases. -/
def outcome (s : Site) (declared : List String) (values : NameMap AliasValue) (p : PendingAlias) :
    AliasValue × List Message :=
  s.evaluate ⟨values, declared⟩ p.position p.expr

theorem lawful_outcome (s : Site) (declared : List String) :
    WorkList.Lawful (s.outcome declared) declared := by
  refine ⟨?_, ?_⟩
  · intro values values' p hgrows hsettled
    exact s.evaluate_of_grows hgrows hsettled
  · intro values p dependency hsettled hv
    exact s.evaluate_eq_dependsOn hsettled hv

/-- The work list of an object when its queue is empty. -/
def doneList (s : Site) : WorkList :=
  let d := Definitions.ofLines s
  WorkList.run (s.outcome d.declared) ⟨d.pending, [], d.malformed, d.log⟩

theorem accounted_doneList (s : Site) :
    WorkList.Accounted (s.outcome (Definitions.ofLines s).declared) (Definitions.ofLines s).pending
      (Definitions.ofLines s).declared s.doneList := by
  have hdeclared := Definitions.aliasesDeclared_ofLines s
  have hpending := (List.nodup_append.mp hdeclared.nodup).1
  refine WorkList.invariant_run ?_ ?_
  · intro w w' hstep h
    exact h.step (s.lawful_outcome _) hdeclared.nodup hpending hstep
  · refine ⟨?_, ?_, ?_, ?_, ?_⟩
    · simp [WorkList.waiting, Definitions.declared]
    · intro p hp
      simpa [WorkList.waiting] using hp
    · intro name v hv
      obtain ⟨e, rfl⟩ := hdeclared.malformed name v hv
      exact AliasValue.settled_error e
    · -- an alias whose expression cannot be read is not one to be evaluated
      intro p hp v hv
      have hkey := NameMap.mem_keys_iff.mpr ⟨v, hv⟩
      exact absurd rfl
        ((List.nodup_append.mp hdeclared.nodup).2.2 _ (List.mem_map_of_mem hp) _ hkey)
    · intro q hq
      cases hq

theorem queue_doneList (s : Site) : s.doneList.queue = [] :=
  (WorkList.steps_run (s.outcome (Definitions.ofLines s).declared) _).2

/-- The values of the object's aliases, and the log about them. -/
def aliases (s : Site) : NameMap AliasValue × Log :=
  let d := Definitions.ofLines s
  s.evaluateAliases d.pending d.malformed d.log

theorem log_aliases (s : Site) : s.aliases.2 = s.doneList.giveUp.log := rfl

/-- A value is an error of an alias that still waits, or was found before. -/
theorem find?_aliases (s : Site) {name : String} {v : AliasValue} :
    s.aliases.1.find? name = some v ↔
      (∃ p ∈ s.doneList.parked, p.waiting.name = name ∧ .error (WorkList.stuckError p) = v) ∨
        s.doneList.values.find? name = some v :=
  s.accounted_doneList.find?_giveUp (Definitions.aliasesDeclared_ofLines s).nodup s.queue_doneList

/-- The values are those of the declared aliases. -/
theorem keys_aliases_perm (s : Site) :
    s.aliases.1.keys.Perm (Definitions.ofLines s).declared :=
  s.accounted_doneList.keys_giveUp_perm (Definitions.aliasesDeclared_ofLines s).nodup
    s.queue_doneList

/-- An alias waits forever for one that waits forever too, or has the value of its expression under
the values of all aliases. -/
theorem sound_aliases (s : Site) {p : PendingAlias} (hp : p ∈ (Definitions.ofLines s).pending) :
    (∃ dependency, WorkList.OnCycle s.aliases.1 p.name dependency ∧ WorkList.Names p dependency ∧
        ∃ next, WorkList.OnCycle s.aliases.1 dependency next) ∨
      s.aliases.1.find? p.name =
        some ((s.outcome (Definitions.ofLines s).declared s.aliases.1 p).1.shift p.origin) := by
  have hdeclared := Definitions.aliasesDeclared_ofLines s
  refine s.accounted_doneList.sound_giveUp (s.lawful_outcome _) hdeclared.nodup
    (List.nodup_append.mp hdeclared.nodup).1 ?_ s.queue_doneList hp
  intro q hq
  exact List.mem_append_left _ (List.mem_map_of_mem hq)

/-- **Every alias gets its value.**  Evaluation ends.  Then the aliases of the object have one value
each, none of which waits.  An alias with an expression, which is the first to define its name, waits
forever for one that it names and that waits forever too, or has the value of its expression under
the values of all aliases. -/
theorem evaluateAliases_adequate (s : Site) :
    let d := Definitions.ofLines s
    let values := (s.evaluateAliases d.pending d.malformed d.log).1
    WellFounded (fun w' w => WorkList.Step (s.outcome d.declared) w w') ∧
      (∃ w, Relation.ReflTransGen (WorkList.Step (s.outcome d.declared))
          ⟨d.pending, [], d.malformed, d.log⟩ w ∧ w.queue = [] ∧ values = w.giveUp.values) ∧
      (∀ name, (∃ sym, d.symbols.find? name = some sym ∧ sym.kind = .aliasName) ↔
        ∃! v, (name, v) ∈ values.entries) ∧
      (∀ name v, (name, v) ∈ values.entries → ∀ dependency, v ≠ .dependsOn dependency) ∧
      ∀ line p, Definitions.pendingOf? line = some p →
        Definitions.FirstDefinition s.source.lines line p.name →
          (∃ dependency, WorkList.OnCycle values p.name dependency ∧ WorkList.Names p dependency ∧
            ∃ next, WorkList.OnCycle values dependency next) ∨
          values.find? p.name =
            some ((s.evaluate ⟨values, d.declared⟩ p.position p.expr).1.shift p.origin) := by
  intro d values
  have hdeclared := Definitions.aliasesDeclared_ofLines s
  have hpending := (List.nodup_append.mp hdeclared.nodup).1
  have hsteps := WorkList.steps_run (s.outcome d.declared) ⟨d.pending, [], d.malformed, d.log⟩
  have hdone := s.accounted_doneList
  have hkeys : values.keys.Perm d.declared := s.keys_aliases_perm
  refine ⟨WorkList.wellFounded_step _, ⟨s.doneList, hsteps.1, hsteps.2, rfl⟩, ?_, ?_, ?_⟩
  · intro name
    rw [← hdeclared.mem_iff, ← hkeys.mem_iff, NameMap.mem_keys_iff]
    simp only [← NameMap.find?_eq_some_iff]
    constructor
    · rintro ⟨v, hv⟩
      refine ⟨v, hv, ?_⟩
      intro v' hv'
      exact Option.some.inj (hv'.symm.trans hv)
    · exact ExistsUnique.exists
  · intro name v hv
    exact hdone.settled_giveUp hdeclared.nodup hsteps.2 (NameMap.find?_eq_some_iff.mpr hv)
  · intro line p hp hfirst
    have hmem : p ∈ d.pending :=
      ((Definitions.traced_ofLines s).pending_iff p).mpr ⟨line, hp, hfirst⟩
    refine hdone.sound_giveUp (s.lawful_outcome d.declared) hdeclared.nodup hpending ?_ hsteps.2 hmem
    intro q hq
    exact List.mem_append_left _ (List.mem_map_of_mem hq)

/-- An object with an alias `K` that stands before the alias `L` it names. -/
def forwardAlias : Site where
  context := .localTo ["A"] false
  object := "A"
  source := ⟨[⟨.aliasDefinition ⟨"K", ['#', 'L'], 11⟩, ⟨0, 13⟩, 0⟩,
    ⟨.aliasDefinition ⟨"L", ['2'], 25⟩, ⟨14, 26⟩, 0⟩], 0⟩

theorem evaluateAliases_adequate_forwardAlias :
    let d := Definitions.ofLines forwardAlias
    let values := (forwardAlias.evaluateAliases d.pending d.malformed d.log).1
    let expr : Expr := ⟨.leaf ⟨0, 2⟩ (.aliasRef "L"), none⟩
    Definitions.pendingOf? ⟨.aliasDefinition ⟨"K", ['#', 'L'], 11⟩, ⟨0, 13⟩, 0⟩ =
        some ⟨"K", expr, 11, 0⟩ ∧
      values.find? "K" = some (.word ⟨.quadByte, .unsigned, 2⟩) ∧
      values.find? "K" = some ((forwardAlias.evaluate ⟨values, d.declared⟩ 0 expr).1.shift 11) := by
  intro d values expr
  have hp : Definitions.pendingOf? ⟨.aliasDefinition ⟨"K", ['#', 'L'], 11⟩, ⟨0, 13⟩, 0⟩ =
      some ⟨"K", expr, 11, 0⟩ := by cbv
  have hv : forwardAlias.aliases.1.find? "K" = some (.word ⟨.quadByte, .unsigned, 2⟩) := by cbv
  have hfirst : Definitions.FirstDefinition forwardAlias.source.lines
      ⟨.aliasDefinition ⟨"K", ['#', 'L'], 11⟩, ⟨0, 13⟩, 0⟩ "K" := by
    refine ⟨[], _, rfl, rfl, ?_⟩
    intro l hl
    cases hl
  refine ⟨hp, hv, ?_⟩
  rcases (evaluateAliases_adequate forwardAlias).2.2.2.2 _ _ hp hfirst with ⟨_, ⟨_, herror⟩, _⟩ | h
  · cases hv.symm.trans herror
  · exact h

end Site

end LinkAsm
