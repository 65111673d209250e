import LinkAsm.Proofs.Pass.Deferral
import LinkAsm.Proofs.Program.LastPass
import LinkAsm.Proofs.Program.Success

/-!
# Which programs leave something open

Objects are placed one behind the other.  A program that succeeds may fill memory to its last byte,
and an object without instructions behind it has no address: it is placed nowhere, and no message
says so.  If such an object has a block label or an embedded block, the last pass leaves it open.

This is the only gap.  Every object that starts inside of memory is finished, because the objects
before it start there too and leave nothing open for it, and an object with instructions starts
inside of memory.

* `AssembledObject.finished_split`: an object is finished if it and those before it have places.
* `Program.deferral_finished_iff`: which programs that succeed are finished.
* `Program.open_label_at_end`: one that is not.
-/

namespace LinkAsm

namespace AssembledObject

/-! ## Passes over objects with places -/

/-- Whether an object has a place if one of its lines marks one. -/
def Anchored (o : AssembledObject) : Prop := ∀ l ∈ o.source.lines, l.MarksPlace → o.base ≠ none

theorem grounded_context {settings : PassSettings} (hscope : settings.scope ≠ .localPass)
    {o : AssembledObject} (ho : o.Anchored) {preceding : List SymbolTable}
    (hp : ∀ t ∈ preceding, t.Finished) (count : Nat) :
    Site.Grounded ⟨o.context settings count preceding, o.name, o.source⟩ :=
  ⟨hscope, rfl, ho, hp⟩

theorem result_of_record {o : AssembledObject} {result : PassResult}
    (h : (o.record result).log.failed = false) : result.log.failed = false := by
  rw [record, Log.failed_merge, Bool.or_eq_false_iff] at h
  exact h.2

/-- A pass finishes an object if it and the objects before it have places. -/
theorem finished_split {settings : PassSettings} (hscope : settings.scope ≠ .localPass)
    {count : Nat} {preceding : List SymbolTable} (hp : ∀ t ∈ preceding, t.Finished)
    {os before after : List AssembledObject} {o : AssembledObject}
    (h : runFrom settings count preceding os = before ++ o :: after)
    (hlog : ∀ x ∈ before ++ [o], x.log.failed = false) (ha : ∀ x ∈ before ++ [o], x.Anchored) :
    o.result.Finished := by
  induction os generalizing count preceding before with
  | nil => cases before <;> cases h
  | cons a os ih =>
    rw [runFrom] at h
    cases before with
    | nil =>
      obtain ⟨rfl, -⟩ := List.cons.inj h
      have ho := ha _ List.mem_cons_self
      exact Site.finished_extract (grounded_context hscope ho hp count)
        (result_of_record (hlog _ List.mem_cons_self))
    | cons b before =>
      obtain ⟨rfl, hrest⟩ := List.cons.inj h
      have ho := ha _ List.mem_cons_self
      have hfirst := Site.finished_extract (grounded_context (o := a) hscope ho hp count)
        (result_of_record (hlog _ List.mem_cons_self))
      refine ih ?_ hrest (fun x hx => hlog x (List.mem_cons_of_mem _ hx))
        (fun x hx => ha x (List.mem_cons_of_mem _ hx))
      intro t ht
      rcases List.mem_append.mp ht with hold | hnew
      · exact hp t hold
      · obtain rfl := List.mem_singleton.mp hnew
        exact hfirst.symbols

/-- The last pass leaves the blocks of an object without a place open. -/
theorem not_finished {policy : OversizedPolicy} {o : AssembledObject} (he : o.Extracted policy)
    (hlog : o.log.failed = false) (hb : o.base = none) {l : Line} (hl : l ∈ o.source.lines)
    (hm : l.MarksPlace) : ¬o.result.Finished := by
  have hresult : o.result.log.failed = false :=
    Log.not_failed_of_imp he.failed hlog
  obtain ⟨s, hsource, hbase, hextract⟩ := he.site
  rw [hextract] at hresult ⊢
  exact Site.not_finished_extract (hbase.trans hb) hresult (hsource ▸ hl) hm

/-! ## Objects that start inside of memory -/

theorem PlacedAt.base_eq_none_iff {start : Nat} {o : AssembledObject} (h : o.PlacedAt start)
    (hlog : o.log.failed = false) : o.base = none ↔ Address.limit ≤ start := by
  rw [h.base (h.fits hlog), Address.toOption_ofNat]
  split
  · next hlt => simp only [reduceCtorEq, false_iff, Nat.not_le, hlt]
  · next hle => simp only [Nat.not_lt.mp hle]

/-- Objects before one that starts inside of memory start there too. -/
theorem PlacedFrom.base_ne_none {start : Nat} {before after : List AssembledObject}
    {o : AssembledObject} (h : PlacedFrom start (before ++ o :: after))
    (hlog : ∀ x ∈ before ++ [o], x.log.failed = false)
    (hlt : start + Address.instructionBytes * total before < Address.limit) :
    ∀ x ∈ before ++ [o], x.base ≠ none := by
  induction before generalizing start with
  | nil =>
    intro x hx hnone
    obtain rfl := List.mem_singleton.mp hx
    have hle := (h.1.base_eq_none_iff (hlog _ hx)).mp hnone
    exact absurd hlt (by omega)
  | cons b before ih =>
    rw [total_cons, Nat.mul_add] at hlt
    intro x hx
    rcases List.mem_cons.mp hx with rfl | hrest
    · intro hnone
      have hle := (h.1.base_eq_none_iff (hlog _ hx)).mp hnone
      omega
    · refine ih h.2 (fun y hy => hlog y (List.mem_cons_of_mem _ hy)) ?_ x hrest
      omega

/-- Objects without failures do not reach beyond memory. -/
theorem PlacedFrom.le_limit {start : Nat} {before after : List AssembledObject}
    (h : PlacedFrom start (before ++ after)) (hlog : ∀ x ∈ before, x.log.failed = false)
    (hstart : start ≤ Address.limit) :
    start + Address.instructionBytes * total before ≤ Address.limit := by
  induction before generalizing start with
  | nil => exact hstart
  | cons b before ih =>
    have hfits := h.1.fits (hlog b List.mem_cons_self)
    have hnext : start + Address.instructionBytes * b.count ≤ Address.limit := by
      rcases hfits with hzero | hle
      · rw [hzero]
        exact hstart
      · exact hle
    have hrest := ih h.2 (fun x hx => hlog x (List.mem_cons_of_mem _ hx)) hnext
    rw [total_cons, Nat.mul_add]
    omega

end AssembledObject

namespace Program

open AssembledObject

theorem log_of_split {p : Program} (hs : p.succeeded = true) {before after : List AssembledObject}
    {o : AssembledObject} (hsplit : p.objects = before ++ o :: after) :
    ∀ x ∈ before ++ [o], x.log.failed = false := by
  intro x hx
  refine log_of_succeeded hs ?_
  rw [hsplit, List.append_cons]
  exact List.mem_append_left _ hx

namespace Linked

variable {sources : NameMap (List Char)} {options : Options} {p : Program}
  {settings : PassSettings} {os : List AssembledObject}

theorem startBehind_le (h : Linked sources options p settings os) (hs : p.succeeded = true)
    {before after : List AssembledObject} (hsplit : p.objects = before ++ after) :
    startBehind options before ≤ Address.limit := by
  have hlog : ∀ x ∈ before, x.log.failed = false := by
    intro x hx
    exact log_of_succeeded hs (hsplit ▸ List.mem_append_left _ hx)
  have hle := (hsplit ▸ h.placedFrom).le_limit hlog (Nat.le_of_lt (Address.value_of_ofInt h.origin).2)
  rw [h.startBehind_eq]
  exact Int.ofNat_le.mpr hle

theorem base_eq_none_iff (h : Linked sources options p settings os) (hs : p.succeeded = true)
    {before after : List AssembledObject} {o : AssembledObject}
    (hsplit : p.objects = before ++ o :: after) :
    o.base = none ↔ startBehind options before = Address.limit := by
  have hle := h.startBehind_le hs hsplit
  rw [(h.placedAt hsplit).base_eq_none_iff (log_of_split hs hsplit o (by simp))]
  rw [h.startBehind_eq] at hle ⊢
  omega

theorem not_failed_result (h : Linked sources options p settings os) (hs : p.succeeded = true)
    {o : AssembledObject} (ho : o ∈ p.objects) : o.result.log.failed = false :=
  Log.not_failed_of_imp (extracted_of_mem_runFrom (h.objects ▸ ho)).failed (log_of_succeeded hs ho)

/-- An object is finished if it and the objects before it have places. -/
theorem finished (h : Linked sources options p settings os) (hs : p.succeeded = true)
    {before after : List AssembledObject} {o : AssembledObject}
    (hsplit : p.objects = before ++ o :: after) (ha : ∀ x ∈ before ++ [o], x.Anchored) :
    o.result.Finished := by
  refine finished_split h.scope (fun t ht => ?_) (h.objects.symm.trans hsplit)
    (log_of_split hs hsplit) ha
  cases ht

/-- An object that starts inside of memory is finished. -/
theorem finished_of_lt (h : Linked sources options p settings os) (hs : p.succeeded = true)
    {before after : List AssembledObject} {o : AssembledObject}
    (hsplit : p.objects = before ++ o :: after) (hlt : startBehind options before < Address.limit) :
    o.result.Finished := by
  rw [h.startBehind_eq] at hlt
  have hbase := (hsplit ▸ h.placedFrom).base_ne_none (log_of_split hs hsplit) (Int.ofNat_lt.mp hlt)
  exact h.finished hs hsplit fun x hx l _ _ => hbase x hx

/-- An object is anchored exactly if it does not stand at the end of memory with a block. -/
theorem anchored_iff (h : Linked sources options p settings os) (hs : p.succeeded = true)
    {before after : List AssembledObject} {o : AssembledObject}
    (hsplit : p.objects = before ++ o :: after) :
    o.Anchored ↔
      (startBehind options before = Address.limit → ∀ l ∈ o.source.lines, ¬l.MarksPlace) := by
  rw [← h.base_eq_none_iff hs hsplit]
  constructor
  · intro ha hnone l hl hm
    exact ha l hl hm hnone
  · intro hmarks l hl hm hnone
    exact hmarks hnone l hl hm

/-- An object with instructions starts inside of memory. -/
theorem startBehind_lt (h : Linked sources options p settings os) (hs : p.succeeded = true)
    {before after : List AssembledObject} {o : AssembledObject}
    (hsplit : p.objects = before ++ o :: after) (hcount : 0 < o.count) :
    startBehind options before < Address.limit := by
  have hbytes : 0 < Address.instructionBytes * o.count := Nat.mul_pos (by decide) hcount
  rw [h.startBehind_eq]
  rcases (h.placedAt hsplit).fits (log_of_split hs hsplit o (by simp)) with hzero | hle
  · omega
  · omega

/-- An object with an instruction in its result has instructions. -/
theorem count_pos (h : Linked sources options p settings os) {o : AssembledObject}
    (ho : o ∈ p.objects) {ins : Instruction} (hins : ins ∈ o.result.instructions) :
    0 < o.count := by
  have hread := h.readFrom_objects o ho
  rw [h.objects] at ho
  obtain ⟨s, hsource, -, hextract⟩ := (extracted_of_mem_runFrom ho).site
  rw [hextract] at hins
  obtain ⟨l, i, hl, hk⟩ := s.exists_line_of_mem_instructions hins
  rw [hsource, hread.source] at hl
  rw [count, hread.source]
  exact Source.instructionCount_pos hl hk

end Linked

/-- **What a successful program leaves open.**  If a program succeeds, it leaves nothing open exactly
if no object with a block label or an embedded block stands at the end of memory.  Only an object
without instructions can stand there.  All objects that start before the end of memory are finished,
and no operand is ever left open. -/
theorem deferral_finished_iff {sources : NameMap (List Char)} {options : Options}
    (h : (assemble sources options).succeeded = true) :
    ((∀ o ∈ (assemble sources options).objects, o.result.Finished) ↔
        ∀ before o after, (assemble sources options).objects = before ++ o :: after →
          startBehind options before = Address.limit → ∀ l ∈ o.source.lines, ¬l.MarksPlace) ∧
      (∀ before o after, (assemble sources options).objects = before ++ o :: after →
        (startBehind options before < Address.limit ∧ o.result.Finished) ∨
          startBehind options before = Address.limit ∧ o.count = 0) ∧
      ∀ o ∈ (assemble sources options).objects, ∀ ins ∈ o.result.instructions,
        .deferred ∉ ins.operands := by
  obtain ⟨settings, os, hl⟩ := linked_of_succeeded h
  refine ⟨⟨?_, ?_⟩, ?_, ?_⟩
  · intro hfinished before o after hsplit hend l hmem hm
    have ho : o ∈ (assemble sources options).objects := by
      rw [hsplit]
      exact List.mem_append_right _ List.mem_cons_self
    have hextracted := extracted_of_mem_runFrom (hl.objects ▸ ho)
    exact not_finished hextracted (log_of_succeeded h ho) ((hl.base_eq_none_iff h hsplit).mpr hend)
      hmem hm (hfinished o ho)
  · intro hcond o ho
    obtain ⟨before, after, hsplit⟩ := List.append_of_mem ho
    refine hl.finished h hsplit ?_
    intro x hx
    have hx' : x ∈ (assemble sources options).objects := by
      rw [hsplit, List.append_cons]
      exact List.mem_append_left _ hx
    obtain ⟨before', after', hsplit'⟩ := List.append_of_mem hx'
    exact (hl.anchored_iff h hsplit').mpr (hcond before' x after' hsplit')
  · intro before o after hsplit
    have hle := hl.startBehind_le h hsplit
    rcases Nat.eq_zero_or_pos o.count with hzero | hpos
    · by_cases hlt : startBehind options before < Address.limit
      · exact Or.inl ⟨hlt, hl.finished_of_lt h hsplit hlt⟩
      · exact Or.inr ⟨by omega, hzero⟩
    · have hlt := hl.startBehind_lt h hsplit hpos
      exact Or.inl ⟨hlt, hl.finished_of_lt h hsplit hlt⟩
  · intro o ho ins hins
    obtain ⟨before, after, hsplit⟩ := List.append_of_mem ho
    have hlt := hl.startBehind_lt h hsplit (hl.count_pos ho hins)
    exact (hl.finished_of_lt h hsplit hlt).operands ins hins

/-- An instruction in the last four bytes of memory, and an object with a block label behind it. -/
def fullMemory : NameMap (List Char) := .ofList [("A", "nop".toList), ("B", "x:".toList)]

/-- The address of the last instruction that fits into memory. -/
def lastInstruction : Options := { baseOffset := 4294967292 }

theorem deferral_finished_iff_fullMemory :
    (assemble fullMemory lastInstruction).succeeded = true ∧
      ∃ o rest, (assemble fullMemory lastInstruction).objects = o :: rest ∧ o.result.Finished := by
  have h : (assemble fullMemory lastInstruction).succeeded = true := by cbv
  have hlength : (assemble fullMemory lastInstruction).objects.length = 2 := by cbv
  obtain ⟨o, rest, hobjects⟩ := List.exists_cons_of_length_eq_add_one hlength
  have hstart : startBehind lastInstruction [] ≠ Address.limit := by decide
  rcases (deferral_finished_iff h).2.1 [] o rest hobjects with ⟨-, hfinished⟩ | ⟨hend, -⟩
  · exact ⟨h, o, rest, hobjects, hfinished⟩
  · exact absurd hend hstart

/-- The program succeeds, and its block label at the end of memory is left open. -/
theorem open_label_at_end :
    (assemble fullMemory lastInstruction).succeeded = true ∧
      ∃ o ∈ (assemble fullMemory lastInstruction).objects,
        (o.result.symbols.find? "x").map (·.value) = some .deferred ∧
          o.result.labels.find? "x" = some none ∧ ¬o.result.Finished := by
  have h : (assemble fullMemory lastInstruction).succeeded = true := by cbv
  have hvalues : (assemble fullMemory lastInstruction).objects.map (fun o =>
      ((o.result.symbols.find? "x").map (·.value), o.result.labels.find? "x")) =
      [(none, none), (some .deferred, some none)] := by cbv
  have hmem : (some SymbolValue.deferred, some (none : Option Address)) ∈
      (assemble fullMemory lastInstruction).objects.map (fun o =>
        ((o.result.symbols.find? "x").map (·.value), o.result.labels.find? "x")) := by
    rw [hvalues]
    exact List.mem_cons_of_mem _ (List.mem_singleton_self _)
  obtain ⟨o, ho, heq⟩ := List.mem_map.mp hmem
  obtain ⟨hvalue, hlabel⟩ := Prod.mk.inj heq
  refine ⟨h, o, ho, hvalue, hlabel, ?_⟩
  intro hfinished
  obtain ⟨address, haddress⟩ := hfinished.labels "x" none hlabel
  cases haddress

end Program

end LinkAsm
