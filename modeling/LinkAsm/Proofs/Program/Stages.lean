import Mathlib.Data.List.Forall2
import LinkAsm.Program.Basic
import LinkAsm.Proofs.Order.Build

/-!
# The stages of an object

An object is read, placed, and goes through one pass after the other.  No stage changes its name,
text or lines, and none loses a failure: `Continues` relates an object to itself at a later stage.

A program whose options make sense and whose objects can be ordered ends with a pass over all
objects in build order; `Linked` says what is known of that pass.

* `AssembledObject.placedFrom_place`: where objects are placed.
* `Program.assemble_cases`: how assembly ends.
* `Program.linked_of_succeeded`, `Program.linked_of_unresolved`: which programs are linked.
-/

namespace LinkAsm

namespace AssembledObject

/-! ## What stages keep -/

/-- One object is another at a later stage. -/
structure Continues (o o' : AssembledObject) : Prop where
  name : o'.name = o.name
  text : o'.text = o.text
  source : o'.source = o.source
  failed : o.log.failed = true → o'.log.failed = true

theorem continues_placeAt (start : Nat) (o : AssembledObject) : o.Continues (o.placeAt start) := by
  unfold placeAt
  dsimp only
  split
  · exact ⟨rfl, rfl, rfl, id⟩
  · split
    · exact ⟨rfl, rfl, rfl, id⟩
    · refine ⟨rfl, rfl, rfl, ?_⟩
      intro h
      rw [Log.failed_add, h, Bool.true_or]

theorem Continues.trans {a b c : AssembledObject} (h : a.Continues b) (h' : b.Continues c) :
    a.Continues c :=
  ⟨h'.name.trans h.name, h'.text.trans h.text, h'.source.trans h.source,
    fun hf => h'.failed (h.failed hf)⟩

theorem continues_record (o : AssembledObject) (result : PassResult) :
    o.Continues (o.record result) := by
  refine ⟨rfl, rfl, rfl, ?_⟩
  intro h
  rw [record, Log.failed_merge, h, Bool.true_or]

theorem forall₂_place (start : Nat) (os : List AssembledObject) :
    List.Forall₂ Continues os (place start os) := by
  induction os generalizing start with
  | nil => exact .nil
  | cons o os ih => exact .cons (continues_placeAt start o) (ih _)

theorem forall₂_runFrom (settings : PassSettings) (count : Nat) (preceding : List SymbolTable)
    (os : List AssembledObject) :
    List.Forall₂ Continues os (runFrom settings count preceding os) := by
  induction os generalizing count preceding with
  | nil => exact .nil
  | cons o os ih => exact .cons (continues_record o _) (ih _ _)

theorem map_name_of_forall₂ {os os' : List AssembledObject} (h : List.Forall₂ Continues os os') :
    os'.map (·.name) = os.map (·.name) := by
  induction h with
  | nil => rfl
  | cons ho _ ih => rw [List.map_cons, List.map_cons, ho.name, ih]

theorem map_layout_of_forall₂ {os os' : List AssembledObject} (h : List.Forall₂ Continues os os') :
    os'.map layout = os.map layout := by
  induction h with
  | nil => rfl
  | cons ho _ ih => rw [List.map_cons, List.map_cons, ih, layout, layout, count, count, ho.name, ho.source]

theorem forall₂_trans {os os' os'' : List AssembledObject} (h : List.Forall₂ Continues os os')
    (h' : List.Forall₂ Continues os' os'') : List.Forall₂ Continues os os'' := by
  induction h generalizing os'' with
  | nil => exact h'
  | cons ho _ ih =>
    obtain _ | ⟨ho', hrest⟩ := h'
    exact .cons (ho.trans ho') (ih hrest)

/-- What an object has of its text: its lines, and the failures in reading them. -/
structure ReadFrom (sources : NameMap (List Char)) (o : AssembledObject) : Prop where
  text : sources.find? o.name = some o.text
  source : o.source = (Source.parse o.text).1
  failed : (Source.parse o.text).2.failed = true → o.log.failed = true

theorem Continues.readFrom {o o' : AssembledObject} (h : o.Continues o')
    {sources : NameMap (List Char)} (hr : o.ReadFrom sources) : o'.ReadFrom sources := by
  refine ⟨?_, ?_, ?_⟩
  · rw [h.name, h.text]
    exact hr.text
  · rw [h.source, h.text]
    exact hr.source
  · rw [h.text]
    exact fun hf => h.failed (hr.failed hf)

theorem readFrom_of_forall₂ {os os' : List AssembledObject} (h : List.Forall₂ Continues os os')
    {sources : NameMap (List Char)} (hr : ∀ o ∈ os, o.ReadFrom sources) :
    ∀ o ∈ os', o.ReadFrom sources := by
  induction h with
  | nil =>
    intro o ho
    cases ho
  | cons hhead _ ih =>
    intro o ho
    rcases List.mem_cons.mp ho with rfl | htail
    · exact hhead.readFrom (hr _ List.mem_cons_self)
    · exact ih (fun o ho => hr o (List.mem_cons_of_mem _ ho)) o htail

theorem readFrom_ofText {sources : NameMap (List Char)} {name : String} {text : List Char}
    (h : (name, text) ∈ sources.entries) (known : List String) (options : Options) :
    (ofText known options name text).ReadFrom sources := by
  refine ⟨NameMap.find?_eq_some_iff.mpr h, rfl, ?_⟩
  intro hf
  rw [ofText, Log.failed_merge]
  exact Bool.or_eq_true_iff.mpr (Or.inl hf)

/-! ## Places -/

theorem nodup_layouts {os : List AssembledObject} (h : (os.map (·.name)).Nodup) :
    ((os.map layout).map (·.object)).Nodup := by
  rw [List.map_map]
  exact h

/-- The number of instructions of objects. -/
def total (os : List AssembledObject) : Nat := Layout.total (os.map layout)

theorem total_cons (o : AssembledObject) (os : List AssembledObject) :
    total (o :: os) = o.count + total os := rfl

theorem total_append (os os' : List AssembledObject) : total (os ++ os') = total os + total os' := by
  induction os with
  | nil => exact (Nat.zero_add _).symm
  | cons o os ih => rw [List.cons_append, total_cons, total_cons, ih, Nat.add_assoc]

/-- Whether an object at byte `start` fits into memory; one without instructions always does. -/
def Fits (start : Nat) (o : AssembledObject) : Prop :=
  o.count = 0 ∨ start + Address.instructionBytes * o.count ≤ Address.limit

/-- Whether an object stands at byte `start` if it fits there, and is reported if it does not. -/
structure PlacedAt (start : Nat) (o : AssembledObject) : Prop where
  base : o.Fits start → o.base = (Address.ofNat start).toOption
  tail : o.Fits start → o.tail = if o.count = 0 then none else
    (Address.ofNat (start + Address.instructionBytes * o.count - 1)).toOption
  fits : o.log.failed = false → o.Fits start

/-- Objects are placed one behind the other. -/
def PlacedFrom (start : Nat) : List AssembledObject → Prop
  | [] => True
  | o :: os => o.PlacedAt start ∧ PlacedFrom (start + Address.instructionBytes * o.count) os

section

variable {start : Nat} {o : AssembledObject}

theorem placeAt_of_idle (h : o.count = 0) :
    o.placeAt start = { o with base := (Address.ofNat start).toOption, tail := none } :=
  if_pos h

/-- An object that fits has a first and a last byte. -/
theorem toOption_of_fits (h : 0 < o.count)
    (hle : start + Address.instructionBytes * o.count ≤ Address.limit) :
    (Address.ofNat start).toOption = some ⟨start⟩ ∧
      (Address.ofNat (start + Address.instructionBytes * o.count - 1)).toOption =
        some ⟨start + Address.instructionBytes * o.count - 1⟩ := by
  have hbytes : 0 < Address.instructionBytes * o.count := Nat.mul_pos (by decide) h
  rw [Address.toOption_ofNat, Address.toOption_ofNat]
  exact ⟨if_pos (by omega), if_pos (by omega)⟩

theorem placeAt_of_fits (h : 0 < o.count)
    (hle : start + Address.instructionBytes * o.count ≤ Address.limit) :
    o.placeAt start = { o with
      base := some ⟨start⟩
      tail := some ⟨start + Address.instructionBytes * o.count - 1⟩ } := by
  obtain ⟨hbase, htail⟩ := toOption_of_fits h hle
  unfold placeAt
  rw [if_neg (Nat.ne_of_gt h), hbase, htail]

theorem placeAt_of_overflows (h : 0 < o.count)
    (hlt : Address.limit < start + Address.instructionBytes * o.count) :
    o.placeAt start =
      { o with base := none, tail := none, log := o.log.add (o.overflowMessage start) } := by
  have htail : (Address.ofNat (start + Address.instructionBytes * o.count - 1)).toOption = none := by
    rw [Address.toOption_ofNat, if_neg (by omega)]
  unfold placeAt
  rw [if_neg (Nat.ne_of_gt h), htail]
  cases (Address.ofNat start).toOption <;> rfl

end

theorem placedAt_placeAt (start : Nat) (o : AssembledObject) : (o.placeAt start).PlacedAt start := by
  rcases Nat.eq_zero_or_pos o.count with hcount | hcount
  · rw [placeAt_of_idle hcount]
    exact ⟨fun _ => rfl, fun _ => (if_pos hcount).symm, fun _ => Or.inl hcount⟩
  rcases Nat.lt_or_ge Address.limit (start + Address.instructionBytes * o.count) with hlt | hle
  · have hoverflow : ¬o.Fits start := by
      rintro (hzero | hle)
      · omega
      · omega
    rw [placeAt_of_overflows hcount hlt]
    refine ⟨fun hfits => absurd hfits hoverflow, fun hfits => absurd hfits hoverflow, ?_⟩
    intro hlog
    rw [Log.failed_add, Bool.or_eq_false_iff] at hlog
    cases hlog.2
  · obtain ⟨hbase, htail⟩ := toOption_of_fits hcount hle
    rw [placeAt_of_fits hcount hle]
    refine ⟨fun _ => hbase.symm, fun _ => ?_, fun _ => Or.inr hle⟩
    exact ((if_neg (Nat.ne_of_gt hcount)).trans htail).symm

theorem count_placeAt (start : Nat) (o : AssembledObject) : (o.placeAt start).count = o.count :=
  congrArg Source.instructionCount (continues_placeAt start o).source

theorem placedFrom_place (start : Nat) (os : List AssembledObject) :
    PlacedFrom start (place start os) := by
  induction os generalizing start with
  | nil => trivial
  | cons o os ih =>
    refine ⟨placedAt_placeAt start o, ?_⟩
    rw [count_placeAt]
    exact ih _

/-- A pass moves no object. -/
theorem PlacedFrom.runFrom {start : Nat} {os : List AssembledObject} (h : PlacedFrom start os)
    (settings : PassSettings) (count : Nat) (preceding : List SymbolTable) :
    PlacedFrom start (runFrom settings count preceding os) := by
  induction os generalizing start count preceding with
  | nil => trivial
  | cons o os ih =>
    refine ⟨⟨h.1.base, h.1.tail, ?_⟩, ih h.2 _ _⟩
    intro hlog
    exact h.1.fits (Log.not_failed_of_imp (continues_record o _).failed hlog)

theorem PlacedFrom.split {start : Nat} {before after : List AssembledObject} {o : AssembledObject}
    (h : PlacedFrom start (before ++ o :: after)) :
    o.PlacedAt (start + Address.instructionBytes * total before) := by
  induction before generalizing start with
  | nil => exact h.1
  | cons b before ih =>
    have hrest := ih h.2
    rw [total_cons, Nat.mul_add, ← Nat.add_assoc]
    exact hrest

/-! ## Passes -/

/-- What a pass records of an object, and that no failure of it is lost. -/
structure Extracted (policy : OversizedPolicy) (o : AssembledObject) : Prop where
  site : ∃ s : Site, s.source = o.source ∧ s.context.base = o.base ∧ o.result = s.extract policy
  failed : o.result.log.failed = true → o.log.failed = true

theorem extracted_of_mem_runFrom {settings : PassSettings} {count : Nat}
    {preceding : List SymbolTable} {os : List AssembledObject} {o : AssembledObject}
    (h : o ∈ runFrom settings count preceding os) : o.Extracted settings.options.oversized := by
  induction os generalizing count preceding with
  | nil => cases h
  | cons a os ih =>
    rcases List.mem_cons.mp h with rfl | htail
    · refine ⟨⟨_, rfl, rfl, rfl⟩, ?_⟩
      intro hf
      rw [record, Log.failed_merge]
      exact Bool.or_eq_true_iff.mpr (Or.inr hf)
    · exact ih htail

end AssembledObject

namespace Program

open AssembledObject

/-! ## Selection -/

theorem mem_of_mem_select {names : List String} {objects : List AssembledObject}
    {o : AssembledObject} (h : o ∈ select names objects) : o ∈ objects := by
  obtain ⟨name, -, hfind⟩ := List.mem_filterMap.mp h
  exact List.mem_of_find?_eq_some hfind

theorem exists_find_of_mem {name : String} {objects : List AssembledObject}
    (h : name ∈ objects.map (·.name)) :
    ∃ o, objects.find? (·.name == name) = some o ∧ o.name = name := by
  obtain ⟨o, ho, hname⟩ := List.mem_map.mp h
  cases hfind : objects.find? (·.name == name) with
  | none =>
    have hne := List.find?_eq_none.mp hfind o ho
    exact absurd (beq_iff_eq.mpr hname) hne
  | some found =>
    have hfound : (found.name == name) = true :=
      List.find?_some (p := fun o : AssembledObject => o.name == name) hfind
    exact ⟨found, rfl, beq_iff_eq.mp hfound⟩

/-- Objects are selected in the order of the names. -/
theorem map_name_select {names : List String} {objects : List AssembledObject}
    (h : ∀ name ∈ names, name ∈ objects.map (·.name)) :
    (select names objects).map (·.name) = names := by
  induction names with
  | nil => rfl
  | cons name names ih =>
    obtain ⟨o, hfind, hname⟩ := exists_find_of_mem (h name List.mem_cons_self)
    have hrest := ih fun n hn => h n (List.mem_cons_of_mem _ hn)
    have hcons : select (name :: names) objects = o :: select names objects :=
      List.filterMap_cons_some hfind
    rw [hcons, List.map_cons, hname, hrest]

/-! ## Programs that fail -/

theorem log_of_succeeded {p : Program} (h : p.succeeded = true) {o : AssembledObject}
    (ho : o ∈ p.objects) : o.log.failed = false := by
  rw [succeeded, Bool.and_eq_true, List.all_eq_true] at h
  exact (Bool.not_eq_true' _).mp (h.2 o ho)

/-- Options give the address where assembly starts, or a failure. -/
theorem validate_cases (options : Options) (known : List String) :
    (∃ origin, options.validate known = .ok origin ∧
        Address.ofInt options.baseOffset = .ok origin) ∨
      ∃ m, options.validate known = .error m ∧ m.isFailure = true := by
  unfold Options.validate
  cases horigin : Address.ofInt options.baseOffset with
  | error e => exact Or.inr ⟨_, rfl, rfl⟩
  | ok origin =>
    cases options.entryPoint with
    | none => exact Or.inl ⟨origin, rfl, rfl⟩
    | some entry =>
      by_cases hmem : entry.object ∈ known
      · exact Or.inl ⟨origin, if_pos hmem, rfl⟩
      · exact Or.inr ⟨_, if_neg hmem, rfl⟩

theorem not_succeeded_rejected {options : Options} {m : Message} (h : m.isFailure = true) :
    (rejected options m).succeeded = false := by
  have hfailed : (rejected options m).log.failed = true := by
    rw [rejected, Log.failed_push, h, Bool.or_true]
  rw [succeeded, hfailed]
  rfl

/-- An object that cannot be ordered is reported. -/
theorem failed_reportUnresolved {unresolved : List Unresolved} {u : Unresolved}
    (hu : u ∈ unresolved) {o : AssembledObject} (hname : o.name = u.object) :
    (o.reportUnresolved unresolved).log.failed = true := by
  have hown : u ∈ unresolved.filter (·.object == o.name) :=
    List.mem_filter.mpr ⟨hu, beq_iff_eq.mpr hname.symm⟩
  rw [reportUnresolved, Log.failed_addAll, Bool.or_eq_true]
  exact Or.inr (List.any_eq_true.mpr ⟨_, List.mem_map_of_mem hown, rfl⟩)

theorem not_succeeded_stopped {options : Options} {build : BuildOrder}
    {objects : List AssembledObject} {u : Unresolved} (hu : u ∈ build.unresolved)
    (hobject : u.object ∈ objects.map (·.name)) :
    (stopped options build objects).succeeded = false := by
  have hnames : (objects.map (AssembledObject.reportUnresolved build.unresolved)).map (·.name) =
      objects.map (·.name) := by
    rw [List.map_map]
    rfl
  obtain ⟨o, hfind, hname⟩ := exists_find_of_mem (hnames ▸ hobject)
  obtain ⟨a, -, rfl⟩ := List.mem_map.mp (List.mem_of_find?_eq_some hfind)
  have hfailed := failed_reportUnresolved hu (o := a) hname
  have hmem : a.reportUnresolved build.unresolved ∈ (stopped options build objects).objects := by
    by_cases horder : u.object ∈ build.order
    · exact List.mem_append_left _ (List.mem_filterMap.mpr ⟨u.object, horder, hfind⟩)
    · refine List.mem_append_right _ (List.mem_filter.mpr ⟨List.mem_of_find?_eq_some hfind, ?_⟩)
      rw [hname]
      exact decide_eq_true horder
  by_contra hsucceeded
  rw [log_of_succeeded (eq_true_of_ne_false hsucceeded) hmem] at hfailed
  cases hfailed

/-! ## The objects in build order -/

/-- The objects of a program after their local pass. -/
def localObjects (sources : NameMap (List Char)) (options : Options) : List AssembledObject :=
  sources.entries.map fun (name, text) => AssembledObject.ofText sources.keys options name text

/-- The build order of a program. -/
def build (sources : NameMap (List Char)) (options : Options) : BuildOrder :=
  .resolve ((localObjects sources options).map AssembledObject.demand) options.mockExternals

/-- The objects of a program after their local pass, in build order. -/
def orderedObjects (sources : NameMap (List Char)) (options : Options) : List AssembledObject :=
  select (build sources options).order (localObjects sources options)

variable {sources : NameMap (List Char)} {options : Options}

theorem map_name_localObjects (sources : NameMap (List Char)) (options : Options) :
    (localObjects sources options).map (·.name) = sources.keys := by
  rw [localObjects, List.map_map]
  rfl

theorem map_demand_localObjects (sources : NameMap (List Char)) (options : Options) :
    ((localObjects sources options).map AssembledObject.demand).map (·.object) =
      sources.keys := by
  rw [List.map_map]
  exact map_name_localObjects sources options

theorem readFrom_localObjects {o : AssembledObject} (h : o ∈ localObjects sources options) :
    o.ReadFrom sources := by
  obtain ⟨⟨name, text⟩, hentry, rfl⟩ := List.mem_map.mp h
  exact readFrom_ofText hentry _ _

theorem build_perm (h : (build sources options).isComplete = true) :
    (build sources options).order.Perm sources.keys := by
  have hdemands := map_demand_localObjects sources options
  exact hdemands ▸ BuildOrder.order_perm_of_isComplete (hdemands ▸ sources.keys_nodup) h

theorem map_name_orderedObjects (h : (build sources options).isComplete = true) :
    (orderedObjects sources options).map (·.name) = (build sources options).order := by
  refine map_name_select ?_
  intro name hname
  rw [map_name_localObjects]
  exact (build_perm h).subset hname

theorem readFrom_orderedObjects : ∀ o ∈ orderedObjects sources options, o.ReadFrom sources :=
  fun _ ho => readFrom_localObjects (mem_of_mem_select ho)

/-! ## The last pass -/

/-- The settings of the last pass over the objects `known`.  Only a program with an entry point has a
pass that knows the order of the instructions. -/
def lastPass (p : Program) (known : List String) : PassSettings where
  scope := if p.entryPoint.isSome then .postGlobalPass else .globalPass
  options := p.options
  origin := ⟨p.options.baseOffset.toNat⟩
  known := known
  order := p.entryPoint.map fun _ => p.order

/-- Whether the order of a program is the natural one, or that for its entry point. -/
def Arranged (p : Program) : Prop :=
  p.entryPoint = none ∧ p.order = .natural (p.objects.map layout) ∨
    ∃ entry, p.entryPoint = some entry ∧
      InstructionOrder.startingAt (p.objects.map layout) entry = .ok p.order

/-- What is known of the last pass of a program: its settings, and the objects that it goes over. -/
structure Linked (sources : NameMap (List Char)) (options : Options) (p : Program)
    (settings : PassSettings) (os : List AssembledObject) : Prop where
  origin : Address.ofInt options.baseOffset = .ok settings.origin
  ordered : p.buildOrder = (build sources options).order
  scope : settings.scope ≠ .localPass
  options : settings.options = options
  lastPass : settings = p.lastPass sources.keys
  objects : p.objects = runPass settings os
  arranged : p.Arranged
  buildOrder : p.buildOrder = os.map (·.name)
  complete : p.buildOrder.Perm sources.keys
  unresolved : p.unresolved = []
  readFrom : ∀ o ∈ os, o.ReadFrom sources
  placed : PlacedFrom settings.origin.value os

theorem scope_lastPass (p : Program) (known : List String) :
    (p.lastPass known).scope ≠ .localPass := by
  unfold lastPass
  dsimp only
  split <;> exact Scope.noConfusion

/-- A program whose last pass goes over later stages of the objects in a complete order. -/
theorem linked_of_forall₂ {p : Program} {os : List AssembledObject}
    (hcomplete : (build sources options).isComplete = true)
    (horigin : Address.ofInt options.baseOffset = .ok ⟨options.baseOffset.toNat⟩)
    (hstage : List.Forall₂ Continues (orderedObjects sources options) os)
    (hplaced : PlacedFrom options.baseOffset.toNat os) (hoptions : p.options = options)
    (hobjects : p.objects = runPass (p.lastPass sources.keys) os) (harranged : p.Arranged)
    (horder : p.buildOrder = (orderedObjects sources options).map (·.name))
    (hunresolved : p.unresolved = []) :
    Linked sources options p (p.lastPass sources.keys) os := by
  have hbuild := horder.trans (map_name_orderedObjects hcomplete)
  subst hoptions
  exact
    { origin := horigin
      scope := p.scope_lastPass sources.keys
      options := rfl
      lastPass := rfl
      objects := hobjects
      arranged := harranged
      buildOrder := horder.trans (map_name_of_forall₂ hstage).symm
      ordered := hbuild
      complete := hbuild ▸ build_perm hcomplete
      unresolved := hunresolved
      readFrom := readFrom_of_forall₂ hstage readFrom_orderedObjects
      placed := hplaced }

/-- The program of objects in a complete order ends with a pass over them. -/
theorem linked_link (hcomplete : (build sources options).isComplete = true)
    (horigin : Address.ofInt options.baseOffset = .ok ⟨options.baseOffset.toNat⟩) :
    ∃ settings os, Linked sources options
      (link options ⟨options.baseOffset.toNat⟩ sources.keys (orderedObjects sources options))
      settings os := by
  have hplace := forall₂_place options.baseOffset.toNat (orderedObjects sources options)
  have hplaced := placedFrom_place options.baseOffset.toNat (orderedObjects sources options)
  unfold link
  dsimp only
  split
  · exact ⟨_, _, linked_of_forall₂ hcomplete horigin hplace hplaced rfl rfl (Or.inl ⟨rfl, rfl⟩)
      rfl rfl⟩
  · split
    · exact ⟨_, _, linked_of_forall₂ hcomplete horigin hplace hplaced rfl rfl (Or.inl ⟨rfl, rfl⟩)
        rfl rfl⟩
    · next entry _ _ order hentry =>
      have hpass := forall₂_runFrom ⟨.globalPass, options, ⟨options.baseOffset.toNat⟩, sources.keys, none⟩
        0 [] (place options.baseOffset.toNat (orderedObjects sources options))
      refine ⟨_, _, linked_of_forall₂ hcomplete horigin (forall₂_trans hplace hpass)
        (hplaced.runFrom _ 0 []) rfl rfl (Or.inr ⟨entry, rfl, ?_⟩) rfl rfl⟩
      rw [runPass, map_layout_of_forall₂ (forall₂_runFrom _ 0 [] _)]
      exact hentry

/-! ## How assembly ends -/

theorem assemble_eq (sources : NameMap (List Char)) (options : Options) :
    assemble sources options =
      match options.validate sources.keys with
      | .error message => rejected options message
      | .ok origin =>
        if (build sources options).isComplete then
          link options origin sources.keys (orderedObjects sources options)
        else stopped options (build sources options) (localObjects sources options) := rfl

/-- **How assembly ends**: the options make no sense, or the objects cannot be ordered, or the last
pass goes over all objects in a complete order. -/
theorem assemble_cases (sources : NameMap (List Char)) (options : Options) :
    (∃ m, m.isFailure = true ∧ assemble sources options = rejected options m) ∨
      ((build sources options).isComplete = false ∧ assemble sources options =
        stopped options (build sources options) (localObjects sources options)) ∨
      ∃ settings os, Linked sources options (assemble sources options) settings os := by
  rw [assemble_eq]
  rcases validate_cases options sources.keys with ⟨origin, hvalid, horigin⟩ | ⟨m, hvalid, hm⟩
  · obtain rfl : origin = ⟨options.baseOffset.toNat⟩ := Address.eq_of_ofInt horigin
    rw [hvalid]
    cases hcomplete : (build sources options).isComplete with
    | true => exact Or.inr (Or.inr (linked_link hcomplete horigin))
    | false => exact Or.inr (Or.inl ⟨rfl, rfl⟩)
  · rw [hvalid]
    exact Or.inl ⟨m, hm, rfl⟩

/-- A program that cannot be ordered fails. -/
theorem not_succeeded_of_incomplete (h : (build sources options).isComplete = false) :
    (stopped options (build sources options) (localObjects sources options)).succeeded = false := by
  have hdemands := map_demand_localObjects sources options
  have hne : (build sources options).unresolved ≠ [] := by
    intro hnil
    rw [BuildOrder.isComplete, hnil] at h
    cases h
  obtain ⟨u, hu⟩ := List.exists_mem_of_ne_nil _ hne
  have hobject := BuildOrder.object_mem_of_mem_unresolved (hdemands ▸ sources.keys_nodup) hu
  rw [hdemands, ← map_name_localObjects sources options] at hobject
  exact not_succeeded_stopped hu hobject

/-- **A program without failures is linked**: its options make sense, its build order is complete,
and it ends with a pass over all objects. -/
theorem linked_of_succeeded (h : (assemble sources options).succeeded = true) :
    ∃ settings os, Linked sources options (assemble sources options) settings os := by
  rcases assemble_cases sources options with ⟨m, hm, heq⟩ | ⟨hincomplete, heq⟩ | hlinked
  · rw [heq, not_succeeded_rejected hm] at h
    cases h
  · rw [heq, not_succeeded_of_incomplete hincomplete] at h
    cases h
  · exact hlinked

/-- A program with objects and without unresolved requirements is linked. -/
theorem linked_of_unresolved (h : (assemble sources options).unresolved = [])
    {o : AssembledObject} (ho : o ∈ (assemble sources options).objects) :
    ∃ settings os, Linked sources options (assemble sources options) settings os := by
  rcases assemble_cases sources options with ⟨m, -, heq⟩ | ⟨hincomplete, heq⟩ | hlinked
  · rw [heq] at ho
    cases ho
  · rw [heq] at h
    rw [BuildOrder.isComplete, List.isEmpty_eq_false_iff] at hincomplete
    exact absurd h hincomplete
  · exact hlinked

end Program

end LinkAsm
