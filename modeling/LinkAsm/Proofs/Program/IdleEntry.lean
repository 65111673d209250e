import Mathlib
import LinkAsm.Proofs.Diagnostic.Merging
import LinkAsm.Proofs.Order.Blocks
import LinkAsm.Proofs.Pass.View
import LinkAsm.Proofs.Program.LastPass
import LinkAsm.Proofs.Source.Reading

/-!
# Entry points that change nothing

An entry point makes a program go through a pass more, which computes addresses from the origin and
the order of all instructions and no longer from the base of the object.  If the entry point moves
nothing, that pass sees what the pass before it saw: the object stands behind the instructions
before it, so both ways to an address give the same, at the end of an object and for objects without
instructions too.  The messages of the pass are those of the pass before, and merging them again
adds none.

* `AssembledObject.sameView_inOrder`: what the two passes see of an object.
* `AssembledObject.runFrom_inOrder`: the second pass over all objects changes nothing but the scope.
* `Program.idle_entry_changes_nothing`: the program with the entry point and without it.
-/

namespace LinkAsm

/-- In the natural order an instruction has the number that its place gives it, and so has the end
of an object. -/
theorem Context.indexOf_natural {c : Context} {layout : List Layout} {o : Layout} {position : Nat}
    (horder : c.order = some (.natural layout)) (hd : (layout.map (·.object)).Nodup)
    (ho : (o, c.precedingCount) ∈ Layout.starts 0 layout) (hposition : position ≤ o.count) :
    c.indexOf o.object position o.count = c.precedingCount + position := by
  have hat : ∀ k, k < o.count → (InstructionOrder.natural layout).byLocation? o.object k =
      some ⟨c.precedingCount + k, c.precedingCount + k, o.object, k⟩ := by
    intro k hk
    have hk' :=
      InstructionOrder.byLocation?_eq_translate (List.range (Layout.total layout)) hd ho hk
    rw [← InstructionOrder.natural, InstructionOrder.translate_natural] at hk'
    exact hk'
  simp only [indexOf, horder]
  by_cases hlt : position < o.count
  · rw [if_pos hlt, hat position hlt]
    rfl
  · rw [if_neg hlt]
    by_cases hpos : 0 < o.count
    · rw [if_pos hpos, hat _ (by omega)]
      show c.precedingCount + (o.count - 1) + 1 = c.precedingCount + position
      omega
    · rw [if_neg hpos]

namespace AssembledObject

/-- The object as if a pass of another scope had found what is known of it. -/
def inScope (scope : Scope) (o : AssembledObject) : AssembledObject :=
  { o with result := { o.result with scope } }

/-- The settings of the pass that knows the order of the instructions. -/
def PassSettings.inOrder (settings : PassSettings) (order : InstructionOrder) : PassSettings :=
  { settings with scope := .postGlobalPass, order := some order }

theorem base_placeAt (start : Nat) (o : AssembledObject) :
    (o.placeAt start).base = none ∨ (o.placeAt start).base = some ⟨start⟩ := by
  have hstart : (Address.ofNat start).toOption = none ∨
      (Address.ofNat start).toOption = some ⟨start⟩ := by
    rw [Address.toOption_ofNat]
    by_cases hlt : start < Address.limit
    · exact Or.inr (if_pos hlt)
    · exact Or.inl (if_neg hlt)
  unfold placeAt
  dsimp only
  split
  · exact hstart
  · split
    · next hbase _ => rwa [hbase] at hstart
    · exact Or.inl rfl

section SecondPass

variable {settings : PassSettings} {layout : List Layout}

/-- An object that stands behind `count` instructions is seen alike from its base and in the natural
order. -/
theorem sameView_inOrder (hscope : settings.scope ≠ .localPass) (horder : settings.order = none)
    (hd : (layout.map (·.object)).Nodup) {o : AssembledObject} {count : Nat}
    (ho : (o.layout, count) ∈ Layout.starts 0 layout)
    (hbase : o.base = none ∨
      o.base = some ⟨settings.origin.value + Address.instructionBytes * count⟩)
    (hlines : ∀ l ∈ o.source.lines, l.preceding ≤ o.count) (preceding : List SymbolTable) :
    Site.SameView ⟨o.context settings count preceding, o.name, o.source⟩
      ⟨o.context (settings.inOrder (.natural layout)) count preceding, o.name, o.source⟩ := by
  have hindex : ∀ l ∈ o.source.lines,
      (o.context (settings.inOrder (.natural layout)) count preceding).indexOf o.name l.preceding
        o.source.instructionCount = count + l.preceding := by
    intro l hl
    exact Context.indexOf_natural (o := o.layout) rfl hd ho (hlines l hl)
  refine
    { object := rfl, source := rfl, isLocal := ?_, address := ?_, index := ?_, precedingCount := rfl
      origin := rfl, blocks := rfl, ownBlocks := rfl, mockExternals := rfl, known := rfl
      tables := fun _ _ => rfl }
  · exact (Context.isLocal_eq_false hscope).symm
  · intro l hl
    simp only [Site.instructionAddress?, Context.addressOf?, hindex l hl]
    simp only [context, horder, PassSettings.inOrder]
    rcases hbase with hnone | hsome
    · rw [hnone, Option.map_none, Option.map_none]
    · rw [hsome, Option.map_some, Option.map_some, Address.instruction, Address.instruction,
        Nat.mul_add, Nat.add_assoc]
  · intro l hl
    rw [Site.index, Site.index, hindex l hl]
    simp only [Context.indexOf, context, horder]

/-- Recording a pass again that differs in its scope changes the scope alone. -/
theorem record_record (o : AssembledObject) (r : PassResult) (scope : Scope) :
    (o.record r).record { r with scope } = (o.record r).inScope scope := by
  simp only [record, inScope, Log.merge_merge]

/-- A pass over an object does not look at what an earlier one recorded. -/
theorem runFrom_record_cons {o : AssembledObject} {os : List AssembledObject} {count : Nat}
    {preceding : List SymbolTable} {r r' : PassResult}
    (hr : Site.extract ⟨o.context settings count preceding, o.name, o.source⟩
      settings.options.oversized = r') :
    runFrom settings count preceding (o.record r :: os) =
      (o.record r).record r' ::
        runFrom settings (count + o.count) (preceding ++ [r'.symbols]) os := by
  rw [← hr]
  rfl

/-- **A second pass in the natural order changes the scope alone.** -/
theorem runFrom_inOrder (hscope : settings.scope ≠ .localPass) (horder : settings.order = none)
    (hd : (layout.map (·.object)).Nodup) {os : List AssembledObject}
    (hlines : ∀ o ∈ os, ∀ l ∈ o.source.lines, l.preceding ≤ o.count) {count start : Nat}
    (hstarts : Layout.starts count (os.map AssembledObject.layout) ⊆ Layout.starts 0 layout)
    (hstart : start = settings.origin.value + Address.instructionBytes * count)
    (preceding : List SymbolTable) :
    runFrom (settings.inOrder (.natural layout)) count preceding
        (runFrom settings count preceding (place start os)) =
      (runFrom settings count preceding (place start os)).map (inScope .postGlobalPass) := by
  induction os generalizing count start preceding with
  | nil => rfl
  | cons o os ih =>
    have hplaced := continues_placeAt start o
    have hlayout : (o.placeAt start).layout = o.layout := by
      rw [AssembledObject.layout, AssembledObject.layout, count_placeAt, hplaced.name,
        hplaced.source]
    have hpreceding : ∀ l ∈ (o.placeAt start).source.lines,
        l.preceding ≤ (o.placeAt start).count := by
      rw [hplaced.source, count_placeAt]
      exact hlines o List.mem_cons_self
    have hview := sameView_inOrder hscope horder hd (hlayout ▸ hstarts List.mem_cons_self)
      (hstart ▸ base_placeAt start o) hpreceding preceding
    have hnext : start + Address.instructionBytes * o.count =
        settings.origin.value + Address.instructionBytes * (count + o.count) := by
      rw [hstart, Nat.mul_add, Nat.add_assoc]
    have hrest := ih (fun a ha => hlines a (List.mem_cons_of_mem _ ha))
      (fun _ hx => hstarts (List.mem_cons_of_mem _ hx)) hnext
    have hsecond := hview.extract_eq settings.options.oversized
    rw [place, runFrom]
    generalize Site.extract ⟨(o.placeAt start).context settings count preceding, _, _⟩ _ = r
      at hsecond ⊢
    rw [runFrom_record_cons hsecond, record_record, List.map_cons, count_placeAt]
    exact congrArg _ (hrest _)

end SecondPass

theorem total_eq_zero {os : List AssembledObject} (h : ∀ o ∈ os, o.count = 0) : total os = 0 := by
  induction os with
  | nil => rfl
  | cons o os ih =>
    rw [total_cons, h o List.mem_cons_self, ih fun a ha => h a (List.mem_cons_of_mem _ ha)]

/-- A pass does not look at the entry point. -/
theorem runFrom_entryPoint (settings : PassSettings) (entry : Option EntryPoint) (count : Nat)
    (preceding : List SymbolTable) (os : List AssembledObject) :
    runFrom { settings with options := { settings.options with entryPoint := entry } } count
      preceding os = runFrom settings count preceding os := by
  induction os generalizing count preceding with
  | nil => rfl
  | cons o os ih =>
    rw [runFrom, runFrom, ih]
    rfl

end AssembledObject

/-- The instructions and block labels of an object with this source. -/
def Source.layout (s : Source) (object : String) : Layout :=
  ⟨object, s.instructionCount, s.labelPositions⟩

namespace Program

open AssembledObject

/-- The program with all set aside that an entry point shows in: the options, the scope of the
objects, and the entry point itself. -/
def withoutEntry (p : Program) : Program :=
  { p with options := {}, objects := p.objects.map (inScope .globalPass), entryPoint := none }

theorem succeeded_withoutEntry (p : Program) : p.withoutEntry.succeeded = p.succeeded := by
  rw [succeeded, succeeded, withoutEntry, List.all_map]
  rfl

variable {sources : NameMap (List Char)} {options : Options} {entry : EntryPoint}

theorem validate_of_mem {known : List String} (hentry : options.entryPoint = some entry)
    (hmem : entry.object ∈ known) :
    options.validate known = { options with entryPoint := none }.validate known := by
  unfold Options.validate
  simp only [hentry, hmem, if_true]

/-- Linking with an entry point that moves nothing. -/
theorem link_of_idle {origin : Address} {known : List String} {os : List AssembledObject}
    (hentry : options.entryPoint = some entry)
    (hnatural : InstructionOrder.startingAt (os.map layout) entry = .ok (.natural (os.map layout)))
    (hd : (os.map (·.name)).Nodup)
    (hlines : ∀ o ∈ os, ∀ l ∈ o.source.lines, l.preceding ≤ o.count) :
    (link options origin known os).withoutEntry =
      (link { options with entryPoint := none } origin known os).withoutEntry := by
  have hlayout : ∀ settings, (runPass settings (place origin.value os)).map layout =
      os.map layout := by
    intro settings
    exact map_layout_of_forall₂
      (forall₂_trans (forall₂_place _ _) (forall₂_runFrom settings 0 [] _))
  have hpass : runPass (PassSettings.inOrder ⟨.globalPass, options, origin, known, none⟩
        (.natural (os.map layout)))
        (runPass ⟨.globalPass, options, origin, known, none⟩ (place origin.value os)) =
      (runPass ⟨.globalPass, options, origin, known, none⟩ (place origin.value os)).map
        (inScope .postGlobalPass) :=
    runFrom_inOrder Scope.noConfusion rfl (nodup_layouts hd) hlines (fun _ hx => hx) rfl []
  have hbare : runPass ⟨.globalPass, { options with entryPoint := none }, origin, known, none⟩
      (place origin.value os) = runPass ⟨.globalPass, options, origin, known, none⟩
        (place origin.value os) :=
    runFrom_entryPoint ⟨.globalPass, options, origin, known, none⟩ none 0 [] _
  simp only [PassSettings.inOrder] at hpass
  simp only [link, hentry, hlayout, hnatural, hbare, hpass, withoutEntry, List.map_map]
  rfl

/-- Whether no object before this one in build order has instructions. -/
def NothingBefore (sources : NameMap (List Char)) (options : Options) (name : String) : Prop :=
  ∀ before after, (build sources options).order = before ++ name :: after →
    ∀ other ∈ before, ∀ text, sources.find? other = some text →
      (Source.parse text).1.instructionCount = 0

theorem nodup_orderedObjects (hcomplete : (build sources options).isComplete = true) :
    ((orderedObjects sources options).map (·.name)).Nodup := by
  rw [map_name_orderedObjects hcomplete, (build_perm hcomplete).nodup_iff]
  exact sources.keys_nodup

theorem startingAt_orderedObjects {text : List Char} {position : Nat}
    (hcomplete : (build sources options).isComplete = true)
    (htext : sources.find? entry.object = some text)
    (hlabel : (Source.parse text).1.labelPosition? entry.label = some position)
    (hidle : (∀ k, ¬((Source.parse text).1.layout entry.object).InBlock position k) ∨
      position = 0 ∧ NothingBefore sources options entry.object) :
    InstructionOrder.startingAt ((orderedObjects sources options).map layout) entry =
      .ok (.natural ((orderedObjects sources options).map layout)) := by
  have hnames := map_name_orderedObjects hcomplete
  have hd := nodup_layouts (nodup_orderedObjects hcomplete)
  have hmem : entry.object ∈ (orderedObjects sources options).map (·.name) := by
    rw [hnames, (build_perm hcomplete).mem_iff, NameMap.mem_keys_iff]
    exact ⟨text, htext⟩
  obtain ⟨o, ho, hname⟩ := List.mem_map.mp hmem
  have hread := readFrom_orderedObjects o ho
  obtain ⟨before, after, hsplit⟩ := List.append_of_mem ho
  obtain rfl : o.text = text := by
    have hfound := hread.text
    rw [hname, htext] at hfound
    exact (Option.some.inj hfound).symm
  rw [← hread.source, ← hname] at hidle
  rw [← hread.source] at hlabel
  rw [hsplit, List.map_append, List.map_cons] at hd hnames ⊢
  refine InstructionOrder.startingAt_of_idle hname hd (o.source.find?_labelPositions _ ▸ hlabel) ?_
  refine hidle.imp_right ?_
  rintro ⟨hzero, hnothing⟩
  refine ⟨hzero, total_eq_zero ?_⟩
  intro b hb
  have hbread := readFrom_orderedObjects b (hsplit ▸ List.mem_append_left _ hb)
  rw [AssembledObject.count, hbread.source]
  exact hnothing _ _ hnames.symm b.name (List.mem_map_of_mem hb) b.text hbread.text

/-- **An entry point that moves nothing changes nothing.**  If the block of an entry point is empty,
or starts with the first instruction of the program in build order, the program is the one without
the entry point, but for its options, the scope of its objects and the entry point it names. -/
theorem idle_entry_changes_nothing {sources : NameMap (List Char)} {options : Options}
    {entry : EntryPoint} {text : List Char} {position : Nat}
    (hentry : options.entryPoint = some entry) (htext : sources.find? entry.object = some text)
    (hlabel : (Source.parse text).1.labelPosition? entry.label = some position)
    (hidle : (∀ k, ¬((Source.parse text).1.layout entry.object).InBlock position k) ∨
      position = 0 ∧ NothingBefore sources options entry.object) :
    (assemble sources options).withoutEntry =
        (assemble sources { options with entryPoint := none }).withoutEntry ∧
      (assemble sources options).succeeded =
        (assemble sources { options with entryPoint := none }).succeeded := by
  have hsame : (assemble sources options).withoutEntry =
      (assemble sources { options with entryPoint := none }).withoutEntry := by
    have hknown : entry.object ∈ sources.keys := NameMap.mem_keys_iff.mpr ⟨text, htext⟩
    have hbuild : build sources { options with entryPoint := none } = build sources options := rfl
    have hordered : orderedObjects sources { options with entryPoint := none } =
      orderedObjects sources options := rfl
    have hlocal : localObjects sources { options with entryPoint := none } =
      localObjects sources options := rfl
    rw [assemble_eq, assemble_eq, validate_of_mem hentry hknown, hbuild, hordered, hlocal]
    cases { options with entryPoint := none }.validate sources.keys with
    | error message => rfl
    | ok origin =>
      cases hcomplete : (build sources options).isComplete with
      | false => rfl
      | true =>
        simp only [if_true]
        refine link_of_idle hentry (startingAt_orderedObjects hcomplete htext hlabel hidle) ?_ ?_
        · exact nodup_orderedObjects hcomplete
        · intro o ho
          rw [AssembledObject.count, (readFrom_orderedObjects o ho).source]
          exact fun l hl => Source.preceding_le_of_parse hl
  refine ⟨hsame, ?_⟩
  rw [← succeeded_withoutEntry, hsame, succeeded_withoutEntry]

/-- An object jumps to the label at the end of another. -/
def endLabel : NameMap (List Char) :=
  .ofList [("A", "a:\n nop\nend:\n".toList), ("B", "?import A\n jmp $A:end\n".toList)]

/-- The options of a program that starts with the block `A:end`. -/
def startAtEnd : Options := { baseOffset := 4096, entryPoint := some ⟨"A", "end"⟩ }

/-- The second pass takes place, and looks for the end of `A` behind its last instruction. -/
theorem idle_entry_changes_nothing_endLabel :
    (assemble endLabel startAtEnd).entryPoint = some ⟨"A", "end"⟩ ∧
      (assemble endLabel startAtEnd).withoutEntry =
        (assemble endLabel { baseOffset := 4096 }).withoutEntry ∧
      (assemble endLabel startAtEnd).succeeded =
        (assemble endLabel { baseOffset := 4096 }).succeeded := by
  have hran : (assemble endLabel startAtEnd).entryPoint = some ⟨"A", "end"⟩ := by cbv
  have htext : endLabel.find? "A" = some "a:\n nop\nend:\n".toList := by cbv
  have hlabel : (Source.parse "a:\n nop\nend:\n".toList).1.labelPosition? "end" = some 1 := by cbv
  have hcount : (Source.parse "a:\n nop\nend:\n".toList).1.instructionCount = 1 := by cbv
  refine ⟨hran, idle_entry_changes_nothing rfl htext hlabel (Or.inl ?_)⟩
  rintro k ⟨hle, hlt, -⟩
  have hlt' : k < (Source.parse "a:\n nop\nend:\n".toList).1.instructionCount := hlt
  omega

end Program

end LinkAsm
