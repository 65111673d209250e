import Mathlib
import LinkAsm.Proofs.Order.Blocks
import LinkAsm.Proofs.Program.Addresses
import LinkAsm.Proofs.Program.Deferral
import LinkAsm.Proofs.Program.Links

/-!
# Instructions tile memory

Every instruction of a program has a number: that of the instructions before it in build order.  The
numbers of all instructions are those below the total, the order of the program permutes them, and
four bytes for each give the address.  So the addresses of a program that succeeds have neither gaps
nor overlaps, whatever its entry point, and the instruction that comes first stands at the origin.

* `AssembledObject.exists_split_of_lt`, `Program.Linked.eq_of_number_eq`: numbers and instructions.
* `Program.Linked.injOn_instructionAddress?`, `Program.Linked.surjOn_instructionAddress?`:
  instructions and addresses.
* `Program.instructions_tile_memory`: the addresses, and what stands at the first of them.
-/

namespace LinkAsm

/-- The addresses of `n` instructions, one behind the other from a byte on. -/
def Address.tiles (start : Int) (n : Nat) : Set Address :=
  {a | ∃ k < n, (a.value : Int) = start + (instructionBytes * k : Nat)}

theorem Layout.InBlock.isLeast {o : Layout} {position k : Nat} (h : o.InBlock position k) :
    IsLeast {k | o.InBlock position k} position := by
  obtain ⟨hle, hlt, hlater⟩ := h
  refine ⟨⟨Nat.le_refl _, by omega, fun _ _ hlt => hlt⟩, ?_⟩
  intro k hk
  exact hk.1

namespace AssembledObject

/-- Every number below the total is that of an instruction. -/
theorem exists_split_of_lt {os : List AssembledObject} {i : Nat} (h : i < total os) :
    ∃ before o after k, os = before ++ o :: after ∧ k < o.count ∧ i = total before + k := by
  induction os generalizing i with
  | nil => cases h
  | cons o os ih =>
    rw [total_cons] at h
    by_cases hi : i < o.count
    · exact ⟨[], o, os, i, rfl, hi, (Nat.zero_add i).symm⟩
    · obtain ⟨before, x, after, k, rfl, hk, hnumber⟩ := ih (i := i - o.count) (by omega)
      refine ⟨o :: before, x, after, k, rfl, hk, ?_⟩
      rw [total_cons]
      omega

/-- The slot of a number is the instruction that has it. -/
theorem slots_of_split (before : List AssembledObject) (o : AssembledObject)
    (after : List AssembledObject) {k : Nat} (hk : k < o.count) :
    (Layout.slots ((before ++ o :: after).map layout))[total before + k]? = some (o.name, k) :=
  Layout.slots_eq_of_mem_starts (mem_starts before o after) hk

end AssembledObject

namespace Program

open AssembledObject

/-- The instructions of a program: an object and a position in it. -/
def instructionPlaces (p : Program) : Set (AssembledObject × Nat) :=
  {x | x.1 ∈ p.objects ∧ x.2 < x.1.count}

namespace Linked

variable {sources : NameMap (List Char)} {options : Options} {p : Program}
  {settings : PassSettings} {os before after before' after' : List AssembledObject}
  {o o' : AssembledObject} {k k' : Nat}

/-- An instruction is told by its number. -/
theorem eq_of_number_eq (h : Linked sources options p settings os)
    (hsplit : p.objects = before ++ o :: after) (hk : k < o.count)
    (hsplit' : p.objects = before' ++ o' :: after') (hk' : k' < o'.count)
    (hnumber : total before + k = total before' + k') : o = o' ∧ k = k' := by
  have hslot := slots_of_split before o after hk
  have hslot' := slots_of_split before' o' after' hk'
  rw [← hsplit, hnumber] at hslot
  rw [← hsplit', hslot] at hslot'
  obtain ⟨hname, rfl⟩ := Prod.mk.inj (Option.some.inj hslot')
  refine ⟨h.eq_of_name_eq ?_ ?_ hname, rfl⟩
  · simp [hsplit]
  · simp [hsplit']

/-- The address of an instruction in a program that fits into memory. -/
theorem exists_instructionAddress? (h : Linked sources options p settings os)
    (hfit : startBehind options p.objects ≤ Address.limit)
    (hsplit : p.objects = before ++ o :: after) (hk : k < o.count) :
    ∃ a, p.instructionAddress? o k = some a ∧ (a.value : Int) = options.baseOffset +
      (Address.instructionBytes * p.order.translate (total before + k) : Nat) := by
  obtain ⟨a, haddress, hvalue⟩ := h.exists_address hfit hsplit hk
  refine ⟨a, ?_, hvalue⟩
  rw [h.instructionAddress?_eq hfit hsplit hk, haddress]
  rfl

theorem mapsTo_instructionAddress? (h : Linked sources options p settings os)
    (hfit : startBehind options p.objects ≤ Address.limit) :
    Set.MapsTo (fun x : AssembledObject × Nat => p.instructionAddress? x.1 x.2) p.instructionPlaces
      (some '' Address.tiles options.baseOffset (total p.objects)) := by
  rintro ⟨o, k⟩ ⟨ho, hk⟩
  obtain ⟨before, after, hsplit⟩ := List.append_of_mem ho
  obtain ⟨a, ha, hvalue⟩ := h.exists_instructionAddress? hfit hsplit hk
  exact ⟨a, ⟨_, h.translate_lt (hsplit ▸ total_add_lt hk), hvalue⟩, ha.symm⟩

theorem injOn_instructionAddress? (h : Linked sources options p settings os)
    (hfit : startBehind options p.objects ≤ Address.limit) :
    Set.InjOn (fun x : AssembledObject × Nat => p.instructionAddress? x.1 x.2)
      p.instructionPlaces := by
  rintro ⟨o, k⟩ ⟨ho, hk⟩ ⟨o', k'⟩ ⟨ho', hk'⟩ heq
  obtain ⟨before, after, hsplit⟩ := List.append_of_mem ho
  obtain ⟨before', after', hsplit'⟩ := List.append_of_mem ho'
  obtain ⟨a, ha, hvalue⟩ := h.exists_instructionAddress? hfit hsplit hk
  obtain ⟨a', ha', hvalue'⟩ := h.exists_instructionAddress? hfit hsplit' hk'
  obtain rfl : a = a' := Option.some.inj (ha.symm.trans (heq.trans ha'))
  have hbytes := Int.ofNat.inj (Int.add_left_cancel (hvalue.symm.trans hvalue'))
  have htranslate := Nat.eq_of_mul_eq_mul_left (by decide) hbytes
  obtain ⟨order, hperm, horder⟩ := h.exists_order
  rw [horder] at htranslate
  have hnumber := InstructionOrder.injOn_translate hperm (hsplit ▸ total_add_lt hk)
    (hsplit' ▸ total_add_lt hk') htranslate
  obtain ⟨rfl, rfl⟩ := h.eq_of_number_eq hsplit hk hsplit' hk' hnumber
  rfl

theorem surjOn_instructionAddress? (h : Linked sources options p settings os)
    (hfit : startBehind options p.objects ≤ Address.limit) :
    Set.SurjOn (fun x : AssembledObject × Nat => p.instructionAddress? x.1 x.2) p.instructionPlaces
      (some '' Address.tiles options.baseOffset (total p.objects)) := by
  rintro _ ⟨⟨v⟩, ⟨n, hn, hvalue⟩, rfl⟩
  obtain ⟨order, hperm, horder⟩ := h.exists_order
  obtain ⟨i, hi, htranslate⟩ := InstructionOrder.surjOn_translate hperm hn
  obtain ⟨before, o, after, k, hsplit, hk, rfl⟩ := exists_split_of_lt hi
  obtain ⟨⟨v'⟩, ha, hvalue'⟩ := h.exists_instructionAddress? hfit hsplit hk
  rw [horder, htranslate] at hvalue'
  obtain rfl : v' = v := Int.ofNat.inj (hvalue'.trans hvalue.symm)
  refine ⟨(o, k), ⟨?_, hk⟩, ha⟩
  simp [hsplit]

theorem fits_of_succeeded (h : Linked sources options p settings os) (hs : p.succeeded = true) :
    startBehind options p.objects ≤ Address.limit :=
  h.startBehind_le hs (List.append_nil _).symm

/-- In a program that succeeds, a label stands at the address of the instruction behind it. -/
theorem labels_of_succeeded (h : Linked sources options p settings os) (hs : p.succeeded = true)
    (hsplit : p.objects = before ++ o :: after) {label : String}
    (hlabel : o.source.labelPosition? label = some k) (hk : k < o.count) :
    ∃ a, p.instructionAddress? o k = some a ∧ (a.value : Int) = options.baseOffset +
        (Address.instructionBytes * p.order.translate (total before + k) : Nat) ∧
      o.result.labels.find? label = some (some a) := by
  have hfit := h.fits_of_succeeded hs
  have ho : o ∈ p.objects := by simp [hsplit]
  obtain ⟨a, ha, hvalue⟩ := h.exists_address hfit hsplit hk
  -- no definition was rejected, so the label is the first of its name
  have hresult :
      ((p.lastSite sources.keys before o).extract options.oversized).log.failed = false := by
    rw [← h.result_eq hsplit]
    exact h.not_failed_result hs ho
  have hclean := Definitions.clean_ofLines _ (Site.ofLines_of_extract _ hresult)
  obtain ⟨l, hl, hkind, hposition⟩ := Site.exists_label_of_labelPosition? hlabel
  have hfirst := Definitions.firstNamed_of_nodup hclean.symbols_nodup hl
    (show l.symbolName? = some label by simp [Line.symbolName?, hkind])
  refine ⟨a, ?_, hvalue, ((h.placeAgrees hfit hsplit hk ha).label l label hfirst hkind hposition).1⟩
  rw [h.instructionAddress?_eq hfit hsplit hk, ha]
  rfl

end Linked

/-! ## What a program starts with -/

theorem entryPoint_link {options : Options} {origin : Address} {known : List String}
    {os : List AssembledObject} (hs : (link options origin known os).succeeded = true) :
    (link options origin known os).entryPoint = options.entryPoint := by
  unfold link at hs ⊢
  dsimp only at hs ⊢
  split at hs
  · next hnone => rw [hnone]
  · next entry hsome =>
    rw [hsome]
    split at hs
    · next e _ =>
      have hfailed : (Log.empty.add (entryMessage entry e)).failed = true :=
        Log.failed_add_failure _ rfl
      simp only [succeeded, hfailed] at hs
      cases hs
    · rfl

/-- A program that succeeds starts at the entry point that was asked for. -/
theorem entryPoint_of_succeeded {sources : NameMap (List Char)} {options : Options}
    (hs : (assemble sources options).succeeded = true) :
    (assemble sources options).entryPoint = options.entryPoint := by
  rw [assemble_eq] at hs ⊢
  rcases validate_cases options sources.keys with ⟨origin, hvalid, -⟩ | ⟨m, hvalid, hm⟩
  · rw [hvalid] at hs ⊢
    cases hcomplete : (build sources options).isComplete with
    | true =>
      rw [hcomplete] at hs
      exact entryPoint_link hs
    | false =>
      have hstopped := not_succeeded_of_incomplete hcomplete
      rw [hcomplete] at hs
      exact absurd (hstopped.symm.trans hs) Bool.false_ne_true
  · rw [hvalid] at hs
    exact absurd ((not_succeeded_rejected hm).symm.trans hs) Bool.false_ne_true

/-- Whether a program starts with the block at a position of an object, which has a label: the label
has the address `origin`, and of all instructions the first of the block has it, and no other. -/
structure StartsWith (p : Program) (origin : Address) (o : AssembledObject) (label : String)
    (position : Nat) : Prop where
  label : o.result.labels.find? label = some (some origin)
  first : ∀ x ∈ p.objects, ∀ k < x.count,
    p.instructionAddress? x k = some origin ↔ x = o ∧ IsLeast {k | o.layout.InBlock position k} k

theorem Linked.startsWith {sources : NameMap (List Char)} {options : Options} {p : Program}
    {settings : PassSettings} {os : List AssembledObject}
    (h : Linked sources options p settings os) (hs : p.succeeded = true) {entry : EntryPoint}
    (hentry : p.entryPoint = some entry) {o : AssembledObject} (ho : o ∈ p.objects)
    (hname : o.name = entry.object) {position k : Nat}
    (hlabel : o.source.labelPosition? entry.label = some position)
    (hblock : o.layout.InBlock position k) :
    ∃ origin : Address, (origin.value : Int) = options.baseOffset ∧
      p.StartsWith origin o entry.label position := by
  have hfit := h.fits_of_succeeded hs
  obtain ⟨before, after, hsplit⟩ := List.append_of_mem ho
  have hfirst := hblock.isLeast
  have hcount : position < o.count := hfirst.1.2.1
  -- the order of the program is made for the entry point
  have hzero : p.order.translate (total before + position) = 0 := by
    rcases h.arranged with ⟨hnone, -⟩ | ⟨e, he, hstart⟩
    · rw [hentry] at hnone
      cases hnone
    · obtain rfl := Option.some.inj (he.symm.trans hentry)
      have hd := nodup_layouts h.nodup_names
      rw [hsplit, List.map_append, List.map_cons] at hd hstart
      exact InstructionOrder.translate_startingAt hname hd
        ((o.source.find?_labelPositions _).trans hlabel) hblock hstart
  obtain ⟨origin, haddress, hvalue, hlabels⟩ := h.labels_of_succeeded hs hsplit hlabel hcount
  rw [hzero, Nat.mul_zero, Int.natCast_zero, Int.add_zero] at hvalue
  refine ⟨origin, hvalue, hlabels, ?_⟩
  intro x hx k hk
  constructor
  · intro hxk
    have hplace : (x, k) ∈ p.instructionPlaces := ⟨hx, hk⟩
    have hplace' : (o, position) ∈ p.instructionPlaces := ⟨ho, hcount⟩
    have heq := h.injOn_instructionAddress? hfit hplace hplace' (hxk.trans haddress.symm)
    obtain ⟨rfl, rfl⟩ := Prod.mk.inj heq
    exact ⟨rfl, hfirst⟩
  · rintro ⟨rfl, hleast⟩
    rw [hleast.unique hfirst]
    exact haddress

/-- **Instructions tile memory, and the entry point comes first.**  In a program that succeeds, the
addresses of the instructions are those from the base offset on, four bytes apart, each once.  If an
entry point was asked for whose block is not empty, its label stands at the base offset, and so does
the first instruction of its block. -/
theorem instructions_tile_memory {sources : NameMap (List Char)} {options : Options}
    (hs : (assemble sources options).succeeded = true) :
    ((assemble sources options).objects.map (·.name)).Nodup ∧
      Set.BijOn
        (fun x : AssembledObject × Nat => (assemble sources options).instructionAddress? x.1 x.2)
        (assemble sources options).instructionPlaces
        (some '' Address.tiles options.baseOffset (total (assemble sources options).objects)) ∧
      ∀ entry, options.entryPoint = some entry →
        ∃ o ∈ (assemble sources options).objects, o.name = entry.object ∧
          ∃ position, o.source.labelPosition? entry.label = some position ∧
            ((∃ k, o.layout.InBlock position k) →
              ∃ origin : Address, (origin.value : Int) = options.baseOffset ∧
                (assemble sources options).StartsWith origin o entry.label position) := by
  obtain ⟨settings, os, h⟩ := linked_of_succeeded hs
  have hfit := h.fits_of_succeeded hs
  refine ⟨h.nodup_names, ⟨h.mapsTo_instructionAddress? hfit, h.injOn_instructionAddress? hfit,
    h.surjOn_instructionAddress? hfit⟩, ?_⟩
  intro entry hentry
  have hrecorded := (entryPoint_of_succeeded hs).trans hentry
  rcases h.arranged with ⟨hnone, -⟩ | ⟨e, he, hstart⟩
  · rw [hrecorded] at hnone
    cases hnone
  · obtain rfl := Option.some.inj (he.symm.trans hrecorded)
    obtain ⟨_, hmem, hname, position, hposition⟩ :=
      InstructionOrder.exists_label_of_startingAt hstart
    obtain ⟨o, ho, rfl⟩ := List.mem_map.mp hmem
    have hlabel := (o.source.find?_labelPositions _).symm.trans hposition
    refine ⟨o, ho, hname, position, hlabel, ?_⟩
    rintro ⟨k, hk⟩
    exact h.startsWith hs hrecorded ho hname hlabel hk

theorem instructions_tile_memory_entryAtEnd :
    (assemble entryAtEnd startAtMain).succeeded = true ∧
      Set.BijOn
        (fun x : AssembledObject × Nat => (assemble entryAtEnd startAtMain).instructionAddress? x.1 x.2)
        (assemble entryAtEnd startAtMain).instructionPlaces (some '' Address.tiles 4096 4) ∧
      ∃ o ∈ (assemble entryAtEnd startAtMain).objects, o.name = "B" ∧
        (assemble entryAtEnd startAtMain).StartsWith ⟨4096⟩ o "main" 1 := by
  have hs : (assemble entryAtEnd startAtMain).succeeded = true := by cbv
  have htotal : total (assemble entryAtEnd startAtMain).objects = 4 := by cbv
  have hseen : (assemble entryAtEnd startAtMain).objects.map (fun o => (o.name, o.count,
      o.source.labelPosition? "main")) = [("A", 2, none), ("B", 2, some 1)] := by cbv
  obtain ⟨-, hbij, hstart⟩ := instructions_tile_memory hs
  rw [htotal] at hbij
  obtain ⟨o, ho, hname, position, hlabel, hblock⟩ := hstart ⟨"B", "main"⟩ rfl
  have hrow := List.mem_map_of_mem (f := fun o : AssembledObject => (o.name, o.count,
    o.source.labelPosition? "main")) ho
  rw [hseen, hname, hlabel, List.mem_cons, List.mem_singleton] at hrow
  obtain ⟨hcount, rfl⟩ : o.count = 2 ∧ position = 1 := by
    rcases hrow with hrow | hrow
    · simp at hrow
    · simpa using hrow
  have hown : o.layout.InBlock 1 1 := by
    refine ⟨Nat.le_refl _, ?_, fun _ _ hlt => hlt⟩
    show 1 < o.count
    omega
  obtain ⟨⟨value⟩, hvalue, hstarts⟩ := hblock ⟨1, hown⟩
  obtain rfl : value = 4096 := Int.ofNat.inj hvalue
  exact ⟨hs, hbij, o, ho, hname, hstarts⟩

end Program

end LinkAsm
