import Mathlib
import LinkAsm.Proofs.Pass.Placeless
import LinkAsm.Proofs.Program.LastPass

/-!
# Where objects are placed

Objects stand one behind the other, and each starts where the instructions of those before it end,
whether these fit into memory or not.  An object whose last byte is beyond the end of memory has
neither base nor tail, and one message without a place says so; no other stage of an object leaves a
message without a place, so in the end these are the messages of placement.

* `AssembledObject.StandsAt`: an object at the byte where it starts.
* `Program.placement_exact`: every object of a program in a complete order.
-/

namespace LinkAsm

namespace AssembledObject

/-- Addresses and messages of placement of an object that starts at byte `start`. -/
structure StandsAt (start : Nat) (o : AssembledObject) : Prop where
  /-- An object in memory has the addresses of its first and last byte. -/
  fits : 0 < o.count → start + Address.instructionBytes * o.count ≤ Address.limit →
    o.base = some ⟨start⟩ ∧ o.tail = some ⟨start + Address.instructionBytes * o.count - 1⟩ ∧
      o.log.placeless = []
  /-- An object that memory has no room for is reported once. -/
  overflows : 0 < o.count → Address.limit < start + Address.instructionBytes * o.count →
    o.base = none ∧ o.tail = none ∧ o.log.placeless = [o.overflowMessage start]
  /-- An object without instructions takes no room. -/
  idle : o.count = 0 →
    o.base = (if start < Address.limit then some ⟨start⟩ else none) ∧ o.tail = none ∧
      o.log.placeless = []

variable {start : Nat} {o : AssembledObject} {os : List AssembledObject}

/-! ## One object -/

/-- An object without messages of placement gets those that it should have. -/
theorem standsAt_placeAt (h : o.log.placeless = []) : (o.placeAt start).StandsAt start := by
  have hcount := o.count_placeAt start
  refine ⟨?_, ?_, ?_⟩
  · rw [hcount]
    intro hpos hle
    rw [placeAt_of_fits hpos hle]
    exact ⟨rfl, rfl, h⟩
  · rw [hcount]
    intro hpos hlt
    rw [placeAt_of_overflows hpos hlt]
    refine ⟨rfl, rfl, ?_⟩
    rw [Log.placeless_add_of_eq_none _ rfl, h]
    rfl
  · rw [hcount]
    intro hzero
    rw [placeAt_of_idle hzero]
    exact ⟨Address.toOption_ofNat start, rfl, h⟩

/-- A pass neither moves an object nor reports on its placement. -/
theorem StandsAt.record (h : o.StandsAt start) {result : PassResult}
    (hresult : result.log.placeless = []) : (o.record result).StandsAt start := by
  have hlog : (o.record result).log.placeless = o.log.placeless := o.log.placeless_merge hresult
  refine ⟨?_, ?_, ?_⟩
  · rw [hlog]
    exact h.fits
  · rw [hlog]
    exact h.overflows
  · rw [hlog]
    exact h.idle

/-! ## All objects -/

/-- Whether each object has its placement behind the instructions of those before it. -/
def StandFrom (start : Nat) (os : List AssembledObject) : Prop :=
  ∀ before o after, os = before ++ o :: after →
    o.StandsAt (start + Address.instructionBytes * total before)

theorem standFrom_nil (start : Nat) : StandFrom start [] := by
  intro before o after h
  cases before <;> cases h

theorem StandFrom.cons (h : o.StandsAt start)
    (hos : StandFrom (start + Address.instructionBytes * o.count) os) :
    StandFrom start (o :: os) := by
  intro before x after hsplit
  cases before with
  | nil =>
    obtain ⟨rfl, -⟩ := List.cons.inj hsplit
    exact h
  | cons b before =>
    obtain ⟨rfl, hrest⟩ := List.cons.inj hsplit
    rw [total_cons, Nat.mul_add, ← Nat.add_assoc]
    exact hos before x after hrest

theorem StandFrom.head (h : StandFrom start (o :: os)) : o.StandsAt start := h [] o os rfl

theorem StandFrom.behind (h : StandFrom start (o :: os)) :
    StandFrom (start + Address.instructionBytes * o.count) os := by
  intro before x after hsplit
  have hx := h (o :: before) x after (by rw [hsplit, List.cons_append])
  rw [total_cons, Nat.mul_add, ← Nat.add_assoc] at hx
  exact hx

/-- An object that does not fit moves none of those behind it. -/
theorem standFrom_place (start : Nat) (h : ∀ o ∈ os, o.log.placeless = []) :
    StandFrom start (place start os) := by
  induction os generalizing start with
  | nil => exact standFrom_nil start
  | cons o os ih =>
    refine .cons (standsAt_placeAt (h o List.mem_cons_self)) ?_
    rw [count_placeAt]
    exact ih _ fun x hx => h x (List.mem_cons_of_mem _ hx)

theorem StandFrom.runFrom (h : StandFrom start os) (settings : PassSettings) (count : Nat)
    (preceding : List SymbolTable) : StandFrom start (runFrom settings count preceding os) := by
  induction os generalizing start count preceding with
  | nil => exact standFrom_nil start
  | cons o os ih => exact .cons (h.head.record (Site.placeless_extract _ _)) (ih h.behind _ _)

end AssembledObject

namespace Program

open AssembledObject

variable {sources : NameMap (List Char)} {options : Options} {o : AssembledObject}

/-! ## Programs -/

theorem placeless_localObjects (h : o ∈ localObjects sources options) : o.log.placeless = [] := by
  obtain ⟨⟨name, text⟩, -, rfl⟩ := List.mem_map.mp h
  exact ((Source.parse text).2.placeless_merge (Site.placeless_extract _ _)).trans
    (Source.placeless_parse text)

theorem standFrom_link (origin : Address) (known : List String) {os : List AssembledObject}
    (h : ∀ o ∈ os, o.log.placeless = []) :
    StandFrom origin.value (link options origin known os).objects := by
  have hpass : ∀ settings : PassSettings,
      StandFrom origin.value (runPass settings (place origin.value os)) :=
    fun settings => (standFrom_place origin.value h).runFrom settings 0 []
  unfold link
  dsimp only
  split
  · exact hpass _
  · split
    · exact hpass _
    · exact (hpass _).runFrom _ 0 []

theorem standFrom_assemble (h : (assemble sources options).unresolved = []) :
    StandFrom options.baseOffset.toNat (assemble sources options).objects := by
  rw [assemble_eq] at h ⊢
  rcases validate_cases options sources.keys with ⟨origin, hvalid, horigin⟩ | ⟨m, hvalid, -⟩
  · obtain rfl : origin = ⟨options.baseOffset.toNat⟩ := Address.eq_of_ofInt horigin
    rw [hvalid] at h ⊢
    cases hcomplete : (build sources options).isComplete with
    | true =>
      exact standFrom_link _ _ fun o ho => placeless_localObjects (mem_of_mem_select ho)
    | false =>
      rw [hcomplete] at h
      rw [BuildOrder.isComplete, List.isEmpty_eq_false_iff] at hcomplete
      exact absurd h hcomplete
  · rw [hvalid]
    exact standFrom_nil _

/-- **Objects are placed exactly.**  If a program has no unresolved requirements, its objects are all
of the given ones in build order, and its base offset is an address.  An object starts at the base
offset plus four bytes for each instruction of the objects before it.  Its base and tail are its
first and last byte if memory has room for all its instructions; otherwise it has neither, and one
critical message of overflow is recorded by placement.  An object without instructions has no tail,
and its base is where it starts if that is an address. -/
theorem placement_exact (hordered : (assemble sources options).unresolved = [])
    {before after : List AssembledObject}
    (hsplit : (assemble sources options).objects = before ++ o :: after) :
    (assemble sources options).objects.map (·.name) = (assemble sources options).buildOrder ∧
      (assemble sources options).buildOrder.Perm sources.keys ∧
      0 ≤ options.baseOffset ∧ options.baseOffset < Address.limit ∧
      o.StandsAt (options.baseOffset.toNat + Address.instructionBytes * total before) := by
  have hmem : o ∈ (assemble sources options).objects := by simp [hsplit]
  obtain ⟨settings, os, hlinked⟩ := linked_of_unresolved hordered hmem
  obtain ⟨hvalue, hlimit⟩ := Address.value_of_ofInt hlinked.origin
  refine ⟨hlinked.map_name_objects, hlinked.complete, ?_, ?_, ?_⟩
  · omega
  · omega
  · exact standFrom_assemble hordered before o after hsplit

/-- Three objects at the end of memory: the first ends with the last byte, the second is beyond it,
and the third has no instructions. -/
def lastWord : NameMap (List Char) :=
  .ofList [("A", "nop".toList), ("B", "nop".toList), ("C", "; none".toList)]

/-- Assembly that starts with the last word of memory. -/
def atLastWord : Options := { baseOffset := 0xFFFFFFFC }

theorem placement_exact_lastWord :
    (assemble lastWord atLastWord).unresolved = [] ∧
      ∃ a b c : AssembledObject, (assemble lastWord atLastWord).objects = [a, b, c] ∧
        a.base = some ⟨0xFFFFFFFC⟩ ∧ a.tail = some ⟨0xFFFFFFFF⟩ ∧ a.log.placeless = [] ∧
        b.base = none ∧ b.tail = none ∧ b.log.placeless = [b.overflowMessage 0x100000000] ∧
        c.base = none ∧ c.tail = none ∧ c.log.placeless = [] := by
  have hcomplete : (build lastWord atLastWord).isComplete = true := by cbv
  have hassemble : assemble lastWord atLastWord =
      link atLastWord ⟨0xFFFFFFFC⟩ lastWord.keys (orderedObjects lastWord atLastWord) :=
    (assemble_eq _ _).trans (if_pos hcomplete)
  have hordered : (assemble lastWord atLastWord).unresolved = [] := by
    rw [hassemble]
    rfl
  refine ⟨hordered, ?_⟩
  have hlayout : (assemble lastWord atLastWord).objects.map layout =
      [⟨"A", 1, .empty⟩, ⟨"B", 1, .empty⟩, ⟨"C", 0, .empty⟩] := by
    have hlocal : (orderedObjects lastWord atLastWord).map layout =
        [⟨"A", 1, .empty⟩, ⟨"B", 1, .empty⟩, ⟨"C", 0, .empty⟩] := by cbv
    rw [hassemble, ← hlocal]
    exact map_layout_of_forall₂ (forall₂_trans (forall₂_place _ _) (forall₂_runFrom _ 0 [] _))
  obtain ⟨a, rest, hobjects, ha, hrest⟩ := List.map_eq_cons_iff.mp hlayout
  obtain ⟨b, last, rfl, hb, hlast⟩ := List.map_eq_cons_iff.mp hrest
  obtain ⟨c, rfl, hc⟩ := List.map_eq_singleton_iff.mp hlast
  have hone : a.count = 1 := congrArg Layout.count ha
  have hnext : b.count = 1 := congrArg Layout.count hb
  have hnone : c.count = 0 := congrArg Layout.count hc
  have hfirst : a.StandsAt 0xFFFFFFFC :=
    (placement_exact hordered (show _ = [] ++ a :: [b, c] from hobjects)).2.2.2.2
  have hsecond : b.StandsAt 0x100000000 := by
    have hstands := (placement_exact hordered (show _ = [a] ++ b :: [c] from hobjects)).2.2.2.2
    rw [total_cons, hone] at hstands
    exact hstands
  have hthird : c.StandsAt 0x100000004 := by
    have hstands := (placement_exact hordered (show _ = [a, b] ++ c :: [] from hobjects)).2.2.2.2
    rw [total_cons, total_cons, hone, hnext] at hstands
    exact hstands
  obtain ⟨habase, hatail, halog⟩ := hfirst.fits (by rw [hone]; decide) (by rw [hone]; decide)
  obtain ⟨hbbase, hbtail, hblog⟩ :=
    hsecond.overflows (by rw [hnext]; decide) (by rw [hnext]; decide)
  obtain ⟨hcbase, hctail, hclog⟩ := hthird.idle hnone
  rw [hone] at hatail
  exact ⟨a, b, c, hobjects, habase, hatail, halog, hbbase, hbtail, hblog, hcbase, hctail, hclog⟩

end Program

end LinkAsm
