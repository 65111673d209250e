import Mathlib
import LinkAsm.Program.LinkMap
import LinkAsm.Proofs.Order.Reordering
import LinkAsm.Proofs.Pass.Labels
import LinkAsm.Proofs.Program.LastPass

/-!
# Addresses of instructions

The address of an instruction is computed in several ways: from the base of its object, from the
number of instructions before it, and from its number in the order of the program; the link map has
a way of its own.  If the program fits into memory they all give one address, which is the origin
and four bytes for each instruction that comes before in the order of the program.

* `Program.Linked.byLocation?_eq`: the number of an instruction after reordering.
* `Program.Linked.placeAgrees`: what the last pass says of the place of an instruction.
* `Program.addresses_agree`: the last pass and the link map agree.
-/

namespace LinkAsm

theorem Address.instruction_of_lt {a : Address} {n : Nat}
    (h : a.value + instructionBytes * n < limit) :
    a.instruction n = .ok ⟨a.value + instructionBytes * n⟩ :=
  if_pos h

/-- Instructions of an object are numbered behind those of the objects before it. -/
theorem AssembledObject.total_add_lt {before after : List AssembledObject} {o : AssembledObject}
    {k : Nat} (hk : k < o.count) : total before + k < total (before ++ o :: after) := by
  rw [total_append, total_cons]
  omega

/-- An object starts behind the instructions of the objects before it. -/
theorem AssembledObject.mem_starts (before : List AssembledObject) (o : AssembledObject)
    (after : List AssembledObject) :
    (o.layout, total before) ∈ Layout.starts 0 ((before ++ o :: after).map layout) := by
  have hstart := Layout.mem_starts_split 0 (before.map layout) o.layout (after.map layout)
  rw [Nat.zero_add] at hstart
  rw [List.map_append, List.map_cons]
  exact hstart

namespace Program

open AssembledObject

namespace Linked

variable {sources : NameMap (List Char)} {options : Options} {p : Program}
  {settings : PassSettings} {os before after : List AssembledObject} {o : AssembledObject} {k : Nat}

/-! ## Numbers of instructions -/

theorem exists_order (h : Linked sources options p settings os) :
    ∃ order, order.Perm (List.range (Layout.total (p.objects.map layout))) ∧
      p.order = .ofOrder (p.objects.map layout) order := by
  rcases h.arranged with ⟨-, hnatural⟩ | ⟨entry, -, hstart⟩
  · exact ⟨_, .refl _, hnatural⟩
  · exact InstructionOrder.exists_order_of_startingAt hstart

/-- Without an entry point nothing moves. -/
theorem translate_of_entryPoint_none (h : Linked sources options p settings os)
    (hentry : p.entryPoint = none) (i : Nat) : p.order.translate i = i := by
  rcases h.arranged with ⟨-, hnatural⟩ | ⟨entry, hsome, -⟩
  · rw [hnatural, InstructionOrder.translate_natural]
  · rw [hentry] at hsome
    cases hsome

theorem translate_of_isNatural (h : Linked sources options p settings os)
    (hnatural : p.order.isNatural = true) (i : Nat) : p.order.translate i = i := by
  obtain ⟨order, -, horder⟩ := h.exists_order
  rw [horder] at hnatural ⊢
  exact InstructionOrder.translate_of_isNatural hnatural i

theorem translate_lt (h : Linked sources options p settings os) {i : Nat}
    (hi : i < total p.objects) : p.order.translate i < total p.objects := by
  obtain ⟨order, hperm, horder⟩ := h.exists_order
  rw [horder]
  exact InstructionOrder.mapsTo_translate hperm hi

/-- The number after reordering of the instruction at a position of an object. -/
theorem byLocation?_eq (h : Linked sources options p settings os)
    (hsplit : p.objects = before ++ o :: after) (hk : k < o.count) :
    p.order.byLocation? o.name k =
      some ⟨total before + k, p.order.translate (total before + k), o.name, k⟩ := by
  obtain ⟨order, -, horder⟩ := h.exists_order
  have hstart : (o.layout, total before) ∈ Layout.starts 0 (p.objects.map layout) :=
    hsplit ▸ mem_starts before o after
  rw [horder]
  exact InstructionOrder.byLocation?_eq_translate order (nodup_layouts h.nodup_names) hstart hk

/-- The last pass counts instructions in the order of the program. -/
theorem index_lastSite (h : Linked sources options p settings os) (known : List String)
    (hsplit : p.objects = before ++ o :: after) (hk : k < o.count) :
    (p.lastSite known before o).index k = p.order.translate (total before + k) := by
  cases hentry : p.entryPoint with
  | none =>
    rw [h.translate_of_entryPoint_none hentry]
    simp only [Site.index, Context.indexOf, lastSite, context, Program.lastPass, hentry,
      Option.map_none]
  | some entry =>
    have hcount : k < o.source.instructionCount := hk
    simp only [Site.index, Context.indexOf, lastSite, context, Program.lastPass, hentry,
      Option.map_some, if_pos hcount, h.byLocation?_eq hsplit hk, Option.getD_some]

/-! ## Addresses -/

theorem base_eq (h : Linked sources options p settings os)
    (hfit : startBehind options p.objects ≤ Address.limit)
    (hsplit : p.objects = before ++ o :: after) (hk : k < o.count) :
    o.base = some ⟨settings.origin.value + Address.instructionBytes * total before⟩ := by
  have hbytes : 0 < Address.instructionBytes * o.count := Nat.mul_pos (by decide) (by omega)
  rw [h.startBehind_eq, hsplit, total_append, total_cons, Nat.mul_add, Nat.mul_add] at hfit
  have hplaced := (h.placedAt hsplit).base (Or.inr (by omega))
  rw [hplaced, Address.toOption_ofNat, if_pos (by omega)]

/-- Counted from the base of its object, an instruction stands where its number before reordering
says. -/
theorem base_map_instruction (h : Linked sources options p settings os)
    (hfit : startBehind options p.objects ≤ Address.limit)
    (hsplit : p.objects = before ++ o :: after) (hk : k < o.count) :
    o.base.map (·.instruction k) = some (settings.origin.instruction (total before + k)) := by
  rw [h.base_eq hfit hsplit hk, Option.map_some, Address.instruction, Address.instruction,
    Nat.mul_add, Nat.add_assoc]

/-- Instructions of a program that fits into memory have addresses. -/
theorem exists_address (h : Linked sources options p settings os)
    (hfit : startBehind options p.objects ≤ Address.limit)
    (hsplit : p.objects = before ++ o :: after) (hk : k < o.count) :
    ∃ a, settings.origin.instruction (p.order.translate (total before + k)) = .ok a ∧
      (a.value : Int) = options.baseOffset +
        (Address.instructionBytes * p.order.translate (total before + k) : Nat) := by
  have hlt := h.translate_lt (hsplit ▸ total_add_lt hk)
  have hbytes := Nat.mul_lt_mul_of_pos_left hlt (by decide : 0 < Address.instructionBytes)
  rw [h.startBehind_eq] at hfit
  refine ⟨_, Address.instruction_of_lt (by omega), ?_⟩
  rw [← (Address.value_of_ofInt h.origin).1]
  exact Int.natCast_add _ _

theorem origin_lastSite (h : Linked sources options p settings os) :
    (p.lastSite sources.keys before o).context.origin = settings.origin := by
  rw [h.lastPass]
  rfl

/-- The address of an instruction in the last pass. -/
theorem instructionAddress?_lastSite (h : Linked sources options p settings os)
    (hfit : startBehind options p.objects ≤ Address.limit)
    (hsplit : p.objects = before ++ o :: after) (hk : k < o.count) :
    (p.lastSite sources.keys before o).instructionAddress? k =
      some (settings.origin.instruction (p.order.translate (total before + k))) := by
  cases hentry : p.entryPoint with
  | none =>
    rw [h.translate_of_entryPoint_none hentry, ← h.base_map_instruction hfit hsplit hk]
    simp only [Site.instructionAddress?, Context.addressOf?, lastSite, context, Program.lastPass,
      hentry, Option.map_none]
  | some entry =>
    have hindex := h.index_lastSite sources.keys hsplit hk
    rw [Site.index] at hindex
    rw [Site.instructionAddress?, Context.addressOf?, hindex, h.origin_lastSite]
    simp only [lastSite, context, Program.lastPass, hentry, Option.map_some,
      h.base_eq hfit hsplit hk]

/-- What the last pass says of the place of an instruction. -/
theorem placeAgrees (h : Linked sources options p settings os)
    (hfit : startBehind options p.objects ≤ Address.limit)
    (hsplit : p.objects = before ++ o :: after) (hk : k < o.count) {a : Address}
    (ha : settings.origin.instruction (p.order.translate (total before + k)) = .ok a) :
    (p.lastSite sources.keys before o).PlaceAgrees o.result k a := by
  rw [h.result_eq hsplit]
  refine Site.placeAgrees_of_address (scope_lastPass _ sources.keys) rfl ?_ ?_ _
  · rw [h.instructionAddress?_lastSite hfit hsplit hk, ha]
  · rw [h.origin_lastSite, h.index_lastSite _ hsplit hk, ha]

/-- The address of an instruction in the link map. -/
theorem instructionAddress?_eq (h : Linked sources options p settings os)
    (hfit : startBehind options p.objects ≤ Address.limit)
    (hsplit : p.objects = before ++ o :: after) (hk : k < o.count) :
    p.instructionAddress? o k =
      (settings.origin.instruction (p.order.translate (total before + k))).toOption := by
  unfold instructionAddress? addressIn?
  cases hnatural : p.order.isNatural with
  | true =>
    have hbase := congrArg (Option.bind · Except.toOption) (h.base_map_instruction hfit hsplit hk)
    rw [h.translate_of_isNatural hnatural]
    rwa [Option.bind_map] at hbase
  | false =>
    rw [Bool.not_false, if_pos rfl, h.byLocation?_eq hsplit hk, h.options_eq, h.origin]
    rfl

end Linked

/-- **Instructions have one address.**  If a program whose objects can be ordered fits into memory,
the link map and all that the last pass says of the place of an instruction give one address: the
origin and four bytes for each instruction before it in the order of the program. -/
theorem addresses_agree {sources : NameMap (List Char)} {options : Options}
    {before after : List AssembledObject} {o : AssembledObject} {k : Nat}
    (hordered : (assemble sources options).unresolved = [])
    (hfit : startBehind options (assemble sources options).objects ≤ Address.limit)
    (hsplit : (assemble sources options).objects = before ++ o :: after) (hk : k < o.count) :
    o.result = ((assemble sources options).lastSite sources.keys before o).extract
        options.oversized ∧
      ∃ a : Address,
        (a.value : Int) = options.baseOffset + (Address.instructionBytes *
          (assemble sources options).order.translate (total before + k) : Nat) ∧
        (assemble sources options).instructionAddress? o k = some a ∧
        ((assemble sources options).lastSite sources.keys before o).PlaceAgrees o.result k a := by
  have ho : o ∈ (assemble sources options).objects := by
    rw [hsplit]
    exact List.mem_append_right _ List.mem_cons_self
  obtain ⟨settings, os, h⟩ := linked_of_unresolved hordered ho
  obtain ⟨a, haddress, hvalue⟩ := h.exists_address hfit hsplit hk
  refine ⟨h.result_eq hsplit, a, hvalue, ?_, h.placeAgrees hfit hsplit hk haddress⟩
  rw [h.instructionAddress?_eq hfit hsplit hk, haddress]
  rfl

/-- The program starts with the last instruction of its second object. -/
def entryAtEnd : NameMap (List Char) :=
  .ofList [("A", "a:\n nop\n nop\n".toList), ("B", "b:\n nop\nmain:\n.inner:\n nop\n".toList)]

/-- The options of a program that starts with the block `B:main`. -/
def startAtMain : Options := { baseOffset := 4096, entryPoint := some ⟨"B", "main"⟩ }

theorem addresses_agree_entryAtEnd :
    (assemble entryAtEnd startAtMain).unresolved = [] ∧
      startBehind startAtMain (assemble entryAtEnd startAtMain).objects ≤ Address.limit ∧
      ∃ a o, (assemble entryAtEnd startAtMain).objects = [a, o] ∧ 1 < o.count ∧
        (assemble entryAtEnd startAtMain).instructionAddress? o 1 = some ⟨4096⟩ ∧
        ((assemble entryAtEnd startAtMain).lastSite entryAtEnd.keys [a] o).PlaceAgrees
          o.result 1 ⟨4096⟩ := by
  have hordered : (assemble entryAtEnd startAtMain).unresolved = [] := by cbv
  have hend : startBehind startAtMain (assemble entryAtEnd startAtMain).objects = 4112 := by cbv
  have hfit : startBehind startAtMain (assemble entryAtEnd startAtMain).objects ≤ Address.limit := by
    rw [hend]
    decide
  have hcounts : (assemble entryAtEnd startAtMain).objects.map (·.count) = [2, 2] := by cbv
  have hfront : (assemble entryAtEnd startAtMain).order.translate 3 = 0 := by cbv
  obtain ⟨a, rest, hobjects, ha, hrest⟩ := List.map_eq_cons_iff.mp hcounts
  obtain ⟨o, after, rfl, ho, hafter⟩ := List.map_eq_cons_iff.mp hrest
  obtain rfl := List.map_eq_nil_iff.mp hafter
  have hsplit : (assemble entryAtEnd startAtMain).objects = [a] ++ o :: [] := hobjects
  have hk : 1 < o.count := by
    rw [ho]
    decide
  have htotal : total [a] + 1 = 3 := by
    rw [total_cons, ha]
    rfl
  obtain ⟨-, address, hvalue, hmap, hplace⟩ := addresses_agree hordered hfit hsplit hk
  rw [htotal, hfront] at hvalue
  obtain ⟨value⟩ := address
  obtain rfl : value = 4096 := Int.ofNat.inj hvalue
  exact ⟨hordered, hfit, a, o, hobjects, hk, hmap, hplace⟩

end Program

end LinkAsm
