import Mathlib
import LinkAsm.Proofs.Pass.Relocation
import LinkAsm.Proofs.Program.Isolation
import LinkAsm.Proofs.Program.Tiling

/-!
# Programs at two base offsets

The base offset is where a program starts.  It decides on no name, no number of instructions and no
order, so two programs that differ in it alone have the same objects in the same order, with as many
instructions before each.  Going through the objects in build order, each is placed at moved bytes
and sees moved tables of the objects before it, so its last pass finds moved addresses.

* `Program.Linked.sharesText`, `Program.Linked.order_eq`: what does not move.
* `Program.Linked.movedBy_split`: an object behind moved objects is moved.
* `Program.base_offset_moves_addresses`: what moves.
-/

namespace LinkAsm

/-- The options with another base offset. -/
def Options.basedAt (options : Options) (base : Int) : Options :=
  { options with baseOffset := base }

namespace AssembledObject

variable {distance : Int} {o o' : AssembledObject} {os os' : List AssembledObject}

/-! ## Objects of one text -/

/-- Whether two objects were read from one text. -/
structure SharesText (o o' : AssembledObject) : Prop where
  name : o'.name = o.name
  text : o'.text = o.text
  source : o'.source = o.source

theorem SharesText.count (h : o.SharesText o') : o'.count = o.count :=
  congrArg Source.instructionCount h.source

theorem sharesText_of_map_name {sources : NameMap (List Char)}
    (hnames : os'.map (·.name) = os.map (·.name)) (hr : ∀ o ∈ os, o.ReadFrom sources)
    (hr' : ∀ o ∈ os', o.ReadFrom sources) : List.Forall₂ SharesText os os' := by
  induction os generalizing os' with
  | nil =>
    obtain rfl := List.map_eq_nil_iff.mp hnames
    exact .nil
  | cons o os ih =>
    obtain ⟨o', rest, rfl, hname, hrest⟩ := List.map_eq_cons_iff.mp hnames
    have hread := hr o List.mem_cons_self
    have hread' := hr' o' List.mem_cons_self
    have htext : o'.text = o.text :=
      Option.some.inj (hread'.text.symm.trans (hname ▸ hread.text))
    refine .cons ⟨hname, htext, ?_⟩ ?_
    · rw [hread.source, hread'.source, htext]
    · exact ih hrest (fun x hx => hr x (List.mem_cons_of_mem _ hx))
        fun x hx => hr' x (List.mem_cons_of_mem _ hx)

theorem map_layout_of_sharesText (h : List.Forall₂ SharesText os os') :
    os'.map layout = os.map layout := by
  induction h with
  | nil => rfl
  | cons ho _ ih =>
    rw [List.map_cons, List.map_cons, ih, layout, layout, ho.name, ho.count, ho.source]

/-! ## Moved objects -/

/-- Whether an object is another one at a place moved by a distance. -/
structure MovedBy (distance : Int) (o o' : AssembledObject) : Prop where
  shares : o.SharesText o'
  base : Address.BothMoved distance o.base o'.base
  tail : Option.Rel (Address.MovedBy distance) o.tail o'.tail
  result : o.result.MovedBy distance o'.result

theorem total_of_movedBy (h : List.Forall₂ (MovedBy distance) os os') : total os' = total os :=
  congrArg Layout.total (map_layout_of_sharesText (h.imp fun _ _ ho => ho.shares))

theorem tables_of_movedBy (h : List.Forall₂ (MovedBy distance) os os') (object : String) :
    Option.Rel (SymbolTable.MovedBy distance)
      ((os.map (·.result.symbols)).find? (·.object == object))
      ((os'.map (·.result.symbols)).find? (·.object == object)) :=
  optionRel_find? (fun _ _ ht => ht.object)
    (List.rel_map (fun _ _ ho => ho.result.symbols) h) object

variable {start start' : Nat}

theorem PlacedAt.base_movedBy (h : o.PlacedAt start) (h' : o'.PlacedAt start')
    (hstart : (start' : Int) = start + distance) (hlog : o.log.failed = false)
    (hlog' : o'.log.failed = false) (hlt : start < Address.limit) (hlt' : start' < Address.limit) :
    Address.BothMoved distance o.base o'.base := by
  rw [h.base (h.fits hlog), h'.base (h'.fits hlog'), Address.toOption_ofNat, Address.toOption_ofNat,
    if_pos hlt, if_pos hlt']
  exact ⟨⟨start⟩, ⟨start'⟩, rfl, rfl, hstart⟩

theorem PlacedAt.tail_movedBy (h : o.PlacedAt start) (h' : o'.PlacedAt start')
    (hcount : o'.count = o.count) (hstart : (start' : Int) = start + distance)
    (hlog : o.log.failed = false) (hlog' : o'.log.failed = false) :
    Option.Rel (Address.MovedBy distance) o.tail o'.tail := by
  have hfits := h.fits hlog
  have hfits' := h'.fits hlog'
  rw [h.tail hfits, h'.tail hfits', hcount]
  by_cases hzero : o.count = 0
  · rw [if_pos hzero, if_pos hzero]
    exact .none
  · have hbytes : 0 < Address.instructionBytes * o.count :=
      Nat.mul_pos (by decide) (Nat.pos_of_ne_zero hzero)
    have hle := hfits.resolve_left hzero
    have hle' := hfits'.resolve_left (hcount ▸ hzero)
    rw [hcount] at hle'
    rw [if_neg hzero, if_neg hzero, Address.toOption_ofNat, Address.toOption_ofNat,
      if_pos (by omega), if_pos (by omega)]
    refine .some ?_
    unfold Address.MovedBy
    dsimp only
    omega

end AssembledObject

namespace Program

open AssembledObject

namespace Linked

variable {sources : NameMap (List Char)} {options : Options} {base : Int} {p p' : Program}
  {settings settings' : PassSettings} {os os' before before' after after' : List AssembledObject}
  {o o' : AssembledObject}

/-! ## What does not move -/

theorem buildOrder_eq (h : Linked sources options p settings os)
    (h' : Linked sources (options.basedAt base) p' settings' os') :
    p'.buildOrder = p.buildOrder :=
  h'.ordered.trans h.ordered.symm

theorem sharesText (h : Linked sources options p settings os)
    (h' : Linked sources (options.basedAt base) p' settings' os') :
    List.Forall₂ SharesText p.objects p'.objects := by
  refine sharesText_of_map_name ?_ h.readFrom_objects h'.readFrom_objects
  rw [h.map_name_objects, h'.map_name_objects, h.buildOrder_eq h']

theorem order_eq (h : Linked sources options p settings os)
    (h' : Linked sources (options.basedAt base) p' settings' os')
    (hentry : p'.entryPoint = p.entryPoint) : p'.order = p.order := by
  have hlayout := map_layout_of_sharesText (h.sharesText h')
  rcases h.arranged with ⟨hnone, horder⟩ | ⟨entry, hsome, hstart⟩
  · rcases h'.arranged with ⟨-, horder'⟩ | ⟨entry', hsome', -⟩
    · rw [horder, horder', hlayout]
    · cases hsome'.symm.trans (hentry.trans hnone)
  · rcases h'.arranged with ⟨hnone', -⟩ | ⟨entry', hsome', hstart'⟩
    · cases hnone'.symm.trans (hentry.trans hsome)
    · obtain rfl := Option.some.inj (hsome'.symm.trans (hentry.trans hsome))
      rw [hlayout] at hstart'
      exact Except.ok.inj (hstart'.symm.trans hstart)

/-! ## What moves -/

theorem origin_movedBy (h : Linked sources options p settings os)
    (h' : Linked sources (options.basedAt base) p' settings' os') :
    settings.origin.MovedBy (base - options.baseOffset) settings'.origin := by
  have hvalue := (Address.value_of_ofInt h.origin).1
  have hvalue' : (settings'.origin.value : Int) = base := (Address.value_of_ofInt h'.origin).1
  rw [Address.MovedBy]
  omega

/-- The last passes over two objects behind moved objects know the same but for the distance. -/
theorem movedBy_lastSite (h : Linked sources options p settings os)
    (h' : Linked sources (options.basedAt base) p' settings' os')
    (hentry : p'.entryPoint = p.entryPoint)
    (hbefore : List.Forall₂ (MovedBy (base - options.baseOffset)) before before')
    (hshares : o.SharesText o')
    (hbase : Address.BothMoved (base - options.baseOffset) o.base o'.base) :
    (p.lastSite sources.keys before o).MovedBy (base - options.baseOffset)
      (p'.lastSite sources.keys before' o') where
  object := hshares.name
  source := hshares.source
  scope := by simp only [lastSite, context, Program.lastPass, hentry]
  count := total_of_movedBy hbefore
  order := by simp only [lastSite, context, Program.lastPass, hentry, h.order_eq h' hentry]
  blocks := congrArg (fun source : Source => some source.blockPositions) hshares.source
  mock := by
    simp only [lastSite, context, Program.lastPass, h.options_eq, h'.options_eq]
    rfl
  known := rfl
  origin := by
    rw [h.origin_lastSite, h'.origin_lastSite]
    exact h.origin_movedBy h'
  base := by
    obtain ⟨a, b, ha, hb, hab⟩ := hbase
    simp only [lastSite, context, ha, hb]
    exact .some hab
  tables := tables_of_movedBy hbefore

theorem start_lt (h : Linked sources options p settings os)
    (hfit : startBehind options p.objects < Address.limit)
    (hsplit : p.objects = before ++ o :: after) :
    settings.origin.value + Address.instructionBytes * total before < Address.limit := by
  rw [h.startBehind_eq, hsplit, total_append, Nat.mul_add] at hfit
  omega

/-- **An object behind moved objects is moved.** -/
theorem movedBy_split (h : Linked sources options p settings os)
    (h' : Linked sources (options.basedAt base) p' settings' os')
    (hentry : p'.entryPoint = p.entryPoint) (hs : p.succeeded = true) (hs' : p'.succeeded = true)
    (hfit : startBehind options p.objects < Address.limit)
    (hfit' : startBehind (options.basedAt base) p'.objects < Address.limit)
    (hsplit : p.objects = before ++ o :: after) (hsplit' : p'.objects = before' ++ o' :: after')
    (hbefore : List.Forall₂ (MovedBy (base - options.baseOffset)) before before')
    (hshares : o.SharesText o') : o.MovedBy (base - options.baseOffset) o' := by
  have hlt := h.start_lt hfit hsplit
  have hlt' := h'.start_lt hfit' hsplit'
  have ho : o ∈ p.objects := by simp [hsplit]
  have ho' : o' ∈ p'.objects := by simp [hsplit']
  have hlog := log_of_succeeded hs ho
  have hlog' := log_of_succeeded hs' ho'
  -- both objects stand behind the same number of instructions
  have hstart : ((settings'.origin.value + Address.instructionBytes * total before' : Nat) : Int) =
      (settings.origin.value + Address.instructionBytes * total before : Nat) +
        (base - options.baseOffset) := by
    have horigin := h.origin_movedBy h'
    rw [Address.MovedBy] at horigin
    rw [total_of_movedBy hbefore]
    omega
  have hbase := (h.placedAt hsplit).base_movedBy (h'.placedAt hsplit') hstart hlog hlog' hlt hlt'
  refine ⟨hshares, hbase, ?_, ?_⟩
  · exact (h.placedAt hsplit).tail_movedBy (h'.placedAt hsplit') hshares.count hstart hlog hlog'
  · have hresult := h.result_eq hsplit
    have hresult' := h'.result_eq hsplit'
    have hfinished := h.finished_of_lt hs hsplit (by rw [h.startBehind_eq]; omega)
    have hfinished' := h'.finished_of_lt hs' hsplit' (by rw [h'.startBehind_eq]; omega)
    have hclean := h.not_failed_result hs ho
    have hclean' := h'.not_failed_result hs' ho'
    rw [hresult] at hfinished hclean ⊢
    rw [hresult'] at hfinished' hclean' ⊢
    exact (h.movedBy_lastSite h' hentry hbefore hshares hbase).extract hfinished hclean hfinished'
      hclean'

/-- All objects are moved, if those of an initial part are. -/
theorem movedBy_append (h : Linked sources options p settings os)
    (h' : Linked sources (options.basedAt base) p' settings' os')
    (hentry : p'.entryPoint = p.entryPoint) (hs : p.succeeded = true) (hs' : p'.succeeded = true)
    (hfit : startBehind options p.objects < Address.limit)
    (hfit' : startBehind (options.basedAt base) p'.objects < Address.limit)
    (hafter : List.Forall₂ SharesText after after')
    (hsplit : p.objects = before ++ after) (hsplit' : p'.objects = before' ++ after')
    (hbefore : List.Forall₂ (MovedBy (base - options.baseOffset)) before before') :
    List.Forall₂ (MovedBy (base - options.baseOffset)) p.objects p'.objects := by
  induction hafter generalizing before before' with
  | nil =>
    rw [hsplit, hsplit', List.append_nil, List.append_nil]
    exact hbefore
  | cons hshares _ ih =>
    have hmoved := h.movedBy_split h' hentry hs hs' hfit hfit' hsplit hsplit' hbefore hshares
    refine ih ?_ ?_ (List.rel_append hbefore (.cons hmoved .nil))
    · rw [hsplit, List.append_cons]
    · rw [hsplit', List.append_cons]

end Linked

/-- **The base offset moves all addresses alike.**  If a program succeeds at two base offsets and
ends before the end of memory at both, its objects have one build order and its instructions one
order.  Every base, tail, block, embedded block and block label of the second program, and every
operand that is an address, is that of the first moved by the difference of the offsets; operands
that are text are the same. -/
theorem base_offset_moves_addresses {sources : NameMap (List Char)} {options : Options} {base : Int}
    (hs : (assemble sources options).succeeded = true)
    (hs' : (assemble sources (options.basedAt base)).succeeded = true)
    (hfit : startBehind options (assemble sources options).objects < Address.limit)
    (hfit' : startBehind (options.basedAt base)
      (assemble sources (options.basedAt base)).objects < Address.limit) :
    (assemble sources (options.basedAt base)).buildOrder = (assemble sources options).buildOrder ∧
      (assemble sources (options.basedAt base)).order = (assemble sources options).order ∧
      List.Forall₂ (AssembledObject.MovedBy (base - options.baseOffset))
        (assemble sources options).objects (assemble sources (options.basedAt base)).objects := by
  obtain ⟨settings, os, h⟩ := linked_of_succeeded hs
  obtain ⟨settings', os', h'⟩ := linked_of_succeeded hs'
  have hentry : (assemble sources (options.basedAt base)).entryPoint =
      (assemble sources options).entryPoint := by
    rw [entryPoint_of_succeeded hs, entryPoint_of_succeeded hs']
    rfl
  exact ⟨h.buildOrder_eq h', h.order_eq h' hentry,
    h.movedBy_append h' hentry hs hs' hfit hfit' (h.sharesText h') rfl rfl .nil⟩

/-- A program with all kinds of references, whose first instruction is in its library. -/
def manyReferences : NameMap (List Char) :=
  .ofList [("L", "a:\n nop\ns:\n nop\n".toList),
    ("M", "?import L\n?import X\nb:\n nop\n.i:\n j $L:s,$X:y,$b,$.i,$+1,$$-1,r".toList)]

/-- The options of a program that starts with the block `L:s` and may refer to objects that are not
there. -/
def startMocked : Options :=
  { baseOffset := 4096, entryPoint := some ⟨"L", "s"⟩, mockExternals := true }

theorem base_offset_moves_addresses_manyReferences :
    (assemble manyReferences startMocked).objects.map
        (fun o => o.result.instructions.map (·.operands)) =
      [[[], []], [[], [.address ⟨4096⟩, .address ⟨4096⟩, .address ⟨4104⟩, .address ⟨4108⟩,
        .address ⟨4112⟩, .address ⟨4100⟩, .raw "r"]]] ∧
      List.Forall₂ (AssembledObject.MovedBy 4096) (assemble manyReferences startMocked).objects
        (assemble manyReferences (startMocked.basedAt 8192)).objects := by
  have hseen : ((assemble manyReferences startMocked).succeeded,
      total (assemble manyReferences startMocked).objects,
      (assemble manyReferences startMocked).objects.map
        fun o => o.result.instructions.map (·.operands)) = (true, 4,
      [[[], []], [[], [.address ⟨4096⟩, .address ⟨4096⟩, .address ⟨4104⟩, .address ⟨4108⟩,
        .address ⟨4112⟩, .address ⟨4100⟩, .raw "r"]]]) := by cbv
  have hseen' : ((assemble manyReferences (startMocked.basedAt 8192)).succeeded,
      total (assemble manyReferences (startMocked.basedAt 8192)).objects) = (true, 4) := by cbv
  simp only [Prod.mk.injEq] at hseen hseen'
  obtain ⟨hs, htotal, hoperands⟩ := hseen
  obtain ⟨hs', htotal'⟩ := hseen'
  have hmoved := base_offset_moves_addresses hs hs' (by rw [startBehind, htotal]; decide)
    (by rw [startBehind, htotal']; decide)
  exact ⟨hoperands, hmoved.2.2⟩

end Program

end LinkAsm
