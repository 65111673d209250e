import Mathlib.Data.List.Induction
import Mathlib.Data.List.Nodup
import LinkAsm.Pass.Extract

/-!
# What the lines of an object define

The lines of an object are gone through once, and each adds at most one definition.  `Adds` lists
what a line can do, with the state of the log where it matters, and `ofLines_induction` carries a
property from line to line.  From these follow

* `Definitions.traced_ofLines`: of the lines with a name the first defines it;
* `Definitions.clean_ofLines`: a log without failures means that nothing was rejected;
* `Definitions.aliasesDeclared_ofLines`: the aliases of the table are those to be evaluated and
  those that cannot be read, each once.
-/

namespace LinkAsm

namespace Line

/-- The name of the symbol that a line defines. -/
def symbolName? (line : Line) : Option String :=
  match line.kind with
  | .label name => some name
  | .aliasDefinition a => some a.name
  | .importing i => i.symbol.bind fun _ => i.localName
  | .block _ | .instruction _ => none

/-- The name of the embedded block that a line defines. -/
def blockName? (line : Line) : Option String :=
  match line.kind with
  | .block name => some name
  | _ => none

theorem kind_of_blockName? {line : Line} {name : String} (h : line.blockName? = some name) :
    line.kind = .block name := by
  unfold blockName? at h
  split at h
  · next hk =>
    rw [hk, Option.some.inj h]
  · cases h

theorem blockName?_of_symbolName? {line : Line} {name : String}
    (h : line.symbolName? = some name) : line.blockName? = none := by
  unfold blockName?
  split
  · next hk => simp [symbolName?, hk] at h
  · rfl

end Line

namespace Definitions

/-- The symbol that a line makes. -/
def symbolOf? (s : Site) (line : Line) : Option Symbol :=
  match line.kind with
  | .label name => some ⟨.label, name, line.span, (blockValue s line).1, true⟩
  | .aliasDefinition a => some ⟨.aliasName, a.name, line.span, .deferred, true⟩
  | .importing i =>
    i.symbol.bind fun _ => i.localName.map fun name => ⟨.aliasName, name, line.span, .deferred, false⟩
  | .block _ | .instruction _ => none

/-- The alias to be evaluated that a line makes, if its expression can be read. -/
def pendingOf? (line : Line) : Option PendingAlias :=
  match line.kind with
  | .aliasDefinition a =>
    (Expr.parse a.expression).toOption.map fun expr => ⟨a.name, expr, a.start, line.preceding⟩
  | .importing i =>
    i.symbol.bind fun symbol => i.localName.map fun name =>
      ⟨name, ⟨.leaf line.span (.imported i.object symbol), none⟩, 0, line.preceding⟩
  | .label _ | .block _ | .instruction _ => none

/-- What a line can do to the definitions before it. -/
inductive Adds (s : Site) (d : Definitions) (line : Line) : Definitions → Prop
  /-- The line defines nothing. -/
  | nothing (hs : line.symbolName? = none) (hb : line.blockName? = none) : Adds s d line d
  /-- Its symbol has a definition already. -/
  | rejected {name : String} {log : Log} (hs : line.symbolName? = some name)
      (hd : d.symbols.defines name = true) (hl : log.failed = true) : Adds s d line { d with log }
  /-- It is a block label. -/
  | label {name : String} {log : Log} (hk : line.kind = .label name)
      (hd : d.symbols.defines name = false)
      (hl : log.failed = (d.log.failed || (blockValue s line).1 == .error)) :
      Adds s d line
        { d with
          symbols := d.symbols.define ⟨.label, name, line.span, (blockValue s line).1, true⟩
          labels := d.labels.insert name (addressIn (blockValue s line).1)
          log }
  /-- It is an alias with an expression to evaluate. -/
  | pending {sym : Symbol} {p : PendingAlias} (hs : symbolOf? s line = some sym)
      (hd : d.symbols.defines sym.name = false) (hk : sym.kind = .aliasName)
      (hv : sym.value = .deferred) (hp : pendingOf? line = some p) (hn : p.name = sym.name) :
      Adds s d line { d with symbols := d.symbols.define sym, pending := d.pending ++ [p] }
  /-- It is an alias whose expression cannot be read. -/
  | malformed {sym : Symbol} {e : AliasError} {log : Log} (hs : symbolOf? s line = some sym)
      (hd : d.symbols.defines sym.name = false) (hk : sym.kind = .aliasName)
      (hv : sym.value = .deferred) (hp : pendingOf? line = none) (hl : log.failed = true) :
      Adds s d line
        { d with
          symbols := d.symbols.define sym
          malformed := d.malformed.insert sym.name (.error e)
          log }
  /-- Its embedded block has a definition already. -/
  | blockRejected {name : String} {log : Log} (hk : line.kind = .block name)
      (hd : d.blocks.contains name = true) (hl : log.failed = true) : Adds s d line { d with log }
  /-- It is an embedded block. -/
  | block {name : String} {log : Log} (hk : line.kind = .block name)
      (hd : d.blocks.contains name = false)
      (hl : log.failed = (d.log.failed || (blockValue s line).1 == .error)) :
      Adds s d line
        { d with blocks := d.blocks.insert name (addressIn (blockValue s line).1), log }

theorem symbolName?_of_symbolOf? {s : Site} {line : Line} {sym : Symbol}
    (h : symbolOf? s line = some sym) : line.symbolName? = some sym.name := by
  unfold symbolOf? at h
  unfold Line.symbolName?
  split at h
  · cases h; rfl
  · cases h; rfl
  · next i _ =>
    obtain ⟨symbol, hsym, hname⟩ := Option.bind_eq_some_iff.mp h
    obtain ⟨name, hlocal, rfl⟩ := Option.map_eq_some_iff.mp hname
    simp only [hsym, hlocal, Option.bind_some]
  · cases h
  · cases h

theorem exists_symbolOf? (s : Site) {l : Line} {name : String} (h : l.symbolName? = some name) :
    ∃ sym, symbolOf? s l = some sym ∧ sym.name = name ∧ sym.span = l.span := by
  unfold Line.symbolName? at h
  unfold symbolOf?
  split at h
  · obtain rfl := Option.some.inj h
    exact ⟨_, rfl, rfl, rfl⟩
  · obtain rfl := Option.some.inj h
    exact ⟨_, rfl, rfl, rfl⟩
  · obtain ⟨symbol, hsymbol, hlocal⟩ := Option.bind_eq_some_iff.mp h
    simp only [hsymbol, hlocal, Option.bind_some, Option.map_some]
    exact ⟨_, rfl, rfl, rfl⟩
  · cases h
  · cases h

theorem blockName?_of_symbolOf? {s : Site} {line : Line} {sym : Symbol}
    (h : symbolOf? s line = some sym) : line.blockName? = none :=
  Line.blockName?_of_symbolName? (symbolName?_of_symbolOf? h)

theorem symbolOf?_of_label (s : Site) {line : Line} {name : String} (hk : line.kind = .label name) :
    symbolOf? s line = some ⟨.label, name, line.span, (blockValue s line).1, true⟩ := by
  simp [symbolOf?, hk]

theorem symbolName?_of_pendingOf? {line : Line} {p : PendingAlias} (h : pendingOf? line = some p) :
    line.symbolName? = some p.name := by
  unfold pendingOf? at h
  unfold Line.symbolName?
  split at h
  · next a hk =>
    obtain ⟨expr, -, rfl⟩ := Option.map_eq_some_iff.mp h
    rw [hk]
  · next i hk =>
    obtain ⟨symbol, hsym, hname⟩ := Option.bind_eq_some_iff.mp h
    obtain ⟨name, hlocal, rfl⟩ := Option.map_eq_some_iff.mp hname
    simp only [hk, hsym, hlocal, Option.bind_some]
  · cases h
  · cases h
  · cases h

/-- The place of a block is a failure exactly where its value is an error. -/
theorem failed_blockValue (s : Site) (line : Line) :
    (blockValue s line).2.any Message.isFailure = ((blockValue s line).1 == .error) := by
  unfold blockValue
  split <;> rfl

/-- Every line does one of the things that `Adds` lists. -/
theorem adds_addLine (s : Site) (d : Definitions) (line : Line) :
    Adds s d line (d.addLine s line) := by
  unfold addLine
  cases hk : line.kind with
  | label name =>
    simp only [addLabel]
    split
    · next hd =>
      have hname : line.symbolName? = some name := by simp [Line.symbolName?, hk]
      exact .rejected hname hd (Log.failed_add_failure _ rfl)
    · next hd =>
      refine .label hk (Bool.eq_false_iff.mpr hd) ?_
      rw [Log.failed_addAll, failed_blockValue]
  | block name =>
    simp only [addBlock]
    split
    · next hd =>
      exact .blockRejected hk hd (Log.failed_add_failure _ rfl)
    · next hd =>
      refine .block hk (Bool.eq_false_iff.mpr hd) ?_
      rw [Log.failed_addAll, failed_blockValue]
  | aliasDefinition a =>
    have hsym : symbolOf? s line = some ⟨.aliasName, a.name, line.span, .deferred, true⟩ := by
      simp [symbolOf?, hk]
    simp only [addAlias]
    split
    · next hd =>
      exact .rejected (symbolName?_of_symbolOf? hsym) hd (Log.failed_add_failure _ rfl)
    · next hd =>
      split
      · next expr hexpr =>
        refine .pending hsym (Bool.eq_false_iff.mpr hd) rfl rfl ?_ rfl
        simp [pendingOf?, hk, hexpr, Except.toOption]
      · next failure hfailure =>
        refine .malformed hsym (Bool.eq_false_iff.mpr hd) rfl rfl ?_ (Log.failed_add_failure _ rfl)
        simp [pendingOf?, hk, hfailure, Except.toOption]
  | importing i =>
    simp only [addImport]
    split
    · next name symbol hname hsymbol =>
      have hsym : symbolOf? s line = some ⟨.aliasName, name, line.span, .deferred, false⟩ := by
        simp [symbolOf?, hk, hname, hsymbol]
      split
      · next hd =>
        exact .rejected (symbolName?_of_symbolOf? hsym) hd (Log.failed_add_failure _ rfl)
      · next hd =>
        refine .pending hsym (Bool.eq_false_iff.mpr hd) rfl rfl ?_ rfl
        simp [pendingOf?, hk, hname, hsymbol]
    · next hnone =>
      refine .nothing ?_ (by simp [Line.blockName?, hk])
      simp only [Line.symbolName?, hk]
      cases hsymbol : i.symbol with
      | none => rfl
      | some symbol =>
        cases hname : i.localName with
        | none => rfl
        | some name => exact absurd hsymbol (hnone name symbol hname)
  | instruction i => exact .nothing (by simp [Line.symbolName?, hk]) (by simp [Line.blockName?, hk])

/-- What holds before the first line and is kept by adding a line holds of all lines. -/
theorem ofLines_rec {s : Site} {P : List Line → Definitions → Prop} (start : P [] (empty s.object))
    (step : ∀ lines line d, P lines d → P (lines ++ [line]) (d.addLine s line)) :
    P s.source.lines (ofLines s) := by
  unfold ofLines
  induction s.source.lines using List.reverseRecOn with
  | nil => exact start
  | append_singleton lines line ih =>
    rw [List.foldl_concat]
    exact step _ _ _ ih

/-- The same, where it is enough to know what a line can do. -/
theorem ofLines_induction {s : Site} {P : List Line → Definitions → Prop}
    (start : P [] (empty s.object))
    (step : ∀ lines line d d', P lines d → Adds s d line d' → P (lines ++ [line]) d') :
    P s.source.lines (ofLines s) :=
  ofLines_rec start fun lines line d h => step lines line d _ h (adds_addLine s d line)

/-! ## First definitions -/

/-- A name has a definition exactly if a line defines it. -/
theorem defines_iff_of_adds {s : Site} {d d' : Definitions} {line : Line} (ha : Adds s d line d')
    (name : String) :
    d'.symbols.defines name = true ↔ d.symbols.defines name = true ∨ line.symbolName? = some name := by
  cases ha with
  | nothing hs _ => simp [hs]
  | rejected hs hd _ =>
    rw [hs, Option.some.injEq]
    constructor
    · exact Or.inl
    · rintro (h | rfl)
      · exact h
      · exact hd
  | @label key _ hk _ _ =>
    have hs : line.symbolName? = some key := by simp [Line.symbolName?, hk]
    rw [SymbolTable.defines_define, hs, Option.some.injEq, @eq_comm _ key]
  | @pending sym _ hs _ _ _ _ _ =>
    rw [SymbolTable.defines_define, symbolName?_of_symbolOf? hs, Option.some.injEq, @eq_comm _ sym.name]
  | @malformed sym _ _ hs _ _ _ _ _ =>
    rw [SymbolTable.defines_define, symbolName?_of_symbolOf? hs, Option.some.injEq, @eq_comm _ sym.name]
  | blockRejected hk _ _ => simp [Line.symbolName?, hk]
  | block hk _ _ => simp [Line.symbolName?, hk]

/-- Whether `line` is the first of `lines` that `f` gives the name `name`. -/
def FirstNamed (f : Line → Option String) (lines : List Line) (line : Line) (name : String) : Prop :=
  ∃ before after, lines = before ++ line :: after ∧ f line = some name ∧
    ∀ l ∈ before, f l ≠ some name

namespace FirstNamed

variable {f : Line → Option String} {lines : List Line} {line last : Line} {name : String}

theorem mem (h : FirstNamed f lines line name) : line ∈ lines := by
  obtain ⟨before, after, rfl, -⟩ := h
  exact List.mem_append_right _ List.mem_cons_self

theorem named (h : FirstNamed f lines line name) : f line = some name := by
  obtain ⟨-, -, -, hname, -⟩ := h
  exact hname

theorem find?_eq (h : FirstNamed f lines line name) :
    lines.find? (f · == some name) = some line := by
  obtain ⟨before, after, hsplit, hname, hbefore⟩ := h
  refine List.find?_eq_some_iff_append.mpr ⟨beq_iff_eq.mpr hname, before, after, hsplit, ?_⟩
  intro l hl
  rw [Bool.not_eq_true', beq_eq_false_iff_ne]
  exact hbefore l hl

/-- There is only one first line. -/
theorem unique (h : FirstNamed f lines line name) (hlast : FirstNamed f lines last name) :
    line = last :=
  Option.some.inj (h.find?_eq.symm.trans hlast.find?_eq)

theorem concat_iff :
    FirstNamed f (lines ++ [last]) line name ↔
      FirstNamed f lines line name ∨
        line = last ∧ f last = some name ∧ ∀ l ∈ lines, f l ≠ some name := by
  constructor
  · rintro ⟨before, after, heq, hname, hbefore⟩
    rcases List.eq_nil_or_concat after with rfl | ⟨init, x, rfl⟩
    · obtain ⟨rfl, hlast⟩ := List.append_inj' heq rfl
      obtain rfl : last = line := (List.cons.inj hlast).1
      exact Or.inr ⟨rfl, hname, hbefore⟩
    · rw [List.concat_eq_append, ← List.cons_append, ← List.append_assoc] at heq
      exact Or.inl ⟨before, init, (List.append_inj' heq rfl).1, hname, hbefore⟩
  · rintro (⟨before, after, rfl, hname, hbefore⟩ | ⟨rfl, hname, hbefore⟩)
    · exact ⟨before, after ++ [last], by simp, hname, hbefore⟩
    · exact ⟨lines, [], rfl, hname, hbefore⟩

end FirstNamed

/-- Of the lines with a name one is the first. -/
theorem exists_firstNamed {f : Line → Option String} {lines : List Line} {l : Line} {name : String}
    (hl : l ∈ lines) (hname : f l = some name) : ∃ line, FirstNamed f lines line name := by
  have hfound : (lines.find? (f · == some name)).isSome :=
    List.find?_isSome.mpr ⟨l, hl, beq_iff_eq.mpr hname⟩
  obtain ⟨line, hline⟩ := Option.isSome_iff_exists.mp hfound
  obtain ⟨hnamed, before, after, hsplit, hbefore⟩ := List.find?_eq_some_iff_append.mp hline
  refine ⟨line, before, after, hsplit, beq_iff_eq.mp hnamed, ?_⟩
  intro x hx
  simpa using hbefore x hx

/-- Where no two lines have one name, each line is the first with its name. -/
theorem firstNamed_of_nodup {f : Line → Option String} {lines : List Line} {l : Line} {name : String}
    (hd : (lines.filterMap f).Nodup) (hl : l ∈ lines) (hname : f l = some name) :
    FirstNamed f lines l name := by
  obtain ⟨before, after, rfl⟩ := List.append_of_mem hl
  refine ⟨before, after, rfl, hname, ?_⟩
  intro line hline hsame
  rw [List.filterMap_append, List.filterMap_cons_some hname] at hd
  exact (List.nodup_append.mp hd).2.2 name (List.mem_filterMap.mpr ⟨line, hline, hsame⟩) name
    List.mem_cons_self rfl

/-- Whether `line` is the first of `lines` that defines `name`. -/
def FirstDefinition (lines : List Line) (line : Line) (name : String) : Prop :=
  FirstNamed Line.symbolName? lines line name

/-- An alias comes to be evaluated where a line makes it and its name has no definition yet. -/
theorem mem_pending_of_adds {s : Site} {d d' : Definitions} {line : Line} (ha : Adds s d line d')
    (p : PendingAlias) :
    p ∈ d'.pending ↔
      p ∈ d.pending ∨ pendingOf? line = some p ∧ d.symbols.defines p.name = false := by
  cases ha with
  | nothing hs _ =>
    refine (or_iff_left ?_).symm
    rintro ⟨hp, -⟩
    rw [symbolName?_of_pendingOf? hp] at hs
    cases hs
  | rejected hs hd _ =>
    refine (or_iff_left ?_).symm
    rintro ⟨hp, hundefined⟩
    rw [symbolName?_of_pendingOf? hp] at hs
    obtain rfl := Option.some.inj hs
    rw [hd] at hundefined
    cases hundefined
  | label hk _ _ => simp [pendingOf?, hk]
  | pending _ hd _ _ hp hn =>
    rw [List.mem_append, List.mem_singleton, hp, Option.some.injEq]
    refine or_congr_right ?_
    constructor
    · rintro rfl
      exact ⟨rfl, hn ▸ hd⟩
    · rintro ⟨rfl, -⟩
      rfl
  | malformed _ _ _ _ hp _ => simp [hp]
  | blockRejected hk _ _ => simp [pendingOf?, hk]
  | block hk _ _ => simp [pendingOf?, hk]

theorem find?_symbols_of_adds {s : Site} {d d' : Definitions} {line : Line} (ha : Adds s d line d')
    {name : String} {sym : Symbol} :
    d'.symbols.find? name = some sym ↔ d.symbols.find? name = some sym ∨
      symbolOf? s line = some sym ∧ sym.name = name ∧ d.symbols.defines name = false := by
  cases ha with
  | nothing hs _ =>
    refine (or_iff_left ?_).symm
    rintro ⟨hsym, -⟩
    rw [symbolName?_of_symbolOf? hsym] at hs
    cases hs
  | rejected hs hd _ =>
    refine (or_iff_left ?_).symm
    rintro ⟨hsym, rfl, hundefined⟩
    rw [symbolName?_of_symbolOf? hsym] at hs
    obtain rfl := Option.some.inj hs
    rw [hd] at hundefined
    cases hundefined
  | label hk hd _ =>
    rw [SymbolTable.find?_define_iff hd, symbolOf?_of_label s hk, Option.some.injEq]
  | pending hs hd _ _ _ _ => rw [SymbolTable.find?_define_iff hd, hs, Option.some.injEq]
  | malformed hs hd _ _ _ _ => rw [SymbolTable.find?_define_iff hd, hs, Option.some.injEq]
  | blockRejected hk _ _ => simp [symbolOf?, hk]
  | block hk _ _ => simp [symbolOf?, hk]

theorem find?_labels_of_adds {s : Site} {d d' : Definitions} {line : Line} (ha : Adds s d line d')
    {name : String} {place : Option Address}
    (hold : d.symbols.defines name = false → d.labels.find? name = none) :
    d'.labels.find? name = some place ↔ d.labels.find? name = some place ∨
      line.kind = .label name ∧ addressIn (blockValue s line).1 = place ∧
        d.symbols.defines name = false := by
  cases ha with
  | @label key _ hk hd _ =>
    rw [hk, LineKind.label.injEq]
    by_cases hname : name = key
    · subst hname
      simp [hold hd, hd]
    · rw [NameMap.find?_insert_of_ne _ _ hname]
      refine (or_iff_left ?_).symm
      rintro ⟨rfl, -⟩
      exact hname rfl
  | nothing hs _ =>
    refine (or_iff_left ?_).symm
    rintro ⟨hk, -⟩
    simp [Line.symbolName?, hk] at hs
  | @rejected key _ hs hd _ =>
    refine (or_iff_left ?_).symm
    rintro ⟨hk, -, hundefined⟩
    have hname : line.symbolName? = some name := by simp [Line.symbolName?, hk]
    obtain rfl := Option.some.inj (hs.symm.trans hname)
    rw [hd] at hundefined
    cases hundefined
  | pending hs _ hkind _ _ _ =>
    refine (or_iff_left ?_).symm
    rintro ⟨hk, -⟩
    obtain rfl := Option.some.inj ((symbolOf?_of_label s hk).symm.trans hs)
    cases hkind
  | malformed hs _ hkind _ _ _ =>
    refine (or_iff_left ?_).symm
    rintro ⟨hk, -⟩
    obtain rfl := Option.some.inj ((symbolOf?_of_label s hk).symm.trans hs)
    cases hkind
  | blockRejected hk _ _ => simp [hk]
  | block hk _ _ => simp [hk]

theorem find?_blocks_of_adds {s : Site} {d d' : Definitions} {line : Line} (ha : Adds s d line d')
    {name : String} {place : Option Address} :
    d'.blocks.find? name = some place ↔ d.blocks.find? name = some place ∨
      line.blockName? = some name ∧ addressIn (blockValue s line).1 = place ∧
        d.blocks.contains name = false := by
  cases ha with
  | @block key _ hk hd _ =>
    have hblock : line.blockName? = some key := by simp [Line.blockName?, hk]
    rw [hblock, Option.some.injEq]
    by_cases hname : name = key
    · subst hname
      have hnone : d.blocks.find? name = none :=
        Option.isNone_iff_eq_none.mp (Option.isSome_eq_false_iff.mp hd)
      simp [hnone, hd]
    · rw [NameMap.find?_insert_of_ne _ _ hname]
      refine (or_iff_left ?_).symm
      rintro ⟨rfl, -⟩
      exact hname rfl
  | nothing _ hb => simp [hb]
  | rejected hs _ _ =>
    have hblock : line.blockName? = none := Line.blockName?_of_symbolName? hs
    simp [hblock]
  | label hk _ _ => simp [Line.blockName?, hk]
  | pending hs _ _ _ _ _ => simp [blockName?_of_symbolOf? hs]
  | malformed hs _ _ _ _ _ => simp [blockName?_of_symbolOf? hs]
  | @blockRejected key _ hk hd _ =>
    refine (or_iff_left ?_).symm
    rintro ⟨hblock, -, hundefined⟩
    simp only [Line.blockName?, hk, Option.some.injEq] at hblock
    rw [← hblock, hd] at hundefined
    cases hundefined

/-- Every definition is the first line with its name. -/
structure Traced (s : Site) (lines : List Line) (d : Definitions) : Prop where
  defines_iff : ∀ name, d.symbols.defines name = true ↔ ∃ l ∈ lines, l.symbolName? = some name
  pending_iff : ∀ p, p ∈ d.pending ↔
    ∃ line, pendingOf? line = some p ∧ FirstDefinition lines line p.name
  symbol_iff : ∀ name sym, d.symbols.find? name = some sym ↔
    ∃ l, FirstDefinition lines l name ∧ symbolOf? s l = some sym
  label_iff : ∀ name place, d.labels.find? name = some place ↔
    ∃ l, FirstDefinition lines l name ∧ l.kind = .label name ∧
      addressIn (blockValue s l).1 = place
  block_iff : ∀ name place, d.blocks.find? name = some place ↔
    ∃ l, FirstNamed Line.blockName? lines l name ∧ addressIn (blockValue s l).1 = place

namespace Traced

variable {s : Site} {lines : List Line} {line : Line} {d d' : Definitions}

theorem defines_eq_false_iff (h : Traced s lines d) {name : String} :
    d.symbols.defines name = false ↔ ∀ l ∈ lines, l.symbolName? ≠ some name := by
  rw [Bool.eq_false_iff, ne_eq, h.defines_iff]
  simp only [not_exists, not_and, ne_eq]

theorem contains_eq_false_iff (h : Traced s lines d) {name : String} :
    d.blocks.contains name = false ↔ ∀ l ∈ lines, l.blockName? ≠ some name := by
  rw [Bool.eq_false_iff, ne_eq, NameMap.contains, Option.isSome_iff_exists]
  simp only [h.block_iff, not_exists, not_and]
  constructor
  · intro hnone l hl hname
    obtain ⟨first, hfirst⟩ := exists_firstNamed hl hname
    exact hnone _ first hfirst rfl
  · intro hnone place l hfirst
    exact absurd hfirst.named (hnone l hfirst.mem)

/-- A name without a definition is no label. -/
theorem labels_eq_none (h : Traced s lines d) {name : String}
    (hd : d.symbols.defines name = false) : d.labels.find? name = none := by
  rw [Option.eq_none_iff_forall_ne_some]
  intro place hplace
  obtain ⟨l, hfirst, -⟩ := (h.label_iff name place).mp hplace
  exact h.defines_eq_false_iff.mp hd l hfirst.mem hfirst.named

theorem step (h : Traced s lines d) (ha : Adds s d line d') : Traced s (lines ++ [line]) d' := by
  refine ⟨?_, ?_, ?_, ?_, ?_⟩
  · intro name
    rw [defines_iff_of_adds ha, h.defines_iff]
    simp only [List.mem_append, List.mem_singleton, or_and_right, exists_or, exists_eq_left]
  · intro p
    rw [mem_pending_of_adds ha, h.pending_iff, h.defines_eq_false_iff]
    simp only [FirstDefinition, FirstNamed.concat_iff]
    constructor
    · rintro (⟨l, hl, hfirst⟩ | ⟨hl, hbefore⟩)
      · exact ⟨l, hl, Or.inl hfirst⟩
      · exact ⟨line, hl, Or.inr ⟨rfl, symbolName?_of_pendingOf? hl, hbefore⟩⟩
    · rintro ⟨l, hl, hfirst | ⟨rfl, -, hbefore⟩⟩
      · exact Or.inl ⟨l, hl, hfirst⟩
      · exact Or.inr ⟨hl, hbefore⟩
  · intro name sym
    rw [find?_symbols_of_adds ha, h.symbol_iff, h.defines_eq_false_iff]
    simp only [FirstDefinition, FirstNamed.concat_iff]
    constructor
    · rintro (⟨l, hfirst, hsym⟩ | ⟨hsym, rfl, hbefore⟩)
      · exact ⟨l, Or.inl hfirst, hsym⟩
      · exact ⟨line, Or.inr ⟨rfl, symbolName?_of_symbolOf? hsym, hbefore⟩, hsym⟩
    · rintro ⟨l, hfirst | ⟨rfl, hname, hbefore⟩, hsym⟩
      · exact Or.inl ⟨l, hfirst, hsym⟩
      · rw [symbolName?_of_symbolOf? hsym] at hname
        exact Or.inr ⟨hsym, Option.some.inj hname, hbefore⟩
  · intro name place
    rw [find?_labels_of_adds ha h.labels_eq_none, h.label_iff, h.defines_eq_false_iff]
    simp only [FirstDefinition, FirstNamed.concat_iff]
    constructor
    · rintro (⟨l, hfirst, hk, hplace⟩ | ⟨hk, hplace, hbefore⟩)
      · exact ⟨l, Or.inl hfirst, hk, hplace⟩
      · have hname : line.symbolName? = some name := by simp [Line.symbolName?, hk]
        exact ⟨line, Or.inr ⟨rfl, hname, hbefore⟩, hk, hplace⟩
    · rintro ⟨l, hfirst | ⟨rfl, -, hbefore⟩, hk, hplace⟩
      · exact Or.inl ⟨l, hfirst, hk, hplace⟩
      · exact Or.inr ⟨hk, hplace, hbefore⟩
  · intro name place
    rw [find?_blocks_of_adds ha, h.block_iff, h.contains_eq_false_iff]
    simp only [FirstNamed.concat_iff]
    constructor
    · rintro (⟨l, hfirst, hplace⟩ | ⟨hname, hplace, hbefore⟩)
      · exact ⟨l, Or.inl hfirst, hplace⟩
      · exact ⟨line, Or.inr ⟨rfl, hname, hbefore⟩, hplace⟩
    · rintro ⟨l, hfirst | ⟨rfl, hname, hbefore⟩, hplace⟩
      · exact Or.inl ⟨l, hfirst, hplace⟩
      · exact Or.inr ⟨hname, hplace, hbefore⟩

end Traced

theorem traced_empty (s : Site) : Traced s [] (empty s.object) := by
  refine ⟨?_, ?_, ?_, ?_, ?_⟩
  · intro name
    simp [empty, SymbolTable.empty, SymbolTable.defines, NameMap.contains]
  · intro p
    simp [empty, FirstDefinition, FirstNamed]
  · intro name sym
    simp [empty, SymbolTable.empty, SymbolTable.find?, FirstDefinition, FirstNamed]
  · intro name place
    simp [empty, FirstDefinition, FirstNamed]
  · intro name place
    simp [empty, FirstNamed]

theorem traced_ofLines (s : Site) : Traced s s.source.lines (ofLines s) :=
  ofLines_induction (traced_empty s) fun _ _ _ _ h ha => h.step ha

/-! ## Logs without failures -/

/-- What holds of definitions if their log has no failure. -/
structure Clean (s : Site) (lines : List Line) (d : Definitions) : Prop where
  symbols_nodup : (lines.filterMap Line.symbolName?).Nodup
  blocks_nodup : (lines.filterMap Line.blockName?).Nodup
  symbol : ∀ l ∈ lines, ∀ sym, symbolOf? s l = some sym → d.symbols.find? sym.name = some sym
  block : ∀ l ∈ lines, ∀ name, l.blockName? = some name →
    d.blocks.find? name = some (addressIn (blockValue s l).1) ∧ (blockValue s l).1 ≠ .error
  value : ∀ name sym, d.symbols.find? name = some sym → sym.value ≠ .error
  malformed : d.malformed = .empty

/-- A line without a name adds none to the names of the lines before it. -/
theorem filterMap_concat_none {f : Line → Option String} {lines : List Line} {line : Line}
    (h : f line = none) : (lines ++ [line]).filterMap f = lines.filterMap f := by
  rw [List.filterMap_append, List.filterMap_cons_none h, List.filterMap_nil, List.append_nil]

/-- A line with a name that is new keeps the names distinct. -/
theorem nodup_filterMap_concat {f : Line → Option String} {lines : List Line} {line : Line}
    {name : String} (h : (lines.filterMap f).Nodup) (hf : f line = some name)
    (hfresh : ∀ l ∈ lines, f l ≠ some name) : ((lines ++ [line]).filterMap f).Nodup := by
  rw [List.filterMap_append, List.filterMap_cons_some hf, List.filterMap_nil]
  refine List.nodup_append.mpr ⟨h, List.nodup_singleton _, ?_⟩
  rintro key hkey _ hmem rfl
  obtain rfl := List.mem_singleton.mp hmem
  obtain ⟨l, hl, heq⟩ := List.mem_filterMap.mp hkey
  exact hfresh l hl heq

namespace Clean

variable {s : Site} {lines : List Line} {line : Line} {d d' : Definitions}

/-- Lines before one that makes no symbol keep theirs. -/
theorem symbol_concat (h : Clean s lines d) (hs : line.symbolName? = none) :
    ∀ l ∈ lines ++ [line], ∀ sym, symbolOf? s l = some sym →
      d.symbols.find? sym.name = some sym := by
  refine List.forall_mem_append.mpr ⟨h.symbol, List.forall_mem_singleton.mpr ?_⟩
  intro sym hsym
  rw [symbolName?_of_symbolOf? hsym] at hs
  cases hs

/-- Lines before one that makes no block keep theirs. -/
theorem block_concat (h : Clean s lines d) (hb : line.blockName? = none) :
    ∀ l ∈ lines ++ [line], ∀ name, l.blockName? = some name →
      d.blocks.find? name = some (addressIn (blockValue s l).1) ∧ (blockValue s l).1 ≠ .error := by
  refine List.forall_mem_append.mpr ⟨h.block, List.forall_mem_singleton.mpr ?_⟩
  intro name hname
  rw [hname] at hb
  cases hb

/-- A line that defines nothing changes nothing. -/
theorem nothing (h : Clean s lines d) (hs : line.symbolName? = none) (hb : line.blockName? = none) :
    Clean s (lines ++ [line]) d where
  symbols_nodup := (filterMap_concat_none hs).symm ▸ h.symbols_nodup
  blocks_nodup := (filterMap_concat_none hb).symm ▸ h.blocks_nodup
  symbol := h.symbol_concat hs
  block := h.block_concat hb
  value := h.value
  malformed := h.malformed

/-- A line that makes a new symbol. -/
theorem define (h : Clean s lines d) (ht : Traced s lines d) {sym : Symbol}
    (hs : symbolOf? s line = some sym) (hd : d.symbols.defines sym.name = false)
    (hv : sym.value ≠ .error) (hsym : d'.symbols = d.symbols.define sym)
    (hb : d'.blocks = d.blocks) (hm : d'.malformed = d.malformed) :
    Clean s (lines ++ [line]) d' := by
  have hblock := blockName?_of_symbolOf? hs
  have hfresh : ∀ l ∈ lines, l.symbolName? ≠ some sym.name := by
    intro l hl heq
    rw [(ht.defines_iff sym.name).mpr ⟨l, hl, heq⟩] at hd
    cases hd
  refine ⟨?_, ?_, ?_, ?_, ?_, hm.trans h.malformed⟩
  · exact nodup_filterMap_concat h.symbols_nodup (symbolName?_of_symbolOf? hs) hfresh
  · exact (filterMap_concat_none hblock).symm ▸ h.blocks_nodup
  · refine List.forall_mem_append.mpr ⟨?_, List.forall_mem_singleton.mpr ?_⟩
    · intro l hl found hfound
      rw [hsym, SymbolTable.find?_define, h.symbol l hl found hfound, Option.some_or]
    · intro found hfound
      obtain rfl := Option.some.inj (hs.symm.trans hfound)
      rw [hsym, SymbolTable.find?_define_of_undefined hd, if_pos rfl]
  · rw [hb]
    exact h.block_concat hblock
  · intro name found hfound
    rw [hsym] at hfound
    rcases SymbolTable.find?_define_cases hfound with hold | ⟨rfl, -⟩
    · exact h.value name found hold
    · exact hv

/-- A line that makes a new embedded block. -/
theorem insertBlock (h : Clean s lines d) {name : String} (hk : line.kind = .block name)
    (hd : d.blocks.contains name = false) (hv : (blockValue s line).1 ≠ .error)
    (hsym : d'.symbols = d.symbols)
    (hb : d'.blocks = d.blocks.insert name (addressIn (blockValue s line).1))
    (hm : d'.malformed = d.malformed) : Clean s (lines ++ [line]) d' := by
  have hs : line.symbolName? = none := by simp [Line.symbolName?, hk]
  have hname : line.blockName? = some name := by simp [Line.blockName?, hk]
  have hfresh : ∀ l ∈ lines, l.blockName? ≠ some name := by
    intro l hl heq
    rw [NameMap.contains, (h.block l hl name heq).1] at hd
    cases hd
  refine ⟨?_, ?_, ?_, ?_, hsym ▸ h.value, hm.trans h.malformed⟩
  · exact (filterMap_concat_none hs).symm ▸ h.symbols_nodup
  · exact nodup_filterMap_concat h.blocks_nodup hname hfresh
  · rw [hsym]
    exact h.symbol_concat hs
  · rw [hb]
    refine List.forall_mem_append.mpr ⟨?_, List.forall_mem_singleton.mpr ?_⟩
    · intro l hl key hkey
      have hne : key ≠ name := by
        rintro rfl
        exact hfresh l hl hkey
      rw [NameMap.find?_insert_of_ne _ _ hne]
      exact h.block l hl key hkey
    · intro key hkey
      obtain rfl := Option.some.inj (hname.symm.trans hkey)
      exact ⟨NameMap.find?_insert_self .., hv⟩

end Clean

/-- Lines keep the log failed if it was; otherwise they keep the definitions clean. -/
theorem clean_of_adds {s : Site} {lines : List Line} {line : Line} {d d' : Definitions}
    (ht : Traced s lines d) (h : d.log.failed = false → Clean s lines d) (ha : Adds s d line d')
    (hl : d'.log.failed = false) : Clean s (lines ++ [line]) d' := by
  cases ha with
  | nothing hs hb => exact (h hl).nothing hs hb
  | rejected _ _ hfailed => exact absurd (hl.symm.trans hfailed) Bool.false_ne_true
  | label hk hd hfailed =>
    rw [hfailed, Bool.or_eq_false_iff] at hl
    have hs := symbolOf?_of_label s hk
    exact (h hl.1).define ht hs hd (by simpa using hl.2) rfl rfl rfl
  | pending hs hd _ hv _ _ => exact (h hl).define ht hs hd (by simp [hv]) rfl rfl rfl
  | malformed _ _ _ _ _ hfailed => exact absurd (hl.symm.trans hfailed) Bool.false_ne_true
  | blockRejected _ _ hfailed => exact absurd (hl.symm.trans hfailed) Bool.false_ne_true
  | block hk hd hfailed =>
    rw [hfailed, Bool.or_eq_false_iff] at hl
    exact (h hl.1).insertBlock hk hd (by simpa using hl.2) rfl rfl rfl

/-- **Nothing is rejected silently**: without failures in the log, every line with a definition has
its symbol or block, and no value is an error. -/
theorem clean_ofLines (s : Site) (h : (ofLines s).log.failed = false) :
    Clean s s.source.lines (ofLines s) := by
  refine (ofLines_induction
    (P := fun lines d => Traced s lines d ∧ (d.log.failed = false → Clean s lines d)) ?_ ?_).2 h
  · refine ⟨traced_empty s, fun _ => ⟨List.nodup_nil, List.nodup_nil, ?_, ?_, ?_, rfl⟩⟩
    · intro l hl
      cases hl
    · intro l hl
      cases hl
    · intro name sym hsym
      cases hsym
  · intro lines line d d' hd ha
    exact ⟨hd.1.step ha, clean_of_adds hd.1 hd.2 ha⟩

/-! ## The aliases of the table -/

/-- The aliases of an object: those to be evaluated, then those that cannot be read. -/
def declared (d : Definitions) : List String := d.pending.map (·.name) ++ d.malformed.keys

/-- The aliases of the table are the declared ones, each declared once; those that cannot be read
have an error for a value. -/
structure AliasesDeclared (d : Definitions) : Prop where
  nodup : d.declared.Nodup
  mem_iff : ∀ name,
    name ∈ d.declared ↔ ∃ sym, d.symbols.find? name = some sym ∧ sym.kind = .aliasName
  malformed : ∀ name v, d.malformed.find? name = some v → ∃ e, v = .error e

namespace AliasesDeclared

variable {d d' : Definitions} {sym : Symbol}

theorem notMem_declared (h : AliasesDeclared d) {name : String}
    (hd : d.symbols.defines name = false) : name ∉ d.declared := by
  intro hmem
  obtain ⟨sym, hsym, -⟩ := (h.mem_iff name).mp hmem
  rw [SymbolTable.defines_eq_false_iff.mp hd] at hsym
  cases hsym

/-- A new alias keeps the invariant, whether it is to be evaluated or cannot be read. -/
theorem define_alias (h : AliasesDeclared d) (hd : d.symbols.defines sym.name = false)
    (hk : sym.kind = .aliasName) (hsym : d'.symbols = d.symbols.define sym)
    (hperm : d'.declared.Perm (sym.name :: d.declared))
    (hm : ∀ name v, d'.malformed.find? name = some v → ∃ e, v = .error e) :
    AliasesDeclared d' := by
  refine ⟨?_, ?_, hm⟩
  · exact hperm.nodup_iff.mpr (List.nodup_cons.mpr ⟨h.notMem_declared hd, h.nodup⟩)
  · intro name
    rw [hperm.mem_iff, List.mem_cons, h.mem_iff, hsym, SymbolTable.find?_define_of_undefined hd]
    by_cases hn : name = sym.name
    · simp [hn, hk]
    · simp [hn]

/-- A new block label declares no alias. -/
theorem define_label (h : AliasesDeclared d) (hd : d.symbols.defines sym.name = false)
    (hk : sym.kind = .label) (hsym : d'.symbols = d.symbols.define sym)
    (hp : d'.pending = d.pending) (hm : d'.malformed = d.malformed) : AliasesDeclared d' := by
  have hdecl : d'.declared = d.declared := by rw [declared, declared, hp, hm]
  refine ⟨hdecl ▸ h.nodup, ?_, hm ▸ h.malformed⟩
  intro name
  rw [hdecl, hsym, SymbolTable.find?_define_of_undefined hd]
  by_cases hn : name = sym.name
  · simp [hn, hk, h.notMem_declared hd]
  · simp [hn, h.mem_iff]

theorem step {s : Site} {line : Line} (h : AliasesDeclared d) (ha : Adds s d line d') :
    AliasesDeclared d' := by
  cases ha with
  | nothing => exact h
  | rejected => exact ⟨h.nodup, h.mem_iff, h.malformed⟩
  | label _ hd _ => exact h.define_label hd rfl rfl rfl rfl
  | pending _ hd hk _ _ hn =>
    refine h.define_alias hd hk rfl ?_ h.malformed
    simp only [declared, List.map_append, List.map_cons, List.map_nil, hn, List.append_assoc]
    exact List.perm_middle
  | @malformed sym e _ _ hd hk _ _ _ =>
    have hnew : sym.name ∉ d.malformed.keys :=
      fun hmem => h.notMem_declared hd (List.mem_append_right _ hmem)
    refine h.define_alias hd hk rfl ?_ ?_
    · exact ((NameMap.keys_insert_perm _ hnew).append_left _).trans List.perm_middle
    · intro name v hv
      by_cases hn : name = sym.name
      · rw [hn, NameMap.find?_insert_self] at hv
        exact ⟨e, (Option.some.inj hv).symm⟩
      · rw [NameMap.find?_insert_of_ne _ _ hn] at hv
        exact h.malformed name v hv
  | blockRejected => exact ⟨h.nodup, h.mem_iff, h.malformed⟩
  | block => exact ⟨h.nodup, h.mem_iff, h.malformed⟩

end AliasesDeclared

theorem aliasesDeclared_ofLines (s : Site) : AliasesDeclared (ofLines s) := by
  refine ofLines_induction (P := fun _ => AliasesDeclared) ?_ ?_
  · refine ⟨List.nodup_nil, ?_, ?_⟩
    · intro name
      simp [declared, empty, NameMap.keys, NameMap.empty, SymbolTable.find?, SymbolTable.empty,
        NameMap.find?]
    · intro name v hv
      cases hv
  · intro lines line d d' h ha
    exact h.step ha

end Definitions

end LinkAsm
