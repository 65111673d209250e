import LinkAsm.NameMap
import LinkAsm.Text.Basic
import LinkAsm.Text.Span
import LinkAsm.Word.Basic

/-!
# Symbols

A symbol is a block label or an alias of an object with its value in some pass.  Of several
definitions of one name the first counts.

* `SymbolTable.find?_define`, `SymbolTable.find?_setValue`: what a definition and a value change.
-/

namespace LinkAsm

/-- What a symbol stands for. -/
inductive SymbolKind where
  | label
  | aliasName
deriving DecidableEq, Repr

/-- The word for a kind. -/
def SymbolKind.text : SymbolKind → String
  | .label => "label"
  | .aliasName => "alias"

/-- What is known of a symbol. -/
inductive SymbolValue where
  | word (w : Word)
  /-- The pass does not know enough. -/
  | deferred
  | error
deriving DecidableEq, Repr

/-- The text of a value. -/
def SymbolValue.text : SymbolValue → String
  | .word w => w.text
  | .deferred => "deferred"
  | .error => "error"

/-- A named value. -/
structure Symbol where
  kind : SymbolKind
  name : String
  span : Span
  value : SymbolValue
  /-- Whether other objects can import it. -/
  exported : Bool
deriving DecidableEq, Repr

/-- The symbols of an object by name. -/
structure SymbolTable where
  object : String
  symbols : NameMap Symbol
deriving DecidableEq, Repr

namespace SymbolTable

/-- A table without symbols. -/
def empty (object : String) : SymbolTable := ⟨object, .empty⟩

/-- The symbol with a name. -/
def find? (t : SymbolTable) (name : String) : Option Symbol := t.symbols.find? name

/-- The symbol with a name, if other objects can import it. -/
def findExported? (t : SymbolTable) (name : String) : Option Symbol :=
  (t.find? name).filter (·.exported)

/-- Whether a name has a definition. -/
def defines (t : SymbolTable) (name : String) : Bool := t.symbols.contains name

/-- The table with a symbol, unless its name has a definition. -/
def define (t : SymbolTable) (s : Symbol) : SymbolTable :=
  { t with symbols := t.symbols.insertNew s.name s }

/-- The table with another value for a symbol that it defines. -/
def setValue (t : SymbolTable) (name : String) (value : SymbolValue) : SymbolTable :=
  match t.find? name with
  | none => t
  | some s => { t with symbols := t.symbols.insert name { s with value } }

/-- The number of symbols. -/
def size (t : SymbolTable) : Nat := t.symbols.size

/-- Whether there are no symbols. -/
def isEmpty (t : SymbolTable) : Bool := t.symbols.isEmpty

/-- The table with one symbol on a line, in the order of names. -/
def render (t : SymbolTable) : String :=
  String.join (t.symbols.values.map fun s =>
    Text.padRight 20 s.name ++ " " ++ Text.padRight 6 s.kind.text ++ " = " ++ s.value.text ++ "\n")

/-! ## What operations change -/

theorem defines_iff {t : SymbolTable} {name : String} :
    t.defines name = true ↔ ∃ s, t.find? name = some s :=
  Option.isSome_iff_exists

theorem defines_eq_false_iff {t : SymbolTable} {name : String} :
    t.defines name = false ↔ t.find? name = none :=
  Option.isSome_eq_false_iff.trans Option.isNone_iff_eq_none

theorem find?_define (t : SymbolTable) (s : Symbol) (name : String) :
    (t.define s).find? name = (t.find? name).or (if name = s.name then some s else none) :=
  NameMap.find?_insertNew t.symbols s.name name s

theorem find?_define_of_undefined {t : SymbolTable} {sym : Symbol} (hd : t.defines sym.name = false)
    (name : String) :
    (t.define sym).find? name = if name = sym.name then some sym else t.find? name := by
  rw [find?_define]
  split
  · next h => rw [h, defines_eq_false_iff.mp hd, Option.none_or]
  · rw [Option.or_none]

theorem defines_define {t : SymbolTable} {sym : Symbol} {name : String} :
    (t.define sym).defines name = true ↔ t.defines name = true ∨ name = sym.name := by
  rw [defines_iff, defines_iff, find?_define]
  cases t.find? name with
  | some found => simp
  | none =>
    by_cases h : name = sym.name
    · simp [h]
    · simp [h]

theorem find?_define_cases {t : SymbolTable} {sym found : Symbol} {name : String}
    (h : (t.define sym).find? name = some found) :
    t.find? name = some found ∨ found = sym ∧ name = sym.name := by
  rw [find?_define, Option.or_eq_some_iff] at h
  rcases h with hold | ⟨-, hnew⟩
  · exact Or.inl hold
  · split at hnew
    · next hname => exact Or.inr ⟨(Option.some.inj hnew).symm, hname⟩
    · cases hnew

theorem find?_define_iff {t : SymbolTable} {sym found : Symbol} {name : String}
    (hd : t.defines sym.name = false) :
    (t.define sym).find? name = some found ↔
      t.find? name = some found ∨ sym = found ∧ found.name = name ∧ t.defines name = false := by
  rw [find?_define_of_undefined hd]
  by_cases hname : name = sym.name
  · subst hname
    rw [if_pos rfl, defines_eq_false_iff.mp hd, Option.some.injEq]
    constructor
    · rintro rfl
      exact Or.inr ⟨rfl, rfl, hd⟩
    · rintro (hnone | ⟨heq, -⟩)
      · cases hnone
      · exact heq
  · rw [if_neg hname]
    refine (or_iff_left ?_).symm
    rintro ⟨rfl, rfl, -⟩
    exact hname rfl

theorem find?_setValue (t : SymbolTable) (name key : String) (value : SymbolValue) :
    (t.setValue name value).find? key =
      (t.find? key).map fun s => if key = name then { s with value } else s := by
  unfold setValue
  cases hs : t.find? name with
  | none =>
    by_cases h : key = name
    · rw [h, hs, Option.map_none]
    · simp [h]
  | some s =>
    by_cases h : key = name
    · subst h
      simp only [hs, Option.map_some, if_true]
      exact NameMap.find?_insert_self ..
    · simp only [h, if_false, Option.map_id_fun']
      exact NameMap.find?_insert_of_ne _ _ h

@[simp] theorem object_setValue (t : SymbolTable) (name : String) (value : SymbolValue) :
    (t.setValue name value).object = t.object := by
  unfold setValue
  split <;> rfl

end SymbolTable

end LinkAsm
