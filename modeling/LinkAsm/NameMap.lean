/-!
# Maps from names

A finite map whose keys are names, kept in the order of the names: the order of their code points,
which is also the order of their UTF-8 bytes.  Reports list such maps as they stand.

* `NameMap.find?_insert_self`, `NameMap.find?_insert_of_ne`: what an insertion changes.
* `NameMap.find?_ofList`: what is found in the map of a list.
* `NameMap.find?_eq_some_iff`: a name has at most one entry, and `find?` finds it.
-/

namespace LinkAsm

/-- A finite map from names, in the order of the names. -/
@[ext] structure NameMap (α : Type) where
  entries : List (String × α)
  /-- The names increase, so each has one entry. -/
  sorted : (entries.map (·.1)).Pairwise (· < ·)
deriving DecidableEq, Repr

namespace NameMap

variable {α β : Type}

/-- The map without keys. -/
def empty : NameMap α := ⟨[], .nil⟩

instance : Inhabited (NameMap α) := ⟨empty⟩

/-- The value at a name. -/
def find? (m : NameMap α) (name : String) : Option α := m.entries.lookup name

/-- Whether a name is a key. -/
def contains (m : NameMap α) (name : String) : Bool := (m.find? name).isSome

/-- The entries with a value at a name, in order. -/
def insertEntry (name : String) (value : α) : List (String × α) → List (String × α)
  | [] => [(name, value)]
  | (k, v) :: rest =>
    if name < k then (name, value) :: (k, v) :: rest
    else if name = k then (name, value) :: rest
    else (k, v) :: insertEntry name value rest

theorem mem_insertEntry_names {name key : String} {value : α} {entries : List (String × α)}
    (h : key ∈ (insertEntry name value entries).map (·.1)) :
    key = name ∨ key ∈ entries.map (·.1) := by
  induction entries with
  | nil => simpa [insertEntry] using h
  | cons entry rest ih =>
    obtain ⟨k, v⟩ := entry
    unfold insertEntry at h
    split at h
    · exact List.mem_cons.mp h
    · split at h
      · next hk => exact Or.inr (by simpa [hk] using h)
      · rcases List.mem_cons.mp h with rfl | hr
        · exact Or.inr (by simp)
        · rcases ih hr with rfl | hr
          · exact Or.inl rfl
          · exact Or.inr (List.mem_cons_of_mem _ hr)

theorem sorted_insertEntry (name : String) (value : α) {entries : List (String × α)}
    (h : (entries.map (·.1)).Pairwise (· < ·)) :
    ((insertEntry name value entries).map (·.1)).Pairwise (· < ·) := by
  induction entries with
  | nil => simp [insertEntry]
  | cons entry rest ih =>
    obtain ⟨k, v⟩ := entry
    obtain ⟨hhead, htail⟩ := List.pairwise_cons.mp h
    unfold insertEntry
    split
    · next hlt =>
      refine List.pairwise_cons.mpr ⟨?_, h⟩
      intro key hkey
      rcases List.mem_cons.mp hkey with rfl | hrest
      · exact hlt
      · exact String.lt_trans hlt (hhead key hrest)
    · next hle =>
      split
      · next hk => exact List.pairwise_cons.mpr ⟨hk ▸ hhead, htail⟩
      · next hne =>
        have hlt : k < name :=
          Decidable.byContradiction fun hn => hne (String.le_antisymm hn (String.not_lt.mp hle))
        refine List.pairwise_cons.mpr ⟨?_, ih htail⟩
        intro key hkey
        rcases mem_insertEntry_names hkey with rfl | hrest
        · exact hlt
        · exact hhead key hrest

/-- The map with a value at a name. -/
def insert (m : NameMap α) (name : String) (value : α) : NameMap α :=
  ⟨insertEntry name value m.entries, sorted_insertEntry name value m.sorted⟩

/-- The map with a value at a name that had none. -/
def insertNew (m : NameMap α) (name : String) (value : α) : NameMap α :=
  if m.contains name then m else m.insert name value

/-- The map of a list; of two values of one name the first is taken. -/
def ofList (entries : List (String × α)) : NameMap α :=
  entries.foldl (fun m (name, value) => m.insertNew name value) empty

/-- The names in order. -/
def keys (m : NameMap α) : List String := m.entries.map (·.1)

/-- The values in the order of their names. -/
def values (m : NameMap α) : List α := m.entries.map (·.2)

/-- The number of names. -/
def size (m : NameMap α) : Nat := m.entries.length

/-- Whether there is no name. -/
def isEmpty (m : NameMap α) : Bool := m.entries.isEmpty

/-- The map with a function applied to each value. -/
def map (f : α → β) (m : NameMap α) : NameMap β :=
  ⟨m.entries.map fun (k, v) => (k, f v), by simpa [Function.comp_def] using m.sorted⟩

/-! ## What operations change -/

@[simp] theorem find?_empty (name : String) : (empty : NameMap α).find? name = none := rfl

theorem lookup_cons_ite (name key : String) (value : α) (rest : List (String × α)) :
    ((key, value) :: rest).lookup name = if name = key then some value else rest.lookup name := by
  rw [List.lookup_cons]
  by_cases h : name = key
  · rw [if_pos h, beq_iff_eq.mpr h]
  · rw [if_neg h, beq_eq_false_iff_ne.mpr h]

theorem lookup_insertEntry (name key : String) (value : α) (entries : List (String × α)) :
    (insertEntry name value entries).lookup key =
      if key = name then some value else entries.lookup key := by
  induction entries with
  | nil => exact lookup_cons_ite ..
  | cons entry rest ih =>
    obtain ⟨k, v⟩ := entry
    unfold insertEntry
    split
    · exact lookup_cons_ite ..
    · split
      · next hk =>
        subst hk
        rw [lookup_cons_ite, lookup_cons_ite]
        split <;> rfl
      · next hk =>
        rw [lookup_cons_ite, lookup_cons_ite, ih]
        by_cases h : key = k
        · have hn : key ≠ name := by
            intro e
            exact hk (e.symm.trans h)
          rw [if_pos h, if_neg hn, if_pos h]
        · rw [if_neg h, if_neg h]

@[simp] theorem find?_insert_self (m : NameMap α) (name : String) (value : α) :
    (m.insert name value).find? name = some value := by
  simp [find?, insert, lookup_insertEntry]

theorem find?_insert_of_ne (m : NameMap α) {name key : String} (value : α) (h : key ≠ name) :
    (m.insert name value).find? key = m.find? key := by
  simp [find?, insert, lookup_insertEntry, h]

theorem find?_insert_cases {m : NameMap α} {key name : String} {value found : α}
    (h : (m.insert key value).find? name = some found) :
    m.find? name = some found ∨ found = value ∧ name = key := by
  by_cases hname : name = key
  · rw [hname, find?_insert_self] at h
    exact Or.inr ⟨(Option.some.inj h).symm, hname⟩
  · rw [find?_insert_of_ne _ _ hname] at h
    exact Or.inl h

theorem find?_insertNew (m : NameMap α) (name key : String) (value : α) :
    (m.insertNew name value).find? key =
      (m.find? key).or (if key = name then some value else none) := by
  unfold insertNew contains
  by_cases h : key = name
  · subst h
    cases hk : m.find? key <;> simp [hk]
  · rw [if_neg h, Option.or_none]
    split
    · rfl
    · exact find?_insert_of_ne m value h

theorem find?_foldl_insertNew (entries : List (String × α)) (m : NameMap α) (key : String) :
    (entries.foldl (fun m (name, value) => m.insertNew name value) m).find? key =
      (m.find? key).or (entries.lookup key) := by
  induction entries generalizing m with
  | nil => simp
  | cons entry rest ih =>
    obtain ⟨k, v⟩ := entry
    rw [List.foldl_cons, ih, find?_insertNew, lookup_cons_ite, Option.or_assoc]
    congr 1
    split <;> rfl

/-- Of two values of one name in a list the first is found. -/
@[simp] theorem find?_ofList (entries : List (String × α)) (key : String) :
    (ofList entries).find? key = entries.lookup key := by
  rw [ofList, find?_foldl_insertNew, find?_empty, Option.none_or]

/-! ## Entries and keys -/

theorem keys_nodup (m : NameMap α) : m.keys.Nodup := by
  refine m.sorted.imp ?_
  intro a b hlt heq
  exact String.lt_irrefl b (heq ▸ hlt)

theorem lookup_of_mem {name : String} {value : α} {entries : List (String × α)}
    (hd : (entries.map (·.1)).Nodup) (h : (name, value) ∈ entries) :
    entries.lookup name = some value := by
  induction entries with
  | nil => simp at h
  | cons entry rest ih =>
    obtain ⟨k, v⟩ := entry
    obtain ⟨hhead, htail⟩ := List.nodup_cons.mp hd
    rw [lookup_cons_ite]
    rcases List.mem_cons.mp h with heq | hrest
    · obtain ⟨rfl, rfl⟩ := Prod.mk.inj heq
      exact if_pos rfl
    · have hne : name ≠ k := by
        rintro rfl
        exact hhead (List.mem_map.mpr ⟨_, hrest, rfl⟩)
      rw [if_neg hne]
      exact ih htail hrest

theorem mem_of_lookup {name : String} {value : α} {entries : List (String × α)}
    (h : entries.lookup name = some value) : (name, value) ∈ entries := by
  obtain ⟨before, after, rfl, -⟩ := List.lookup_eq_some_iff.mp h
  simp

/-- A name has at most one entry, and `find?` finds it. -/
theorem find?_eq_some_iff {m : NameMap α} {name : String} {value : α} :
    m.find? name = some value ↔ (name, value) ∈ m.entries :=
  ⟨mem_of_lookup, lookup_of_mem m.keys_nodup⟩

theorem mem_keys_iff {m : NameMap α} {name : String} :
    name ∈ m.keys ↔ ∃ value, m.find? name = some value := by
  simp only [keys, List.mem_map, find?_eq_some_iff]
  constructor
  · rintro ⟨⟨k, v⟩, hmem, rfl⟩
    exact ⟨v, hmem⟩
  · rintro ⟨v, hmem⟩
    exact ⟨(name, v), hmem, rfl⟩

theorem contains_iff_mem_keys {m : NameMap α} {name : String} :
    m.contains name = true ↔ name ∈ m.keys := by
  rw [contains, Option.isSome_iff_exists, mem_keys_iff]

theorem find?_eq_none_iff {m : NameMap α} {name : String} :
    m.find? name = none ↔ name ∉ m.keys := by
  rw [← contains_iff_mem_keys, contains]
  cases m.find? name <;> simp

/-! ## Insertion of a new name -/

theorem insertEntry_perm {name : String} (value : α) {entries : List (String × α)}
    (h : name ∉ entries.map (·.1)) :
    (insertEntry name value entries).Perm ((name, value) :: entries) := by
  induction entries with
  | nil => exact .refl _
  | cons entry rest ih =>
    obtain ⟨k, v⟩ := entry
    simp only [List.map_cons, List.mem_cons, not_or] at h
    unfold insertEntry
    split
    · exact .refl _
    · rw [if_neg h.1]
      exact ((ih h.2).cons _).trans (.swap ..)

theorem entries_insert_perm {m : NameMap α} {name : String} (value : α) (h : name ∉ m.keys) :
    (m.insert name value).entries.Perm ((name, value) :: m.entries) :=
  insertEntry_perm value h

theorem keys_insert_perm {m : NameMap α} {name : String} (value : α) (h : name ∉ m.keys) :
    (m.insert name value).keys.Perm (name :: m.keys) :=
  (entries_insert_perm value h).map _

theorem insertNew_of_notMem {m : NameMap α} {name : String} (value : α) (h : name ∉ m.keys) :
    m.insertNew name value = m.insert name value := by
  rw [insertNew, if_neg (mt contains_iff_mem_keys.mp h)]

theorem entries_foldl_insertNew_perm {entries : List (String × α)} {m : NameMap α}
    (h : (m.keys ++ entries.map (·.1)).Nodup) :
    (entries.foldl (fun m (name, value) => m.insertNew name value) m).entries.Perm
      (m.entries ++ entries) := by
  induction entries generalizing m with
  | nil => simp
  | cons entry rest ih =>
    obtain ⟨k, v⟩ := entry
    have hswap : (m.keys ++ k :: rest.map (·.1)).Perm (k :: (m.keys ++ rest.map (·.1))) :=
      List.perm_middle
    have hk : k ∉ m.keys := by
      have := (List.nodup_cons.mp (hswap.nodup_iff.mp h)).1
      exact fun hmem => this (List.mem_append_left _ hmem)
    have hperm := entries_insert_perm v hk
    simp only [List.foldl_cons, insertNew_of_notMem v hk]
    refine (ih ?_).trans ((hperm.append_right rest).trans List.perm_middle.symm)
    exact ((keys_insert_perm v hk).append_right _).nodup_iff.mpr (hswap.nodup_iff.mp h)

/-- The map of a list with distinct names holds the entries of the list. -/
theorem entries_ofList_perm {entries : List (String × α)} (h : (entries.map (·.1)).Nodup) :
    (ofList entries).entries.Perm entries := by
  exact entries_foldl_insertNew_perm (m := empty) (by simpa [keys, empty] using h)

/-- Insertions of distinct new names add their entries. -/
theorem entries_foldl_insert_perm (name : β → String) (value : β → α) {xs : List β} {m : NameMap α}
    (h : (xs.map name ++ m.keys).Nodup) :
    (xs.foldl (fun m x => m.insert (name x) (value x)) m).entries.Perm
      (xs.map (fun x => (name x, value x)) ++ m.entries) := by
  induction xs generalizing m with
  | nil => exact .refl _
  | cons x xs ih =>
    obtain ⟨hx, hrest⟩ := List.nodup_cons.mp h
    have hnew : name x ∉ m.keys := fun hmem => hx (List.mem_append_right _ hmem)
    have hkeys : (xs.map name ++ (m.insert (name x) (value x)).keys).Perm
        (name x :: (xs.map name ++ m.keys)) :=
      ((keys_insert_perm _ hnew).append_left _).trans List.perm_middle
    have hentries := (entries_insert_perm (value x) hnew).append_left
      (xs.map fun x => (name x, value x))
    exact (ih (hkeys.nodup_iff.mpr h)).trans (hentries.trans List.perm_middle)

end NameMap

end LinkAsm
