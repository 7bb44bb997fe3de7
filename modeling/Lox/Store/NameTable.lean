/-!
# Tables of names

A table gives some names a value. Writing a name that is in the table replaces its value in place,
so every name has one entry and entries keep the order in which their names were first written.
-/

namespace Lox

/-- A finite table from names to values. -/
structure NameTable (α : Type) where
  entries : List (String × α)
  deriving Repr

namespace NameTable

variable {α : Type}

/-- The table without names. -/
def empty : NameTable α := ⟨[]⟩

instance : EmptyCollection (NameTable α) := ⟨empty⟩

/-- The value of a name. -/
def find? (t : NameTable α) (name : String) : Option α :=
  t.entries.lookup name

/-- Whether a name has a value. -/
def contains (t : NameTable α) (name : String) : Bool :=
  (t.find? name).isSome

/-- The names of a table. -/
def names (t : NameTable α) : List String :=
  t.entries.map Prod.fst

/-- Gives a name a value in a list of entries. -/
def insertEntry (name : String) (a : α) : List (String × α) → List (String × α)
  | [] => [(name, a)]
  | (key, b) :: rest => if key = name then (key, a) :: rest else (key, b) :: insertEntry name a rest

/-- Gives a name a value. -/
def insert (t : NameTable α) (name : String) (a : α) : NameTable α :=
  ⟨insertEntry name a t.entries⟩

/-! ## Looking up after writing -/

theorem find?_empty (name : String) : (empty : NameTable α).find? name = none := rfl

/-- Writing a name changes what is found under this name only. -/
theorem lookup_insertEntry (name other : String) (a : α) (entries : List (String × α)) :
    (insertEntry name a entries).lookup other = if other = name then some a
      else entries.lookup other := by
  induction entries with
  | nil =>
    by_cases h : other = name
    · simp [insertEntry, h]
    · have hb := beq_eq_false_iff_ne.mpr h
      simp [insertEntry, List.lookup_cons, h, hb]
  | cons e rest ih =>
    obtain ⟨key, b⟩ := e
    by_cases hk : key = name
    · subst hk
      by_cases h : other = key
      · simp [insertEntry, h]
      · have hb := beq_eq_false_iff_ne.mpr h
        simp [insertEntry, List.lookup_cons, h, hb]
    · by_cases h : other = key
      · subst h
        simp [insertEntry, hk]
      · have hb := beq_eq_false_iff_ne.mpr h
        simp [insertEntry, List.lookup_cons, hk, hb, ih]

/-- The value of a name is the one written last. -/
theorem find?_insert (t : NameTable α) (name other : String) (a : α) :
    (t.insert name a).find? other = if other = name then some a else t.find? other :=
  lookup_insertEntry name other a t.entries

end NameTable

end Lox
