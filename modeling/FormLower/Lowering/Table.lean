/-! # Tables

A table maps names to entries.  Its rows are kept in ascending order of their names, so that a
table is determined by what it maps each name to, and listing its names needs no sorting.  Names
are compared character by character, which is also the order of their encoded bytes. -/

namespace FormLower

/-- A finite map from names. -/
structure Table (α : Type) where
  rows : List (String × α)
  ascending : rows.Pairwise (fun a b => a.1 < b.1)

namespace Table

variable {α : Type}

/-! ### Rows in ascending order -/

/-- Put an entry into rows at the place of its name, instead of the one that is there. -/
def insertRow (name : String) (entry : α) : List (String × α) → List (String × α)
  | [] => [(name, entry)]
  | row :: rows =>
    if name < row.1 then (name, entry) :: row :: rows
    else if name = row.1 then (name, entry) :: rows
    else row :: insertRow name entry rows

/-- The entry of a name in rows. -/
def findRow (name : String) : List (String × α) → Option α
  | [] => none
  | row :: rows => if name = row.1 then some row.2 else findRow name rows

theorem mem_insertRow {name : String} {entry : α} {row : String × α} :
    ∀ {rows : List (String × α)}, row ∈ insertRow name entry rows →
      row = (name, entry) ∨ row ∈ rows
  | [], h => by simpa [insertRow] using h
  | r :: rows, h => by
    rw [insertRow] at h
    split at h
    · simpa using h
    · split at h
      · rcases List.mem_cons.1 h with h | h
        · exact .inl h
        · exact .inr (List.mem_cons_of_mem _ h)
      · rcases List.mem_cons.1 h with h | h
        · exact .inr (h ▸ List.mem_cons_self)
        · exact (mem_insertRow h).imp_right (List.mem_cons_of_mem _)

theorem ascending_insertRow (name : String) (entry : α) :
    ∀ {rows : List (String × α)}, rows.Pairwise (fun a b => a.1 < b.1) →
      (insertRow name entry rows).Pairwise (fun a b => a.1 < b.1)
  | [], _ => by simp [insertRow]
  | r :: rows, h => by
    have hr := List.pairwise_cons.1 h
    rw [insertRow]
    split
    · next hlt =>
      refine List.pairwise_cons.2 ⟨fun b hb => ?_, h⟩
      rcases List.mem_cons.1 hb with rfl | hb
      · exact hlt
      · exact String.lt_trans hlt (hr.1 b hb)
    · next hge =>
      split
      · next heq => exact List.pairwise_cons.2 ⟨fun b hb => heq ▸ hr.1 b hb, hr.2⟩
      · next hne =>
        refine List.pairwise_cons.2 ⟨fun b hb => ?_, ascending_insertRow name entry hr.2⟩
        rcases mem_insertRow hb with rfl | hb
        · exact String.not_le.1 fun hle => hne (String.le_antisymm hle (String.not_lt.1 hge))
        · exact hr.1 b hb

/-! ### Tables -/

def empty : Table α := ⟨[], .nil⟩

def get? (t : Table α) (name : String) : Option α := findRow name t.rows

def contains (t : Table α) (name : String) : Bool := (t.get? name).isSome

/-- Give a name an entry, instead of the one it has. -/
def insert (t : Table α) (name : String) (entry : α) : Table α :=
  ⟨insertRow name entry t.rows, ascending_insertRow name entry t.ascending⟩

def erase (t : Table α) (name : String) : Table α :=
  ⟨t.rows.filter fun row => row.1 ≠ name, t.ascending.filter _⟩

def map {β : Type} (f : α → β) (t : Table α) : Table β :=
  ⟨t.rows.map fun row => (row.1, f row.2), List.pairwise_map.mpr t.ascending⟩

/-- The names of a table in ascending order. -/
def names (t : Table α) : List String := t.rows.map Prod.fst

def size (t : Table α) : Nat := t.rows.length

def isEmpty (t : Table α) : Bool := t.rows.isEmpty

/-- The table of several rows, of which a later one replaces an earlier one of the same name. -/
def ofList (rows : List (String × α)) : Table α :=
  rows.foldl (fun t row => t.insert row.1 row.2) empty

end Table

end FormLower
