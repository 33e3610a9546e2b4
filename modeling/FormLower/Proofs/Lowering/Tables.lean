import FormLower.Lowering.Forms

/-! # What heads stand for

A table gives a name the entry it got last.  With the forms of the language this settles the
meaning of every head: a few heads name forms, and every other head is called. -/

namespace FormLower

/-! ### Lookups -/

namespace Table

variable {α : Type}

theorem findRow_insertRow (name key : String) (entry : α) (rows : List (String × α)) :
    findRow key (insertRow name entry rows) =
      if key = name then some entry else findRow key rows := by
  induction rows with
  | nil => rfl
  | cons row rows ih =>
      rw [insertRow]
      split
      · rfl
      · split
        · next heq =>
            simp only [findRow, ← heq]
            split <;> rfl
        · next hne =>
            simp only [findRow, ih]
            by_cases hkey : key = name
            · rw [if_pos hkey, if_neg (hkey ▸ hne), if_pos hkey]
            · rw [if_neg hkey, if_neg hkey]

@[simp] theorem get?_empty (key : String) : (empty : Table α).get? key = none := rfl

theorem get?_insert (t : Table α) (name key : String) (entry : α) :
    (t.insert name entry).get? key = if key = name then some entry else t.get? key :=
  findRow_insertRow name key entry t.rows

theorem get?_map {β : Type} (f : α → β) (t : Table α) (key : String) :
    (t.map f).get? key = (t.get? key).map f := by
  obtain ⟨rows, hrows⟩ := t
  change findRow key (rows.map fun row => (row.1, f row.2)) = (findRow key rows).map f
  clear hrows
  induction rows with
  | nil => rfl
  | cons row rows ih =>
      rw [List.map_cons, findRow, findRow, ih]
      split <;> rfl

theorem get?_insert_each {β : Type} (name : β → String) (entry : α) (xs : List β) (t : Table α)
    (key : String) :
    ((xs.map fun x => (name x, entry)).foldl (fun t row => t.insert row.1 row.2) t).get? key =
      if key ∈ xs.map name then some entry else t.get? key := by
  induction xs generalizing t with
  | nil => rfl
  | cons x xs ih =>
      rw [List.map_cons, List.foldl_cons, ih, get?_insert, List.map_cons]
      by_cases hxs : key ∈ xs.map name
      · rw [if_pos hxs, if_pos (List.mem_cons_of_mem _ hxs)]
      · rw [if_neg hxs]
        by_cases hx : key = name x
        · rw [if_pos hx, if_pos (hx ▸ List.mem_cons_self)]
        · rw [if_neg hx, if_neg (List.not_mem_cons_of_ne_of_not_mem hx hxs)]

/-! ### Names -/

theorem isSome_findRow_iff {name : String} {rows : List (String × α)} :
    (findRow name rows).isSome ↔ name ∈ rows.map Prod.fst := by
  induction rows with
  | nil => simp [findRow]
  | cons row rows ih =>
      rw [findRow, List.map_cons, List.mem_cons, ← ih]
      split
      · next heq => simp [heq]
      · next hne => simp [hne]

theorem mem_names_iff {t : Table α} {name : String} : name ∈ t.names ↔ t.contains name :=
  isSome_findRow_iff.symm

theorem names_ascending (t : Table α) : t.names.Pairwise (· < ·) :=
  List.pairwise_map.mpr t.ascending

end Table

/-! ### The meaning of a head -/

namespace Forms

variable {forms : Forms} {head : String}

theorem meaning_eq_structural_iff {form : StructuralForm} :
    forms.meaning head = .structural form ↔ forms.structural.get? head = some form := by
  unfold meaning
  split
  · next hstructural => simp [hstructural]
  · next hstructural => split <;> simp [hstructural]

/-- A special form is met under its name unless a structural form hides it. -/
theorem meaning_eq_special_iff {form : SpecialForm} :
    forms.meaning head = .special form ↔
      forms.structural.get? head = none ∧ forms.special.get? head = some form := by
  unfold meaning
  split
  · next hstructural => simp [hstructural]
  · next hstructural =>
      split
      · next hspecial => simp [hstructural, hspecial]
      · next hspecial => simp [hspecial]

end Forms

/-! ### The forms of the language -/

/-- The heads of the arithmetic operators. -/
def arithmeticHeads : List String := ["+", "-", "*", "/"]

/-- The heads of the comparisons. -/
def comparisonHeads : List String :=
  ["==", "!=", "<", "<=", ">", ">=", "in", "not-in", "is", "is-not"]

/-- The heads that stand for forms. -/
def formHeads : List String :=
  ["def", "defn", "print", "if", "do", "return"] ++ arithmeticHeads ++ comparisonHeads

namespace Forms

variable {head : String}

theorem default_structural_get? (head : String) :
    default.structural.get? head =
      if head = "defn" then some .function else if head = "def" then some .define else none := by
  simp only [default, defaultStructural, Table.ofList, List.foldl_cons, List.foldl_nil,
    Table.get?_insert, Table.get?_empty]

theorem default_special_get? (head : String) :
    default.special.get? head =
      if head = "return" then some .ret
      else if head = "do" then some .sequence
      else if head = "if" then some .condition
      else if head ∈ comparisonHeads then some .comparison
      else if head ∈ arithmeticHeads then some .arithmetic
      else if head = "print" then some .print
      else none := by
  simp only [default, defaultSpecial, Table.ofList, List.foldl_append, Table.get?_insert_each,
    List.foldl_cons, List.foldl_nil, Table.get?_insert, Table.get?_empty]
  rfl

/-- **The meaning of every head in the language.** -/
theorem default_meaning (head : String) :
    default.meaning head =
      if head = "defn" then .structural .function
      else if head = "def" then .structural .define
      else if head = "return" then .special .ret
      else if head = "do" then .special .sequence
      else if head = "if" then .special .condition
      else if head ∈ comparisonHeads then .special .comparison
      else if head ∈ arithmeticHeads then .special .arithmetic
      else if head = "print" then .special .print
      else .call := by
  rw [meaning, default_structural_get?, default_special_get?]
  grind

/-! ### The heads of each form -/

theorem of_mem_arithmeticHeads (h : head ∈ arithmeticHeads) :
    head ∉ comparisonHeads ∧ head ≠ "def" ∧ head ≠ "defn" ∧ head ≠ "print" ∧ head ≠ "if" ∧
      head ≠ "do" ∧ head ≠ "return" := by
  revert head
  decide

theorem of_mem_comparisonHeads (h : head ∈ comparisonHeads) :
    head ≠ "def" ∧ head ≠ "defn" ∧ head ≠ "print" ∧ head ≠ "if" ∧ head ≠ "do" ∧
      head ≠ "return" := by
  revert head
  decide

theorem meaning_eq_define_iff : default.meaning head = .structural .define ↔ head = "def" := by
  grind [default_meaning]

theorem meaning_eq_function_iff :
    default.meaning head = .structural .function ↔ head = "defn" := by
  grind [default_meaning]

theorem meaning_eq_print_iff : default.meaning head = .special .print ↔ head = "print" := by
  grind [default_meaning, → of_mem_arithmeticHeads, → of_mem_comparisonHeads]

theorem meaning_eq_arithmetic_iff :
    default.meaning head = .special .arithmetic ↔ head ∈ arithmeticHeads := by
  grind [default_meaning, → of_mem_arithmeticHeads, → of_mem_comparisonHeads]

theorem meaning_eq_comparison_iff :
    default.meaning head = .special .comparison ↔ head ∈ comparisonHeads := by
  grind [default_meaning, → of_mem_arithmeticHeads, → of_mem_comparisonHeads]

theorem meaning_eq_condition_iff : default.meaning head = .special .condition ↔ head = "if" := by
  grind [default_meaning]

theorem meaning_eq_sequence_iff : default.meaning head = .special .sequence ↔ head = "do" := by
  grind [default_meaning]

theorem meaning_eq_ret_iff : default.meaning head = .special .ret ↔ head = "return" := by
  grind [default_meaning]

theorem meaning_eq_call_iff : default.meaning head = .call ↔ head ∉ formHeads := by
  grind [default_meaning, formHeads]

/-- No head of the language drops what it is given. -/
theorem meaning_ne_skip :
    default.meaning head ≠ .structural .skip ∧ default.meaning head ≠ .special .skip := by
  grind [default_meaning]

end Forms

/-! ### Operators -/

theorem Arithmetic.exists_ofSymbol?_iff {head : String} :
    (∃ op, Arithmetic.ofSymbol? head = some op) ↔ head ∈ arithmeticHeads := by
  change _ ↔ head ∈ all.map symbol
  rw [← Option.isSome_iff_exists, ofSymbol?, List.find?_isSome, List.mem_map]
  simp only [decide_eq_true_eq]

theorem Comparison.exists_ofSymbol?_iff {head : String} :
    (∃ op, Comparison.ofSymbol? head = some op) ↔ head ∈ comparisonHeads := by
  change _ ↔ head ∈ all.map symbol
  rw [← Option.isSome_iff_exists, ofSymbol?, List.find?_isSome, List.mem_map]
  simp only [decide_eq_true_eq]

end FormLower
