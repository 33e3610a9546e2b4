import FormLower.Proofs.Lowering.Locality
import FormLower.Proofs.Text.ByteOrder
import FormLower.Shell.FormsTable
import Mathlib.Data.List.Nodup

/-! # The table of forms and what calls do

The table that a user is shown lists the names of both tables of forms, less the special forms that
a structural form hides.  Lowering finds out in another way what a head stands for: it looks into
one table, lowers the arguments and looks into the other.  Both come to the same: the row of a name
tells how its calls are lowered, and a name without a row is called (`tableRows_tell_dispatch`). -/

namespace FormLower
namespace Forms

variable {forms : Forms} {head name : String}

/-! ### How calls are lowered -/

/-- The calls of a head are lowered by a structural form, which is given the arguments as they
stand. -/
def TakesRaw (forms : Forms) (head : String) : Prop :=
  ∃ form : StructuralForm, ∀ args place, forms.lower (.call head args place) = do
    Run.note (.structural head)
    form.lower ⟨head, place⟩ (forms.lowerArgs args)

/-- The calls of a head are lowered by a special form, which is given the arguments lowered. -/
def TakesLowered (forms : Forms) (head : String) : Prop :=
  ∃ form : SpecialForm, ∀ args place, forms.lower (.call head args place) = do
    let children ← lowerChildren head (forms.lowerArgs args)
    Run.note (.special head children.length)
    form.build ⟨head, place⟩ children

/-- The calls of a head are lowered to calls. -/
def IsCalled (forms : Forms) (head : String) : Prop :=
  ∀ args place, forms.lower (.call head args place) = do
    let children ← lowerChildren head (forms.lowerArgs args)
    buildCall ⟨head, place⟩ children

/-- A call tells first which kind of form it is lowered by; without arguments there is nothing that
it could tell before. -/
theorem head?_notices (forms : Forms) (head : String) (place : Place) :
    (forms.lower (.call head [] place)).notices.head? =
      match forms.meaning head with
      | .structural _ => some (.structural head)
      | .special _ => some (.special head 0)
      | .call => none := by
  rw [lower, lowerArgs, lowerCall]
  cases forms.meaning head <;> rfl

theorem takesRaw_iff : forms.TakesRaw head ↔ ∃ form, forms.meaning head = .structural form := by
  constructor
  · rintro ⟨form, hlower⟩
    have hfirst : (forms.lower (.call head [] .unknown)).notices.head? =
        some (.structural head) := by
      rw [hlower]
      rfl
    rw [head?_notices] at hfirst
    split at hfirst
    · next form' hm => exact ⟨form', hm⟩
    · cases hfirst
    · cases hfirst
  · rintro ⟨form, hm⟩
    refine ⟨form, fun args place => ?_⟩
    rw [lower, lowerCall, hm]

theorem takesLowered_iff :
    forms.TakesLowered head ↔ ∃ form, forms.meaning head = .special form := by
  constructor
  · rintro ⟨form, hlower⟩
    have hfirst : (forms.lower (.call head [] .unknown)).notices.head? =
        some (.special head 0) := by
      rw [hlower]
      rfl
    rw [head?_notices] at hfirst
    split at hfirst
    · cases hfirst
    · next form' hm => exact ⟨form', hm⟩
    · cases hfirst
  · rintro ⟨form, hm⟩
    refine ⟨form, fun args place => ?_⟩
    rw [lower, lowerCall, hm]

theorem isCalled_iff : forms.IsCalled head ↔ forms.meaning head = .call := by
  constructor
  · intro hlower
    have hfirst : (forms.lower (.call head [] .unknown)).notices.head? = none := by
      rw [hlower]
      rfl
    rw [head?_notices] at hfirst
    split at hfirst
    · cases hfirst
    · cases hfirst
    · next hm => exact hm
  · intro hm args place
    rw [lower, lowerCall, hm]

/-! ### The rows of the table -/

theorem exists_structural_iff :
    (∃ form, forms.meaning name = .structural form) ↔ name ∈ forms.structural.names := by
  simp only [meaning_eq_structural_iff, Table.mem_names_iff, Table.contains,
    Option.isSome_iff_exists]

theorem mem_visibleSpecial_iff :
    name ∈ forms.visibleSpecial ↔ ∃ form, forms.meaning name = .special form := by
  simp only [meaning_eq_special_iff, visibleSpecial, List.mem_filter, Table.mem_names_iff,
    Table.contains, Bool.not_eq_true', Option.isSome_eq_false_iff, Option.isNone_iff_eq_none,
    exists_and_left, ← Option.isSome_iff_exists]
  exact and_comm

theorem structural_row_mem_iff :
    [name, "structural", "raw"] ∈ forms.tableRows ↔ name ∈ forms.structural.names := by
  simp [tableRows]

theorem special_row_mem_iff :
    [name, "special", "lowered"] ∈ forms.tableRows ↔ name ∈ forms.visibleSpecial := by
  simp [tableRows]

theorem filterMap_head?_tableRows (forms : Forms) :
    forms.tableRows.filterMap List.head? = forms.structural.names ++ forms.visibleSpecial := by
  simp [tableRows, List.filterMap_append, List.filterMap_map, Function.comp_def]

theorem ascending_bytes {names : List String} (h : names.Pairwise (· < ·)) :
    names.Pairwise fun a b => utf8Bytes a < utf8Bytes b := h.imp lt_iff_utf8Bytes_lt.mp

/-- No name has two rows: a special form that a structural form hides has none. -/
theorem nodup_rowNames (forms : Forms) :
    (forms.structural.names ++ forms.visibleSpecial).Nodup := by
  refine List.nodup_append.mpr ⟨forms.structural.names_ascending.nodup,
    (forms.special.names_ascending.filter _).nodup, ?_⟩
  rintro name hstructural _ hspecial rfl
  rw [visibleSpecial, List.mem_filter, Bool.not_eq_true'] at hspecial
  rw [Table.mem_names_iff, hspecial.2] at hstructural
  cases hstructural

theorem mem_rowNames_iff :
    name ∈ forms.structural.names ++ forms.visibleSpecial ↔
      forms.structural.contains name ∨ forms.special.contains name := by
  rw [List.mem_append, visibleSpecial, List.mem_filter, Table.mem_names_iff, Table.mem_names_iff]
  cases forms.structural.contains name <;> simp

theorem not_mem_rowNames_iff :
    name ∉ forms.structural.names ++ forms.visibleSpecial ↔ forms.meaning name = .call := by
  rw [List.mem_append, ← exists_structural_iff, mem_visibleSpecial_iff]
  cases forms.meaning name <;> simp

theorem countP_tableRows (forms : Forms) (name : String) :
    forms.tableRows.countP (fun row => row.head? == some name) =
      if forms.structural.contains name ∨ forms.special.contains name then 1 else 0 := by
  have hcount : forms.tableRows.countP (fun row => row.head? == some name) =
      (forms.structural.names ++ forms.visibleSpecial).count name := by
    rw [← filterMap_head?_tableRows, List.count, List.countP_filterMap]
    refine List.countP_congr fun row _ => ?_
    cases row.head? <;> simp
  rw [hcount, forms.nodup_rowNames.count]
  exact if_congr mem_rowNames_iff rfl rfl

/-! ### Entries that are hidden -/

/-- To take a hidden special form out of its table changes neither the rows nor any meaning. -/
theorem removeSpecial_of_hidden (h : forms.structural.contains name) :
    (forms.change name .removeSpecial).tableRows = forms.tableRows ∧
      ∀ head, (forms.change name .removeSpecial).meaning head = forms.meaning head := by
  refine ⟨?_, fun head => ?_⟩
  · have hvisible : (forms.change name .removeSpecial).visibleSpecial = forms.visibleSpecial := by
      simp only [visibleSpecial, change, Table.names_erase, List.filter_filter]
      refine List.filter_congr fun key _ => ?_
      by_cases hkey : key = name
      · simp [hkey, h]
      · simp [hkey]
    rw [tableRows, tableRows, hvisible]
    rfl
  · by_cases hhead : head = name
    · subst hhead
      obtain ⟨form, hform⟩ := Option.isSome_iff_exists.mp h
      rw [meaning_eq_structural_iff.mpr hform, meaning_eq_structural_iff]
      exact hform
    · exact meaning_change hhead .removeSpecial

/-- To take several hidden special forms out of their table changes neither the rows nor what any
tree is lowered to. -/
theorem edit_of_hidden {names : List String} (h : ∀ name ∈ names, forms.structural.contains name) :
    (forms.edit (names.map (·, .removeSpecial))).tableRows = forms.tableRows ∧
      ∀ head, (forms.edit (names.map (·, .removeSpecial))).meaning head = forms.meaning head := by
  induction names generalizing forms with
  | nil => exact ⟨rfl, fun _ => rfl⟩
  | cons name names ih =>
      obtain ⟨hname, hnames⟩ := List.forall_mem_cons.mp h
      obtain ⟨hrows, hmeaning⟩ := removeSpecial_of_hidden hname
      obtain ⟨hrows', hmeaning'⟩ := @ih (forms.change name .removeSpecial) hnames
      exact ⟨hrows'.trans hrows, fun head => (hmeaning' head).trans (hmeaning head)⟩

end Forms

/-- **The table of forms tells how calls are lowered.**  Structural forms come first, and each of
the two groups is in ascending order of the bytes of its names.  A name with an entry in either
table of forms has one row, and any other name none.  A row says of its name whether calls are
lowered by a structural or by a special form, and a name without a row is called.  To take entries
out of the table of special forms that structural forms hide changes no row and nothing that is
lowered. -/
theorem tableRows_tell_dispatch (forms : Forms) :
    (∃ structural special : List String,
      forms.tableRows = structural.map (fun name => [name, "structural", "raw"]) ++
        special.map (fun name => [name, "special", "lowered"]) ∧
      structural.Pairwise (fun a b => utf8Bytes a < utf8Bytes b) ∧
      special.Pairwise (fun a b => utf8Bytes a < utf8Bytes b)) ∧
    (∀ name, forms.tableRows.countP (fun row => row.head? == some name) =
      if forms.structural.contains name ∨ forms.special.contains name then 1 else 0) ∧
    (∀ name, [name, "structural", "raw"] ∈ forms.tableRows ↔ forms.TakesRaw name) ∧
    (∀ name, [name, "special", "lowered"] ∈ forms.tableRows ↔ forms.TakesLowered name) ∧
    (∀ name, (∀ row ∈ forms.tableRows, row.head? ≠ some name) ↔ forms.IsCalled name) ∧
    ∀ names : List String, (∀ name ∈ names, forms.structural.contains name) →
      (forms.edit (names.map (·, .removeSpecial))).tableRows = forms.tableRows ∧
        ∀ s, (forms.edit (names.map (·, .removeSpecial))).lower s = forms.lower s := by
  refine ⟨?_, forms.countP_tableRows, ?_, ?_, ?_, ?_⟩
  · exact ⟨forms.structural.names, forms.visibleSpecial, rfl,
      Forms.ascending_bytes forms.structural.names_ascending,
      Forms.ascending_bytes (forms.special.names_ascending.filter _)⟩
  · intro name
    rw [Forms.structural_row_mem_iff, Forms.takesRaw_iff, Forms.exists_structural_iff]
  · intro name
    rw [Forms.special_row_mem_iff, Forms.takesLowered_iff, Forms.mem_visibleSpecial_iff]
  · intro name
    rw [Forms.isCalled_iff, ← Forms.not_mem_rowNames_iff, ← Forms.filterMap_head?_tableRows,
      List.mem_filterMap]
    simp
  · intro names hnames
    obtain ⟨hrows, hmeaning⟩ := Forms.edit_of_hidden hnames
    exact ⟨hrows, fun s => Forms.lower_congr fun _ _ head _ => hmeaning head⟩

/-- Once `print` is a structural form as well, the special form of that name can go. -/
theorem tableRows_tell_dispatch_print :
    (∀ name ∈ ["print"],
      (Forms.default.addStructural "print" .define).structural.contains name) ∧
    ∀ s, ((Forms.default.addStructural "print" .define).edit
      (["print"].map (·, .removeSpecial))).lower s =
        (Forms.default.addStructural "print" .define).lower s :=
  have hidden : ∀ name ∈ ["print"],
      (Forms.default.addStructural "print" .define).structural.contains name := by
    decide +kernel
  ⟨hidden, ((tableRows_tell_dispatch _).2.2.2.2.2 ["print"] hidden).2⟩

end FormLower
