import FormLower.Lowering.Handlers
import FormLower.Proofs.Lowering.Tables
import FormLower.Proofs.Trees

/-! # Forms that a tree does not name

A table is consulted for the head of a call and for nothing else.  What lowering a tree does, with
its notices and its errors, depends on the meanings of the heads in the tree alone, also where a
structural form goes on with the tables by itself (`Handlers.lower_congr`).  This is so for any
functions in the tables, and tables of forms are a case of it (`handlers_lower`).  So a name that no
call in a tree has for its head may be given to a form or to any other function, be taken from it or
change it (`lower_changes`). -/

namespace FormLower

/-! ### Names taken out of a table -/

namespace Table

variable {α : Type}

theorem findRow_filter (name key : String) (rows : List (String × α)) :
    findRow key (rows.filter fun row => row.1 ≠ name) =
      if key = name then none else findRow key rows := by
  induction rows with
  | nil => simp [findRow]
  | cons row rows ih =>
      rw [List.filter_cons]
      split
      · next hrow =>
          have hne : row.1 ≠ name := by simpa using hrow
          simp only [findRow, ih]
          by_cases hkey : key = row.1
          · rw [if_pos hkey, if_pos hkey, if_neg (hkey ▸ hne)]
          · rw [if_neg hkey, if_neg hkey]
      · next hrow =>
          have heq : row.1 = name := by simpa using hrow
          rw [ih, findRow, heq]
          by_cases hkey : key = name
          · rw [if_pos hkey, if_pos hkey]
          · rw [if_neg hkey, if_neg hkey, if_neg hkey]

theorem get?_erase (t : Table α) (name key : String) :
    (t.erase name).get? key = if key = name then none else t.get? key :=
  findRow_filter name key t.rows

theorem names_erase (t : Table α) (name : String) :
    (t.erase name).names = t.names.filter (· ≠ name) := by
  rw [names, erase, names, List.filter_map]
  rfl

end Table

namespace Handlers

variable {handlers handlers' : Handlers}

/-! ### Heads and their meanings -/

theorem lowerCall_congr {site : Site}
    (h : handlers.meaning site.form = handlers'.meaning site.form)
    (args : List (Argument (Lowering Lowered))) :
    handlers.lowerCall site args = handlers'.lowerCall site args := by
  unfold lowerCall
  rw [h]

theorem lowerArgs_congr {ss : List Source} (h : ∀ s ∈ ss, handlers.lower s = handlers'.lower s) :
    handlers.lowerArgs ss = handlers'.lowerArgs ss := by
  rw [lowerArgs_eq_map, lowerArgs_eq_map]
  exact List.map_congr_left fun s hs => by rw [h s hs]

/-- **Tables that give the heads in a tree the same meanings lower it in the same way**, whatever
functions they hold. -/
theorem lower_congr {s : Source}
    (h : ∀ k ∈ s.nodes, ∀ head, k.head? = some head →
      handlers.meaning head = handlers'.meaning head) :
    handlers.lower s = handlers'.lower s := by
  induction s with
  | leaf value place => rfl
  | list elements place _ => rfl
  | call head args place ih =>
      rw [Source.nodes_eq, List.forall_mem_cons] at h
      obtain ⟨hhead, hargs⟩ := h
      have hlower : ∀ a ∈ args, handlers.lower a = handlers'.lower a := by
        intro a ha
        exact ih a ha fun k hk => hargs k (List.mem_flatMap.mpr ⟨a, ha, hk⟩)
      rw [lower, lower, lowerArgs_congr hlower]
      exact lowerCall_congr (hhead head rfl) _

/-! ### Changes of one name -/

/-- A change of the entries of one name: in either table it gets a handler, instead of the one it
has if there is one, or it is taken out. -/
inductive Change where
  | addStructural (handler : StructuralHandler)
  | addSpecial (handler : SpecialHandler)
  | removeStructural
  | removeSpecial

/-- The tables after a change of the entries of a name. -/
def change (name : String) (handlers : Handlers) : Change → Handlers
  | .addStructural handler =>
    { handlers with structural := handlers.structural.insert name handler }
  | .addSpecial handler => { handlers with special := handlers.special.insert name handler }
  | .removeStructural => { handlers with structural := handlers.structural.erase name }
  | .removeSpecial => { handlers with special := handlers.special.erase name }

theorem meaning_change {name head : String} (h : head ≠ name) (c : Change) :
    (handlers.change name c).meaning head = handlers.meaning head := by
  cases c with
  | addStructural handler => simp only [change, meaning, Table.get?_insert, if_neg h]
  | addSpecial handler => simp only [change, meaning, Table.get?_insert, if_neg h]
  | removeStructural => simp only [change, meaning, Table.get?_erase, if_neg h]
  | removeSpecial => simp only [change, meaning, Table.get?_erase, if_neg h]

theorem meaning_changes {name head : String} (h : head ≠ name) (cs : List Change) :
    (cs.foldl (change name) handlers).meaning head = handlers.meaning head := by
  induction cs generalizing handlers with
  | nil => rfl
  | cons c cs ih => rw [List.foldl_cons, ih, meaning_change h]

end Handlers

/-! ### Tables of forms -/

/-- The meaning of a head whose calls are lowered by the function of its form. -/
def Meaning.handled : Meaning → Handlers.Meaning
  | .structural form => .structural form.handler
  | .special form => .special form.handler
  | .call => .call

namespace Forms

variable {forms forms' : Forms}

theorem handlers_meaning (forms : Forms) (head : String) :
    forms.handlers.meaning head = (forms.meaning head).handled := by
  simp only [handlers, Handlers.meaning, meaning, Table.get?_map]
  cases forms.structural.get? head with
  | some form => rfl
  | none => cases forms.special.get? head <;> rfl

theorem handlers_lowerCall (forms : Forms) (site : Site)
    (args : List (Argument (Lowering Lowered))) :
    forms.handlers.lowerCall site args = forms.lowerCall site args := by
  rw [Handlers.lowerCall, lowerCall, handlers_meaning]
  cases forms.meaning site.form <;> rfl

/-- **Lowering with forms is lowering with the functions that lower their calls.** -/
theorem handlers_lower (forms : Forms) (s : Source) : forms.handlers.lower s = forms.lower s := by
  induction s with
  | leaf value place => rfl
  | list elements place _ => rfl
  | call head args place ih =>
      have hargs : forms.handlers.lowerArgs args = forms.lowerArgs args := by
        rw [Handlers.lowerArgs_eq_map, lowerArgs_eq_map]
        exact List.map_congr_left fun a ha => by rw [ih a ha]
      rw [Handlers.lower, lower, hargs, handlers_lowerCall]

theorem lower_congr {s : Source}
    (h : ∀ k ∈ s.nodes, ∀ head, k.head? = some head →
      forms.meaning head = forms'.meaning head) :
    forms.lower s = forms'.lower s := by
  rw [← handlers_lower, ← handlers_lower]
  apply Handlers.lower_congr
  intro k hk head hhead
  rw [handlers_meaning, handlers_meaning, h k hk head hhead]

/-! ### Changes of one name -/

/-- A change of the entries of one name: in either table it gets a form, instead of the one it has
if there is one, or it is taken out. -/
inductive Change where
  | addStructural (form : StructuralForm)
  | addSpecial (form : SpecialForm)
  | removeStructural
  | removeSpecial

def change (name : String) (forms : Forms) : Change → Forms
  | .addStructural form => forms.addStructural name form
  | .addSpecial form => forms.addSpecial name form
  | .removeStructural => { forms with structural := forms.structural.erase name }
  | .removeSpecial => { forms with special := forms.special.erase name }

/-- The tables after several changes, each of the entries of a name. -/
def edit (forms : Forms) (edits : List (String × Change)) : Forms :=
  edits.foldl (fun forms e => forms.change e.1 e.2) forms

theorem meaning_change {name head : String} (h : head ≠ name) (c : Change) :
    (forms.change name c).meaning head = forms.meaning head := by
  cases c with
  | addStructural form => simp only [change, addStructural, meaning, Table.get?_insert, if_neg h]
  | addSpecial form => simp only [change, addSpecial, meaning, Table.get?_insert, if_neg h]
  | removeStructural => simp only [change, meaning, Table.get?_erase, if_neg h]
  | removeSpecial => simp only [change, meaning, Table.get?_erase, if_neg h]

theorem meaning_changes {name head : String} (h : head ≠ name) (cs : List Change) :
    (cs.foldl (change name) forms).meaning head = forms.meaning head := by
  induction cs generalizing forms with
  | nil => rfl
  | cons c cs ih => rw [List.foldl_cons, ih, meaning_change h]

end Forms

/-- **Tables are local: however the entries of a name are changed, a tree in which no call has that
name for its head is lowered as before**, with the same notices and to the same result, be it a
tree with its locations or an error.  The entries of the tables and those that the name gets may be
any functions of a call; tables of the forms of the language are those whose entries are the
functions of the forms. -/
theorem lower_changes {name : String} {s : Source} (h : ∀ k ∈ s.nodes, k.head? ≠ some name) :
    (∀ (handlers : Handlers) (changes : List Handlers.Change),
      (changes.foldl (Handlers.change name) handlers).lower s = handlers.lower s) ∧
    ∀ (forms : Forms) (changes : List Forms.Change),
      forms.handlers.lower s = forms.lower s ∧
      (changes.foldl (Forms.change name) forms).lower s = forms.lower s := by
  have hne : ∀ k ∈ s.nodes, ∀ head, k.head? = some head → head ≠ name := by
    rintro k hk head hhead rfl
    exact h k hk hhead
  refine ⟨fun handlers changes => ?_, fun forms changes => ⟨forms.handlers_lower s, ?_⟩⟩
  · exact Handlers.lower_congr fun k hk head hhead =>
      Handlers.meaning_changes (hne k hk head hhead) changes
  · exact Forms.lower_congr fun k hk head hhead =>
      Forms.meaning_changes (hne k hk head hhead) changes

/-- Whether `print` is dropped or stands for a function that gives the same number for every call,
`(if print x)` fails as it did: the name is an argument there, and no head. -/
theorem lower_changes_print :
    let s : Source := .call "if" [.symbol "print", .symbol "x"] .unknown
    let call : Source := .call "print" [.symbol "x"] .unknown
    let number : Lowered := .single (.number (.int 7) none)
    let changes : List Handlers.Change := [.removeSpecial, .addStructural fun _ _ => pure number]
    let changed := changes.foldl (Handlers.change "print") Forms.default.handlers
    (∀ k ∈ s.nodes, k.head? ≠ some "print") ∧
      changed.lower s = Forms.default.lower s ∧
      (Forms.default.lower s).result = .error (Site.arity ⟨"if", .unknown⟩ 3 2) ∧
      (changed.lower call).result = .ok number := by
  intro s call number changes changed
  have h : ∀ k ∈ s.nodes, k.head? ≠ some "print" := by decide
  obtain ⟨hhandlers, hforms⟩ := lower_changes h
  exact ⟨h, (hhandlers _ changes).trans (hforms .default []).1, rfl, rfl⟩

end FormLower
