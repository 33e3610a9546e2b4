import Mathlib.Data.List.Basic
import FormLower.Program
import FormLower.Proofs.Trees

/-! # Trees whose places are forgotten

Forgetting where trees stand changes neither what they are nor how they are written: source trees
keep their texts, target trees their texts and their lines in a listing.  What a program inherits
by its name is forgotten with the rest. -/

namespace FormLower

/-! ### Source trees -/

namespace Source

theorem text_erase (s : Source) : s.erase.text = s.text := by
  have htexts : ∀ {ss : List Source}, (∀ s ∈ ss, s.erase.text = s.text) →
      texts (eraseAll ss) = texts ss := by
    intro ss hss
    rw [texts_eq_map, eraseAll_eq_map, texts_eq_map, List.map_map]
    exact List.map_congr_left hss
  induction s with
  | leaf value place => rfl
  | call head args place ih => rw [erase, text, text, htexts ih]
  | list elements place ih => rw [erase, text, text, htexts ih]

end Source

/-! ### Target trees -/

namespace Target

theorem erase_eq (t : Target) : t.erase = (t.mapChildren erase).withLocation none :=
  rebuild_eq _ t

/-- The locations that a tree inherits are forgotten like its own. -/
theorem erase_inherit (t : Target) (above : Location) : (t.inherit above).erase = t.erase := by
  induction t using Target.induction generalizing above with
  | step t ih =>
      rw [inherit_eq, erase_eq, mapChildren_withLocation, withLocation_withLocation,
        mapChildren_mapChildren, erase_eq t]
      exact congrArg _ (mapChildren_congr fun c hc => ih c hc _)

theorem isOperation_erase (t : Target) : t.erase.isOperation = t.isOperation := by
  cases t <;> rfl

theorem text_erase (t : Target) : t.erase.text = t.text := by
  induction t using Target.induction with
  | step t ih =>
      have htexts : ∀ {ts : List Target}, (∀ c ∈ ts, c ∈ t.children) →
          (ts.map erase).map text = ts.map text := by
        intro ts hts
        rw [List.map_map]
        exact List.map_congr_left fun c hc => ih c (hts c hc)
      have hoperands : ∀ {ts : List Target}, (∀ c ∈ ts, c ∈ t.children) →
          (ts.map erase).map operandText = ts.map operandText := by
        intro ts hts
        rw [List.map_map]
        refine List.map_congr_left fun c hc => ?_
        rw [Function.comp_apply, operandText, operandText, isOperation_erase, ih c (hts c hc)]
      rw [erase_eq]
      cases t with
      | name | string | number => rfl
      | call func args =>
          simp only [mapChildren, withLocation, text, texts_eq_map]
          rw [ih func (by simp [children]), htexts (by simp +contextual [children])]
      | binary left op right =>
          simp only [mapChildren, withLocation, text, isOperation_erase]
          rw [ih left (by simp [children]), ih right (by simp [children])]
      | compare left ops comparators =>
          simp only [mapChildren, withLocation, text, isOperation_erase, operandTexts_eq_map]
          rw [ih left (by simp [children]), hoperands (by simp +contextual [children])]
      | branch test body orelse =>
          simp only [mapChildren, withLocation, text]
          rw [ih test (by simp [children])]
      | ret value =>
          simp only [mapChildren, withLocation, text]
          rw [ih value (by simp [children])]
      | assign target value =>
          simp only [mapChildren, withLocation, text]
          rw [ih target (by simp [children]), ih value (by simp [children])]
      | function id params body =>
          simp only [mapChildren, withLocation, text, texts_eq_map]
          rw [htexts (by simp +contextual [children])]
      | print values =>
          simp only [mapChildren, withLocation, text, texts_eq_map]
          rw [htexts (by simp [children])]
      | statement value =>
          simp only [mapChildren, withLocation, text]
          rw [ih value (by simp [children])]

theorem map_text_erase (ts : List Target) : (ts.map erase).map text = ts.map text := by
  rw [List.map_map]
  exact List.map_congr_left fun t _ => text_erase t

theorem lines_erase (t : Target) (depth : Nat) : t.erase.lines depth = t.lines depth := by
  induction t using Target.induction generalizing depth with
  | step t ih =>
      have hlines : ∀ {ts : List Target}, (∀ c ∈ ts, c ∈ t.children) → ∀ d,
          allLines d (ts.map erase) = allLines d ts := by
        intro ts hts d
        rw [allLines_eq_flatMap, allLines_eq_flatMap, List.flatMap_map]
        exact List.flatMap_congr fun c hc => ih c (hts c hc) d
      -- All but three kinds of trees are the line of their text.
      have htext := text_erase t
      cases t with
      | name | string | number => rfl
      | call | binary | compare | ret | assign | statement =>
          exact congrArg (fun s => [line depth s]) htext
      | print values newline l =>
          exact congrArg (fun s => [line depth (s ++ if newline then "" else ",")]) htext
      | branch test body orelse =>
          rw [erase_eq]
          simp only [mapChildren, withLocation, lines, text_erase, List.isEmpty_map]
          rw [hlines (by simp +contextual [children]), hlines (by simp +contextual [children])]
      | function id params body =>
          rw [erase_eq]
          simp only [mapChildren, withLocation, lines, texts_eq_map, map_text_erase]
          rw [hlines (by simp +contextual [children])]

end Target

/-! ### Programs -/

namespace Program

theorem map_erase_located (p : Program) :
    p.located.body.map Target.erase = p.body.map Target.erase := by
  rw [located, List.map_map]
  exact List.map_congr_left fun t _ => Target.erase_inherit t p.root

/-- The listing of a program is its header and, for each statement, lines that do not tell where
anything stands. -/
theorem listing_eq (p : Program) :
    p.listing = "# module " ++ p.name ++ "\n" ++ String.join
      (((p.body.map Target.erase).flatMap (Target.lines 0)).map (· ++ "\n")) := by
  have hlines : (p.body.map Target.erase).flatMap (Target.lines 0) =
      p.body.flatMap (Target.lines 0) := by
    rw [List.flatMap_map]
    exact List.flatMap_congr fun t _ => Target.lines_erase t 0
  rw [hlines, listing, lines, List.map_cons, String.join_cons]

end Program
end FormLower
