import FormLower.Proofs.Erasure
import FormLower.Proofs.Lowering.Relabelling
import FormLower.Proofs.Lowering.Warnings

/-! # Places make no difference

Lowering copies locations into target trees, and whole source trees with their places into errors
and messages.  Nothing else comes of them: to forget the places is one of the changes of labels that
lowering keeps to (`Relabelling.forget`), so that trees whose places are forgotten are lowered to
what the trees themselves are lowered to, with the places forgotten there as well
(`Forms.lowerForest_erase`).  So forests that differ in nothing but their places are assembled
alike, under whatever name (`assemble_inert`). -/

namespace FormLower

/-! ### Places forgotten -/

/-- A fault whose places are forgotten: those of the tree that it quotes. -/
def Fault.erase : Fault → Fault
  | .malformed form what found => .malformed form what found.erase
  | fault => fault

namespace LoweringError

/-- An error whose places are forgotten. -/
def erase (e : LoweringError) : LoweringError := ⟨e.fault.erase, .unknown, e.enclosing⟩

theorem kind_erase (e : LoweringError) : e.erase.kind = e.kind := by
  obtain ⟨fault, place, enclosing⟩ := e
  cases fault <;> rfl

theorem form_erase (e : LoweringError) : e.erase.form = e.form := by
  obtain ⟨fault, place, enclosing⟩ := e
  cases fault <;> rfl

theorem level_erase (e : LoweringError) : e.erase.level = e.level := by
  rw [level, level, kind_erase]

theorem issuer_erase (e : LoweringError) : e.erase.fault.issuer = e.fault.issuer := by
  obtain ⟨fault, place, enclosing⟩ := e
  cases fault <;> rfl

/-- What an error says does not tell where anything stands. -/
theorem message_erase (e : LoweringError) : e.erase.message = e.message := by
  have hfault : ∀ fault : Fault, fault.erase.message = fault.message := by
    intro fault
    cases fault with
    | malformed form what found =>
        exact congrArg (fun t => "`" ++ form ++ "` expects " ++ what ++ ", found " ++ t ++ ".")
          found.text_erase
    | unknownVariant | arity | unboundOperator | unexpectedSequence | stated => rfl
  rw [message, message, erase, hfault]

end LoweringError

/-- A result whose places are forgotten, those in its value by `g`. -/
def eraseResult {α β : Type} (g : α → β) : Except LoweringError α → Except LoweringError β
  | .ok a => .ok (g a)
  | .error e => .error e.erase

/-- A run whose places are forgotten.  Its notices have none. -/
def Run.erase {α β : Type} (g : α → β) (x : Lowering α) : Lowering β :=
  ⟨x.notices, eraseResult g x.result⟩

/-- Something lowered whose places are forgotten. -/
def Lowered.erase : Lowered → Lowered
  | .single t => .single t.erase
  | .sequence ts => .sequence (ts.map Target.erase)

/-! ### Forgetting as a change of labels -/

namespace Relabelling

/-- Forgetting all places; the heads stay. -/
def forget : Relabelling where
  head := id
  place _ := .unknown
  location _ := none
  source := Source.erase
  target := Target.erase
  location_place _ := rfl
  source_leaf _ _ := rfl
  source_call _ _ _ := by
    rw [Source.erase, Source.eraseAll_eq_map]
    rfl
  source_list _ _ := by rw [Source.erase, Source.eraseAll_eq_map]
  target_eq := Target.erase_eq

theorem error_forget (e : LoweringError) : forget.error e = e.erase := by
  obtain ⟨fault, place, enclosing⟩ := e
  have hfault : forget.fault fault = fault.erase := by
    cases fault with
    | stated kind form message issuer =>
        exact congrArg (fun f => Fault.stated kind f message issuer) Option.map_id'
    | unknownVariant | arity | unboundOperator | unexpectedSequence | malformed => rfl
  rw [error, LoweringError.erase, hfault]
  exact congrArg (LoweringError.mk fault.erase .unknown) Option.map_id'

theorem run_forget {α β : Type} (g : α → β) (x : Lowering α) : forget.run g x = x.erase g := by
  obtain ⟨ns, result⟩ := x
  have hnotices : ns.map forget.notice = ns := by
    conv_rhs => rw [← ns.map_id]
    exact List.map_congr_left fun n _ => by cases n <;> rfl
  have hresult : forget.result g result = eraseResult g result := by
    cases result with
    | ok a => rfl
    | error e => exact congrArg Except.error (error_forget e)
  rw [run, Run.erase, hnotices, hresult]

/-- Tables say of the heads, which stay, what they say. -/
theorem carries_forget (forms : Forms) : forget.Carries forms forms :=
  ⟨fun _ => rfl, fun _ _ => rfl⟩

end Relabelling

/-- **Trees whose places are forgotten are lowered to what the trees are lowered to, with the places
forgotten.** -/
theorem Forms.lowerForest_erase (forms : Forms) (forest : List Source) :
    forms.lowerForest (forest.map Source.erase) =
      (forms.lowerForest forest).erase (List.map Target.erase) := by
  rw [← Relabelling.run_forget]
  exact (Relabelling.carries_forget forms).lowerForest forest

/-! ### Programs -/

/-- Two results of assembling programs under two names that differ in nothing but places.  Two
programs have the same body when places are forgotten, and the same lines in a listing after the
header; two errors are reported in the same words. -/
inductive ReportedAlike (name name' : String) :
    Except LoweringError Program → Except LoweringError Program → Prop
  | ok {p p' : Program} {lines : String} :
      p.body.map Target.erase = p'.body.map Target.erase →
      p.listing = "# module " ++ name ++ "\n" ++ lines →
      p'.listing = "# module " ++ name' ++ "\n" ++ lines →
      ReportedAlike name name' (.ok p) (.ok p')
  | error {e e' : LoweringError} :
      e.kind = e'.kind → e.form = e'.form → e.report.level = e'.report.level →
      e.report.message = e'.report.message → e.report.issuer = e'.report.issuer →
      ReportedAlike name name' (.error e) (.error e')

theorem reportedAlike_error {name name' : String} {e e' : LoweringError}
    (h : e.erase = e'.erase) : ReportedAlike name name' (.error e) (.error e') := by
  refine .error ?_ ?_ ?_ ?_ ?_
  · rw [← e.kind_erase, h, e'.kind_erase]
  · rw [← e.form_erase, h, e'.form_erase]
  · exact e.level_erase.symm.trans (h ▸ e'.level_erase)
  · exact e.message_erase.symm.trans (h ▸ e'.message_erase)
  · exact e.issuer_erase.symm.trans (h ▸ e'.issuer_erase)

theorem reportedAlike_located {name name' : String} {body body' : List Target}
    (h : body.map Target.erase = body'.map Target.erase) :
    ReportedAlike name name' (.ok (Program.mk name body).located)
      (.ok (Program.mk name' body').located) := by
  have herase : (Program.mk name body).located.body.map Target.erase =
      (Program.mk name' body').located.body.map Target.erase := by
    rw [Program.map_erase_located, Program.map_erase_located, h]
  refine .ok herase (Program.listing_eq _) ?_
  rw [herase]
  exact Program.listing_eq _

theorem reportedAlike_of_erase {name name' : String}
    {result result' : Except LoweringError (List Target)}
    (h : eraseResult (List.map Target.erase) result = eraseResult (List.map Target.erase) result') :
    ReportedAlike name name' (result.map fun body => (Program.mk name body).located)
      (result'.map fun body => (Program.mk name' body).located) := by
  cases result with
  | ok body =>
      cases result' with
      | ok body' => exact reportedAlike_located (Except.ok.inj h)
      | error e' => cases h
  | error e =>
      cases result' with
      | ok body' => cases h
      | error e' => exact reportedAlike_error (Except.error.inj h)

theorem Forms.warnings_assemble (forms : Forms) (name : String) (forest : List Source) :
    warnings (forms.assemble name forest).notices =
      warnings (forms.lowerForest forest).notices := by
  unfold assemble
  obtain ⟨ns, result⟩ := forms.lowerForest forest
  cases result with
  | error e => rfl
  | ok body => exact (warnings_append ns _).trans (List.append_nil _)

/-- **Places and the name of a program make no difference.**  Forests that are the same when their
places are forgotten are both assembled or both refused, whatever the tables say: to programs that
are the same when places are forgotten and are listed alike but for the header, or with errors that
say the same; and the warnings on the way are the same. -/
theorem assemble_inert (forms : Forms) (name name' : String) {forest forest' : List Source}
    (h : forest.map Source.erase = forest'.map Source.erase) :
    ReportedAlike name name' (forms.assemble name forest).result
        (forms.assemble name' forest').result ∧
      warnings (forms.assemble name forest).notices =
        warnings (forms.assemble name' forest').notices := by
  rw [forms.warnings_assemble, forms.warnings_assemble, forms.result_assemble,
    forms.result_assemble]
  have hruns : (forms.lowerForest forest).erase (List.map Target.erase) =
      (forms.lowerForest forest').erase (List.map Target.erase) := by
    rw [← forms.lowerForest_erase, h, forms.lowerForest_erase]
  obtain ⟨hnotices, hresults⟩ := Run.mk.inj hruns
  exact ⟨reportedAlike_of_erase hresults, congrArg warnings hnotices⟩

/-- The definition `(def x y z)` read from two places in two files drops the same word with the same
warning, and lists the same line. -/
theorem assemble_inert_define :
    let source (p q : Place) : List Source :=
      [.call "def" [.leaf (.symbol "x") q, .symbol "y", .symbol "z"] p]
    let here : Place := .ofSpan ⟨⟨"a.hy", 1, 1⟩, ⟨"a.hy", 1, 12⟩⟩
    let there : Place := ⟨some ⟨"b.hy", 7, 3⟩, none⟩
    (source here .unknown).map Source.erase = (source there here).map Source.erase ∧
      ReportedAlike "m" "n" (Forms.default.assemble "m" (source here .unknown)).result
        (Forms.default.assemble "n" (source there here)).result ∧
      warnings (Forms.default.assemble "m" (source here .unknown)).notices =
        warnings (Forms.default.assemble "n" (source there here)).notices ∧
      warnings (Forms.default.assemble "m" (source here .unknown)).notices =
        [.extraValues "x" 1] := by
  intro source here there
  have h : (source here .unknown).map Source.erase = (source there here).map Source.erase := rfl
  obtain ⟨hresults, hwarnings⟩ := assemble_inert .default "m" "n" h
  exact ⟨h, hresults, hwarnings, rfl⟩

end FormLower
