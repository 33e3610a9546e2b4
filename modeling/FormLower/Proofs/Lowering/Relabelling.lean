import FormLower.Proofs.Lowering.Steps
import FormLower.Proofs.Trees

/-! # Relabelled trees

Trees carry labels that lowering hands on without looking at them: the places they were read from,
and the heads of calls, as long as nobody but the tables is asked what they stand for.  A
`Relabelling` changes such labels throughout, in source trees, in what they are lowered to and in
the errors that quote them.  Every step of lowering keeps to it by itself, reading arguments
included.  So a relabelled tree is lowered to what the tree is lowered to, relabelled, provided that
the tables say of each new head what they said of the old one (`Relabelling.Carries.lower`). -/

namespace FormLower

/-- A change of the heads, the places and the locations of trees.  The places of target trees come
from those of source trees, and the names in them do not come from heads. -/
structure Relabelling where
  head : String → String
  place : Place → Place
  location : Option Location → Option Location
  source : Source → Source
  target : Target → Target
  location_place : ∀ p, (place p).location = location p.location
  source_leaf : ∀ value p, source (.leaf value p) = .leaf value (place p)
  source_call : ∀ name args p,
    source (.call name args p) = .call (head name) (args.map source) (place p)
  source_list : ∀ elements p, source (.list elements p) = .list (elements.map source) (place p)
  target_eq : ∀ t, target t = (t.mapChildren target).withLocation (location t.location)

/-- Whether the name of a head itself comes into it: a function to call is written out by its name,
and an operation is told its operator by it. -/
def Meaning.isByName : Meaning → Bool
  | .call | .special .arithmetic | .special .comparison => true
  | .structural _ | .special _ => false

namespace Relabelling

variable (R : Relabelling)

/-! ### Source trees -/

theorem place_source (s : Source) : (R.source s).place = R.place s.place := by
  cases s with
  | leaf value p => rw [R.source_leaf]; rfl
  | call name args p => rw [R.source_call]; rfl
  | list elements p => rw [R.source_list]; rfl

theorem location_source (s : Source) : (R.source s).location = R.location s.location := by
  rw [Source.location, R.place_source]
  exact R.location_place s.place

theorem rawText?_source (s : Source) : (R.source s).rawText? = s.rawText? := by
  cases s with
  | leaf value p => rw [R.source_leaf]; rfl
  | call name args p => rw [R.source_call]; rfl
  | list elements p => rw [R.source_list]; rfl

theorem isString_source (s : Source) : (R.source s).isString = s.isString := by
  cases s with
  | leaf value p => rw [R.source_leaf]; cases value <;> rfl
  | call name args p => rw [R.source_call]; rfl
  | list elements p => rw [R.source_list]; rfl

theorem variant_source (s : Source) : (R.source s).variant = s.variant := by
  cases s with
  | leaf value p => rw [R.source_leaf]; rfl
  | call name args p => rw [R.source_call]; rfl
  | list elements p => rw [R.source_list]; rfl

/-! ### Target trees -/

theorem target_foldl_binary (op : Arithmetic) (l : Option Location) (ts : List Target)
    (t : Target) :
    R.target (ts.foldl (fun left right => .binary left op right l) t) =
      (ts.map R.target).foldl (fun left right => .binary left op right (R.location l))
        (R.target t) := by
  induction ts generalizing t with
  | nil => rfl
  | cons u ts ih =>
      rw [List.foldl_cons, ih, R.target_eq (.binary t op u l)]
      rfl

/-! ### Errors and notices -/

/-- A call in a form, relabelled. -/
def site (site : Site) : Site := ⟨R.head site.form, R.place site.place⟩

theorem location_site (site : Site) :
    (R.site site).place.location = R.location site.place.location := R.location_place site.place

/-- A fault, relabelled: the name of the form that it happened in and the tree that it quotes. -/
def fault : Fault → Fault
  | .unknownVariant variant => .unknownVariant variant
  | .arity form expected found => .arity (R.head form) expected found
  | .unboundOperator form => .unboundOperator (R.head form)
  | .unexpectedSequence form => .unexpectedSequence (R.head form)
  | .malformed form what found => .malformed (R.head form) what (R.source found)
  | .stated kind form message issuer => .stated kind (form.map R.head) message issuer

def error (e : LoweringError) : LoweringError :=
  ⟨R.fault e.fault, R.place e.place, e.enclosing.map R.head⟩

theorem kind_error (e : LoweringError) : (R.error e).kind = e.kind := by
  obtain ⟨fault, place, enclosing⟩ := e
  cases fault <;> rfl

theorem form_error (e : LoweringError) : (R.error e).form = e.form.map R.head := by
  obtain ⟨fault, place, enclosing⟩ := e
  cases fault with
  | stated kind form message issuer => cases form <;> rfl
  | unknownVariant | arity | unboundOperator | unexpectedSequence | malformed => rfl

theorem error_inside (e : LoweringError) (form : String) :
    R.error (e.inside form) = (R.error e).inside (R.head form) := by
  unfold LoweringError.inside
  rw [R.form_error]
  cases e.form <;> rfl

theorem error_unknownVariant (s : Source) :
    R.error (.unknownVariant s) = .unknownVariant (R.source s) := by
  unfold LoweringError.unknownVariant
  rw [R.variant_source, R.place_source]
  rfl

theorem error_malformed (form what : String) (found : Source) :
    R.error (.malformed form what found) = .malformed (R.head form) what (R.source found) := by
  unfold LoweringError.malformed
  rw [R.place_source]
  rfl

def notice : Notice → Notice
  | .structural head => .structural (R.head head)
  | .special head children => .special (R.head head) children
  | n => n

/-! ### Runs -/

section

variable {α α' β β' : Type}

/-- A result, relabelled, a value by `g`. -/
def result (g : α → β) : Except LoweringError α → Except LoweringError β
  | .ok a => .ok (g a)
  | .error e => .error (R.error e)

def run (g : α → β) (x : Lowering α) : Lowering β :=
  ⟨x.notices.map R.notice, R.result g x.result⟩

theorem run_bind {x : Lowering α} {y : Lowering α'} {k : α → Lowering β} {k' : α' → Lowering β'}
    {f : α → α'} {g : β → β'} (hx : R.run f x = y) (hk : ∀ a, R.run g (k a) = k' (f a)) :
    R.run g (x >>= k) = y >>= k' := by
  subst hx
  obtain ⟨ns, result⟩ := x
  cases result with
  | error e => rfl
  | ok a =>
      show R.run g ⟨ns ++ (k a).notices, (k a).result⟩ =
        ⟨ns.map R.notice ++ (k' (f a)).notices, (k' (f a)).result⟩
      rw [← hk]
      exact congrArg (fun ns => Run.mk ns _) List.map_append

theorem run_pure {g : α → β} {a : α} {b : β} (h : g a = b) :
    R.run g (pure a : Lowering α) = pure b := h ▸ rfl

theorem run_noteCount {n : Nat → Notice} (h : ∀ count, R.notice (n count) = n count)
    (count : Nat) : R.run id (Run.noteCount n count : Lowering Unit) = Run.noteCount n count := by
  unfold Run.noteCount
  split
  · rfl
  · exact congrArg (fun n => Run.mk [n] (.ok ())) (h count)

theorem run_inside (g : α → β) (form : String) (x : Lowering α) :
    R.run g (x.inside form) = (R.run g x).inside (R.head form) := by
  obtain ⟨ns, result⟩ := x
  cases result with
  | ok a => rfl
  | error e =>
      exact congrArg (fun e => Run.mk (ns.map R.notice) (.error e)) (R.error_inside e form)

theorem run_all (g : α → β) (xs : List (Lowering α)) :
    R.run (List.map g) (Run.all xs) = Run.all (xs.map (R.run g)) := by
  induction xs with
  | nil => rfl
  | cons x xs ih => exact R.run_bind rfl fun a => R.run_bind ih fun as => rfl

end

/-! ### Lowered trees -/

def lowered : Lowered → Lowered
  | .single t => .single (R.target t)
  | .sequence ts => .sequence (ts.map R.target)

theorem statements_lowered (r : Lowered) :
    (R.lowered r).statements = r.statements.map R.target := by
  cases r <;> rfl

theorem flatMap_statements_lowered (rs : List Lowered) :
    (rs.map R.lowered).flatMap Lowered.statements =
      (rs.flatMap Lowered.statements).map R.target := by
  rw [List.flatMap_map, List.map_flatMap]
  exact List.flatMap_congr fun r _ => R.statements_lowered r

theorem run_expression (site : Site) (r : Lowered) :
    R.run R.target (r.expression site) = (R.lowered r).expression (R.site site) := by
  cases r <;> rfl

theorem run_expressions (site : Site) (rs : List Lowered) :
    R.run (List.map R.target) (Lowered.expressions site rs) =
      Lowered.expressions (R.site site) (rs.map R.lowered) := by
  rw [Lowered.expressions, Lowered.expressions, R.run_all, List.map_map, List.map_map]
  exact congrArg _ (List.map_congr_left fun r _ => R.run_expression site r)

theorem run_built {t t' : Target}
    (h : (t.mapChildren R.target).withLocation (R.location t.location) = t') :
    R.run R.lowered (pure (.single t) : Lowering Lowered) = pure (.single t') :=
  R.run_pure (by rw [lowered, R.target_eq, h])

/-! ### Forms that are built from lowered arguments -/

section

variable (site : Site) (rs : List Lowered)

theorem run_buildPrint :
    R.run R.lowered (SpecialForm.buildPrint site rs) =
      SpecialForm.buildPrint (R.site site) (rs.map R.lowered) := by
  refine R.run_bind (R.run_expressions site rs) fun values => ?_
  apply R.run_built
  rw [R.location_site]
  rfl

theorem run_buildArithmetic (h : R.head site.form = site.form) :
    R.run R.lowered (SpecialForm.buildArithmetic site rs) =
      SpecialForm.buildArithmetic (R.site site) (rs.map R.lowered) := by
  unfold SpecialForm.buildArithmetic
  rw [show (R.site site).form = site.form from h]
  cases Arithmetic.ofSymbol? site.form with
  | none => rfl
  | some op =>
      match rs with
      | [] | [_] => rfl
      | first :: second :: others =>
          refine R.run_bind (R.run_expression site first) fun left => ?_
          refine R.run_bind (R.run_expressions site (second :: others)) fun rights => ?_
          apply R.run_pure
          rw [R.location_site]
          exact congrArg Lowered.single (R.target_foldl_binary ..)

theorem run_buildComparison (h : R.head site.form = site.form) :
    R.run R.lowered (SpecialForm.buildComparison site rs) =
      SpecialForm.buildComparison (R.site site) (rs.map R.lowered) := by
  unfold SpecialForm.buildComparison
  rw [show (R.site site).form = site.form from h]
  cases Comparison.ofSymbol? site.form with
  | none => rfl
  | some op =>
      match rs with
      | [] | [_] => rfl
      | first :: second :: others =>
          refine R.run_bind (R.run_expression site first) fun left => ?_
          refine R.run_bind (R.run_expressions site (second :: others)) fun rights => ?_
          apply R.run_built
          rw [R.location_site, List.length_map]
          rfl

theorem run_buildCondition :
    R.run R.lowered (SpecialForm.buildCondition site rs) =
      SpecialForm.buildCondition (R.site site) (rs.map R.lowered) := by
  match rs with
  | [] | [_] | [_, _] => rfl
  | test :: body :: orelse :: extra =>
      rw [List.map_cons, List.map_cons, List.map_cons, SpecialForm.buildCondition,
        SpecialForm.buildCondition, List.length_map]
      refine R.run_bind (R.run_noteCount (fun _ => rfl) _) fun _ => ?_
      refine R.run_bind (R.run_expression site test) fun t => ?_
      apply R.run_built
      rw [R.location_site, R.statements_lowered, R.statements_lowered]
      rfl

theorem run_buildReturn :
    R.run R.lowered (SpecialForm.buildReturn site rs) =
      SpecialForm.buildReturn (R.site site) (rs.map R.lowered) := by
  rw [SpecialForm.buildReturn, SpecialForm.buildReturn, List.getLast?_map, List.length_map]
  cases rs.getLast? with
  | none => rfl
  | some last =>
      refine R.run_bind (R.run_noteCount (fun _ => rfl) _) fun _ => ?_
      refine R.run_bind (R.run_expression site last) fun t => ?_
      apply R.run_built
      rw [R.location_site]
      rfl

end

theorem run_build (site : Site) (rs : List Lowered) {form : SpecialForm}
    (h : Meaning.isByName (.special form) → R.head site.form = site.form) :
    R.run R.lowered (form.build site rs) = form.build (R.site site) (rs.map R.lowered) := by
  cases form with
  | print => exact R.run_buildPrint site rs
  | arithmetic => exact R.run_buildArithmetic site rs (h rfl)
  | comparison => exact R.run_buildComparison site rs (h rfl)
  | condition => exact R.run_buildCondition site rs
  | sequence =>
      exact R.run_pure (congrArg Lowered.sequence (R.flatMap_statements_lowered rs).symm)
  | ret => exact R.run_buildReturn site rs
  | skip => rfl

theorem run_buildCall (site : Site) (rs : List Lowered) (h : R.head site.form = site.form) :
    R.run R.lowered (buildCall site rs) = buildCall (R.site site) (rs.map R.lowered) := by
  refine R.run_bind (R.run_expressions site rs) fun args => ?_
  apply R.run_built
  rw [R.location_site, show (R.site site).form = site.form from h, Target.mapChildren,
    R.target_eq (.name site.form .load site.place.location)]
  rfl

/-! ### Arguments -/

/-- An argument, relabelled, also in what lowering it gives. -/
def argument (a : Argument (Lowering Lowered)) : Argument (Lowering Lowered) :=
  ⟨R.source a.source, R.run R.lowered a.outcome⟩

theorem run_argument_lowered (form : String) (a : Argument (Lowering Lowered)) :
    R.run R.lowered (a.lowered form) = (R.argument a).lowered (R.head form) :=
  R.run_inside _ form a.outcome

theorem run_all_lowered (form : String) (as : List (Argument (Lowering Lowered))) :
    R.run (List.map R.lowered) (Run.all (as.map (Argument.lowered form))) =
      Run.all ((as.map R.argument).map (Argument.lowered (R.head form))) := by
  rw [R.run_all, List.map_map, List.map_map]
  exact congrArg _ (List.map_congr_left fun a _ => R.run_argument_lowered form a)

theorem run_argument_expression (form : String) (a : Argument (Lowering Lowered)) :
    R.run R.target (a.expression form) = (R.argument a).expression (R.head form) := by
  refine R.run_bind (R.run_argument_lowered form a) fun r => ?_
  rw [R.run_expression, argument, R.place_source]
  rfl

def cursor (c : Cursor (Lowering Lowered)) : Cursor (Lowering Lowered) :=
  ⟨R.site c.site, c.taken.map R.argument, c.rest.map R.argument⟩

section

variable {α α' β β' : Type}

/-- From a relabelled cursor the second reading gives what the first one gives from the cursor,
relabelled. -/
def Reads (g : α → β) (x : Reading (Lowering Lowered) α) (y : Reading (Lowering Lowered) β) :
    Prop :=
  ∀ c, y (R.cursor c) = (R.result g (x c).1, R.cursor (x c).2)

variable {R}

theorem Reads.pure {g : α → β} {a : α} {b : β} (h : g a = b) :
    R.Reads g (Pure.pure a) (Pure.pure b) := fun _ => h ▸ rfl

theorem Reads.bind {x : Reading (Lowering Lowered) α} {y : Reading (Lowering Lowered) α'}
    {k : α → Reading (Lowering Lowered) β} {k' : α' → Reading (Lowering Lowered) β'} {f : α → α'}
    {g : β → β'} (hx : R.Reads f x y) (hk : ∀ a, R.Reads g (k a) (k' (f a))) :
    R.Reads g (x >>= k) (y >>= k') := by
  intro c
  have hy := hx c
  rcases hxc : x c with ⟨e | a, d⟩
  · rw [hxc] at hy
    rw [Reading.bind_eq_of_error hxc, Reading.bind_eq_of_error hy]
    rfl
  · rw [hxc] at hy
    rw [Reading.bind_eq_of_ok hxc, Reading.bind_eq_of_ok hy]
    exact hk a d

theorem Reads.run {g : α → β} {x : Reading (Lowering Lowered) α}
    {y : Reading (Lowering Lowered) β} (h : R.Reads g x y) (site : Site)
    (args : List (Argument (Lowering Lowered))) :
    R.result (Prod.map g (List.map R.argument)) (x.run site args) =
      y.run (R.site site) (args.map R.argument) := by
  have hstart : y (.start (R.site site) (args.map R.argument)) = _ := h (.start site args)
  unfold Reading.run
  rw [hstart]
  rcases x (.start site args) with ⟨e | a, c⟩ <;> rfl

theorem reads_fail {g : α → β} {e e' : Cursor (Lowering Lowered) → LoweringError}
    (h : ∀ c, e' (R.cursor c) = R.error (e c)) : R.Reads g (Reading.fail e) (Reading.fail e') := by
  intro c
  rw [Reading.fail, h]
  rfl

end

theorem shortage_cursor (c : Cursor (Lowering Lowered)) (needed : Nat) :
    (R.cursor c).shortage needed = R.error (c.shortage needed) := by
  simp only [Cursor.shortage, Cursor.args, cursor, List.length_append, List.length_map]
  rfl

theorem taken_length_cursor (c : Cursor (Lowering Lowered)) :
    (R.cursor c).taken.length = c.taken.length := List.length_map _

theorem needed_cursor (c : Cursor (Lowering Lowered)) (count : UInt64) :
    (R.cursor c).needed count = c.needed count := by
  rw [Cursor.needed, Cursor.needed, taken_length_cursor]

theorem reads_next : R.Reads R.argument Reading.next Reading.next := by
  rintro ⟨site, taken, rest⟩
  cases rest with
  | nil =>
      let c : Cursor (Lowering Lowered) := ⟨site, taken, []⟩
      have herror : (R.cursor c).shortage ((R.cursor c).taken.length + 1) =
          R.error (c.shortage (c.taken.length + 1)) := by
        rw [taken_length_cursor, shortage_cursor]
      exact congrArg (fun e => (Except.error e, _)) herror
  | cons a rest =>
      simp only [Reading.next, cursor, List.map_cons, List.map_append, result, List.map_nil]

theorem reads_nextIf_isString :
    R.Reads (Option.map R.argument) (Reading.nextIf Source.isString)
      (Reading.nextIf Source.isString) := by
  rintro ⟨site, taken, rest⟩
  cases rest with
  | nil => rfl
  | cons a rest =>
      simp only [Reading.nextIf, cursor, List.map_cons]
      rw [show (R.argument a).source.isString = a.source.isString from R.isString_source a.source]
      split <;> simp [result]

theorem reads_require (count : UInt64) :
    R.Reads id (Reading.require count) (Reading.require count) := by
  intro c
  rw [Reading.require, Reading.require, needed_cursor,
    show (R.cursor c).rest.length = c.rest.length from List.length_map _]
  split
  · exact congrArg (fun e => (Except.error e, R.cursor c)) (R.shortage_cursor c _)
  · rfl

def named (n : Reading.Named) : Reading.Named := (n.1, R.source n.2)

theorem reads_asName (what : String) (s : Source) :
    R.Reads R.named (Reading.asName what s) (Reading.asName what (R.source s)) := by
  unfold Reading.asName
  rw [R.rawText?_source]
  cases s.rawText? with
  | none => exact reads_fail fun c => (R.error_malformed ..).symm
  | some name => exact .pure rfl

theorem reads_asNames (what : String) (ss : List Source) :
    R.Reads (List.map R.named) (Reading.asNames what ss)
      (Reading.asNames what (ss.map R.source)) := by
  induction ss with
  | nil => exact .pure rfl
  | cons s ss ih =>
      exact .bind (R.reads_asName what s) fun name => .bind ih fun names => .pure rfl

theorem reads_name (what : String) : R.Reads R.named (Reading.name what) (Reading.name what) :=
  .bind R.reads_next fun a => R.reads_asName what a.source

theorem reads_nameList (what : String) :
    R.Reads (List.map R.named) (Reading.nameList what) (Reading.nameList what) := by
  refine .bind R.reads_next fun a => ?_
  obtain ⟨source, outcome⟩ := a
  unfold argument
  cases source with
  | list elements place =>
      rw [R.source_list]
      exact R.reads_asNames what elements
  | leaf value place =>
      rw [R.source_leaf]
      exact reads_fail fun c => by rw [← R.source_leaf]; exact (R.error_malformed ..).symm
  | call head args place =>
      rw [R.source_call]
      exact reads_fail fun c => by rw [← R.source_call]; exact (R.error_malformed ..).symm

/-! ### Structural forms -/

def binding (b : StructuralForm.Binding (Lowering Lowered)) :
    StructuralForm.Binding (Lowering Lowered) :=
  ⟨R.named b.name, R.argument b.value⟩

def signature (s : StructuralForm.Signature) : StructuralForm.Signature :=
  ⟨R.named s.name, s.params.map R.named, s.doc.map R.source⟩

theorem reads_binding :
    R.Reads R.binding StructuralForm.binding StructuralForm.binding :=
  .bind (R.reads_name _) fun _ => .bind R.reads_next fun _ => .pure rfl

theorem reads_signature :
    R.Reads R.signature StructuralForm.signature StructuralForm.signature := by
  refine .bind (R.reads_name _) fun name => ?_
  refine .bind (R.reads_require 2) fun _ => ?_
  refine .bind (R.reads_nameList _) fun params => ?_
  refine .bind R.reads_nextIf_isString fun doc => ?_
  exact .pure (by cases doc <;> rfl)

theorem target_bound (use : Use) (n : Reading.Named) :
    R.target (StructuralForm.bound use n) = StructuralForm.bound use (R.named n) := by
  rw [R.target_eq, StructuralForm.bound, StructuralForm.bound, named, R.location_source]
  rfl

theorem target_docStatement (doc : Source) :
    R.target (StructuralForm.docStatement doc) = StructuralForm.docStatement (R.source doc) := by
  rw [R.target_eq, StructuralForm.docStatement, StructuralForm.docStatement, R.rawText?_source,
    R.location_source, Target.mapChildren, R.target_eq (.string _ _)]
  rfl

section

variable (site : Site) (args : List (Argument (Lowering Lowered)))

theorem run_lowerDefine :
    R.run R.lowered (StructuralForm.lowerDefine site args) =
      StructuralForm.lowerDefine (R.site site) (args.map R.argument) := by
  refine R.run_bind (congrArg Run.ofExcept (R.reads_binding.run site args)) ?_
  rintro ⟨b, extra⟩
  rw [Prod.map_apply, binding]
  simp only [List.length_map]
  refine R.run_bind (R.run_noteCount (fun _ => rfl) _) fun _ => ?_
  refine R.run_bind (R.run_argument_expression site.form b.value) fun value => ?_
  apply R.run_built
  rw [Target.mapChildren, R.target_bound, R.location_site]
  rfl

theorem run_lowerFunction :
    R.run R.lowered (StructuralForm.lowerFunction site args) =
      StructuralForm.lowerFunction (R.site site) (args.map R.argument) := by
  refine R.run_bind (congrArg Run.ofExcept (R.reads_signature.run site args)) ?_
  rintro ⟨s, bodies⟩
  rw [Prod.map_apply, signature]
  simp only [List.getLast?_map]
  cases bodies.getLast? with
  | none =>
      rw [List.length_map]
      rfl
  | some last =>
      have hearlier := R.run_all_lowered site.form bodies.dropLast
      simp only [Option.map_some, ← List.map_dropLast, List.length_map]
      refine R.run_bind hearlier fun _ => ?_
      refine R.run_bind (R.run_noteCount (fun _ => rfl) _) fun _ => ?_
      refine R.run_bind (R.run_argument_lowered site.form last) fun body => ?_
      apply R.run_built
      have hparams : (s.params.map (StructuralForm.bound .param)).map R.target =
          (s.params.map R.named).map (StructuralForm.bound .param) := by
        rw [List.map_map, List.map_map]
        exact List.map_congr_left fun n _ => R.target_bound .param n
      have hdoc : (s.doc.map StructuralForm.docStatement).toList.map R.target =
          ((s.doc.map R.source).map StructuralForm.docStatement).toList := by
        cases s.doc with
        | none => rfl
        | some doc => exact congrArg (fun t => [t]) (R.target_docStatement doc)
      rw [Target.mapChildren, List.map_append, hparams, hdoc, R.statements_lowered,
        R.location_site]
      rfl

theorem run_lower (form : StructuralForm) :
    R.run R.lowered (form.lower site args) = form.lower (R.site site) (args.map R.argument) := by
  cases form with
  | define => exact R.run_lowerDefine site args
  | function => exact R.run_lowerFunction site args
  | skip => rfl

end

/-! ### Trees -/

/-- Tables that say of each new head what others say of the old one, where a head whose name itself
matters stays what it is. -/
structure Carries (forms forms' : Forms) : Prop where
  meaning : ∀ head, forms'.meaning (R.head head) = forms.meaning head
  head : ∀ head, Meaning.isByName (forms.meaning head) → R.head head = head

variable {R} {forms forms' : Forms}

theorem Carries.lowerCall (h : R.Carries forms forms') (site : Site)
    (args : List (Argument (Lowering Lowered))) :
    R.run R.lowered (forms.lowerCall site args) =
      forms'.lowerCall (R.site site) (args.map R.argument) := by
  have hhead := h.head site.form
  have hchildren := R.run_all_lowered site.form args
  unfold Forms.lowerCall
  rw [show forms'.meaning (R.site site).form = _ from h.meaning site.form]
  cases hm : forms.meaning site.form with
  | structural form => exact R.run_bind (f := id) rfl fun _ => R.run_lower site args form
  | special form =>
      rw [hm] at hhead
      refine R.run_bind hchildren fun children => ?_
      rw [List.length_map]
      exact R.run_bind (f := id) rfl fun _ => R.run_build site children hhead
  | call =>
      rw [hm] at hhead
      exact R.run_bind hchildren fun children => R.run_buildCall site children (hhead rfl)

/-- **A relabelled tree is lowered to what the tree is lowered to, relabelled.** -/
theorem Carries.lower (h : R.Carries forms forms') (s : Source) :
    forms'.lower (R.source s) = R.run R.lowered (forms.lower s) := by
  induction s with
  | leaf value place =>
      rw [R.source_leaf]
      symm
      apply R.run_pure
      rw [lowered, R.target_eq, R.location_place]
      cases value <;> rfl
  | list elements place _ =>
      have herror := R.error_unknownVariant (.list elements place)
      rw [R.source_list] at herror ⊢
      exact congrArg Run.fail herror.symm
  | call head args place ih =>
      have hargs : forms'.lowerArgs (args.map R.source) =
          (forms.lowerArgs args).map R.argument := by
        rw [Forms.lowerArgs_eq, Forms.lowerArgs_eq, List.map_map, List.map_map]
        refine List.map_congr_left fun a ha => ?_
        rw [Function.comp_apply, Forms.argument, ih a ha]
        rfl
      rw [R.source_call, Forms.lower, Forms.lower, h.lowerCall, ← hargs]
      rfl

theorem Carries.lowerForest (h : R.Carries forms forms') (forest : List Source) :
    forms'.lowerForest (forest.map R.source) =
      R.run (List.map R.target) (forms.lowerForest forest) := by
  have hall : R.run (List.map R.lowered) (Run.all (forest.map forms.lower)) =
      Run.all ((forest.map R.source).map forms'.lower) := by
    rw [R.run_all, List.map_map, List.map_map]
    exact congrArg _ (List.map_congr_left fun s _ => (h.lower s).symm)
  refine (R.run_bind hall fun parts => ?_).symm
  exact R.run_pure (R.flatMap_statements_lowered parts).symm

end Relabelling
end FormLower
