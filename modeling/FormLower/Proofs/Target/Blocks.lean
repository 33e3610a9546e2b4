import FormLower.Program
import FormLower.Proofs.Target.Lines
import Mathlib.Data.List.Perm.Basic

/-! # Blocks and indentation

The lines of a listing are rows: the title, a row for every statement in a block, and rows for
`else:` and for blocks without statements.  Statements that stand where a value is expected have no
row.  The indentation of the lines is the level of the rows, and a level only grows behind a row
that opens a block, so that the blocks can be found again from the indentation
(`Program.listing_shows_blocks`). -/

namespace FormLower

/-- A statement, with the number of blocks that it stands in. -/
structure Nested where
  depth : Nat
  statement : Target

namespace Nested

/-- Whether a statement has others to run if its test fails. -/
def hasOtherwise (s : Nested) : Bool :=
  match s.statement with
  | .branch _ _ orelse _ => !orelse.isEmpty
  | _ => false

/-- Whether the body of a statement is a block without statements. -/
def hasEmptyBody (s : Nested) : Bool :=
  match s.statement with
  | .branch _ body _ _ => body.isEmpty
  | .function _ _ body _ => body.isEmpty
  | _ => false

/-- Whether a statement has a body. -/
def hasBody (s : Nested) : Bool :=
  match s.statement with
  | .branch _ _ _ _ => true
  | .function _ _ _ _ => true
  | _ => false

/-- The first line of a statement. -/
def heading (s : Nested) : String :=
  match s.statement with
  | .branch test _ _ _ => "if " ++ test.text ++ ":"
  | .function id params _ _ => "def " ++ id ++ "(" ++ Target.commaText (Target.texts params) ++ "):"
  | .print values newline l => (Target.print values newline l).text ++ if newline then "" else ","
  | t => t.text

end Nested

/-- A line of a listing, with the statement that it belongs to. -/
inductive Row where
  | title (name : String)
  | heading (s : Nested)
  | otherwise (s : Nested)
  | pass (s : Nested)

namespace Row

def level : Row → Nat
  | .title _ => 0
  | .heading s => s.depth
  | .otherwise s => s.depth
  | .pass s => s.depth + 1

def text : Row → String
  | .title name => "# module " ++ name
  | .heading s => s.heading
  | .otherwise _ => "else:"
  | .pass _ => "pass"

/-- Whether a row is the line before a block. -/
def opens : Row → Bool
  | .heading s => s.hasBody
  | .otherwise _ => true
  | _ => false

def line (r : Row) : String := Target.line r.level r.text

end Row

/-- The rows of a statement itself, those of the statements in its blocks left out. -/
def Nested.rows (s : Nested) : List Row :=
  .heading s :: ((if s.hasOtherwise then [.otherwise s] else []) ++
    if s.hasEmptyBody then [.pass s] else [])

namespace Target

mutual

/-- The statements of a statement: itself and those in its blocks, whose depth is greater. -/
def nested (depth : Nat) : Target → List Nested
  | .branch test body orelse l =>
    ⟨depth, .branch test body orelse l⟩ ::
      (allNested (depth + 1) body ++ allNested (depth + 1) orelse)
  | .function id params body l => ⟨depth, .function id params body l⟩ :: allNested (depth + 1) body
  | t => [⟨depth, t⟩]

def allNested (depth : Nat) : List Target → List Nested
  | [] => []
  | t :: ts => t.nested depth ++ allNested depth ts

end

mutual

/-- The rows of a statement, in the order of its lines. -/
def rows (depth : Nat) : Target → List Row
  | .branch test body orelse l =>
    .heading ⟨depth, .branch test body orelse l⟩ ::
      ((if body.isEmpty then [.pass ⟨depth, .branch test body orelse l⟩]
        else allRows (depth + 1) body) ++
      if orelse.isEmpty then []
      else .otherwise ⟨depth, .branch test body orelse l⟩ :: allRows (depth + 1) orelse)
  | .function id params body l =>
    .heading ⟨depth, .function id params body l⟩ ::
      if body.isEmpty then [.pass ⟨depth, .function id params body l⟩]
      else allRows (depth + 1) body
  | t => [.heading ⟨depth, t⟩]

def allRows (depth : Nat) : List Target → List Row
  | [] => []
  | t :: ts => t.rows depth ++ allRows depth ts

end

theorem allNested_eq_flatMap (depth : Nat) :
    ∀ ts : List Target, allNested depth ts = ts.flatMap (nested depth)
  | [] => rfl
  | t :: ts => by rw [allNested, allNested_eq_flatMap depth ts, List.flatMap_cons]

theorem allRows_eq_flatMap (depth : Nat) :
    ∀ ts : List Target, allRows depth ts = ts.flatMap (rows depth)
  | [] => rfl
  | t :: ts => by rw [allRows, allRows_eq_flatMap depth ts, List.flatMap_cons]

theorem allRows_eq_nil_iff {depth : Nat} {ts : List Target} : allRows depth ts = [] ↔ ts = [] := by
  cases ts with
  | nil => simp [allRows]
  | cons t ts => cases t <;> simp [allRows, rows]

/-! ### Lines are rows -/

theorem block_eq_map_line {depth : Nat} {ts : List Target} {pass : Row}
    (hpass : pass.line = line depth "pass")
    (h : allLines depth ts = (allRows depth ts).map Row.line) :
    block depth (allLines depth ts) =
      (if ts.isEmpty then [pass] else allRows depth ts).map Row.line := by
  rw [h, block]
  cases ts with
  | nil => simp [allRows, hpass]
  | cons t ts =>
      have hne : allRows depth (t :: ts) ≠ [] := mt allRows_eq_nil_iff.mp (List.cons_ne_nil t ts)
      simp [hne]

theorem lines_eq_map_line (t : Target) (depth : Nat) :
    t.lines depth = (t.rows depth).map Row.line := by
  induction t using Target.induction generalizing depth with
  | step t ih =>
      have hall : ∀ ts : List Target, (∀ c ∈ ts, c ∈ t.children) → ∀ d,
          allLines d ts = (allRows d ts).map Row.line := by
        intro ts hts d
        rw [allLines_eq_flatMap, allRows_eq_flatMap, List.map_flatMap]
        exact List.flatMap_congr fun c hc => ih c (hts c hc) d
      cases t with
      | branch test body orelse l =>
          have hbody := hall body (by simp +contextual [children]) (depth + 1)
          have horelse := hall orelse (by simp +contextual [children]) (depth + 1)
          have hpass : ∀ s : Nested, s.depth = depth →
              (Row.pass s).line = line (depth + 1) "pass" := by
            rintro s rfl
            rfl
          rw [lines, rows, List.map_cons, List.map_append, List.cons_append,
            block_eq_map_line (hpass ⟨depth, .branch test body orelse l⟩ rfl) hbody,
            block_eq_map_line (hpass ⟨depth, .branch test body orelse l⟩ rfl) horelse]
          refine congrArg _ (congrArg _ ?_)
          cases orelse <;> rfl
      | function id params body l =>
          have hbody := hall body (by simp +contextual [children]) (depth + 1)
          have hpass : (Row.pass ⟨depth, .function id params body l⟩).line =
              line (depth + 1) "pass" := rfl
          rw [lines, rows, List.map_cons, block_eq_map_line hpass hbody]
          rfl
      | _ => rfl

theorem block_perm {depth : Nat} {ts : List Target} (pass : Row)
    (h : (allRows depth ts).Perm ((allNested depth ts).flatMap Nested.rows)) :
    (if ts.isEmpty then [pass] else allRows depth ts).Perm
      ((if ts.isEmpty then [pass] else []) ++ (allNested depth ts).flatMap Nested.rows) := by
  cases ts with
  | nil => exact .refl [pass]
  | cons t ts => exact h

/-- Every statement has its rows, whatever their order, and there are no others. -/
theorem rows_perm (t : Target) (depth : Nat) :
    (t.rows depth).Perm ((t.nested depth).flatMap Nested.rows) := by
  induction t using Target.induction generalizing depth with
  | step t ih =>
      have hall : ∀ ts : List Target, (∀ c ∈ ts, c ∈ t.children) → ∀ d,
          (allRows d ts).Perm ((allNested d ts).flatMap Nested.rows) := by
        intro ts hts d
        rw [allRows_eq_flatMap, allNested_eq_flatMap, List.flatMap_assoc]
        exact List.Perm.flatMap_left ts fun c hc => ih c (hts c hc) d
      cases t with
      | branch test body orelse l =>
          have hbody := hall body (by simp +contextual [children]) (depth + 1)
          have horelse := hall orelse (by simp +contextual [children]) (depth + 1)
          have hblock := block_perm (.pass ⟨depth, .branch test body orelse l⟩) hbody
          rw [rows, nested, List.flatMap_cons, List.flatMap_append, Nested.rows, List.cons_append]
          refine .cons _ ?_
          cases orelse with
          | nil => simpa [Nested.hasOtherwise, Nested.hasEmptyBody, allNested] using hblock
          | cons e es =>
              -- The row for `else:` stands behind the body, not before it.
              have hmove := List.perm_middle.trans
                ((hblock.append horelse).cons (.otherwise ⟨depth, .branch test body (e :: es) l⟩))
              simpa [Nested.hasOtherwise, Nested.hasEmptyBody] using hmove
      | function id params body l =>
          have hbody := hall body (by simp +contextual [children]) (depth + 1)
          have hblock := block_perm (.pass ⟨depth, .function id params body l⟩) hbody
          rw [rows, nested, List.flatMap_cons, Nested.rows, List.cons_append]
          exact .cons _ hblock
      | _ => simp [rows, nested, Nested.rows, Nested.hasOtherwise, Nested.hasEmptyBody]

/-! ### Rows fit lines -/

/-- What is below a statement of a statement is below that statement. -/
theorem mem_nodes_of_nested {t k : Target} {depth : Nat} {s : Nested} (hs : s ∈ t.nested depth)
    (hk : k ∈ s.statement.nodes) : k ∈ t.nodes := by
  induction t using Target.induction generalizing depth with
  | step t ih =>
      have hall : ∀ ts : List Target, (∀ c ∈ ts, c ∈ t.children) → ∀ d, s ∈ allNested d ts →
          k ∈ t.nodes := by
        intro ts hts d hmem
        rw [allNested_eq_flatMap, List.mem_flatMap] at hmem
        obtain ⟨c, hc, hs⟩ := hmem
        exact mem_nodes_of_child (hts c hc) (ih c (hts c hc) hs)
      cases t with
      | branch test body orelse l =>
          rw [nested, List.mem_cons, List.mem_append] at hs
          rcases hs with rfl | hbody | horelse
          · exact hk
          · exact hall body (by simp +contextual [children]) _ hbody
          · exact hall orelse (by simp +contextual [children]) _ horelse
      | function id params body l =>
          rw [nested, List.mem_cons] at hs
          rcases hs with rfl | hbody
          · exact hk
          · exact hall body (by simp +contextual [children]) _ hbody
      | _ =>
          obtain rfl := List.mem_singleton.mp hs
          exact hk

end Target

theorem Row.fitsLine_heading (s : Nested) (h : ∀ k ∈ s.statement.nodes, k.NameFitsLine) :
    FitsLine (Row.heading s).text := by
  obtain ⟨depth, t⟩ := s
  have hself := Target.fitsLine_text h
  have hchild : ∀ c ∈ t.children, FitsLine c.text := by
    intro c hc
    exact Target.fitsLine_text fun k hk => h k (Target.mem_nodes_of_child hc hk)
  cases t with
  | branch test body orelse l =>
      have hif : FitsLine "if " := .of_opening (by decide)
      exact (hif.append (hchild test List.mem_cons_self).no_newline).append (by decide)
  | function id params body l =>
      have hdef : FitsLine "def " := .of_opening (by decide)
      have hid : FitsLine id := h (.function id params body l) (Target.self_mem_nodes _)
      have hparams := Target.newline_not_mem_commaText fun c hc =>
        (hchild c (List.mem_append_left _ hc)).no_newline
      exact (((hdef.append hid.no_newline).append (by decide)).append hparams).append (by decide)
  | print values newline l => exact hself.append (by cases newline <;> decide)
  | _ => exact hself

theorem Row.fitsLine_otherwise (s : Nested) : FitsLine (Row.otherwise s).text := by
  rw [text]
  exact ⟨by decide, by decide, by decide⟩

theorem Row.fitsLine_pass (s : Nested) : FitsLine (Row.pass s).text := by
  rw [text]
  exact ⟨by decide, by decide, by decide⟩

theorem Nested.fitsLine_rows {s : Nested} (h : ∀ k ∈ s.statement.nodes, k.NameFitsLine) :
    ∀ r ∈ s.rows, FitsLine r.text := by
  intro r hr
  rw [rows, List.mem_cons, List.mem_append] at hr
  rcases hr with rfl | hr | hr
  · exact Row.fitsLine_heading s h
  · split at hr
    · obtain rfl := List.mem_singleton.mp hr
      exact Row.fitsLine_otherwise s
    · cases hr
  · split at hr
    · obtain rfl := List.mem_singleton.mp hr
      exact Row.fitsLine_pass s
    · cases hr

/-- Every row of a statement fits a line when the names in the statement do. -/
theorem Target.fitsLine_rows {t : Target} (h : ∀ k ∈ t.nodes, k.NameFitsLine) {depth : Nat} :
    ∀ r ∈ t.rows depth, FitsLine r.text := by
  intro r hr
  rw [(t.rows_perm depth).mem_iff, List.mem_flatMap] at hr
  obtain ⟨s, hs, hr⟩ := hr
  exact Nested.fitsLine_rows (fun k hk => h k (mem_nodes_of_nested hs hk)) r hr

end FormLower
