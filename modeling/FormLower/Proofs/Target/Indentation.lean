import FormLower.Proofs.Target.Blocks
import Mathlib.Data.List.Chain

/-! # Indentation is nesting

Lines are indented by the levels of their rows.  A level grows by one behind a row that opens a
block and never otherwise, and whoever puts every line below the last one before it that is
indented less finds the blocks again (`Program.listing_shows_blocks`). -/

namespace FormLower

/-! ### Blanks before a line -/

/-- How many blanks a line starts with. -/
def leading (cs : List Char) : Nat := (cs.takeWhile (· = ' ')).length

namespace Row

def chars (r : Row) : List Char := r.line.toList

theorem chars_eq (r : Row) : r.chars = List.replicate (4 * r.level) ' ' ++ r.text.toList := by
  rw [chars, line, Target.line, Target.indentation, String.toList_append, String.toList_ofList]

theorem leading_chars {r : Row} (h : FitsLine r.text) : leading r.chars = 4 * r.level := by
  have htext : r.text.toList.takeWhile (· = ' ') = [] := by
    cases hcs : r.text.toList with
    | nil => rfl
    | cons c cs =>
        have hblank := h.no_blank
        rw [hcs] at hblank
        have hc : c ≠ ' ' := fun heq => hblank (congrArg some heq)
        simp [hc]
  rw [leading, chars_eq, List.takeWhile_append_of_pos (by simp), htext]
  simp

theorem newline_not_mem_chars {r : Row} (h : FitsLine r.text) : '\n' ∉ r.chars := by
  rw [chars_eq, List.mem_append, List.mem_replicate]
  rintro (⟨-, heq⟩ | hmem)
  · cases heq
  · exact h.no_newline hmem

/-! ### Levels of consecutive rows -/

/-- Whether a row may stand behind another one: one level deeper if that opens a block, and no
deeper otherwise. -/
def Follows (r s : Row) : Prop := if r.opens then s.level = r.level + 1 else s.level ≤ r.level

/-- Rows of statements at a depth: none is above them, and every block that is opened has rows. -/
structure AreBlock (depth : Nat) (rows : List Row) : Prop where
  first : ∃ r, rows.head? = some r ∧ r.level = depth
  deep : ∀ r ∈ rows, depth ≤ r.level
  chain : rows.IsChain Follows
  closed : ∀ r, rows.getLast? = some r → r.opens = false

namespace AreBlock

variable {depth : Nat} {xs ys : List Row}

theorem singleton {r : Row} (hlevel : r.level = depth) (hopens : r.opens = false) :
    AreBlock depth [r] where
  first := ⟨r, rfl, hlevel⟩
  deep := by simp [hlevel]
  chain := .singleton r
  closed := by simp [hopens]

theorem level_head (h : AreBlock depth xs) {r : Row} (hr : xs.head? = some r) :
    r.level = depth := by
  obtain ⟨s, hs, hlevel⟩ := h.first
  obtain rfl := Option.some.inj (hr.symm.trans hs)
  exact hlevel

theorem append (hxs : AreBlock depth xs) (hys : AreBlock depth ys) :
    AreBlock depth (xs ++ ys) where
  first := by
    obtain ⟨r, hr, hlevel⟩ := hxs.first
    exact ⟨r, by rw [List.head?_append, hr, Option.some_or], hlevel⟩
  deep r hr := (List.mem_append.mp hr).elim (hxs.deep r) (hys.deep r)
  chain := by
    refine hxs.chain.append hys.chain fun x hx y hy => ?_
    rw [Follows, hxs.closed x hx, if_neg Bool.false_ne_true, hys.level_head hy]
    exact hxs.deep x (List.mem_of_getLast? hx)
  closed r hr := by
    obtain ⟨s, hs, -⟩ := hys.first
    have hne : ys ≠ [] := by
      rintro rfl
      cases hs
    rw [List.getLast?_append_of_ne_nil xs hne] at hr
    exact hys.closed r hr

theorem cons {r : Row} (hlevel : r.level = depth) (hopens : r.opens = true)
    (hxs : AreBlock (depth + 1) xs) : AreBlock depth (r :: xs) where
  first := ⟨r, rfl, hlevel⟩
  deep := by
    refine List.forall_mem_cons.mpr ⟨hlevel.ge, fun s hs => ?_⟩
    exact Nat.le_of_succ_le (hxs.deep s hs)
  chain := by
    refine hxs.chain.cons fun s hs => ?_
    rw [Follows, if_pos hopens, hxs.level_head hs, hlevel]
  closed s hs := by
    obtain ⟨u, hu, -⟩ := hxs.first
    have hne : xs ≠ [] := by
      rintro rfl
      cases hu
    rw [List.getLast?_cons_of_ne_nil hne] at hs
    exact hxs.closed s hs

theorem append_flatMap {ts : List Target} (hxs : AreBlock depth xs)
    (h : ∀ t ∈ ts, AreBlock depth (t.rows depth)) :
    AreBlock depth (xs ++ ts.flatMap (Target.rows depth)) := by
  induction ts generalizing xs with
  | nil => simpa using hxs
  | cons t ts ih =>
      obtain ⟨ht, hts⟩ := List.forall_mem_cons.mp h
      rw [List.flatMap_cons, ← List.append_assoc]
      exact ih (hxs.append ht) hts

end AreBlock

end Row

namespace Target

/-- The rows of a statement are a block by themselves. -/
theorem areBlock_rows (t : Target) (depth : Nat) : Row.AreBlock depth (t.rows depth) := by
  induction t using Target.induction generalizing depth with
  | step t ih =>
      have hblock : ∀ ts : List Target, (∀ c ∈ ts, c ∈ t.children) → ∀ pass : Row,
          pass.level = depth + 1 → pass.opens = false →
          Row.AreBlock (depth + 1) (if ts.isEmpty then [pass] else allRows (depth + 1) ts) := by
        intro ts hts pass hlevel hopens
        cases ts with
        | nil => exact .singleton hlevel hopens
        | cons c cs =>
            obtain ⟨hc, hcs⟩ := List.forall_mem_cons.mp hts
            rw [List.isEmpty_cons, if_neg Bool.false_ne_true, allRows_eq_flatMap,
              List.flatMap_cons]
            exact (ih c hc _).append_flatMap fun c hmem => ih c (hcs c hmem) _
      cases t with
      | branch test body orelse l =>
          have hbody := hblock body (by simp +contextual [children])
            (.pass ⟨depth, .branch test body orelse l⟩) rfl rfl
          have horelse := hblock orelse (by simp +contextual [children])
            (.pass ⟨depth, .branch test body orelse l⟩) rfl rfl
          have hthen : Row.AreBlock depth (.heading ⟨depth, .branch test body orelse l⟩ ::
              if body.isEmpty then [.pass ⟨depth, .branch test body orelse l⟩]
              else allRows (depth + 1) body) := .cons rfl rfl hbody
          cases orelse with
          | nil => simpa [rows] using hthen
          | cons e es =>
              have helse : Row.AreBlock depth (.otherwise ⟨depth, .branch test body (e :: es) l⟩ ::
                  allRows (depth + 1) (e :: es)) := .cons rfl rfl horelse
              rw [rows]
              exact hthen.append helse
      | function id params body l =>
          have hbody := hblock body (by simp +contextual [children])
            (.pass ⟨depth, .function id params body l⟩) rfl rfl
          rw [rows]
          exact .cons rfl rfl hbody
      | _ => exact .singleton rfl rfl

end Target

/-! ### Lines put below others -/

/-- A line, and what is below it. -/
inductive Outline where
  | node (line : List Char) (inner : List Outline)

namespace Outline

/-- The line of an outline. -/
def line : Outline → List Char
  | .node line _ => line

/-- A line before outlines: those that are indented more, up to the first that is not, are below
it. -/
def nest (line : List Char) (later : List Outline) : List Outline :=
  .node line (later.takeWhile fun o => leading line < leading o.line) ::
    later.dropWhile fun o => leading line < leading o.line

/-- The outlines of lines, for which nothing but their indentation counts. -/
def group (lines : List (List Char)) : List Outline := lines.foldr nest []

/-- Whether outlines stand behind a block that is indented more than this. -/
def StandBehind (depth : Nat) (later : List Outline) : Prop :=
  ∀ o, later.head? = some o → leading o.line ≤ 4 * depth

theorem StandBehind.append {depth : Nat} {inner later : List Outline}
    (hinner : ∀ o ∈ inner, leading o.line = 4 * depth) (hlater : StandBehind depth later) :
    StandBehind depth (inner ++ later) := by
  cases inner with
  | nil => exact hlater
  | cons o inner =>
      intro o' ho'
      obtain rfl := Option.some.inj ho'
      exact (hinner o List.mem_cons_self).le

theorem StandBehind.succ {depth : Nat} {later : List Outline} (h : StandBehind depth later) :
    StandBehind (depth + 1) later := by
  intro o ho
  have := h o ho
  omega

theorem nest_append {depth : Nat} {line : List Char} {inner later : List Outline}
    (hline : leading line = 4 * depth) (hinner : ∀ o ∈ inner, leading o.line = 4 * (depth + 1))
    (hlater : StandBehind depth later) :
    nest line (inner ++ later) = .node line inner :: later := by
  have hdeeper : ∀ o ∈ inner, decide (leading line < leading o.line) = true := by
    intro o ho
    rw [hline, hinner o ho, decide_eq_true_eq]
    omega
  have hstop : later.takeWhile (fun o => leading line < leading o.line) = [] ∧
      later.dropWhile (fun o => leading line < leading o.line) = later := by
    cases later with
    | nil => exact ⟨rfl, rfl⟩
    | cons o later =>
        have ho : ¬ leading line < leading o.line := by
          rw [hline]
          exact Nat.not_lt.mpr (hlater o rfl)
        simp [ho]
  rw [nest, List.takeWhile_append_of_pos hdeeper, List.dropWhile_append_of_pos hdeeper, hstop.1,
    hstop.2, List.append_nil]

/-- Whether the lines of rows at a depth are grouped to outlines, whatever stands behind them. -/
structure Groups (depth : Nat) (rows : List Row) (outlines : List Outline) : Prop where
  level : ∀ o ∈ outlines, leading o.line = 4 * depth
  lines : ∀ later, StandBehind depth later →
    (rows.map Row.chars).foldr nest later = outlines ++ later

namespace Groups

variable {depth : Nat} {xs ys : List Row} {os os' : List Outline}

theorem nil (depth : Nat) : Groups depth [] [] := ⟨by simp, fun _ _ => rfl⟩

theorem append (hxs : Groups depth xs os) (hys : Groups depth ys os') :
    Groups depth (xs ++ ys) (os ++ os') where
  level := List.forall_mem_append.mpr ⟨hxs.level, hys.level⟩
  lines later hlater := by
    rw [List.map_append, List.foldr_append, hys.lines later hlater,
      hxs.lines _ (.append hys.level hlater), List.append_assoc]

theorem cons {r : Row} (hr : leading r.chars = 4 * depth) (hxs : Groups (depth + 1) xs os) :
    Groups depth (r :: xs) [.node r.chars os] where
  level := List.forall_mem_singleton.mpr hr
  lines later hlater := by
    rw [List.map_cons, List.foldr_cons, hxs.lines later hlater.succ]
    exact nest_append hr hxs.level hlater

end Groups

end Outline

namespace Target

mutual

/-- The outlines of a statement: its own line with its body below, and `else:` with the rest. -/
def outlines (depth : Nat) : Target → List Outline
  | .branch test body orelse l =>
    .node (Row.heading ⟨depth, .branch test body orelse l⟩).chars
      (if body.isEmpty then [.node (Row.pass ⟨depth, .branch test body orelse l⟩).chars []]
        else allOutlines (depth + 1) body) ::
      if orelse.isEmpty then []
      else [.node (Row.otherwise ⟨depth, .branch test body orelse l⟩).chars
        (allOutlines (depth + 1) orelse)]
  | .function id params body l =>
    [.node (Row.heading ⟨depth, .function id params body l⟩).chars
      (if body.isEmpty then [.node (Row.pass ⟨depth, .function id params body l⟩).chars []]
        else allOutlines (depth + 1) body)]
  | t => [.node (Row.heading ⟨depth, t⟩).chars []]

def allOutlines (depth : Nat) : List Target → List Outline
  | [] => []
  | t :: ts => t.outlines depth ++ allOutlines depth ts

end

theorem allOutlines_eq_flatMap (depth : Nat) :
    ∀ ts : List Target, allOutlines depth ts = ts.flatMap (outlines depth)
  | [] => rfl
  | t :: ts => by rw [allOutlines, allOutlines_eq_flatMap depth ts, List.flatMap_cons]

theorem groups_allRows {depth : Nat} {ts : List Target}
    (h : ∀ t ∈ ts, Outline.Groups depth (t.rows depth) (t.outlines depth)) :
    Outline.Groups depth (allRows depth ts) (allOutlines depth ts) := by
  induction ts with
  | nil => exact .nil depth
  | cons t ts ih =>
      obtain ⟨ht, hts⟩ := List.forall_mem_cons.mp h
      exact ht.append (ih hts)

/-- **The lines of a statement are grouped to its outlines**, when the names in it fit lines. -/
theorem groups_rows {t : Target} (h : ∀ k ∈ t.nodes, k.NameFitsLine) (depth : Nat) :
    Outline.Groups depth (t.rows depth) (t.outlines depth) := by
  induction t using Target.induction generalizing depth with
  | step t ih =>
      have hheading := Row.leading_chars (Row.fitsLine_heading ⟨depth, t⟩ h)
      have hall : ∀ ts : List Target, (∀ c ∈ ts, c ∈ t.children) →
          Outline.Groups (depth + 1) (allRows (depth + 1) ts) (allOutlines (depth + 1) ts) := by
        intro ts hts
        exact groups_allRows fun c hc =>
          ih c (hts c hc) (fun k hk => h k (mem_nodes_of_child (hts c hc) hk)) _
      have hblock : ∀ ts : List Target, (∀ c ∈ ts, c ∈ t.children) →
          Outline.Groups (depth + 1)
            (if ts.isEmpty then [.pass ⟨depth, t⟩] else allRows (depth + 1) ts)
            (if ts.isEmpty then [.node (Row.pass ⟨depth, t⟩).chars []]
              else allOutlines (depth + 1) ts) := by
        intro ts hts
        cases ts with
        | nil => exact .cons (Row.leading_chars (Row.fitsLine_pass _)) (.nil _)
        | cons c cs => exact hall (c :: cs) hts
      cases t with
      | branch test body orelse l =>
          have hbody := hblock body (by simp +contextual [children])
          have horelse := hall orelse (by simp +contextual [children])
          rw [rows, outlines]
          refine (Outline.Groups.cons hheading hbody).append ?_
          cases orelse with
          | nil => exact .nil depth
          | cons e es => exact .cons (Row.leading_chars (Row.fitsLine_otherwise _)) horelse
      | function id params body l =>
          exact .cons hheading (hblock body (by simp +contextual [children]))
      | _ => exact .cons hheading (.nil _)

end Target

namespace Program

/-- The statements of a program, at their depths. -/
def statements (p : Program) : List Nested := p.body.flatMap (Target.nested 0)

def rows (p : Program) : List Row := .title p.name :: p.body.flatMap (Target.rows 0)

def outlines (p : Program) : List Outline :=
  .node (Row.title p.name).chars [] :: p.body.flatMap (Target.outlines 0)

theorem lines_eq_map_line (p : Program) : p.lines = p.rows.map Row.line := by
  have htitle : (Row.title p.name).line = "# module " ++ p.name := by
    simp [Row.line, Row.level, Row.text, Target.line, Target.indentation]
  rw [lines, rows, List.map_cons, List.map_flatMap, htitle]
  exact congrArg _ (List.flatMap_congr fun t _ => t.lines_eq_map_line 0)

theorem toList_listing (p : Program) :
    p.listing.toList = (p.rows.map Row.chars).flatMap (· ++ ['\n']) := by
  rw [listing, lines_eq_map_line, String.toList_join, List.map_map, List.flatMap_map,
    List.flatMap_map]
  exact List.flatMap_congr fun r _ => String.toList_append

theorem fitsLine_rows {p : Program} (hname : '\n' ∉ p.name.toList)
    (h : ∀ k ∈ Target.nodesAll p.body, k.NameFitsLine) : ∀ r ∈ p.rows, FitsLine r.text := by
  have htitle : FitsLine "# module " := ⟨by decide, by decide, by decide⟩
  refine List.forall_mem_cons.mpr ⟨htitle.append hname, fun r hr => ?_⟩
  obtain ⟨t, ht, hr⟩ := List.mem_flatMap.mp hr
  exact Target.fitsLine_rows (fun k hk => h k (Target.mem_nodesAll_of_mem ht hk)) r hr

/-- Lines that end with a line end are split at the line ends, and nothing is left. -/
theorem splitOn_lines {ls : List (List Char)} (h : ∀ cs ∈ ls, '\n' ∉ cs) :
    (ls.flatMap (· ++ ['\n'])).splitOn '\n' = ls ++ [[]] := by
  induction ls with
  | nil => rfl
  | cons cs ls ih =>
      obtain ⟨hcs, hls⟩ := List.forall_mem_cons.mp h
      rw [List.flatMap_cons, List.append_assoc, List.singleton_append,
        List.splitOn_append_cons_self_of_not_mem hcs, ih hls, List.cons_append]

theorem group_rows {p : Program} (hname : '\n' ∉ p.name.toList)
    (h : ∀ k ∈ Target.nodesAll p.body, k.NameFitsLine) :
    Outline.group (p.rows.map Row.chars) = p.outlines := by
  have htitle : leading (Row.title p.name).chars = 4 * 0 :=
    Row.leading_chars (fitsLine_rows hname h _ List.mem_cons_self)
  have hbody := Target.groups_allRows fun t ht =>
    Target.groups_rows (fun k hk => h k (Target.mem_nodesAll_of_mem ht hk)) 0
  have hrows := (Outline.Groups.cons htitle (.nil _)).append hbody
  have hlines := hrows.lines [] (by simp [Outline.StandBehind])
  rw [Outline.group, rows, outlines, ← Target.allRows_eq_flatMap, ← Target.allOutlines_eq_flatMap]
  simpa using hlines

/-- **The indentation of a listing is its block structure.**  The lines are those of rows: the
title, and for every statement that stands in a block its own row, one for `else:` if it has
statements for a test that fails, and one for `pass` if its body is empty.  Every line starts with
four blanks for each level of its row.  A row behind one that opens a block is one level deeper, a
row behind another one is no deeper, and the last row opens no block.  So the lines, grouped by how
many blanks they start with, are the statements with their blocks below them. -/
theorem listing_shows_blocks (p : Program) (hname : '\n' ∉ p.name.toList)
    (hnames : ∀ k ∈ Target.nodesAll p.body, k.NameFitsLine) :
    p.listing.toList.splitOn '\n' = p.rows.map Row.chars ++ [[]] ∧
    (∃ rows, p.rows = .title p.name :: rows ∧ rows.Perm (p.statements.flatMap Nested.rows)) ∧
    (∀ r ∈ p.rows, leading r.chars = 4 * r.level) ∧
    p.rows.IsChain Row.Follows ∧
    (∀ r, p.rows.getLast? = some r → r.opens = false) ∧
    Outline.group (p.rows.map Row.chars) = p.outlines := by
  have hfits := fitsLine_rows hname hnames
  have htitle : Row.AreBlock 0 [.title p.name] := .singleton rfl rfl
  have hblock : Row.AreBlock 0 p.rows := htitle.append_flatMap fun t _ => t.areBlock_rows 0
  refine ⟨?_, ⟨_, rfl, ?_⟩, fun r hr => Row.leading_chars (hfits r hr), hblock.chain,
    hblock.closed, ?_⟩
  · rw [toList_listing]
    exact splitOn_lines (List.forall_mem_map.mpr fun r hr => Row.newline_not_mem_chars (hfits r hr))
  · rw [statements, List.flatMap_assoc]
    exact List.Perm.flatMap_left p.body fun t _ => t.rows_perm 0
  · exact group_rows hname hnames

/-- A conditional in a function, with an empty body and a line end in a string. -/
theorem listing_shows_blocks_else :
    (Program.listing ⟨"m", [.function "f" [] [.branch (.name "x" .load none) []
        [.ret (.string "\n" none) none] none] none]⟩).toList.splitOn '\n' =
      ["# module m".toList, "def f():".toList, "    if x:".toList, "        pass".toList,
        "    else:".toList, "        return \"\\n\"".toList, []] := by
  refine (listing_shows_blocks _ (by decide) ?_).1.trans (by decide +kernel)
  have hfits : FitsLine "f" ∧ FitsLine "x" := by
    constructor <;> exact ⟨by decide, by decide, by decide⟩
  simp [Target.nodesAll, Target.nodes, Target.NameFitsLine, hfits]

end Program

end FormLower
