import FormLower.Proofs.Lowering.Acceptance
import FormLower.Proofs.Lowering.Shape

/-! # Operands

A target tree is an expression or a statement, and some places in a tree need an expression: the
arguments of a call, the operands of an operation, what is tested, returned, assigned or written.
Lowering refuses a sequence of statements there, but a single statement passes for an expression.
So the operands of a compiled program are expressions exactly when no form that is lowered to a
statement stands as an operand in its source (`compile_operands_iff`), and `(print (if c a b))` is
compiled although it writes a conditional (`compile_print_condition`). -/

namespace FormLower

/-! ### Operands of target trees -/

namespace Target

/-- Whether a tree has a value; the other trees are statements. -/
def isExpression : Target → Bool
  | .name _ _ _ => true
  | .string _ _ => true
  | .number _ _ => true
  | .call _ _ _ => true
  | .binary _ _ _ _ => true
  | .compare _ _ _ _ => true
  | .branch _ _ _ _ => false
  | .ret _ _ => false
  | .assign _ _ _ => false
  | .function _ _ _ _ => false
  | .print _ _ _ => false
  | .statement _ _ => false

/-- The trees directly below a tree whose values it needs. -/
def operands : Target → List Target
  | .call _ args _ => args
  | .binary left _ right _ => [left, right]
  | .compare left _ comparators _ => left :: comparators
  | .branch test _ _ _ => [test]
  | .ret value _ => [value]
  | .assign _ value _ => [value]
  | .print values _ _ => values
  | _ => []

/-- Every operand, at any depth, is an expression. -/
def OperandsFit (t : Target) : Prop :=
  ∀ above u, t.Occurs above u → ∀ o ∈ u.operands, o.isExpression

theorem Occurs.of_child {t c u : Target} {above : Option (Target × Nat)} (hc : c ∈ t.children)
    (h : c.Occurs above u) : ∃ above', t.Occurs above' u := by
  induction h with
  | root =>
      obtain ⟨i, hi⟩ := List.mem_iff_getElem?.mp hc
      exact ⟨_, .child .root hi⟩
  | child _ hi ih =>
      obtain ⟨above', hparent⟩ := ih
      exact ⟨_, .child hparent hi⟩

theorem Occurs.eq_or_child {t u : Target} {above : Option (Target × Nat)}
    (h : t.Occurs above u) : u = t ∨ ∃ c ∈ t.children, ∃ above', c.Occurs above' u := by
  induction h with
  | root => exact .inl rfl
  | child _ hi ih =>
      have hmem := List.mem_of_getElem? hi
      rcases ih with rfl | ⟨c, hc, above', hparent⟩
      · exact .inr ⟨_, hmem, none, .root⟩
      · exact .inr ⟨c, hc, _, .child hparent hi⟩

theorem operandsFit_iff {t : Target} :
    t.OperandsFit ↔ (∀ o ∈ t.operands, o.isExpression) ∧ ∀ c ∈ t.children, c.OperandsFit := by
  constructor
  · intro h
    refine ⟨h none t .root, ?_⟩
    intro c hc above u hu
    obtain ⟨above', hu'⟩ := Occurs.of_child hc hu
    exact h above' u hu'
  · rintro ⟨howd, hchildren⟩ above u hu
    rcases hu.eq_or_child with rfl | ⟨c, hc, above', hu'⟩
    · exact howd
    · exact hchildren c hc above' u hu'

theorem operandsFit_name (id : String) (use : Use) (l : Option Location) :
    (Target.name id use l).OperandsFit := by
  rw [operandsFit_iff]
  simp [operands, children]

theorem operandsFit_call_iff {id : String} {use : Use} {l l' : Option Location}
    {ts : List Target} :
    (Target.call (.name id use l) ts l').OperandsFit ↔
      (∀ t ∈ ts, t.isExpression) ∧ ∀ t ∈ ts, t.OperandsFit := by
  rw [operandsFit_iff]
  simp [operands, children, operandsFit_name]

theorem operandsFit_print_iff {ts : List Target} {newline : Bool} {l : Option Location} :
    (Target.print ts newline l).OperandsFit ↔
      (∀ t ∈ ts, t.isExpression) ∧ ∀ t ∈ ts, t.OperandsFit := by
  rw [operandsFit_iff]
  simp only [operands, children]

theorem operandsFit_compare_iff {t : Target} {ops : List Comparison} {ts : List Target}
    {l : Option Location} :
    (Target.compare t ops ts l).OperandsFit ↔
      (∀ u ∈ t :: ts, u.isExpression) ∧ ∀ u ∈ t :: ts, u.OperandsFit := by
  rw [operandsFit_iff]
  simp only [operands, children]

theorem operandsFit_assign_iff {id : String} {use : Use} {l l' : Option Location} {t : Target} :
    (Target.assign (.name id use l) t l').OperandsFit ↔ t.isExpression ∧ t.OperandsFit := by
  rw [operandsFit_iff]
  simp [operands, children, operandsFit_name]

theorem operandsFit_ret_iff {t : Target} {l : Option Location} :
    (Target.ret t l).OperandsFit ↔ t.isExpression ∧ t.OperandsFit := by
  rw [operandsFit_iff]
  simp [operands, children]

theorem operandsFit_branch_iff {test : Target} {body orelse : List Target} {l : Option Location} :
    (Target.branch test body orelse l).OperandsFit ↔
      test.isExpression ∧ test.OperandsFit ∧ (∀ t ∈ body, t.OperandsFit) ∧
        ∀ t ∈ orelse, t.OperandsFit := by
  rw [operandsFit_iff]
  simp only [operands, children, List.forall_mem_singleton, List.forall_mem_cons,
    List.forall_mem_append]

/-- The names and the documentation of a function have no operands that could not fit. -/
theorem operandsFit_function_iff {id : String} {sig : StructuralForm.Signature}
    {body : List Target} {l : Option Location} :
    (Target.function id (sig.params.map (StructuralForm.bound .param))
      ((sig.doc.map StructuralForm.docStatement).toList ++ body) l).OperandsFit ↔
      ∀ t ∈ body, t.OperandsFit := by
  have hdoc : ∀ d : Source, (StructuralForm.docStatement d).OperandsFit := by
    intro d
    have hstring : (Target.string (d.rawText?.getD "") d.location).OperandsFit := by
      rw [operandsFit_iff]
      simp [operands, children]
    rw [StructuralForm.docStatement, operandsFit_iff]
    simpa [operands, children] using hstring
  rw [operandsFit_iff]
  simp only [operands, children, List.forall_mem_append, List.forall_mem_map]
  constructor
  · rintro ⟨-, -, -, hbody⟩
    exact hbody
  · intro hbody
    refine ⟨by simp, fun n _ => operandsFit_name _ _ _, ?_, hbody⟩
    intro d hd
    obtain ⟨s, _, rfl⟩ := Option.map_eq_some_iff.mp (Option.mem_toList.mp hd)
    exact hdoc s

theorem operandsFit_foldl_binary {op : Arithmetic} {l : Option Location} {t : Target}
    {ts : List Target} :
    (ts.foldl (fun left right => .binary left op right l) t).OperandsFit ↔
      (ts ≠ [] → t.isExpression) ∧ t.OperandsFit ∧
        ∀ u ∈ ts, u.isExpression ∧ u.OperandsFit := by
  induction ts generalizing t with
  | nil => simp
  | cons u ts ih =>
      have hstep : (Target.binary t op u l).OperandsFit ↔
          (t.isExpression ∧ u.isExpression) ∧ t.OperandsFit ∧ u.OperandsFit := by
        rw [operandsFit_iff]
        simp [operands, children]
      rw [List.foldl_cons, ih, hstep, List.forall_mem_cons]
      constructor
      · rintro ⟨-, ⟨⟨ht, hu⟩, htfit, hufit⟩, hts⟩
        exact ⟨fun _ => ht, htfit, ⟨hu, hufit⟩, hts⟩
      · rintro ⟨ht, htfit, ⟨hu, hufit⟩, hts⟩
        exact ⟨fun _ => rfl, ⟨⟨ht (List.cons_ne_nil u ts), hu⟩, htfit, hufit⟩, hts⟩

/-! ### Locations -/

theorem isExpression_inherit (above : Location) (t : Target) :
    (t.inherit above).isExpression = t.isExpression := by
  cases t <;> rfl

theorem operands_inherit (above : Location) (t : Target) :
    (t.inherit above).operands = t.operands.map (inherit (t.location.getD above)) := by
  cases t <;> simp [inherit, operands, location, inheritAll_eq_map]

theorem operandsFit_inherit {above : Location} {t : Target} :
    (t.inherit above).OperandsFit ↔ t.OperandsFit := by
  induction t using Target.induction generalizing above with
  | step t ih =>
      rw [operandsFit_iff, operandsFit_iff, operands_inherit, children_inherit]
      simp only [List.forall_mem_map, isExpression_inherit]
      refine and_congr_right fun _ => forall₂_congr fun c hc => ih c hc

end Target

/-! ### Operands of source trees -/

namespace Source

/-- The heads of the forms that are lowered to statements. -/
def statementHeads : List String := ["def", "defn", "print", "if", "return"]

/-- A tree that is lowered to a statement. -/
def IsStatement (s : Source) : Prop := ∃ head ∈ statementHeads, s.head? = some head

/-- The arguments of a head whose values it needs. -/
def operandArgs (head : String) (args : List Source) : List Source :=
  if head = "defn" ∨ head = "do" then []
  else if head = "def" then (args.drop 1).take 1
  else if head = "if" then args.take 1
  else if head = "return" then args.getLast?.toList
  else args

/-- The arguments of a head whose lowering becomes part of the program. -/
def keptArgs (head : String) (args : List Source) : List Source :=
  if head = "def" then (args.drop 1).take 1
  else if head = "if" then args.take 3
  else if head = "return" ∨ head = "defn" then args.getLast?.toList
  else args

/-- The trees directly below a tree whose values it needs. -/
def operands : Source → List Source
  | .call head args _ => operandArgs head args
  | _ => []

/-- The trees directly below a tree whose lowering becomes part of the program. -/
def parts : Source → List Source
  | .call head args _ => keptArgs head args
  | _ => []

/-- A tree below `s`, or `s` itself, whose lowering becomes part of the program. -/
inductive Contains (s : Source) : Source → Prop
  | self : Contains s s
  | part {k c : Source} : Contains s k → c ∈ k.parts → Contains s c

/-- No operand, at any depth, is lowered to a statement. -/
def OperandsFit (s : Source) : Prop := ∀ k, s.Contains k → ∀ o ∈ k.operands, ¬ o.IsStatement

theorem Contains.of_part {s c k : Source} (hc : c ∈ s.parts) (h : c.Contains k) :
    s.Contains k := by
  induction h with
  | self => exact .part .self hc
  | part _ hk ih => exact .part ih hk

theorem Contains.eq_or_part {s k : Source} (h : s.Contains k) :
    k = s ∨ ∃ c ∈ s.parts, c.Contains k := by
  induction h with
  | self => exact .inl rfl
  | part _ hk ih =>
      rcases ih with rfl | ⟨c, hc, hin⟩
      · exact .inr ⟨_, hk, .self⟩
      · exact .inr ⟨c, hc, .part hin hk⟩

theorem operandsFit_iff {s : Source} :
    s.OperandsFit ↔ (∀ o ∈ s.operands, ¬ o.IsStatement) ∧ ∀ c ∈ s.parts, c.OperandsFit := by
  constructor
  · intro h
    exact ⟨h s .self, fun c hc k hk => h k (.of_part hc hk)⟩
  · rintro ⟨hown, hparts⟩ k hk
    rcases hk.eq_or_part with rfl | ⟨c, hc, hk'⟩
    · exact hown
    · exact hparts c hc k hk'

theorem operandsFit_call_iff {head : String} {args : List Source} {place : Place} :
    (Source.call head args place).OperandsFit ↔
      (∀ o ∈ operandArgs head args, ¬ o.IsStatement) ∧ ∀ c ∈ keptArgs head args, c.OperandsFit :=
  operandsFit_iff

theorem operandsFit_leaf (value : Leaf) (place : Place) :
    (Source.leaf value place).OperandsFit := by
  rw [operandsFit_iff]
  simp [operands, parts]

/-- A head that is no form of its own needs all its arguments. -/
theorem args_eq_of_meaning {head : String} {args : List Source}
    (h : Forms.default.meaning head = .call ∨ Forms.default.meaning head = .special .print ∨
      Forms.default.meaning head = .special .arithmetic ∨
      Forms.default.meaning head = .special .comparison) :
    operandArgs head args = args ∧ keptArgs head args = args := by
  have hdef := @Forms.meaning_eq_define_iff head
  have hdefn := @Forms.meaning_eq_function_iff head
  have hdo := @Forms.meaning_eq_sequence_iff head
  have hif := @Forms.meaning_eq_condition_iff head
  have hret := @Forms.meaning_eq_ret_iff head
  unfold operandArgs keptArgs
  grind

end Source

open Source

/-! ### Lowering -/

/-- Every operand in the statements that something lowered stands for is an expression. -/
def Lowered.OperandsFit (r : Lowered) : Prop := ∀ t ∈ r.statements, t.OperandsFit

theorem Lowered.operandsFit_single_iff {t : Target} :
    (Lowered.single t).OperandsFit ↔ t.OperandsFit := by
  simp [OperandsFit, statements]

theorem Lowered.operandsFit_sequence_iff {rs : List Lowered} :
    (Lowered.sequence (rs.flatMap statements)).OperandsFit ↔ ∀ r ∈ rs, r.OperandsFit := by
  simp only [OperandsFit, statements, List.mem_flatMap]
  grind

namespace Forms

variable {forms : Forms}

/-- What holds of a tree when something holds of its lowering does so for several trees. -/
theorem LowersAll.forall_iff {P : Source → Prop} {Q : Lowered → Prop} {ss : List Source}
    {ns : List Notice} {rs : List Lowered} (h : forms.LowersAll ss ns rs)
    (hiff : ∀ s ∈ ss, ∀ ns r, forms.Lowers s ns r → (Q r ↔ P s)) :
    (∀ r ∈ rs, Q r) ↔ ∀ s ∈ ss, P s := by
  induction h with
  | nil => simp
  | cons hs _ ih =>
      obtain ⟨hhead, htail⟩ := List.forall_mem_cons.mp hiff
      rw [List.forall_mem_cons, List.forall_mem_cons, hhead _ _ hs, ih htail]

/-- **A tree is lowered to an expression unless its head is that of a statement.** -/
theorem isExpression_iff {s : Source} {ns : List Notice} {t : Target}
    (h : default.Lowers s ns (.single t)) : t.isExpression ↔ ¬ s.IsStatement := by
  cases s with
  | leaf value place =>
      obtain ⟨-, heq⟩ := lowers_leaf_iff.mp h
      cases heq
      cases value <;> simp [IsStatement, head?, Leaf.lower, Target.isExpression]
  | list elements place => exact absurd h not_lowers_list
  | call head args place =>
      have hstatement : (Source.call head args place).IsStatement ↔ head ∈ statementHeads := by
        simp [IsStatement, head?]
      have hdef := @meaning_eq_define_iff head
      have hdefn := @meaning_eq_function_iff head
      have hprint := @meaning_eq_print_iff head
      have hif := @meaning_eq_condition_iff head
      have hret := @meaning_eq_ret_iff head
      have hmember : head ∈ statementHeads ↔
          head = "def" ∨ head = "defn" ∨ head = "print" ∨ head = "if" ∨ head = "return" := by
        simp [statementHeads]
      rw [hstatement, hmember]
      cases lowers_call_iff.mp h with
      | call hm => simp_all [Target.isExpression]
      | define hm => simp_all [Target.isExpression]
      | function hm => simp_all [Target.isExpression]
      | print hm => simp_all [Target.isExpression]
      | @arithmetic _ _ _ t u ts hm =>
          have hfold : ∀ (us : List Target) (t u : Target) (op : Arithmetic) (l : Option Location),
              ((u :: us).foldl (fun l' r => .binary l' op r l) t).isExpression := by
            intro us
            induction us with
            | nil => exact fun _ _ _ _ => rfl
            | cons v us ih => exact fun t u op l => ih (.binary t op u l) v op l
          simp_all
      | comparison hm => simp_all [Target.isExpression]
      | condition hm => simp_all [Target.isExpression]
      | ret hm => simp_all [Target.isExpression]

/-- Operands are lowered to expressions where they are no statements, and fit where they fit. -/
theorem LowersAll.operandsFit_iff {ss : List Source} {ns : List Notice} {ts : List Target}
    (h : default.LowersAll ss ns (ts.map .single))
    (ih : ∀ s ∈ ss, ∀ ns r, default.Lowers s ns r → (r.OperandsFit ↔ s.OperandsFit)) :
    ((∀ t ∈ ts, t.isExpression) ↔ ∀ s ∈ ss, ¬ s.IsStatement) ∧
      ((∀ t ∈ ts, t.OperandsFit) ↔ ∀ s ∈ ss, s.OperandsFit) := by
  constructor
  · clear ih
    induction ts generalizing ss ns with
    | nil =>
        cases h
        simp
    | cons t ts ihts =>
        cases h with
        | cons hs hss =>
            rw [List.forall_mem_cons, List.forall_mem_cons, isExpression_iff hs, ihts hss]
  · rw [← h.forall_iff ih, List.forall_mem_map]
    simp only [Lowered.operandsFit_single_iff]

theorem LowersAll.operandsFit_call_iff {head : String} {args : List Source} {place : Place}
    {ns : List Notice} {ts : List Target} (h : default.LowersAll args ns (ts.map .single))
    (hm : default.meaning head = .call ∨ default.meaning head = .special .print ∨
      default.meaning head = .special .arithmetic ∨ default.meaning head = .special .comparison)
    (ih : ∀ a ∈ args, ∀ ns r, default.Lowers a ns r → (r.OperandsFit ↔ a.OperandsFit)) :
    (Source.call head args place).OperandsFit ↔
      (∀ t ∈ ts, t.isExpression) ∧ ∀ t ∈ ts, t.OperandsFit := by
  obtain ⟨hoperands, hkept⟩ := @Source.args_eq_of_meaning head args hm
  obtain ⟨hexpr, hfit⟩ := h.operandsFit_iff ih
  rw [Source.operandsFit_call_iff, hoperands, hkept, hexpr, hfit]

/-! #### One form at a time

What each form asks of its arguments is what the tree that it builds asks of its operands, where the
arguments fit as what they are lowered to does. -/

section OneForm

variable {args : List Source} {ns : List Notice} {place : Place} {l : Option Location}

theorem operandsFit_define {n : Reading.Named} {value : Source} {extra : List Source} {t : Target}
    (hvalue : default.Lowers value ns (.single t))
    (hfit : (Lowered.single t).OperandsFit ↔ value.OperandsFit) :
    (Target.assign (StructuralForm.bound .store n) t l).OperandsFit ↔
      (Source.call "def" (n.2 :: value :: extra) place).OperandsFit := by
  rw [Lowered.operandsFit_single_iff] at hfit
  rw [StructuralForm.bound, Target.operandsFit_assign_iff, Source.operandsFit_call_iff,
    isExpression_iff hvalue, hfit]
  simp [operandArgs, keptArgs]

theorem operandsFit_function {sig : StructuralForm.Signature} {p : Place} {earlier : List Source}
    {last : Source} {r : Lowered} (hfit : r.OperandsFit ↔ last.OperandsFit) :
    (Target.function sig.name.1 (sig.params.map (StructuralForm.bound .param))
      ((sig.doc.map StructuralForm.docStatement).toList ++ r.statements) l).OperandsFit ↔
      (Source.call "defn" (sig.name.2 :: .list (sig.params.map Prod.snd) p ::
        (sig.doc.toList ++ (earlier ++ [last]))) place).OperandsFit := by
  have hkept : keptArgs "defn" (sig.name.2 :: .list (sig.params.map Prod.snd) p ::
      (sig.doc.toList ++ (earlier ++ [last]))) = [last] := by
    simp [keptArgs, List.getLast?_cons, List.getLast?_append]
  rw [Target.operandsFit_function_iff, Source.operandsFit_call_iff, hkept,
    List.forall_mem_singleton, ← hfit]
  simp [operandArgs, Lowered.OperandsFit]

variable (ih : ∀ a ∈ args, ∀ ns r, default.Lowers a ns r → (r.OperandsFit ↔ a.OperandsFit))

include ih

theorem operandsFit_arithmetic {head : String} {op : Arithmetic} {t u : Target} {ts : List Target}
    (hm : default.meaning head = .special .arithmetic)
    (h : default.LowersAll args ns ((t :: u :: ts).map .single)) :
    ((u :: ts).foldl (fun left right => .binary left op right l) t).OperandsFit ↔
      (Source.call head args place).OperandsFit := by
  rw [h.operandsFit_call_iff (.inr (.inr (.inl hm))) ih, Target.operandsFit_foldl_binary]
  constructor
  · rintro ⟨ht, htfit, hts⟩
    exact ⟨List.forall_mem_cons.mpr ⟨ht (List.cons_ne_nil _ _), fun v hv => (hts v hv).1⟩,
      List.forall_mem_cons.mpr ⟨htfit, fun v hv => (hts v hv).2⟩⟩
  · rintro ⟨hall, hfits⟩
    obtain ⟨ht, hts⟩ := List.forall_mem_cons.mp hall
    obtain ⟨htfit, htsfit⟩ := List.forall_mem_cons.mp hfits
    exact ⟨fun _ => ht, htfit, fun v hv => ⟨hts v hv, htsfit v hv⟩⟩

theorem operandsFit_condition {t : Target} {body orelse : Lowered} {extra : List Lowered}
    (h : default.LowersAll args ns (.single t :: body :: orelse :: extra)) :
    (Target.branch t body.statements orelse.statements l).OperandsFit ↔
      (Source.call "if" args place).OperandsFit := by
  cases h with
  | cons htest hrest =>
      cases hrest with
      | cons hbody hrest =>
          cases hrest with
          | cons horelse _ =>
              have htest' := ih _ (by simp) _ _ htest
              have hbody' := ih _ (by simp) _ _ hbody
              have horelse' := ih _ (by simp) _ _ horelse
              rw [Lowered.operandsFit_single_iff] at htest'
              rw [Target.operandsFit_branch_iff, Source.operandsFit_call_iff,
                isExpression_iff htest, htest']
              change _ ∧ _ ∧ body.OperandsFit ∧ orelse.OperandsFit ↔ _
              rw [hbody', horelse']
              simp [operandArgs, keptArgs]

theorem operandsFit_sequence {rs : List Lowered} (h : default.LowersAll args ns rs) :
    (Lowered.sequence (rs.flatMap Lowered.statements)).OperandsFit ↔
      (Source.call "do" args place).OperandsFit := by
  rw [Lowered.operandsFit_sequence_iff, Source.operandsFit_call_iff, h.forall_iff ih]
  simp [operandArgs, keptArgs]

theorem operandsFit_return {rs : List Lowered} {t : Target}
    (h : default.LowersAll args ns (rs ++ [.single t])) :
    (Target.ret t l).OperandsFit ↔ (Source.call "return" args place).OperandsFit := by
  obtain ⟨init, rest, _, _, rfl, -, -, hrest⟩ := lowersAll_append_iff.mp h
  obtain ⟨last, rfl, hlast⟩ := lowersAll_singleton_iff.mp hrest
  have hfit := ih last (by simp) _ _ hlast
  rw [Lowered.operandsFit_single_iff] at hfit
  rw [Target.operandsFit_ret_iff, Source.operandsFit_call_iff, isExpression_iff hlast, hfit]
  simp [operandArgs, keptArgs]

end OneForm

/-- **The operands of what a tree is lowered to are expressions exactly when the operands of the
tree are no statements.** -/
theorem Lowers.operandsFit_iff {s : Source} {ns : List Notice} {r : Lowered}
    (h : default.Lowers s ns r) : r.OperandsFit ↔ s.OperandsFit := by
  induction s generalizing ns r with
  | leaf value place =>
      obtain ⟨-, rfl⟩ := lowers_leaf_iff.mp h
      have hleaf : (value.lower place.location).OperandsFit := by
        rw [Target.operandsFit_iff]
        cases value <;> simp [Leaf.lower, Target.operands, Target.children]
      simp only [Lowered.operandsFit_single_iff, hleaf, Source.operandsFit_leaf]
  | list elements place _ => exact absurd h not_lowers_list
  | call head args place ih =>
      have ih' : ∀ a ∈ args, ∀ ns r, default.Lowers a ns r → (r.OperandsFit ↔ a.OperandsFit) :=
        fun a ha ns r ha' => ih a ha ha'
      cases lowers_call_iff.mp h with
      | call hm hargs =>
          rw [Lowered.operandsFit_single_iff, Target.operandsFit_call_iff,
            hargs.operandsFit_call_iff (.inl hm) ih']
      | @define n value extra _ t hm hn hvalue =>
          obtain rfl : head = "def" := meaning_eq_define_iff.mp hm
          rw [Lowered.operandsFit_single_iff]
          exact operandsFit_define hvalue (ih' value (by simp) _ _ hvalue)
      | @function sig p earlier last _ _ _ _ hm hs hearlier hlast =>
          obtain rfl : head = "defn" := meaning_eq_function_iff.mp hm
          rw [Lowered.operandsFit_single_iff]
          exact operandsFit_function (ih' last (by simp) _ _ hlast)
      | skip hm => exact absurd hm meaning_ne_skip.1
      | print hm hargs =>
          rw [Lowered.operandsFit_single_iff, Target.operandsFit_print_iff,
            hargs.operandsFit_call_iff (.inr (.inl hm)) ih']
      | arithmetic hm _ hargs =>
          rw [Lowered.operandsFit_single_iff]
          exact operandsFit_arithmetic ih' hm hargs
      | comparison hm _ hargs =>
          rw [Lowered.operandsFit_single_iff, Target.operandsFit_compare_iff,
            hargs.operandsFit_call_iff (.inr (.inr (.inr hm))) ih']
      | condition hm hargs =>
          obtain rfl : head = "if" := meaning_eq_condition_iff.mp hm
          rw [Lowered.operandsFit_single_iff]
          exact operandsFit_condition ih' hargs
      | sequence hm hargs =>
          obtain rfl : head = "do" := meaning_eq_sequence_iff.mp hm
          exact operandsFit_sequence ih' hargs
      | ret hm hargs =>
          obtain rfl : head = "return" := meaning_eq_ret_iff.mp hm
          rw [Lowered.operandsFit_single_iff]
          exact operandsFit_return ih' hargs
      | drop hm => exact absurd hm meaning_ne_skip.2

end Forms

/-! ### Programs -/

/-- **The operands of a compiled program are expressions exactly when no operand of its source is
lowered to a statement.** -/
theorem compile_operands_iff {name : String} {forest : List Source} {program : Program}
    (h : (compile name forest).result = .ok program) :
    (∀ t ∈ program.body, t.OperandsFit) ↔ ∀ s ∈ forest, s.OperandsFit := by
  obtain ⟨ns, hgives⟩ := Run.exists_gives_iff.mpr h
  obtain ⟨ms, rs, hforest, rfl, -⟩ := Forms.assemble_gives_iff.mp hgives
  rw [← hforest.forall_iff fun s _ _ _ hs => Forms.Lowers.operandsFit_iff hs,
    ← Lowered.operandsFit_sequence_iff]
  simp only [Program.located, List.forall_mem_map, Target.operandsFit_inherit]
  rfl

/-- In `(return (print a) (f (+ a b)))` the first operand is dropped, and the others are
expressions. -/
theorem compile_operands_return :
    let forest : List Source := [.call "return" [.call "print" [.symbol "a"] .unknown,
      .call "f" [.call "+" [.symbol "a", .symbol "b"] .unknown] .unknown] .unknown]
    ∃ program, (compile "m" forest).result = .ok program ∧ (∀ s ∈ forest, s.OperandsFit) ∧
      ∀ t ∈ program.body, t.OperandsFit := by
  intro forest
  obtain ⟨program, hp⟩ : ∃ program, (compile "m" forest).result = .ok program := ⟨_, rfl⟩
  have hfit : ∀ s ∈ forest, s.OperandsFit := by
    simp [forest, Source.operandsFit_call_iff, operandArgs, keptArgs, Source.symbol,
      Source.operandsFit_leaf, IsStatement, statementHeads, head?]
  exact ⟨program, hp, hfit, (compile_operands_iff hp).mpr hfit⟩

/-- A conditional is no expression, but `(print (if c a b))` is compiled and writes one. -/
theorem compile_print_condition :
    ∃ program t, (compile "m" [.call "print" [.call "if" [.symbol "c", .symbol "a", .symbol "b"]
        .unknown] .unknown]).result = .ok program ∧
      t ∈ program.body ∧ ¬ t.OperandsFit := by
  refine ⟨_, _, rfl, List.mem_cons_self, ?_⟩
  intro hfit
  exact absurd (hfit none _ .root _ List.mem_cons_self) Bool.false_ne_true

end FormLower
