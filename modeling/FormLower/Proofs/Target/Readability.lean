import FormLower.Proofs.Target.Expressions
import FormLower.Proofs.Text.Quoting

/-! # The texts of expressions are unambiguous

What is written for an operand tells the operand and where it ends, by induction on trees, and so do
links, and so do arguments.  Only the words of links are not told by how they start, since `is not`
may also be `is` and a name; but then the operands would have to be `not` and `is` in turn, and one
of the two chains ends too early (`Target.is_links_ne`).  `Target.text_eq_iff_erase_eq` is about two
expressions with the same text. -/

namespace FormLower

open Grammar

theorem IsIdentifier.ne_text {id : String} (h : IsIdentifier id) {n : Number}
    (hn : n.isFinite = true) : id.toList ≠ n.text.toList := by
  intro heq
  exact h.not_number (heq ▸ (Number.atomLeaf_text hn).numberShaped)

/-- A finite number is told by its text, an integer from a float and a zero from minus zero. -/
theorem Number.text_inj {m n : Number} (hm : m.isFinite = true) (hn : n.isFinite = true)
    (h : m.text = n.text) : m = n := by
  have hleaf := Number.atomLeaf_text hm
  rw [h] at hleaf
  have heq := (ofAtom?_eq_some_iff.mpr hleaf).symm.trans
    (ofAtom?_eq_some_iff.mpr (Number.atomLeaf_text hn))
  exact Leaf.number.inj (Option.some.inj heq)

namespace Target

variable {t u : Target}

/-! ### Operands -/

/-- Whether a tree is told by what is written for it, wherever that ends. -/
def IsTold (write : Target → String) (stops : List Char) (t : Target) : Prop :=
  ∀ u, u.IsExpression → ∀ xs ys, StopsAt stops xs → StopsAt stops ys →
    (write t).toList ++ xs = (write u).toList ++ ys → t.erase = u.erase ∧ xs = ys

theorem stopsAt_cons {stops : List Char} {c : Char} (hc : c ∈ stops) (xs : List Char) :
    StopsAt stops (c :: xs) := by
  intro d hd
  exact Option.some.inj hd ▸ hc

theorem isExpression_name {id : String} (h : IsIdentifier id) (l : Option Location) :
    IsExpression (.name id .load l) := isExpression_iff.mpr ⟨⟨rfl, h⟩, by simp [children]⟩

theorem isTold_name {id : String} (h : IsIdentifier id) (l : Option Location) :
    IsTold operandText operandStops (.name id .load l) := by
  intro u hu xs ys hxs hys heq
  obtain ⟨hlead, hmark⟩ := lead_mark_unique (isExpression_name h l) hu hxs hys heq
  cases u with
  | name id' use' =>
      obtain ⟨rfl, -⟩ := hu.node
      obtain rfl := String.toList_inj.mp hlead
      exact ⟨rfl, List.append_cancel_left heq⟩
  | number value => exact absurd hlead (h.ne_text hu.node)
  | string | call | binary | compare => cases hmark
  | _ => exact hu.node.elim

theorem isTold_number {value : Number} (h : value.isFinite = true) (l : Option Location) :
    IsTold operandText operandStops (.number value l) := by
  have ht : IsExpression (.number value l) := isExpression_iff.mpr ⟨h, by simp [children]⟩
  intro u hu xs ys hxs hys heq
  obtain ⟨hlead, hmark⟩ := lead_mark_unique ht hu hxs hys heq
  cases u with
  | name id use => exact absurd hlead.symm (hu.node.2.ne_text h)
  | number value' =>
      obtain rfl := Number.text_inj h hu.node (String.toList_inj.mp hlead)
      exact ⟨rfl, List.append_cancel_left heq⟩
  | string | call | binary | compare => cases hmark
  | _ => exact hu.node.elim

theorem isTold_string (value : String) (l : Option Location) :
    IsTold operandText operandStops (.string value l) := by
  have ht : IsExpression (.string value l) := isExpression_iff.mpr ⟨trivial, by simp [children]⟩
  intro u hu xs ys hxs hys heq
  obtain ⟨-, hmark⟩ := lead_mark_unique ht hu hxs hys heq
  cases u with
  | string value' =>
      obtain ⟨rfl, hrest⟩ := quote_unique heq
      exact ⟨rfl, hrest⟩
  | name | number | call | binary | compare => cases hmark
  | _ => exact hu.node.elim

/-- An operation stands in parentheses, which end where its text does. -/
theorem isTold_operation (ht : t.IsExpression) (hop : t.isOperation = true)
    (h : IsTold text argumentStops t) : IsTold operandText operandStops t := by
  intro u hu xs ys hxs hys heq
  obtain ⟨hlead, hmark⟩ := lead_mark_unique ht hu hxs hys heq
  have hop' : u.isOperation = true := by
    rwa [hu.isOperation_iff, ← hlead, ← hmark, ← ht.isOperation_iff]
  rw [toList_operandText hop, toList_operandText hop', List.cons_append, List.cons_append,
    List.append_assoc, List.append_assoc] at heq
  obtain ⟨herase, hrest⟩ := h u hu _ _ (stopsAt_cons (by decide) xs) (stopsAt_cons (by decide) ys)
    (List.cons.inj heq).2
  exact ⟨herase, (List.cons.inj hrest).2⟩

/-! ### Arguments -/

theorem stopsAt_arguments (as : List Target) (xs : List Char) :
    StopsAt argumentStops (as.flatMap furtherArgument ++ ')' :: xs) := by
  cases as with
  | nil => exact stopsAt_cons (by decide) xs
  | cons a as => exact stopsAt_cons (by decide) _

theorem furtherArguments_unique {as bs : List Target} (has : ∀ a ∈ as, IsTold text argumentStops a)
    (hbs : ∀ b ∈ bs, b.IsExpression) {xs ys : List Char}
    (h : as.flatMap furtherArgument ++ ')' :: xs = bs.flatMap furtherArgument ++ ')' :: ys) :
    as.map erase = bs.map erase ∧ xs = ys := by
  induction as generalizing bs with
  | nil =>
      cases bs with
      | nil => exact ⟨rfl, (List.cons.inj h).2⟩
      | cons b bs => simp [furtherArgument] at h
  | cons a as ih =>
      cases bs with
      | nil => simp [furtherArgument] at h
      | cons b bs =>
          obtain ⟨ha, has⟩ := List.forall_mem_cons.mp has
          obtain ⟨hb, hbs⟩ := List.forall_mem_cons.mp hbs
          simp only [List.flatMap_cons, furtherArgument, List.cons_append, List.append_assoc,
            List.cons.injEq, true_and] at h
          obtain ⟨herase, hrest⟩ :=
            ha b hb _ _ (stopsAt_arguments as xs) (stopsAt_arguments bs ys) h
          obtain ⟨herases, hend⟩ := ih has hbs hrest
          exact ⟨List.cons_eq_cons.mpr ⟨herase, herases⟩, hend⟩

theorem arguments_unique {as bs : List Target} (has : ∀ a ∈ as, IsTold text argumentStops a)
    (hbs : ∀ b ∈ bs, b.IsExpression) {xs ys : List Char}
    (h : (commaText (texts as)).toList ++ ')' :: xs = (commaText (texts bs)).toList ++ ')' :: ys)
    (hexpr : ∀ a ∈ as, a.IsExpression) : as.map erase = bs.map erase ∧ xs = ys := by
  cases as with
  | nil =>
      cases bs with
      | nil => exact ⟨rfl, (List.cons.inj h).2⟩
      | cons b bs =>
          rw [toList_commaText, List.append_assoc] at h
          exact absurd h.symm ((hbs b List.mem_cons_self).text_append_ne (by decide) _ _)
  | cons a as =>
      rw [toList_commaText, List.append_assoc] at h
      cases bs with
      | nil => exact absurd h ((hexpr a List.mem_cons_self).text_append_ne (by decide) _ _)
      | cons b bs =>
          rw [toList_commaText, List.append_assoc] at h
          obtain ⟨ha, has⟩ := List.forall_mem_cons.mp has
          obtain ⟨hb, hbs⟩ := List.forall_mem_cons.mp hbs
          obtain ⟨herase, hrest⟩ :=
            ha b hb _ _ (stopsAt_arguments as xs) (stopsAt_arguments bs ys) h
          obtain ⟨herases, hend⟩ := furtherArguments_unique has hbs hrest
          exact ⟨List.cons_eq_cons.mpr ⟨herase, herases⟩, hend⟩

theorem isTold_call {func : Target} {args : List Target} {l : Option Location}
    (ht : IsExpression (.call func args l)) (h : ∀ a ∈ args, IsTold text argumentStops a) :
    IsTold operandText operandStops (.call func args l) := by
  intro u hu xs ys hxs hys heq
  obtain ⟨hlead, hmark⟩ := lead_mark_unique ht hu hxs hys heq
  have hop : u.isOperation ≠ true := by
    rw [Ne, hu.isOperation_iff, ← hlead, ← hmark, ← ht.isOperation_iff]
    exact Bool.false_ne_true
  cases u with
  | call func' args' l' =>
      obtain ⟨id, k, rfl, -⟩ := ht.exists_func
      obtain ⟨id', k', rfl, -⟩ := hu.exists_func
      obtain rfl : id = id' := String.toList_inj.mp hlead
      have hargs : (commaText (texts args)).toList ++ ')' :: xs =
          (commaText (texts args')).toList ++ ')' :: ys := by
        simpa [operandText, enclose, isOperation, text] using heq
      obtain ⟨herases, hend⟩ := arguments_unique h
        (fun b hb => hu.child (List.mem_cons_of_mem _ hb)) hargs
        (fun a ha => ht.child (List.mem_cons_of_mem _ ha))
      rw [erase_eq, erase_eq (.call _ args' l')]
      simp only [mapChildren, withLocation, call.injEq, and_true]
      exact ⟨⟨rfl, herases⟩, hend⟩
  | binary | compare => exact absurd rfl hop
  | name | number | string => cases hmark
  | _ => exact hu.node.elim

/-! ### Links -/

theorem stopsAt_links (word : String) (ts : List Target) {xs : List Char}
    (h : StopsAt argumentStops xs) : StopsAt operandStops (ts.flatMap (link word) ++ xs) := by
  cases ts with
  | nil => exact fun c hc => List.mem_cons_of_mem _ (h c hc)
  | cons t ts => exact stopsAt_cons (by decide) _

theorem links_cons (word : String) (t : Target) (ts : List Target) (xs : List Char) :
    (t :: ts).flatMap (link word) ++ xs =
      ' ' :: (word.toList ++ ' ' :: (t.operandText.toList ++ (ts.flatMap (link word) ++ xs))) := by
  simp [link]

/-- What starts with a blank is a link. -/
theorem exists_link {word : String} {ts : List Target} {xs zs : List Char}
    (hxs : StopsAt argumentStops xs) (h : ts.flatMap (link word) ++ xs = ' ' :: zs) :
    ∃ t us, ts = t :: us ∧
      word.toList ++ ' ' :: (t.operandText.toList ++ (us.flatMap (link word) ++ xs)) = zs := by
  cases ts with
  | nil =>
      obtain rfl : xs = ' ' :: zs := h
      exact absurd (hxs ' ' rfl) (by decide)
  | cons t us =>
      rw [links_cons] at h
      exact ⟨t, us, rfl, (List.cons.inj h).2⟩

theorem links_unique_of_word {word : String} {ts us : List Target}
    (hts : ∀ t ∈ ts, IsTold operandText operandStops t) (hus : ∀ u ∈ us, u.IsExpression)
    {xs ys : List Char} (hxs : StopsAt argumentStops xs) (hys : StopsAt argumentStops ys)
    (h : ts.flatMap (link word) ++ xs = us.flatMap (link word) ++ ys) :
    ts.map erase = us.map erase ∧ xs = ys := by
  induction ts generalizing us with
  | nil =>
      cases us with
      | nil => exact ⟨rfl, h⟩
      | cons u us =>
          obtain ⟨_, _, heq, -⟩ := exists_link hxs h
          cases heq
  | cons t ts ih =>
      rw [links_cons] at h
      obtain ⟨u, us, rfl, hlink⟩ := exists_link hys h.symm
      obtain ⟨ht, hts⟩ := List.forall_mem_cons.mp hts
      obtain ⟨hu, hus⟩ := List.forall_mem_cons.mp hus
      have hoperand := (List.cons.inj (List.append_cancel_left hlink)).2.symm
      obtain ⟨herase, hrest⟩ :=
        ht u hu _ _ (stopsAt_links word ts hxs) (stopsAt_links word us hys) hoperand
      obtain ⟨herases, hend⟩ := ih hts hus hrest
      exact ⟨List.cons_eq_cons.mpr ⟨herase, herases⟩, hend⟩

/-- The words of operators could as well be names. -/
theorem isIdentifier_of_operator {word : String} (h : word ∈ ["is", "not"]) :
    IsIdentifier word := by
  rw [List.mem_pair] at h
  have hword : IsWord word.toList := by
    rcases h with rfl | rfl <;> simp [IsWord, IsWordChar, blanks]
  have hsymbol : isSymbol word = true := by
    rcases h with rfl | rfl <;> decide
  exact ⟨hword, (isSymbol_iff.mp hsymbol).not_number⟩

/-- Links with `is` are not links with `is not`: operands that stand for the second word would have
to be names, `not` in the one and `is` in the other, until one of the two ends. -/
theorem is_links_ne {ts us : List Target} (hts : ∀ t ∈ ts, t.IsExpression)
    (hus : ∀ u ∈ us, u.IsExpression) {xs ys : List Char} (hxs : StopsAt argumentStops xs)
    (hys : StopsAt argumentStops ys) (hne : us ≠ []) :
    ts.flatMap (link "is") ++ xs ≠ us.flatMap (link "is not") ++ ys := by
  have hwords : "is not".toList = "is".toList ++ ' ' :: "not".toList := by decide
  have hblank : ∀ zs, StopsAt operandStops (' ' :: zs) := stopsAt_cons (by decide)
  have his := isTold_name (@isIdentifier_of_operator "is" (by decide)) none
  have hnot := isTold_name (@isIdentifier_of_operator "not" (by decide)) none
  obtain ⟨u, us, rfl⟩ := List.exists_cons_of_ne_nil hne
  obtain ⟨hu, hus⟩ := List.forall_mem_cons.mp hus
  intro heq
  rw [links_cons] at heq
  -- What stands behind the first `is` is `not`, ...
  obtain ⟨t, ts, rfl, hword⟩ := exists_link hxs heq
  obtain ⟨ht, hts⟩ := List.forall_mem_cons.mp hts
  rw [hwords, List.append_assoc] at hword
  obtain ⟨-, hnext⟩ := hnot t ht _ _ (hblank _) (stopsAt_links _ ts hxs)
    (List.cons.inj (List.append_cancel_left hword)).2.symm
  -- ... so that another `is` stands behind the first `is not`, ...
  obtain ⟨t', ts', rfl, hword'⟩ := exists_link hxs hnext.symm
  obtain ⟨ht', hts'⟩ := List.forall_mem_cons.mp hts
  obtain ⟨-, hnext'⟩ := his u hu _ _ (hblank _) (stopsAt_links _ us hys) hword'
  -- ... and behind that another `is not`, of which only `is` is left for an operand.
  obtain ⟨u', us', rfl, hword''⟩ := exists_link hys hnext'.symm
  rw [hwords, List.append_assoc] at hword''
  obtain ⟨-, hnext''⟩ := his t' ht' _ _ (hblank _) (stopsAt_links _ ts' hxs) hword''
  obtain ⟨_, _, -, hlast⟩ := exists_link hxs hnext''.symm
  have hhead := congrArg List.head? hlast
  simp at hhead

/-- The words of links are told by how they start, but for `is` and `is not`. -/
theorem linkWord_unique {w w' : String} (hw : w ∈ linkWords) (hw' : w' ∈ linkWords)
    {xs ys : List Char} (h : w.toList ++ ' ' :: xs = w'.toList ++ ' ' :: ys) :
    w = w' ∨ (w = "is" ∧ w' = "is not") ∨ (w = "is not" ∧ w' = "is") := by
  have hall : ∀ w ∈ linkWords, ∀ w' ∈ linkWords,
      w.toList.takeWhile (· ≠ ' ') = w'.toList.takeWhile (· ≠ ' ') →
        w = w' ∨ (w = "is" ∧ w' = "is not") ∨ (w = "is not" ∧ w' = "is") := by
    decide +kernel
  have hfront : ∀ cs zs : List Char,
      (cs ++ ' ' :: zs).takeWhile (· ≠ ' ') = cs.takeWhile (· ≠ ' ') := by
    intro cs zs
    induction cs with
    | nil => rfl
    | cons c cs ih =>
        rw [List.cons_append, List.takeWhile_cons, List.takeWhile_cons, ih]
  refine hall w hw w' hw' ?_
  rw [← hfront, h, hfront]

/-- **Links are told up to where they end**, and so is the word that they have in common. -/
theorem links_unique {w w' : String} {ts us : List Target} (hw : ts ≠ [] → w ∈ linkWords)
    (hw' : us ≠ [] → w' ∈ linkWords) (hts : ∀ t ∈ ts, t.IsExpression)
    (htold : ∀ t ∈ ts, IsTold operandText operandStops t) (hus : ∀ u ∈ us, u.IsExpression)
    {xs ys : List Char} (hxs : StopsAt argumentStops xs) (hys : StopsAt argumentStops ys)
    (h : ts.flatMap (link w) ++ xs = us.flatMap (link w') ++ ys) :
    ts.map erase = us.map erase ∧ xs = ys ∧ (ts ≠ [] → w = w') := by
  cases ts with
  | nil =>
      cases us with
      | nil => exact ⟨rfl, h, absurd rfl⟩
      | cons u us =>
          rw [links_cons] at h
          obtain ⟨_, _, heq, -⟩ := exists_link hxs h
          cases heq
  | cons t ts =>
      have hcons := h
      rw [links_cons] at hcons
      obtain ⟨u, us, rfl, hword⟩ := exists_link hys hcons.symm
      have hne : ∀ (t : Target) ts, t :: ts ≠ [] := fun _ _ => List.cons_ne_nil _ _
      have hwords := linkWord_unique (hw (hne t ts)) (hw' (hne u us)) hword.symm
      rcases hwords with rfl | ⟨rfl, rfl⟩ | ⟨rfl, rfl⟩
      · obtain ⟨herase, hrest⟩ := links_unique_of_word htold hus hxs hys h
        exact ⟨herase, hrest, fun _ => rfl⟩
      · exact absurd h (is_links_ne hts hus hxs hys (hne u us))
      · exact absurd h.symm (is_links_ne hus hts hys hxs (hne t ts))

/-! ### Trees -/

/-- A tree is told by its text when its operands are. -/
theorem isTold_text (ht : t.IsExpression) (hfirst : IsTold operandText operandStops t.firstOperand)
    (hlater : ∀ c ∈ t.laterOperands, IsTold operandText operandStops c) :
    IsTold text argumentStops t := by
  intro u hu xs ys hxs hys heq
  rw [toList_text ht.node, toList_text hu.node, List.append_assoc, List.append_assoc] at heq
  obtain ⟨herase, hlinks⟩ := hfirst u.firstOperand hu.firstOperand _ _ (stopsAt_links _ _ hxs)
    (stopsAt_links _ _ hys) heq
  obtain ⟨herases, hrest, hword⟩ := links_unique (linkWord_mem ht.node) (linkWord_mem hu.node)
    ht.laterOperands hlater hu.laterOperands hxs hys hlinks
  exact ⟨erase_eq_of_operands ht.node hu.node herase herases hword, hrest⟩

theorem operands_of_not_isOperation (h : t.isOperation = false) :
    t.firstOperand = t ∧ t.laterOperands = [] := by
  cases t with
  | binary | compare => cases h
  | _ => exact ⟨rfl, rfl⟩

/-- **An expression is told by its text**, as an operand and as an argument. -/
theorem IsExpression.isTold (h : t.IsExpression) :
    IsTold operandText operandStops t ∧ IsTold text argumentStops t := by
  induction t using Target.induction with
  | step t ih =>
      have hchild : ∀ c ∈ t.children,
          IsTold operandText operandStops c ∧ IsTold text argumentStops c :=
        fun c hc => ih c hc (h.child hc)
      -- A tree that is no operation is its own first operand.
      have hatom : t.isOperation = false → IsTold operandText operandStops t →
          IsTold operandText operandStops t ∧ IsTold text argumentStops t := by
        intro hop htold
        obtain ⟨hfirst, hlater⟩ := operands_of_not_isOperation hop
        exact ⟨htold, isTold_text h (hfirst.symm ▸ htold) (by simp [hlater])⟩
      cases t with
      | name id use l =>
          obtain ⟨rfl, hid⟩ := h.node
          exact hatom rfl (isTold_name hid l)
      | number value l => exact hatom rfl (isTold_number h.node l)
      | string value l => exact hatom rfl (isTold_string value l)
      | call func args l =>
          exact hatom rfl (isTold_call h fun a ha => (hchild a (List.mem_cons_of_mem _ ha)).2)
      | binary | compare =>
          have htext := isTold_text h (hchild _ List.mem_cons_self).1
            fun c hc => (hchild c (List.mem_cons_of_mem _ hc)).1
          exact ⟨isTold_operation h rfl htext, htext⟩
      | _ => exact h.node.elim

/-- **Expressions are equal, their locations left out, exactly when their texts are.** -/
theorem text_eq_iff_erase_eq (ht : t.IsExpression) (hu : u.IsExpression) :
    t.text = u.text ↔ t.erase = u.erase := by
  constructor
  · intro h
    have hend : StopsAt argumentStops [] := by simp [StopsAt]
    exact (ht.isTold.2 u hu [] [] hend hend (by rw [h])).1
  · intro h
    rw [← text_erase t, h, text_erase]

/-- A comparison of names that are words of operators, with its location and without. -/
theorem text_eq_iff_erase_eq_is :
    (Target.compare (.name "is" .load none) [.notSame] [.name "not" .load none]
        (some ⟨"m", 1, 1⟩)).erase =
      (Target.compare (.name "is" .load none) [.notSame] [.name "not" .load none] none).erase := by
  have hexpr : ∀ l, IsExpression
      (.compare (.name "is" .load none) [.notSame] [.name "not" .load none] l) := by
    intro l
    simp [IsExpression, nodes, nodesAll, IsExpressionNode, isIdentifier_of_operator]
  exact (text_eq_iff_erase_eq (hexpr _) (hexpr _)).mp rfl

end Target

end FormLower
