import FormLower.Proofs.Erasure
import FormLower.Proofs.Surface.Dump

/-! # How expressions are written

An operation is written as its first operand and links, each of them a word and an operand
(`Target.toList_text`).  Operands that are operations stand in parentheses.  The others start with
a word or a quote, so that two operands which are written alike start alike
(`Target.lead_mark_unique`). -/

namespace FormLower

open Grammar

/-- A word that is not read as a number can be the identifier of a name. -/
structure IsIdentifier (id : String) : Prop where
  word : IsWord id.toList
  not_number : ¬ NumberShaped id.toList

theorem Arithmetic.symbol_inj {op op' : Arithmetic} (h : op.symbol = op'.symbol) : op = op' := by
  cases op <;> cases op' <;> first | rfl | simp [symbol] at h

theorem Comparison.text_inj {op op' : Comparison} (h : op.text = op'.text) : op = op' := by
  cases op <;> cases op' <;> first | rfl | simp [text, symbol] at h

theorem Arithmetic.symbol_ne_text (op : Arithmetic) (op' : Comparison) :
    op.symbol ≠ op'.text := by
  cases op <;> cases op' <;> simp [symbol, Comparison.text, Comparison.symbol]

namespace Target

/-! ### Expressions -/

/-- Whether a tree, apart from the trees below it, is of an expression: a name that is read, a
string, a finite number, a call of a name, an operation, or a comparison with one operator between
all its operands. -/
def IsExpressionNode : Target → Prop
  | .name id use _ => use = .load ∧ IsIdentifier id
  | .string _ _ => True
  | .number value _ => value.isFinite = true
  | .call func _ _ => func.identifier?.isSome = true
  | .binary _ _ _ _ => True
  | .compare _ ops comparators _ =>
    comparators ≠ [] ∧ ∃ op, ops = List.replicate comparators.length op
  | _ => False

/-- Whether a tree is an expression throughout. -/
def IsExpression (t : Target) : Prop := ∀ k ∈ t.nodes, k.IsExpressionNode

variable {t u : Target}

theorem isExpression_iff :
    t.IsExpression ↔ t.IsExpressionNode ∧ ∀ c ∈ t.children, c.IsExpression := by
  simp only [IsExpression, nodes_eq t, List.forall_mem_cons, List.mem_flatMap]
  refine and_congr_right fun _ => ⟨fun h c hc k hk => h k ⟨c, hc, hk⟩, fun h k hk => ?_⟩
  obtain ⟨c, hc, hk⟩ := hk
  exact h c hc k hk

theorem IsExpression.node (h : t.IsExpression) : t.IsExpressionNode := (isExpression_iff.mp h).1

theorem IsExpression.child (h : t.IsExpression) {c : Target} (hc : c ∈ t.children) :
    c.IsExpression := (isExpression_iff.mp h).2 c hc

theorem IsExpression.exists_func {func : Target} {args : List Target} {l : Option Location}
    (h : (Target.call func args l).IsExpression) :
    ∃ id l', func = .name id .load l' ∧ IsIdentifier id := by
  have hname : func.identifier?.isSome = true := h.node
  have hfunc := (h.child List.mem_cons_self).node
  cases func with
  | name id use l' =>
      obtain ⟨rfl, hid⟩ := hfunc
      exact ⟨id, l', rfl, hid⟩
  | _ => cases hname

/-! ### Operands and links -/

/-- What stands first in an operation; another tree stands alone. -/
def firstOperand : Target → Target
  | .binary left _ _ _ => left
  | .compare left _ _ _ => left
  | t => t

/-- The operands of an operation after the first. -/
def laterOperands : Target → List Target
  | .binary _ _ right _ => [right]
  | .compare _ _ comparators _ => comparators
  | _ => []

/-- What is written between the operands of an operation. -/
def linkWord : Target → String
  | .binary _ op _ _ => op.symbol
  | .compare _ ops _ _ => (ops.head?.map Comparison.text).getD ""
  | _ => ""

/-- What may be written between operands. -/
def linkWords : List String :=
  Arithmetic.all.map Arithmetic.symbol ++ Comparison.all.map Comparison.text

/-- An operand with the word that joins it to what stands before. -/
def link (word : String) (t : Target) : List Char :=
  ' ' :: (word.toList ++ ' ' :: t.operandText.toList)

theorem toList_chainText (op : Comparison) (ts : List Target) (s : String) :
    (chainText s (List.replicate ts.length op) (ts.map operandText)).toList =
      s.toList ++ ts.flatMap (link op.text) := by
  unfold chainText
  induction ts generalizing s with
  | nil => simp
  | cons t ts ih =>
      rw [List.length_cons, List.replicate_succ, List.map_cons, List.zip_cons_cons,
        List.foldl_cons, ih]
      simp [link]

theorem linkWord_compare {left : Target} {comparators : List Target} {l : Option Location}
    (op : Comparison) (hne : comparators ≠ []) :
    linkWord (.compare left (List.replicate comparators.length op) comparators l) = op.text := by
  cases comparators with
  | nil => exact absurd rfl hne
  | cons c cs => rfl

/-- A tree is written as its first operand and a link for each of the others. -/
theorem toList_text (h : t.IsExpressionNode) :
    t.text.toList =
      t.firstOperand.operandText.toList ++ t.laterOperands.flatMap (link t.linkWord) := by
  cases t with
  | binary left op right =>
      simp [text, firstOperand, laterOperands, linkWord, link, operandText]
  | compare left ops comparators =>
      obtain ⟨hne, op, rfl⟩ := h
      rw [text, operandTexts_eq_map, toList_chainText, linkWord_compare op hne]
      rfl
  | _ => simp [firstOperand, laterOperands, operandText, isOperation, enclose]

theorem toList_operandText (h : t.isOperation = true) :
    t.operandText.toList = '(' :: (t.text.toList ++ [')']) := by
  simp [operandText, enclose, h]

theorem IsExpression.firstOperand (h : t.IsExpression) : t.firstOperand.IsExpression := by
  cases t with
  | binary | compare => exact h.child List.mem_cons_self
  | _ => exact h

theorem IsExpression.laterOperands (h : t.IsExpression) :
    ∀ c ∈ t.laterOperands, c.IsExpression := by
  intro c hc
  cases t with
  | binary | compare => exact h.child (List.mem_cons_of_mem _ hc)
  | _ => cases hc

theorem linkWord_mem (h : t.IsExpressionNode) (hne : t.laterOperands ≠ []) :
    t.linkWord ∈ linkWords := by
  have hsymbol : ∀ op : Arithmetic, op.symbol ∈ linkWords := by rintro (_ | _) <;> decide
  have htext : ∀ op : Comparison, op.text ∈ linkWords := by rintro (_ | _) <;> decide
  cases t with
  | binary left op right => exact hsymbol op
  | compare left ops comparators =>
      obtain ⟨hcomparators, op, rfl⟩ := h
      rw [linkWord_compare op hcomparators]
      exact htext op
  | _ => exact absurd rfl hne

theorem erase_eq_of_operands (ht : t.IsExpressionNode) (hu : u.IsExpressionNode)
    (hfirst : t.firstOperand.erase = u.firstOperand.erase)
    (hlater : t.laterOperands.map erase = u.laterOperands.map erase)
    (hword : t.laterOperands ≠ [] → t.linkWord = u.linkWord) : t.erase = u.erase := by
  cases t with
  | binary left op right =>
      cases u with
      | binary left' op' right' =>
          obtain rfl := Arithmetic.symbol_inj (hword (by simp [laterOperands]))
          obtain ⟨hright, -⟩ := List.cons.inj hlater
          rw [erase_eq, erase_eq (.binary left' op right' _)]
          simp only [mapChildren, withLocation, binary.injEq, and_true, true_and]
          exact ⟨hfirst, hright⟩
      | compare left' ops comparators =>
          obtain ⟨hne, op', rfl⟩ := hu
          have hwords := hword (by simp [laterOperands])
          rw [linkWord_compare op' hne] at hwords
          exact absurd hwords (op.symbol_ne_text op')
      | _ => cases hlater
  | compare left ops comparators =>
      obtain ⟨hne, op, rfl⟩ := ht
      have hwords := hword hne
      rw [linkWord_compare op hne] at hwords
      cases u with
      | binary left' op' right' => exact absurd hwords.symm (op'.symbol_ne_text op)
      | compare left' ops' comparators' =>
          obtain ⟨hne', op', rfl⟩ := hu
          rw [linkWord_compare op' hne'] at hwords
          obtain rfl := Comparison.text_inj hwords
          have hlength : comparators.length = comparators'.length := by
            simpa [laterOperands] using congrArg List.length hlater
          rw [erase_eq, erase_eq (.compare left' _ comparators' _), hlength]
          simp only [mapChildren, withLocation, compare.injEq, and_true, true_and]
          exact ⟨hfirst, hlater⟩
      | _ => exact absurd (List.map_eq_nil_iff.mp hlater) hne
  | _ =>
      cases u with
      | binary => cases hlater
      | compare left' ops' comparators' =>
          exact absurd (List.map_eq_nil_iff.mp hlater.symm) hu.1
      | _ => exact hfirst

/-! ### Arguments -/

/-- An argument after the first. -/
def furtherArgument (t : Target) : List Char := ',' :: ' ' :: t.text.toList

theorem toList_commaText (a : Target) (as : List Target) :
    (commaText (texts (a :: as))).toList = a.text.toList ++ as.flatMap furtherArgument := by
  rw [commaText, String.toList_intercalate, texts, texts_eq_map, List.map_cons]
  induction as generalizing a with
  | nil => simp [List.intercalate]
  | cons b as ih =>
      rw [List.map_cons, List.map_cons, List.intercalate_cons_cons, ih, List.flatMap_cons]
      simp [furtherArgument]

/-! ### How operands start -/

/-- The word that an operand starts with, if it does. -/
def lead : Target → List Char
  | .name id _ _ => id.toList
  | .number value _ => value.text.toList
  | .call func _ _ => func.text.toList
  | _ => []

/-- What stands behind the word that an operand starts with. -/
def mark : Target → Option Char
  | .string _ _ => some '"'
  | .call _ _ _ => some '('
  | .binary _ _ _ _ => some '('
  | .compare _ _ _ _ => some '('
  | _ => none

/-- Whether nothing follows, or first one of these characters. -/
def StopsAt (stops xs : List Char) : Prop := ∀ c, xs.head? = some c → c ∈ stops

/-- What may follow an operand. -/
def operandStops : List Char := [' ', ',', ')']

/-- What may follow an argument. -/
def argumentStops : List Char := [',', ')']

theorem IsExpression.exists_lead (h : t.IsExpression) :
    ∃ tail, t.operandText.toList = t.lead ++ tail ∧ tail.head? = t.mark ∧
      (∀ c ∈ t.lead, IsWordChar c) ∧ (t.mark = none → t.lead ≠ []) := by
  cases t with
  | name id use l =>
      obtain ⟨-, hid⟩ := h.node
      refine ⟨[], ?_, rfl, hid.word.2, fun _ => hid.word.1⟩
      simp [operandText, enclose, isOperation, text, lead]
  | number value l =>
      have hword := value.isWord_text
      refine ⟨[], ?_, rfl, hword.2, fun _ => hword.1⟩
      simp [operandText, enclose, isOperation, text, lead]
  | string value l =>
      refine ⟨(quote value).toList, ?_, ?_, by simp [lead], by simp [mark]⟩
      · simp [operandText, enclose, isOperation, text, lead]
      · simp [quote, mark]
  | call func args l =>
      obtain ⟨id, l', rfl, hid⟩ := h.exists_func
      refine ⟨'(' :: ((commaText (texts args)).toList ++ [')']), ?_, rfl, hid.word.2, ?_⟩
      · simp [operandText, enclose, isOperation, text, lead]
      · simp [mark]
  | binary | compare => exact ⟨_, toList_operandText rfl, rfl, by simp [lead], by simp [mark]⟩
  | _ => exact h.node.elim

/-- What stands behind a word is no part of it, and cannot follow an operand. -/
theorem not_isWordChar_of_mark {c : Char} (h : t.mark = some c) :
    ¬ IsWordChar c ∧ c ∉ operandStops := by
  cases t <;> simp only [mark, Option.some.injEq, reduceCtorEq] at h <;> subst h <;> decide

theorem not_isWordChar_of_stop {c : Char} (h : c ∈ operandStops) : ¬ IsWordChar c := by
  simp only [operandStops, List.mem_cons, List.not_mem_nil, or_false] at h
  rcases h with rfl | rfl | rfl <;> decide

theorem ends_of_stopsAt {xs : List Char} (h : StopsAt operandStops xs) : Ends xs :=
  fun c hc => not_isWordChar_of_stop (h c hc)

theorem ends_of_mark {tail xs : List Char} (h : tail.head? = t.mark)
    (hxs : StopsAt operandStops xs) : Ends (tail ++ xs) := by
  cases tail with
  | nil => exact ends_of_stopsAt hxs
  | cons c tail => exact ends_cons (not_isWordChar_of_mark h.symm).1 _

/-- Two operands that are written alike start with the same word, and the same stands behind it. -/
theorem lead_mark_unique (ht : t.IsExpression) (hu : u.IsExpression) {xs ys : List Char}
    (hxs : StopsAt operandStops xs) (hys : StopsAt operandStops ys)
    (h : t.operandText.toList ++ xs = u.operandText.toList ++ ys) :
    t.lead = u.lead ∧ t.mark = u.mark := by
  obtain ⟨tail, htail, hmark, hlead, -⟩ := ht.exists_lead
  obtain ⟨tail', htail', hmark', hlead', -⟩ := hu.exists_lead
  rw [htail, htail', List.append_assoc, List.append_assoc] at h
  have hword : u.lead = t.lead :=
    Peg.word_unique h hlead (ends_of_mark hmark hxs) hlead' (ends_of_mark hmark' hys)
  rw [hword, List.append_cancel_left_eq] at h
  have hhead := congrArg List.head? h
  rw [List.head?_append, List.head?_append, hmark, hmark'] at hhead
  refine ⟨hword.symm, ?_⟩
  cases hm : t.mark with
  | none =>
      cases hm' : u.mark with
      | none => rfl
      | some c =>
          rw [hm, hm'] at hhead
          exact absurd (hxs c hhead) (not_isWordChar_of_mark hm').2
  | some c =>
      cases hm' : u.mark with
      | none =>
          rw [hm, hm'] at hhead
          exact absurd (hys c hhead.symm) (not_isWordChar_of_mark hm).2
      | some d =>
          rw [hm, hm'] at hhead
          exact hhead

/-- An operation starts with the parenthesis that it stands in, and nothing else does. -/
theorem IsExpression.isOperation_iff (h : t.IsExpression) :
    t.isOperation = true ↔ t.lead = [] ∧ t.mark = some '(' := by
  cases t with
  | call func args l =>
      obtain ⟨id, l', rfl, hid⟩ := h.exists_func
      simp [isOperation, lead, text, hid.word.1]
  | name | number | string | binary | compare => simp [isOperation, lead, mark]
  | _ => exact h.node.elim

/-- No operand starts like what may follow one. -/
theorem IsExpression.operandText_append_ne (h : t.IsExpression) {c : Char} (hc : c ∈ operandStops)
    (xs ys : List Char) : t.operandText.toList ++ xs ≠ c :: ys := by
  obtain ⟨tail, htail, hmark, hlead, hne⟩ := h.exists_lead
  intro heq
  rw [htail, List.append_assoc] at heq
  cases hl : t.lead with
  | nil =>
      rw [hl] at heq hne
      cases tail with
      | nil => exact hne hmark.symm rfl
      | cons d tail =>
          obtain rfl := (List.cons.inj heq).1
          exact (not_isWordChar_of_mark hmark.symm).2 hc
  | cons d ds =>
      rw [hl] at heq hlead
      obtain rfl := (List.cons.inj heq).1
      exact not_isWordChar_of_stop hc (hlead _ List.mem_cons_self)

theorem IsExpression.text_append_ne (h : t.IsExpression) {c : Char} (hc : c ∈ operandStops)
    (xs ys : List Char) : t.text.toList ++ xs ≠ c :: ys := by
  rw [toList_text h.node, List.append_assoc]
  exact h.firstOperand.operandText_append_ne hc _ ys

end Target

end FormLower
