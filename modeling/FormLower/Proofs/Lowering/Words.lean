import FormLower.Lowering.Lowered
import FormLower.Program
import FormLower.Proofs.Lowering.Tables
import FormLower.Proofs.Trees

/-! # Words

The words of a tree are what its leaves say, read from left to right: identifiers, strings and
numbers.  Source trees say more than their leaves alone: a head that names no form is an identifier,
and what stands in a binding position is one whatever kind of leaf it is.  Target trees keep the
names of functions apart from their children, and everything else in leaves. -/

namespace FormLower

/-- What a leaf says. -/
inductive Word where
  | identifier (name : String)
  | string (value : String)
  | number (value : Number)

/-! ### Target trees -/

namespace Target

/-- The words that a tree has apart from those of its children. -/
def ownWords : Target → List Word
  | .name id _ _ => [.identifier id]
  | .string value _ => [.string value]
  | .number value _ => [.number value]
  | .function id _ _ _ => [.identifier id]
  | _ => []

mutual

/-- The words of a tree in order. -/
def words : Target → List Word
  | .name id _ _ => [.identifier id]
  | .string value _ => [.string value]
  | .number value _ => [.number value]
  | .call func args _ => func.words ++ allWords args
  | .binary left _ right _ => left.words ++ right.words
  | .compare left _ comparators _ => left.words ++ allWords comparators
  | .branch test body orelse _ => test.words ++ (allWords body ++ allWords orelse)
  | .ret value _ => value.words
  | .assign target value _ => target.words ++ value.words
  | .function id params body _ => .identifier id :: (allWords params ++ allWords body)
  | .print values _ _ => allWords values
  | .statement value _ => value.words

def allWords : List Target → List Word
  | [] => []
  | t :: ts => t.words ++ allWords ts

end

theorem allWords_eq_flatMap : ∀ ts : List Target, allWords ts = ts.flatMap words
  | [] => rfl
  | t :: ts => by rw [allWords, allWords_eq_flatMap ts, List.flatMap_cons]

theorem words_eq (t : Target) : t.words = t.ownWords ++ t.children.flatMap words := by
  cases t <;> simp [words, ownWords, children, allWords_eq_flatMap]

/-- Locations are no words: letting a tree inherit one changes none. -/
theorem words_inherit (above : Location) (t : Target) : (t.inherit above).words = t.words := by
  induction t using Target.induction generalizing above with
  | step t ih =>
      have hown : (t.inherit above).ownWords = t.ownWords := by
        cases t <;> rfl
      rw [words_eq, hown, children_inherit, List.flatMap_map, words_eq t]
      congr 1
      exact congrArg List.flatten (List.map_congr_left fun c hc => ih c hc _)

end Target

def Program.words (p : Program) : List Word := p.body.flatMap Target.words

theorem Program.words_located (p : Program) : p.located.words = p.words := by
  rw [words, located, List.flatMap_map]
  exact congrArg List.flatten (List.map_congr_left fun t _ => t.words_inherit _)

def Lowered.words (r : Lowered) : List Word := r.statements.flatMap Target.words

@[simp] theorem Lowered.words_single (t : Target) : (Lowered.single t).words = t.words :=
  List.append_nil _

@[simp] theorem Lowered.words_sequence (ts : List Target) :
    (Lowered.sequence ts).words = ts.flatMap Target.words := rfl

theorem Lowered.flatMap_words_single (ts : List Target) :
    (ts.map .single).flatMap Lowered.words = ts.flatMap Target.words := by
  rw [List.flatMap_map]
  exact congrArg List.flatten (List.map_congr_left fun t _ => words_single t)

/-! ### Source trees -/

/-- The word of a leaf that stands for a value: truth values are identifiers. -/
def Leaf.word : Leaf → Word
  | .symbol name => .identifier name
  | .string value => .string value
  | .number value => .number value
  | .bool value => .identifier (boolName value)

namespace Source

/-- How many of its arguments a head binds. -/
def binders (head : String) : Nat :=
  if head = "def" then 1 else if head = "defn" then 2 else 0

/-- The word of a head, which has one only if it names no form. -/
def headWords (head : String) : List Word :=
  if head ∈ formHeads then [] else [.identifier head]

mutual

/-- The words of a tree in order. -/
def words : Source → List Word
  | .leaf value _ => [value.word]
  | .call head args _ => headWords head ++ argWords (binders head) args
  | .list elements _ => argWords 0 elements

/-- The words of a tree in a binding position: a leaf is an identifier there, and so are the
elements of a list. -/
def boundWords : Source → List Word
  | .leaf value _ => [.identifier value.rawText]
  | .call head args _ => headWords head ++ argWords (binders head) args
  | .list elements _ => argWords elements.length elements

/-- The words of arguments in order, of which the first `n` stand in binding positions. -/
def argWords : Nat → List Source → List Word
  | _, [] => []
  | 0, s :: ss => s.words ++ argWords 0 ss
  | n + 1, s :: ss => s.boundWords ++ argWords n ss

end

theorem argWords_zero : ∀ ss : List Source, argWords 0 ss = ss.flatMap words
  | [] => rfl
  | s :: ss => by rw [argWords, argWords_zero ss, List.flatMap_cons]

theorem argWords_length : ∀ ss : List Source, argWords ss.length ss = ss.flatMap boundWords
  | [] => rfl
  | s :: ss => by rw [List.length_cons, argWords, argWords_length ss, List.flatMap_cons]

/-- A head that binds nothing takes the words of its arguments as they are. -/
theorem words_call {head : String} {args : List Source} {place : Place} (h : head ≠ "def")
    (h' : head ≠ "defn") :
    (Source.call head args place).words = headWords head ++ args.flatMap words := by
  rw [words, binders, if_neg h, if_neg h', argWords_zero]

/-- The head of a special form is no word. -/
theorem words_special {head : String} {args : List Source} {place : Place} {form : SpecialForm}
    (hm : Forms.default.meaning head = .special form) :
    (Source.call head args place).words = args.flatMap words := by
  have hform : head ∈ formHeads := by
    refine Decidable.byContradiction fun h => ?_
    rw [Forms.meaning_eq_call_iff.mpr h] at hm
    cases hm
  have hdef : head ≠ "def" := by
    rintro rfl
    rw [Forms.meaning_eq_define_iff.mpr rfl] at hm
    cases hm
  have hdefn : head ≠ "defn" := by
    rintro rfl
    rw [Forms.meaning_eq_function_iff.mpr rfl] at hm
    cases hm
  rw [words_call hdef hdefn, headWords, if_pos hform, List.nil_append]

theorem words_other {head : String} {args : List Source} {place : Place}
    (hm : Forms.default.meaning head = .call) :
    (Source.call head args place).words = .identifier head :: args.flatMap words := by
  have hform : head ∉ formHeads := Forms.meaning_eq_call_iff.mp hm
  rw [words_call (by rintro rfl; exact hform (by decide))
    (by rintro rfl; exact hform (by decide)), headWords, if_neg hform, List.singleton_append]

theorem words_define {name value : Source} {extra : List Source} {place : Place} :
    (Source.call "def" (name :: value :: extra) place).words =
      name.boundWords ++ (value.words ++ extra.flatMap words) := by
  have hhead : headWords "def" = [] := rfl
  have hbinders : binders "def" = 1 := rfl
  rw [words, hhead, hbinders, List.nil_append, argWords, argWords_zero, List.flatMap_cons]

theorem words_function {name : Source} {params bodies : List Source} {paramsPlace place : Place} :
    (Source.call "defn" (name :: .list params paramsPlace :: bodies) place).words =
      name.boundWords ++ (params.flatMap boundWords ++ bodies.flatMap words) := by
  have hhead : headWords "defn" = [] := rfl
  have hbinders : binders "defn" = 2 := rfl
  rw [words, hhead, hbinders, List.nil_append, argWords, argWords, boundWords, argWords_length,
    argWords_zero]

end Source

end FormLower
