import FormLower.Json.Parser
import FormLower.Proofs.Json.Scanning

/-! # Reading what is written

The machine that reads tokens is left after a value when it has read the tokens of the value,
whatever is open around it.  For an array or an object this is an induction on its items or
members, with those read so far on the stack.  So what is written for a value is read as that value
(`parse?_render`). -/

namespace FormLower
namespace Json

namespace Machine

variable {m m' : Machine} {t : Token} {ts rest : List Token} {stack : List Frame}

theorem run_cons (h : m.step t = some m') : m.run (t :: ts) = m'.run ts := by
  rw [run, h]

/-- The machine reads a value wherever one may stand. -/
def Reads (j : Json) : Prop :=
  ∀ stack rest, run ⟨stack, .value⟩ (j.tokens ++ rest) = run ⟨stack, .after j⟩ rest

/-! ### Arrays -/

/-- The first token of a value closes no array. -/
theorem head_tokens (j : Json) : ∃ t ts, j.tokens = t :: ts ∧ t ≠ .closeArray := by
  cases j <;> simp [tokens]

/-- At its beginning an array that is not empty is read like the rest of one. -/
theorem run_firstItem {held : List Json} (ht : t ≠ .closeArray) :
    run ⟨.array held :: stack, .firstItem⟩ (t :: ts) =
      run ⟨.array held :: stack, .value⟩ (t :: ts) := by
  have hstep : step ⟨.array held :: stack, .firstItem⟩ t =
      step ⟨.array held :: stack, .value⟩ t := by
    cases t with
    | closeArray => exact absurd rfl ht
    | _ => rfl
  rw [run, run, hstep]

theorem run_items {item : Json} {items : List Json} (h : ∀ j ∈ item :: items, Reads j)
    (held : List Json) :
    run ⟨.array held :: stack, .value⟩
        ([.comma].intercalate (tokensOfItems (item :: items)) ++ .closeArray :: rest) =
      run ⟨stack, .after (.array (held.reverse ++ item :: items))⟩ rest := by
  induction items generalizing item held with
  | nil =>
      obtain ⟨hitem, -⟩ := List.forall_mem_cons.mp h
      have hclose : step ⟨.array held :: stack, .after item⟩ .closeArray =
          some ⟨stack, .after (.array (item :: held).reverse)⟩ := rfl
      simp only [tokensOfItems, List.intercalate_singleton]
      rw [hitem, run_cons hclose, List.reverse_cons]
  | cons next items ih =>
      obtain ⟨hitem, hitems⟩ := List.forall_mem_cons.mp h
      have hcomma : step ⟨.array held :: stack, .after item⟩ .comma =
          some ⟨.array (item :: held) :: stack, .value⟩ := rfl
      have hrest := ih hitems (item :: held)
      simp only [tokensOfItems, List.intercalate_cons_cons, List.append_assoc] at hrest ⊢
      rw [hitem, List.singleton_append, run_cons hcomma, hrest, List.reverse_cons,
        List.append_assoc, List.singleton_append]

theorem reads_array {items : List Json} (h : ∀ j ∈ items, Reads j) : Reads (.array items) := by
  intro stack rest
  have hopen : step ⟨stack, .value⟩ .openArray = some ⟨.array [] :: stack, .firstItem⟩ := rfl
  simp only [tokens, List.cons_append, List.append_assoc, List.nil_append]
  rw [run_cons hopen]
  cases items with
  | nil => rfl
  | cons item items =>
      obtain ⟨t, ts, htokens, ht⟩ := head_tokens item
      obtain ⟨ts', hts'⟩ : ∃ ts', [.comma].intercalate (tokensOfItems (item :: items)) ++
          .closeArray :: rest = t :: ts' := by
        cases items <;> simp [tokensOfItems, htokens]
      have hitems := @run_items rest stack item items h []
      rw [hts'] at hitems ⊢
      rw [run_firstItem ht, hitems]
      rfl

/-! ### Objects -/

theorem run_name {name : String} {held : List (String × Json)} :
    run ⟨stack, .name held⟩ (.string name :: .colon :: ts) =
      run ⟨.object held name :: stack, .value⟩ ts := by
  have hname : step ⟨stack, .name held⟩ (.string name) = some ⟨stack, .colon held name⟩ := by
    cases held <;> rfl
  have hcolon : step ⟨stack, .colon held name⟩ .colon =
      some ⟨.object held name :: stack, .value⟩ := rfl
  rw [run_cons hname, run_cons hcolon]

theorem run_members {member : String × Json} {members : List (String × Json)}
    (h : ∀ m ∈ member :: members, Reads m.2) (held : List (String × Json)) :
    run ⟨stack, .name held⟩
        ([.comma].intercalate (tokensOfMembers (member :: members)) ++ .closeObject :: rest) =
      run ⟨stack, .after (.object (held.reverse ++ member :: members))⟩ rest := by
  obtain ⟨name, value⟩ := member
  induction members generalizing name value held with
  | nil =>
      obtain ⟨hvalue, -⟩ := List.forall_mem_cons.mp h
      have hclose : step ⟨.object held name :: stack, .after value⟩ .closeObject =
          some ⟨stack, .after (.object ((name, value) :: held).reverse)⟩ := rfl
      simp only [tokensOfMembers, List.intercalate_singleton, List.cons_append]
      rw [run_name, hvalue, run_cons hclose, List.reverse_cons]
  | cons next members ih =>
      obtain ⟨hvalue, hmembers⟩ := List.forall_mem_cons.mp h
      have hcomma : step ⟨.object held name :: stack, .after value⟩ .comma =
          some ⟨stack, .name ((name, value) :: held)⟩ := rfl
      have hrest := ih ((name, value) :: held) next.1 next.2 hmembers
      simp only [tokensOfMembers, List.intercalate_cons_cons, List.append_assoc,
        List.cons_append, List.nil_append] at hrest ⊢
      rw [run_name, hvalue, run_cons hcomma, hrest, List.reverse_cons, List.append_assoc,
        List.singleton_append]

theorem reads_object {members : List (String × Json)} (h : ∀ member ∈ members, Reads member.2) :
    Reads (.object members) := by
  intro stack rest
  have hopen : step ⟨stack, .value⟩ .openObject = some ⟨stack, .name []⟩ := rfl
  simp only [tokens, List.cons_append, List.append_assoc, List.nil_append]
  rw [run_cons hopen]
  cases members with
  | nil => rfl
  | cons member members => exact run_members h []

end Machine

/-! ### Values -/

theorem Storable.reads {j : Json} (h : j.Storable) : Machine.Reads j := by
  induction h with
  | null | bool | integer | float | string => exact fun _ _ => rfl
  | array _ ih => exact Machine.reads_array ih
  | object _ ih => exact Machine.reads_object ih

theorem parse?_of_tokens {j : Json} (h : j.Storable) {text : String}
    (htext : tokens? text.toList = some j.tokens) : parse? text = some j := by
  have hrun : Machine.run ⟨[], .value⟩ j.tokens = some ⟨[], .after j⟩ := by
    rw [← List.append_nil j.tokens, h.reads]
    rfl
  simp only [parse?, htext, Option.bind_eq_bind, Option.bind_some, hrun]

/-- **What is written for a value is read as that value**, in whichever style. -/
theorem parse?_render {j : Json} (h : j.Storable) {style : Style} (hstyle : style.IsBlank) :
    parse? (j.render style 0) = some j :=
  parse?_of_tokens h (tokens?_render h hstyle)

end Json
end FormLower
