import FormLower.Lowering.Structural

/-! # Arguments read as they stand

When a form reads its arguments with success, and what it has read then.  Every step takes what it
gives from the front of the rest; `binding_run_eq_ok_iff` and `signature_run_eq_ok_iff` put the
steps of the two definitions together.  `binding_run_eq_error_iff` and `signature_run_eq_error_iff`
say in the same way which arguments cannot be read, and what is wrong with them. -/

namespace FormLower
namespace Reading

variable {ρ α β : Type} {c c' : Cursor ρ}

/-! ### Steps -/

theorem pure_eq_ok_iff {a b : α} :
    (pure a : Reading ρ α) c = (.ok b, c') ↔ b = a ∧ c' = c := by
  change ((.ok a, c) : Except LoweringError α × Cursor ρ) = _ ↔ _
  simp [eq_comm]

theorem bind_eq_of_ok {x : Reading ρ α} {f : α → Reading ρ β} {a : α} (h : x c = (.ok a, c')) :
    (x >>= f) c = f a c' := by
  simp only [bind, h]

theorem bind_eq_of_error {x : Reading ρ α} {f : α → Reading ρ β} {e : LoweringError}
    (h : x c = (.error e, c')) : (x >>= f) c = (.error e, c') := by
  simp only [bind, h]

theorem bind_eq_ok_iff {x : Reading ρ α} {f : α → Reading ρ β} {b : β} :
    (x >>= f) c = (.ok b, c') ↔ ∃ a d, x c = (.ok a, d) ∧ f a d = (.ok b, c') := by
  cases hx : x c with
  | mk result d =>
      cases result with
      | error e => simp [bind_eq_of_error hx]
      | ok a =>
          rw [bind_eq_of_ok hx]
          constructor
          · exact fun h => ⟨a, d, rfl, h⟩
          · rintro ⟨a', d', heq, h⟩
            cases heq
            exact h

theorem fail_ne_ok {e : Cursor ρ → LoweringError} {a : α} : fail e c ≠ (.ok a, c') := by
  simp [fail]

/-- The cursor after some arguments have been taken. -/
def advance (c : Cursor ρ) (as rest : List (Argument ρ)) : Cursor ρ :=
  { c with taken := c.taken ++ as, rest := rest }

theorem next_eq_ok_iff {a : Argument ρ} :
    next c = (.ok a, c') ↔ ∃ rest, c.rest = a :: rest ∧ c' = advance c [a] rest := by
  unfold next
  cases hrest : c.rest with
  | nil => simp
  | cons b rest =>
      constructor
      · intro h
        cases h
        exact ⟨rest, rfl, rfl⟩
      · rintro ⟨rest', heq, rfl⟩
        cases heq
        rfl

theorem nextIf_eq_some_iff {wanted : Source → Bool} {a : Argument ρ} :
    nextIf wanted c = (.ok (some a), c') ↔
      ∃ rest, c.rest = a :: rest ∧ wanted a.source ∧ c' = advance c [a] rest := by
  unfold nextIf
  cases hrest : c.rest with
  | nil => simp
  | cons b rest =>
      by_cases hb : wanted b.source = true
      · simp only [hb, if_true]
        constructor
        · intro h
          cases h
          exact ⟨rest, rfl, hb, rfl⟩
        · rintro ⟨rest', heq, -, rfl⟩
          cases heq
          rfl
      · simp only [hb]
        simp only [Bool.false_eq_true, if_false, Prod.mk.injEq, Except.ok.injEq, reduceCtorEq,
          false_and, false_iff]
        rintro ⟨rest', heq, ha, -⟩
        cases heq
        exact hb ha

theorem nextIf_eq_none_iff {wanted : Source → Bool} :
    nextIf wanted c = (.ok none, c') ↔
      (∀ a, c.rest.head? = some a → wanted a.source = false) ∧ c' = c := by
  unfold nextIf
  cases hrest : c.rest with
  | nil =>
      simp only [List.head?_nil, reduceCtorEq, false_implies, implies_true, true_and,
        Prod.mk.injEq]
      exact eq_comm
  | cons b rest =>
      cases hb : wanted b.source with
      | true => simp [hb]
      | false =>
          simp only [Bool.false_eq_true, if_false, Prod.mk.injEq, true_and, List.head?_cons,
            Option.some.injEq, forall_eq', hb]
          exact eq_comm

theorem require_eq_ok_iff {count : UInt64} {u : Unit} :
    require count c = (.ok u, c') ↔ count.toNat ≤ c.rest.length ∧ c' = c := by
  unfold require
  split
  · next h => simp [Nat.not_le.mpr h]
  · next h => simp [Nat.not_lt.mp h, eq_comm]

/-- A name together with a tree that it is the raw text of. -/
def Names (n : Named) : Prop := n.2.rawText? = some n.1

theorem asName_eq_ok_iff {what : String} {s : Source} {n : Named} :
    asName what s c = (.ok n, c') ↔ n.2 = s ∧ Names n ∧ c' = c := by
  unfold asName
  cases hs : s.rawText? with
  | none =>
      simp only [fail_ne_ok, false_iff]
      rintro ⟨rfl, hn, -⟩
      rw [Names, hs] at hn
      cases hn
  | some text =>
      rw [pure_eq_ok_iff]
      constructor
      · rintro ⟨rfl, rfl⟩
        exact ⟨rfl, hs, rfl⟩
      · rintro ⟨rfl, hn, rfl⟩
        rw [Names, hs] at hn
        cases hn
        exact ⟨rfl, rfl⟩

theorem asNames_eq_ok_iff {what : String} {es : List Source} {names : List Named} :
    asNames what es c = (.ok names, c') ↔
      names.map Prod.snd = es ∧ (∀ n ∈ names, Names n) ∧ c' = c := by
  induction es generalizing names c c' with
  | nil =>
      rw [asNames, pure_eq_ok_iff, List.map_eq_nil_iff]
      constructor
      · rintro ⟨rfl, rfl⟩
        exact ⟨rfl, by simp, rfl⟩
      · rintro ⟨rfl, -, rfl⟩
        exact ⟨rfl, rfl⟩
  | cons s es ih =>
      simp only [asNames, bind_eq_ok_iff, asName_eq_ok_iff, ih, pure_eq_ok_iff]
      constructor
      · rintro ⟨n, d, ⟨rfl, hn, rfl⟩, rest, d', ⟨rfl, hrest, rfl⟩, rfl, rfl⟩
        exact ⟨rfl, List.forall_mem_cons.mpr ⟨hn, hrest⟩, rfl⟩
      · rintro ⟨hmap, hall, rfl⟩
        obtain ⟨n, rest, rfl, rfl, hrest⟩ := List.map_eq_cons_iff.mp hmap
        obtain ⟨hn, hall⟩ := List.forall_mem_cons.mp hall
        exact ⟨n, _, ⟨rfl, hn, rfl⟩, rest, _, ⟨hrest, hall, rfl⟩, rfl, rfl⟩

theorem name_eq_ok_iff {what : String} {n : Named} :
    name what c = (.ok n, c') ↔
      ∃ a rest, c.rest = a :: rest ∧ n.2 = a.source ∧ Names n ∧ c' = advance c [a] rest := by
  simp only [name, bind_eq_ok_iff, next_eq_ok_iff, asName_eq_ok_iff]
  constructor
  · rintro ⟨a, d, ⟨rest, hrest, rfl⟩, hsource, hn, rfl⟩
    exact ⟨a, rest, hrest, hsource, hn, rfl⟩
  · rintro ⟨a, rest, hrest, hsource, hn, rfl⟩
    exact ⟨a, _, ⟨rest, hrest, rfl⟩, hsource, hn, rfl⟩

theorem nameList_eq_ok_iff {what : String} {names : List Named} :
    nameList what c = (.ok names, c') ↔
      ∃ a rest place, c.rest = a :: rest ∧ a.source = .list (names.map Prod.snd) place ∧
        (∀ n ∈ names, Names n) ∧ c' = advance c [a] rest := by
  simp only [nameList, bind_eq_ok_iff, next_eq_ok_iff]
  constructor
  · rintro ⟨a, d, ⟨rest, hrest, rfl⟩, h⟩
    cases hsource : a.source with
    | list es place =>
        rw [hsource] at h
        replace h := asNames_eq_ok_iff.mp h
        obtain ⟨rfl, hall, rfl⟩ := h
        exact ⟨a, rest, place, hrest, hsource, hall, rfl⟩
    | leaf v p =>
        rw [hsource] at h
        exact absurd h fail_ne_ok
    | call head as p =>
        rw [hsource] at h
        exact absurd h fail_ne_ok
  · rintro ⟨a, rest, place, hrest, hsource, hall, rfl⟩
    refine ⟨a, _, ⟨rest, hrest, rfl⟩, ?_⟩
    rw [hsource]
    exact asNames_eq_ok_iff.mpr ⟨rfl, hall, rfl⟩

theorem run_eq_ok_iff {x : Reading ρ α} {site : Site} {args rest : List (Argument ρ)} {a : α} :
    x.run site args = .ok (a, rest) ↔ ∃ c, x (.start site args) = (.ok a, c) ∧ c.rest = rest := by
  unfold run
  rcases x (.start site args) with ⟨e | a', c⟩
  · simp
  · constructor
    · intro h
      cases h
      exact ⟨c, rfl, rfl⟩
    · rintro ⟨d, heq, rfl⟩
      cases heq
      rfl

/-! ### Steps that fail -/

theorem bind_eq_error_iff {x : Reading ρ α} {f : α → Reading ρ β} {e : LoweringError} :
    ((x >>= f) c).1 = .error e ↔
      (x c).1 = .error e ∨ ∃ a d, x c = (.ok a, d) ∧ (f a d).1 = .error e := by
  cases hx : x c with
  | mk result d =>
      cases result with
      | error e' => simp [bind_eq_of_error hx]
      | ok a =>
          rw [bind_eq_of_ok hx]
          constructor
          · exact fun h => .inr ⟨a, d, rfl, h⟩
          · rintro (h | ⟨a', d', heq, h⟩)
            · cases h
            · cases heq
              exact h

@[simp] theorem pure_ne_error {a : α} {e : LoweringError} :
    ((pure a : Reading ρ α) c).1 ≠ .error e := nofun

theorem next_eq_error_iff {e : LoweringError} :
    (next c).1 = .error e ↔ c.rest = [] ∧ e = c.shortage (c.taken.length + 1) := by
  unfold next
  cases c.rest <;> simp [eq_comm]

theorem nextIf_ne_error {wanted : Source → Bool} {e : LoweringError} :
    (nextIf wanted c).1 ≠ .error e := by
  unfold nextIf
  split
  · nofun
  · split <;> nofun

theorem require_eq_error_iff {count : UInt64} {e : LoweringError} :
    (require count c).1 = .error e ↔
      c.rest.length < count.toNat ∧ e = c.shortage (c.needed count).toNat := by
  unfold require
  split
  · next h => simp [h, eq_comm]
  · next h => simp [h]

theorem asName_eq_error_iff {what : String} {s : Source} {e : LoweringError} :
    (asName what s c).1 = .error e ↔ s.rawText? = none ∧ e = c.malformed what s := by
  unfold asName
  cases s.rawText? with
  | none => simp [fail, eq_comm]
  | some text => simp

/-- Of several names the first one that is none is reported. -/
theorem asNames_eq_error_iff {what : String} {es : List Source} {e : LoweringError} :
    (asNames what es c).1 = .error e ↔ ∃ before s after, es = before ++ s :: after ∧
      (∀ b ∈ before, b.rawText?.isSome) ∧ s.rawText? = none ∧ e = c.malformed what s := by
  induction es with
  | nil => simp [asNames]
  | cons s es ih =>
      simp only [asNames, bind_eq_error_iff, asName_eq_error_iff, asName_eq_ok_iff]
      constructor
      · rintro (⟨hs, rfl⟩ | ⟨n, _, ⟨rfl, hn, rfl⟩, hrest | ⟨_, _, _, hpure⟩⟩)
        · exact ⟨[], s, es, rfl, by simp, hs, rfl⟩
        · obtain ⟨before, t, after, rfl, hbefore, ht, rfl⟩ := ih.mp hrest
          refine ⟨n.2 :: before, t, after, rfl, List.forall_mem_cons.mpr ⟨?_, hbefore⟩, ht, rfl⟩
          rw [show n.2.rawText? = some n.1 from hn]
          rfl
        · exact absurd hpure pure_ne_error
      · rintro ⟨before, t, after, heq, hbefore, ht, rfl⟩
        cases before with
        | nil =>
            cases heq
            exact .inl ⟨ht, rfl⟩
        | cons b before =>
            cases heq
            obtain ⟨hb, hbefore⟩ := List.forall_mem_cons.mp hbefore
            obtain ⟨text, htext⟩ := Option.isSome_iff_exists.mp hb
            exact .inr ⟨(text, s), c, ⟨rfl, htext, rfl⟩,
              .inl (ih.mpr ⟨before, t, after, rfl, hbefore, ht, rfl⟩)⟩

theorem name_eq_error_iff {what : String} {e : LoweringError} :
    (name what c).1 = .error e ↔ (c.rest = [] ∧ e = c.shortage (c.taken.length + 1)) ∨
      ∃ a rest, c.rest = a :: rest ∧ a.source.rawText? = none ∧
        e = c.malformed what a.source := by
  simp only [name, bind_eq_error_iff, next_eq_error_iff, next_eq_ok_iff, asName_eq_error_iff]
  refine or_congr_right ⟨?_, ?_⟩
  · rintro ⟨a, _, ⟨rest, hrest, rfl⟩, hnone, rfl⟩
    exact ⟨a, rest, hrest, hnone, rfl⟩
  · rintro ⟨a, rest, hrest, hnone, rfl⟩
    exact ⟨a, _, ⟨rest, hrest, rfl⟩, hnone, rfl⟩

/-- A tree that is no list of names, and the part of it that is reported. -/
inductive NotNames : Source → Source → Prop
  | notList {s : Source} : (∀ elements place, s ≠ .list elements place) → NotNames s s
  | element {before after : List Source} {s : Source} {place : Place} :
      (∀ b ∈ before, b.rawText?.isSome) → s.rawText? = none →
      NotNames (.list (before ++ s :: after) place) s

theorem nameList_eq_error_iff {what : String} {e : LoweringError} :
    (nameList what c).1 = .error e ↔ (c.rest = [] ∧ e = c.shortage (c.taken.length + 1)) ∨
      ∃ a rest s, c.rest = a :: rest ∧ NotNames a.source s ∧ e = c.malformed what s := by
  simp only [nameList, bind_eq_error_iff, next_eq_error_iff, next_eq_ok_iff]
  refine or_congr_right ⟨?_, ?_⟩
  · rintro ⟨a, _, ⟨rest, hrest, rfl⟩, h⟩
    cases hsource : a.source with
    | list es place =>
        rw [hsource] at h
        obtain ⟨before, s, after, rfl, hbefore, hs, rfl⟩ := asNames_eq_error_iff.mp h
        exact ⟨a, rest, s, hrest, hsource ▸ .element hbefore hs, rfl⟩
    | leaf v p =>
        rw [hsource] at h
        cases h
        refine ⟨a, rest, .leaf v p, hrest, ?_, rfl⟩
        rw [hsource]
        exact .notList (by simp)
    | call head as p =>
        rw [hsource] at h
        cases h
        refine ⟨a, rest, .call head as p, hrest, ?_, rfl⟩
        rw [hsource]
        exact .notList (by simp)
  · rintro ⟨a, rest, s, hrest, hs, rfl⟩
    refine ⟨a, _, ⟨rest, hrest, rfl⟩, ?_⟩
    generalize a.source = l at hs
    cases hs with
    | element hbefore hs => exact asNames_eq_error_iff.mpr ⟨_, _, _, rfl, hbefore, hs, rfl⟩
    | notList hl =>
        cases s with
        | list es place => exact absurd rfl (hl es place)
        | leaf v p => rfl
        | call head as p => rfl

theorem run_eq_error_iff {x : Reading ρ α} {site : Site} {args : List (Argument ρ)}
    {e : LoweringError} :
    x.run site args = .error e ↔ (x (.start site args)).1 = .error e := by
  unfold run
  rcases x (.start site args) with ⟨e' | a, c⟩ <;> simp

end Reading

namespace StructuralForm

open Reading

variable {ρ : Type} {site : Site} {args : List (Argument ρ)}

theorem binding_run_eq_ok_iff {b : Binding ρ} {extra : List (Argument ρ)} :
    binding.run site args = .ok (b, extra) ↔
      ∃ a, args = a :: b.value :: extra ∧ b.name.2 = a.source ∧ Names b.name := by
  simp only [run_eq_ok_iff, binding, bind_eq_ok_iff, name_eq_ok_iff, next_eq_ok_iff,
    pure_eq_ok_iff]
  obtain ⟨name, value⟩ := b
  constructor
  · rintro ⟨c, ⟨n, d, ⟨a, rest, hrest, hsource, hn, rfl⟩, v, d', ⟨rest', hrest', rfl⟩, heq, rfl⟩,
      rfl⟩
    cases heq
    obtain rfl : rest = value :: rest' := hrest'
    exact ⟨a, hrest, hsource, hn⟩
  · rintro ⟨a, rfl, hsource, hn⟩
    exact ⟨_, ⟨name, _, ⟨a, value :: extra, rfl, hsource, hn, rfl⟩, value, _, ⟨extra, rfl, rfl⟩,
      rfl, rfl⟩, rfl⟩

/-- Why the name and the value of a definition cannot be read. -/
inductive Misbinds (site : Site) : List Source → LoweringError → Prop
  | unnamed : Misbinds site [] (site.arity 1 0)
  | name {s : Source} {ss : List Source} :
      s.rawText? = none → Misbinds site (s :: ss) (.malformed site.form "a symbol to bind" s)
  | value {s : Source} : s.rawText?.isSome → Misbinds site [s] (site.arity 2 1)

/-- A definition cannot be read when its name or its value is missing or the name is none. -/
theorem binding_run_eq_error_iff {e : LoweringError} :
    binding.run site args = .error e ↔ Misbinds site (args.map Argument.source) e := by
  simp only [run_eq_error_iff, binding, bind_eq_error_iff, name_eq_error_iff, name_eq_ok_iff,
    next_eq_error_iff, pure_ne_error, and_false, exists_false, or_false]
  constructor
  · rintro ((⟨hnil, rfl⟩ | ⟨a, rest, hrest, hname, rfl⟩) |
      ⟨n, _, ⟨a, rest, hrest, hsource, hn, rfl⟩, hnil, rfl⟩)
    · obtain rfl : args = [] := hnil
      exact .unnamed
    · obtain rfl : args = a :: rest := hrest
      exact .name hname
    · obtain rfl : args = a :: rest := hrest
      obtain rfl : rest = [] := hnil
      exact .value (by rw [← hsource, hn]; rfl)
  · intro h
    generalize hss : args.map Argument.source = ss at h
    cases h with
    | unnamed =>
        obtain rfl := List.map_eq_nil_iff.mp hss
        exact .inl (.inl ⟨rfl, rfl⟩)
    | name hname =>
        obtain ⟨a, rest, rfl, rfl, rfl⟩ := List.map_eq_cons_iff.mp hss
        exact .inl (.inr ⟨a, rest, rfl, hname, rfl⟩)
    | value hname =>
        obtain ⟨a, rest, rfl, rfl, hrest⟩ := List.map_eq_cons_iff.mp hss
        obtain rfl := List.map_eq_nil_iff.mp hrest
        obtain ⟨text, htext⟩ := Option.isSome_iff_exists.mp hname
        exact .inr ⟨(text, a.source), _, ⟨a, [], rfl, rfl, htext, rfl⟩, rfl, rfl⟩

/-- The head of a function as it is read before its bodies: its names are the texts of the trees
they were read from, and a string in front of the bodies is documentation. -/
structure Signature.Precedes (s : Signature) (bodies : List Source) : Prop where
  name : Names s.name
  params : ∀ p ∈ s.params, Names p
  doc : ∀ d, s.doc = some d → d.isString
  bodies : s.doc = none → ∀ b, bodies.head? = some b → b.isString = false

/-- The bodies of a function begin where its documentation ends: behind a string, or if there is no
documentation, with a tree that is no string. -/
structure DocumentedBy (bodies : List Source) (doc : Option Source) : Prop where
  string : ∀ d, doc = some d → d.isString
  first : doc = none → ∀ b, bodies.head? = some b → b.isString = false

theorem documentedBy_none {b : Source} {bs : List Source} (h : b.isString = false) :
    DocumentedBy (b :: bs) none := by
  constructor
  · intro d hd
    cases hd
  · intro _ b' hb'
    cases hb'
    exact h

/-- What stands behind the parameters of a function is divided in one way only. -/
theorem DocumentedBy.unique {bodies bodies' : List Source} {doc doc' : Option Source}
    (h : DocumentedBy bodies doc) (h' : DocumentedBy bodies' doc')
    (heq : doc.toList ++ bodies = doc'.toList ++ bodies') : doc = doc' ∧ bodies = bodies' := by
  cases doc with
  | none =>
      cases doc' with
      | none => exact ⟨rfl, heq⟩
      | some d' =>
          obtain rfl : bodies = d' :: bodies' := heq
          have hd := h.first rfl d' rfl
          rw [h'.string d' rfl] at hd
          cases hd
  | some d =>
      cases doc' with
      | none =>
          obtain rfl : d :: bodies = bodies' := heq
          have hd := h'.first rfl d rfl
          rw [h.string d rfl] at hd
          cases hd
      | some d' =>
          cases heq
          exact ⟨rfl, rfl⟩

theorem Signature.Precedes.documentedBy {s : Signature} {bodies : List Source}
    (h : s.Precedes bodies) : DocumentedBy bodies s.doc :=
  ⟨h.doc, h.bodies⟩

theorem signature_run_eq_ok_iff {s : Signature} {bodies : List (Argument ρ)} :
    signature.run site args = .ok (s, bodies) ↔
      ∃ a l place, ∃ doc : Option (Argument ρ),
        args = a :: l :: (doc.toList ++ bodies) ∧ doc.toList ++ bodies ≠ [] ∧
        s.name.2 = a.source ∧ Names s.name ∧
        l.source = .list (s.params.map Prod.snd) place ∧ (∀ n ∈ s.params, Names n) ∧
        s.doc = doc.map Argument.source ∧ (∀ d, s.doc = some d → d.isString) ∧
        (s.doc = none → ∀ b, bodies.head? = some b → b.source.isString = false) := by
  simp only [run_eq_ok_iff, signature, bind_eq_ok_iff, name_eq_ok_iff, require_eq_ok_iff,
    nameList_eq_ok_iff, pure_eq_ok_iff]
  obtain ⟨name, params, doc⟩ := s
  constructor
  · rintro ⟨c, ⟨n, c₁, ⟨a, rest, hrest, hsource, hn, rfl⟩, u, c₂, ⟨hcount, rfl⟩, names, c₃,
      ⟨l, rest', place, hrest', hlist, hnames, rfl⟩, doc?, c₄, hdoc, heq, rfl⟩, rfl⟩
    cases heq
    obtain rfl : rest = l :: rest' := hrest'
    cases doc? with
    | none =>
        obtain ⟨hhead, rfl⟩ := nextIf_eq_none_iff.mp hdoc
        refine ⟨a, l, place, none, hrest, ?_, hsource, hn, hlist, hnames, rfl, by simp, ?_⟩
        · rintro rfl
          simp [advance] at hcount
        · exact fun _ => hhead
    | some d =>
        obtain ⟨rest'', hrest'', hd, rfl⟩ := nextIf_eq_some_iff.mp hdoc
        obtain rfl : rest' = d :: rest'' := hrest''
        refine ⟨a, l, place, some d, hrest, by simp, hsource, hn, hlist, hnames, rfl, ?_, by simp⟩
        rintro s hs
        cases hs
        exact hd
  · rintro ⟨a, l, place, doc?, rfl, hne, hsource, hn, hlist, hnames, rfl, hd, hnone⟩
    let c₁ : Cursor ρ := advance (.start site (a :: l :: (doc?.toList ++ bodies))) [a]
      (l :: (doc?.toList ++ bodies))
    let c₂ : Cursor ρ := advance c₁ [l] (doc?.toList ++ bodies)
    have hcount : 2 ≤ c₁.rest.length := by
      have := List.length_pos_iff.mpr hne
      simp only [c₁, advance, List.length_cons]
      omega
    have hdoc : nextIf Source.isString c₂ = (.ok doc?, advance c₂ doc?.toList bodies) := by
      cases doc? with
      | none => exact nextIf_eq_none_iff.mpr ⟨hnone rfl, by simp [advance, c₂]⟩
      | some d => exact nextIf_eq_some_iff.mpr ⟨bodies, rfl, hd _ rfl, rfl⟩
    exact ⟨_, ⟨name, c₁, ⟨a, _, rfl, hsource, hn, rfl⟩, (), c₁, ⟨hcount, rfl⟩, params, c₂,
      ⟨l, _, place, rfl, hlist, hnames, rfl⟩, doc?, _, hdoc, rfl, rfl⟩, rfl⟩

/-- Why the head of a function cannot be read. -/
inductive Misheads (site : Site) : List Source → LoweringError → Prop
  | unnamed : Misheads site [] (site.arity 1 0)
  | name {s : Source} {ss : List Source} :
      s.rawText? = none → Misheads site (s :: ss) (.malformed site.form "a function name" s)
  | body {s : Source} {ss : List Source} :
      s.rawText?.isSome → ss.length < 2 → Misheads site (s :: ss) (site.arity 3 (ss.length + 1))
  | params {s l b found : Source} {ss : List Source} :
      s.rawText?.isSome → NotNames l found →
      Misheads site (s :: l :: b :: ss) (.malformed site.form "a [parameter] list" found)

/-- A function cannot be read when its name is missing or none, when less than two arguments
follow the name, or when the first of them is no list of names. -/
theorem signature_run_eq_error_iff {e : LoweringError} :
    signature.run site args = .error e ↔ Misheads site (args.map Argument.source) e := by
  simp only [run_eq_error_iff, signature, bind_eq_error_iff, name_eq_error_iff, name_eq_ok_iff,
    require_eq_error_iff, require_eq_ok_iff, nameList_eq_error_iff, nextIf_ne_error,
    pure_ne_error, and_false, exists_false, or_false]
  constructor
  · rintro ((⟨hnil, rfl⟩ | ⟨a, rest, hrest, hname, rfl⟩) |
      ⟨n, _, ⟨a, rest, hrest, hsource, hn, rfl⟩, ⟨hfew, rfl⟩ |
        ⟨_, _, ⟨henough, rfl⟩, ⟨hnil, rfl⟩ | ⟨l, rest', found, hrest', hfound, rfl⟩⟩⟩)
    · obtain rfl : args = [] := hnil
      exact .unnamed
    · obtain rfl : args = a :: rest := hrest
      exact .name hname
    · obtain rfl : args = a :: rest := hrest
      have hbody : Misheads site (a.source :: rest.map Argument.source)
          (site.arity 3 ((rest.map Argument.source).length + 1)) :=
        .body (by rw [← hsource, hn]; rfl) (by simpa [advance] using hfew)
      rw [List.length_map] at hbody
      exact hbody
    · obtain rfl : rest = [] := hnil
      simp [advance] at henough
    · obtain rfl : args = a :: rest := hrest
      obtain rfl : rest = l :: rest' := hrest'
      cases rest' with
      | nil => simp [advance] at henough
      | cons b rest' => exact .params (by rw [← hsource, hn]; rfl) hfound
  · intro h
    generalize hss : args.map Argument.source = ss at h
    cases h with
    | unnamed =>
        obtain rfl := List.map_eq_nil_iff.mp hss
        exact .inl (.inl ⟨rfl, rfl⟩)
    | name hname =>
        obtain ⟨a, rest, rfl, rfl, rfl⟩ := List.map_eq_cons_iff.mp hss
        exact .inl (.inr ⟨a, rest, rfl, hname, rfl⟩)
    | body hname hfew =>
        obtain ⟨a, rest, rfl, rfl, rfl⟩ := List.map_eq_cons_iff.mp hss
        obtain ⟨text, htext⟩ := Option.isSome_iff_exists.mp hname
        rw [List.length_map] at hfew ⊢
        exact .inr ⟨(text, a.source), _, ⟨a, rest, rfl, rfl, htext, rfl⟩, .inl ⟨hfew, rfl⟩⟩
    | params hname hfound =>
        obtain ⟨a, as, rfl, rfl, has⟩ := List.map_eq_cons_iff.mp hss
        obtain ⟨l, bs, rfl, rfl, hbs⟩ := List.map_eq_cons_iff.mp has
        obtain ⟨b, cs, rfl, rfl, rfl⟩ := List.map_eq_cons_iff.mp hbs
        obtain ⟨text, htext⟩ := Option.isSome_iff_exists.mp hname
        exact .inr ⟨(text, a.source), _, ⟨a, _, rfl, rfl, htext, rfl⟩, .inr ⟨(), _,
          ⟨by simp [advance], rfl⟩, .inr ⟨l, _, _, rfl, hfound, rfl⟩⟩⟩

end StructuralForm
end FormLower
