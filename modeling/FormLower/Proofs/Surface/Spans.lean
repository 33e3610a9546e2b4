import FormLower.Proofs.Surface.PegForms
import FormLower.Proofs.Surface.Positions
import FormLower.Proofs.Trees

/-! # Spans

Every tree that is read carries the extent of the text that it was read from.  Scanning knows
nothing of what stands around the tokens that it scans, so that the text of a tree can be read by
itself (`exists_cuts`); and tokens are scanned one after the other, so that trees stand in order and
inside the trees that contain them (`exact_of_groups`).  `Script.read_spans` puts this together. -/

namespace FormLower

open Grammar

/-! ### Pieces of a scan -/

namespace Grammar

variable {p q : Position} {cs rest : List Char} {ts : List Token} {t : Token}

theorem Scans.exists_front (h : Scans p cs ts q rest) : ∃ w, cs = w ++ rest ∧ q = p.afterAll w := by
  induction h with
  | done => exact ⟨[], rfl, rfl⟩
  | @blank p q c _ _ _ _ _ ih =>
      obtain ⟨w, rfl, rfl⟩ := ih
      exact ⟨c :: w, rfl, rfl⟩
  | @comment p q body _ _ _ _ _ _ ih =>
      obtain ⟨w, rfl, rfl⟩ := ih
      exact ⟨';' :: body ++ w, by rw [List.append_assoc], by rw [Position.afterAll_append]⟩
  | @bracket p q c _ _ _ _ _ _ ih =>
      obtain ⟨w, rfl, rfl⟩ := ih
      exact ⟨c :: w, rfl, rfl⟩
  | @string p q raw _ _ _ _ _ _ ih =>
      obtain ⟨w, rfl, rfl⟩ := ih
      exact ⟨'"' :: raw ++ ['"'] ++ w, by simp, (Position.afterAll_append _ _ _).symm⟩
  | @atom p q word _ _ _ _ _ _ _ ih =>
      obtain ⟨w, rfl, rfl⟩ := ih
      exact ⟨word ++ w, by rw [List.append_assoc], by rw [Position.afterAll_append]⟩

theorem Scans.le (h : Scans p cs ts q rest) : p ≤ q := by
  obtain ⟨w, -, rfl⟩ := h.exists_front
  exact Position.le_afterAll p w

theorem Scans.exists_token (h : Scans p cs (t :: ts) q rest) :
    ∃ w v tail, cs = w ++ (v ++ tail) ∧ v ≠ [] ∧ t.extent.start = p.afterAll w ∧
      t.extent.stop = t.extent.start.afterAll v ∧
      Scans t.extent.start (v ++ tail) (t :: ts) q rest ∧ Scans t.extent.stop tail ts q rest := by
  generalize hus : t :: ts = us at h
  induction h with
  | done => cases hus
  | @blank p q c _ _ _ _ _ ih =>
      obtain ⟨w, v, tail, rfl, hv, hstart, hrest⟩ := ih hus
      exact ⟨c :: w, v, tail, rfl, hv, hstart, hrest⟩
  | @comment p q body _ _ _ _ _ _ ih =>
      obtain ⟨w, v, tail, rfl, hv, hstart, hrest⟩ := ih hus
      refine ⟨';' :: body ++ w, v, tail, by rw [List.append_assoc], hv, ?_, hrest⟩
      rw [hstart, Position.afterAll_append]
  | @bracket p q c l cs rest ts hc h _ =>
      cases hus
      exact ⟨[], [c], cs, rfl, List.cons_ne_nil _ _, rfl, rfl, .bracket hc h, h⟩
  | @string p q raw value cs rest ts hq h _ =>
      cases hus
      exact ⟨[], '"' :: raw ++ ['"'], cs, by simp, by simp, rfl, rfl,
        by simpa using .string hq h, h⟩
  | @atom p q word cs rest ts hne hw hend h _ =>
      cases hus
      exact ⟨[], word, cs, rfl, hne, rfl, rfl, .atom hne hw hend h, h⟩

/-- Scanning the text up to the end of the last token finds the same tokens. -/
theorem Scans.exists_last (h : Scans p cs ts q rest) (hlast : ts.getLast? = some t) :
    ∃ w tail, cs = w ++ tail ∧ w ≠ [] ∧ t.extent.stop = p.afterAll w ∧
      Scans p w ts t.extent.stop [] := by
  -- A comment or an atom ends where it ended, as more tokens follow.
  have head_append : ∀ {w tail : List Char} {P : Char → Prop}, w ≠ [] →
      (∀ c, (w ++ tail).head? = some c → P c) → ∀ c, w.head? = some c → P c := by
    intro w tail P hw h c hc
    exact h c (by rw [List.head?_append, hc]; rfl)
  induction h with
  | done => cases hlast
  | @blank p q c _ _ _ hc _ ih =>
      obtain ⟨w, tail, rfl, -, hstop, hscan⟩ := ih hlast
      exact ⟨c :: w, tail, rfl, List.cons_ne_nil _ _, hstop, .blank hc hscan⟩
  | @comment p q body _ _ _ hbody hend _ ih =>
      obtain ⟨w, tail, rfl, hw, hstop, hscan⟩ := ih hlast
      refine ⟨';' :: body ++ w, tail, by rw [List.append_assoc], by simp, ?_,
        .comment hbody (head_append hw hend) hscan⟩
      rw [hstop, Position.afterAll_append]
  | @bracket p q c l cs _ ts hc _ ih =>
      cases ts with
      | nil =>
          cases hlast
          exact ⟨[c], cs, rfl, List.cons_ne_nil _ _, rfl, .bracket hc .done⟩
      | cons u us =>
          obtain ⟨w, tail, rfl, -, hstop, hscan⟩ := ih hlast
          exact ⟨c :: w, tail, rfl, List.cons_ne_nil _ _, hstop, .bracket hc hscan⟩
  | @string p q raw value cs _ ts hq _ ih =>
      cases ts with
      | nil =>
          cases hlast
          exact ⟨'"' :: raw ++ ['"'], cs, by simp, by simp, rfl, .string hq .done⟩
      | cons u us =>
          obtain ⟨w, tail, rfl, -, hstop, hscan⟩ := ih hlast
          refine ⟨'"' :: raw ++ '"' :: w, tail, by simp, by simp, ?_, .string hq hscan⟩
          rw [hstop, ← Position.afterAll_append]
          simp
  | @atom p q word cs _ ts hne hw hend _ ih =>
      cases ts with
      | nil =>
          cases hlast
          refine ⟨word, cs, rfl, hne, rfl, ?_⟩
          have hscan : Scans p (word ++ []) _ _ [] := .atom hne hw (by simp) .done
          simpa using hscan
      | cons u us =>
          obtain ⟨v, tail, rfl, hv, hstop, hscan⟩ := ih hlast
          refine ⟨word ++ v, tail, by rw [List.append_assoc], by simp [hne], ?_,
            .atom hne hw (head_append hv hend) hscan⟩
          rw [hstop, Position.afterAll_append]

/-- The lexemes of a text do not depend on where it starts. -/
theorem Scans.shift (h : Scans p cs ts q rest) (r : Position) :
    ∃ us q', Scans r cs us q' rest ∧ lexemes us = lexemes ts := by
  induction h generalizing r with
  | done => exact ⟨[], r, .done, rfl⟩
  | blank hc _ ih =>
      obtain ⟨us, q', hscan, hls⟩ := ih (r.after _)
      exact ⟨us, q', .blank hc hscan, hls⟩
  | @comment p q body _ _ _ hbody hend _ ih =>
      obtain ⟨us, q', hscan, hls⟩ := ih (r.afterAll (';' :: body))
      exact ⟨us, q', .comment hbody hend hscan, hls⟩
  | @bracket p q c l _ _ _ hc _ ih =>
      obtain ⟨us, q', hscan, hls⟩ := ih (r.after c)
      exact ⟨_, q', .bracket hc hscan, congrArg (List.cons l) hls⟩
  | @string p q raw value _ _ _ hq _ ih =>
      obtain ⟨us, q', hscan, hls⟩ := ih (r.afterAll ('"' :: raw ++ ['"']))
      exact ⟨_, q', .string hq hscan, congrArg (List.cons _) hls⟩
  | @atom p q word _ _ _ hne hw hend _ ih =>
      obtain ⟨us, q', hscan, hls⟩ := ih (r.afterAll word)
      exact ⟨_, q', .atom hne hw hend hscan, congrArg (List.cons _) hls⟩

end Grammar

/-- Some characters of a text, and the position of the first of them. -/
def At (text : List Char) (p : Position) (cs : List Char) : Prop :=
  ∃ before, text = before ++ cs ∧ p = Position.first.afterAll before

section

variable {text cs mid rest : List Char} {p q : Position} {ts : List Token} {t : Token}

theorem At.append {w : List Char} (h : At text p (w ++ cs)) : At text (p.afterAll w) cs := by
  obtain ⟨before, rfl, rfl⟩ := h
  exact ⟨before ++ w, by rw [List.append_assoc], by rw [Position.afterAll_append]⟩

theorem At.scans (hat : At text p cs) (h : Scans p cs ts q mid) : At text q mid ∧ p ≤ q := by
  obtain ⟨w, rfl, rfl⟩ := h.exists_front
  exact ⟨hat.append, Position.le_afterAll p w⟩

/-- A token stands at or after the position that is scanned from, and takes a character or more. -/
theorem At.token (hat : At text p cs) (h : Scans p cs (t :: ts) q rest) :
    p ≤ t.extent.start ∧ t.extent.start < t.extent.stop ∧
      ∃ tail, At text t.extent.stop tail ∧ Scans t.extent.stop tail ts q rest := by
  obtain ⟨w, v, tail, rfl, hv, hstart, hstop, -, hscan⟩ := h.exists_token
  refine ⟨hstart ▸ Position.le_afterAll p w, hstop ▸ Position.lt_afterAll _ hv, tail, ?_, hscan⟩
  rw [hstop, hstart]
  exact hat.append.append

/-- From the first of some tokens to the last one there is a piece of the text which is scanned by
itself to the same lexemes. -/
theorem At.exists_cuts {first last : Token} (hat : At text p cs)
    (h : Scans p cs (first :: ts) q rest) (hlast : (first :: ts).getLast? = some last) :
    ∃ b i a, Extent.Cuts ⟨first.extent.start, last.extent.stop⟩ text b i a ∧
      ∃ us, Splits i us ∧ lexemes us = lexemes (first :: ts) := by
  obtain ⟨before, rfl, rfl⟩ := hat
  obtain ⟨w, v, tail, rfl, -, hstart, -, hfirst, -⟩ := h.exists_token
  obtain ⟨i, a, heq, -, hstop, hscan⟩ := hfirst.exists_last hlast
  obtain ⟨us, q', hshift, hls⟩ := hscan.shift Position.first
  refine ⟨before ++ w, i, a, ⟨?_, ?_, ?_⟩, us, ⟨q', hshift⟩, hls⟩
  · rw [heq, List.append_assoc]
  · rw [Position.advance_eq, Position.afterAll_append, hstart]
  · rw [Position.advance_eq, Position.afterAll_append, Position.afterAll_append, ← hstart, hstop]

end

/-! ### Trees -/

namespace Source

/-- The extent that the span of a tree gives. -/
def extent (t : Source) : Extent :=
  match t.place.span with
  | some s => ⟨⟨s.start.line, s.start.column⟩, ⟨s.stop.line, s.stop.column⟩⟩
  | none => ⟨.first, .first⟩

theorem extent_of_place {t : Source} {e : Extent} {file : String}
    (h : t.place = e.inFile file) : t.extent = e := by
  rw [extent, h]
  rfl

/-- The trees below a tree lie strictly inside it, in order and without overlap. -/
structure Nested (t : Source) : Prop where
  nonempty : t.extent.start < t.extent.stop
  inside : ∀ c ∈ t.children, t.extent.start < c.extent.start ∧ c.extent.stop < t.extent.stop
  order : t.children.Pairwise fun a b => a.extent.stop ≤ b.extent.start

/-- The nodes of trees that stand in order are in order. -/
theorem pairwise_flatMap_nodes {ts : List Source}
    (h : ∀ c ∈ ts, c.nodes.Pairwise (fun a b => a.extent.start < b.extent.start) ∧
      ∀ k ∈ c.nodes, c.extent.start ≤ k.extent.start ∧ k.extent.start < c.extent.stop)
    (horder : ts.Pairwise fun a b => a.extent.stop ≤ b.extent.start) :
    (ts.flatMap nodes).Pairwise fun a b => a.extent.start < b.extent.start := by
  refine List.pairwise_flatMap.mpr ⟨fun c hc => (h c hc).1, ?_⟩
  refine horder.imp_of_mem ?_
  intro a b ha hb hab k hk l hl
  have hka := ((h a ha).2 k hk).2
  have hbl := ((h b hb).2 l hl).1
  exact Position.lt_of_lt_of_le hka (Position.le_trans hab hbl)

theorem nodes_order_step {t : Source} (h : ∀ k ∈ t.nodes, k.Nested)
    (ih : ∀ c ∈ t.children, (∀ k ∈ c.nodes, k.Nested) →
      c.nodes.Pairwise (fun a b => a.extent.start < b.extent.start) ∧
        ∀ k ∈ c.nodes, c.extent.start ≤ k.extent.start ∧ k.extent.start < c.extent.stop) :
    t.nodes.Pairwise (fun a b => a.extent.start < b.extent.start) ∧
      ∀ k ∈ t.nodes, t.extent.start ≤ k.extent.start ∧ k.extent.start < t.extent.stop := by
  rw [nodes_eq] at h ⊢
  obtain ⟨hself, hbelow⟩ := List.forall_mem_cons.mp h
  have ih' : ∀ c ∈ t.children, _ := fun c hc =>
    ih c hc fun k hk => hbelow k (List.mem_flatMap.mpr ⟨c, hc, hk⟩)
  have hinside : ∀ k ∈ t.children.flatMap nodes,
      t.extent.start < k.extent.start ∧ k.extent.start < t.extent.stop := by
    intro k hk
    obtain ⟨c, hc, hk⟩ := List.mem_flatMap.mp hk
    obtain ⟨hstart, hstop⟩ := hself.inside c hc
    obtain ⟨hlow, hhigh⟩ := (ih' c hc).2 k hk
    exact ⟨Position.lt_of_lt_of_le hstart hlow,
      Position.lt_of_lt_of_le hhigh (Position.le_of_lt hstop)⟩
  constructor
  · refine List.pairwise_cons.mpr ⟨fun k hk => (hinside k hk).1, ?_⟩
    exact pairwise_flatMap_nodes ih' hself.order
  · refine List.forall_mem_cons.mpr ⟨⟨Position.le_refl _, hself.nonempty⟩, ?_⟩
    exact fun k hk => ⟨Position.le_of_lt (hinside k hk).1, (hinside k hk).2⟩

/-- Where every tree is nested, trees start later than the trees before them and above them. -/
theorem nodes_order {t : Source} (h : ∀ k ∈ t.nodes, k.Nested) :
    t.nodes.Pairwise (fun a b => a.extent.start < b.extent.start) ∧
      ∀ k ∈ t.nodes, t.extent.start ≤ k.extent.start ∧ k.extent.start < t.extent.stop := by
  induction t with
  | leaf value place =>
      have hself := h _ List.mem_cons_self
      simpa [nodes] using ⟨Position.le_refl _, hself.nonempty⟩
  | call head args place ih => exact nodes_order_step h ih
  | list elements place ih => exact nodes_order_step h ih

/-- Trees that stand between two positions, in order and without overlap. -/
structure Between (p q : Position) (ts : List Source) : Prop where
  bounds : ∀ t ∈ ts, p ≤ t.extent.start ∧ t.extent.stop ≤ q
  order : ts.Pairwise fun a b => a.extent.stop ≤ b.extent.start

theorem Between.cons {p q : Position} {t : Source} {ts : List Source}
    (hp : p ≤ t.extent.start) (ht : t.extent.start < t.extent.stop) (hq : t.extent.stop ≤ q)
    (h : Between t.extent.stop q ts) : Between p q (t :: ts) where
  bounds := by
    refine List.forall_mem_cons.mpr ⟨⟨hp, hq⟩, fun c hc => ⟨?_, (h.bounds c hc).2⟩⟩
    exact Position.le_trans hp (Position.le_trans (Position.le_of_lt ht) (h.bounds c hc).1)
  order := List.pairwise_cons.mpr ⟨fun c hc => (h.bounds c hc).1, h.order⟩

theorem Between.of_append {p q : Position} {ss ts : List Source} (h : Between p q (ss ++ ts)) :
    Between p q ts :=
  ⟨fun c hc => h.bounds c (List.mem_append_right ss hc), (List.pairwise_append.mp h.order).2.1⟩

/-- A tree is nested when its brackets stand around the trees below it. -/
theorem nested_of_between {t : Source} {p q : Position} (hp : t.extent.start < p) (hpq : p ≤ q)
    (hq : q < t.extent.stop) (h : Between p q t.children) : t.Nested where
  nonempty := Position.lt_of_lt_of_le hp (Position.le_trans hpq (Position.le_of_lt hq))
  inside c hc := ⟨Position.lt_of_lt_of_le hp (h.bounds c hc).1,
    Position.lt_of_le_of_lt (h.bounds c hc).2 hq⟩
  order := h.order

end Source

/-! ### Scripts -/

namespace Script

/-- The span of a tree is the one of the text that it was read from. -/
structure Exact (s : Script) (t : Source) : Prop extends t.Nested where
  /-- A tree is located at the start of its span, and both are in the script. -/
  place : t.place = t.extent.inFile s.name
  /-- Lines and columns are counted from one. -/
  start_counted : 1 ≤ t.extent.start.line ∧ 1 ≤ t.extent.start.column
  stop_counted : 1 ≤ t.extent.stop.line ∧ 1 ≤ t.extent.stop.column
  /-- The span is that of a piece of the text. -/
  cut : ∃ before inner after, t.extent.Cuts s.content.toList before inner after
  /-- That piece by itself is read as the tree alone. -/
  alone : ∀ before inner after, t.extent.Cuts s.content.toList before inner after →
    ∀ name, ∃ t', Script.read ⟨name, String.ofList inner⟩ = .ok [t'] ∧ t'.erase = t.erase

variable {s : Script}

theorem place_of_tree {d : Datum} {t : Source} (h : s.tree d = .ok t) :
    t.place = d.extent.inFile s.name := by
  cases d with
  | atom w e =>
      obtain ⟨v, -, rfl⟩ := tree_atom_eq_ok_iff.mp h
      rfl
  | string v e =>
      rw [tree] at h
      cases h
      rfl
  | group b items e =>
      cases b with
      | square =>
          obtain ⟨es, -, rfl⟩ := tree_list_eq_ok_iff.mp h
          rfl
      | round =>
          obtain ⟨head, e', rest, as, -, -, -, rfl⟩ := tree_call_eq_ok_iff.mp h
          rfl

theorem extent_of_tree {d : Datum} {t : Source} (h : s.tree d = .ok t) : t.extent = d.extent :=
  Source.extent_of_place (place_of_tree h)

/-- A tree is exact if its tokens are scanned somewhere in the text and the trees below it lie
inside it. -/
theorem exact_of_scans {d : Datum} {t : Source} {p q : Position} {cs rest : List Char}
    {ts : List Token} {first last : Token} (hat : At s.content.toList p cs)
    (hscan : Scans p cs (first :: ts) q rest) (hgroups : Groups (first :: ts) [d])
    (hlast : (first :: ts).getLast? = some last)
    (hextent : d.extent = ⟨first.extent.start, last.extent.stop⟩) (htree : s.tree d = .ok t)
    (hnested : t.Nested) : s.Exact t := by
  obtain ⟨b, i, a, hcuts, us, hsplits, hls⟩ := hat.exists_cuts hscan hlast
  rw [← hextent, ← extent_of_tree htree] at hcuts
  have hdenotes : Denotes (lexemes us) [t.erase] := by
    rw [hls]
    exact denotes_of_trees hgroups (trees_cons_eq_ok_iff.mpr ⟨t, [], htree, by rw [trees], rfl⟩)
  have hcounted : ∀ cs, 1 ≤ (Position.advance .first cs).line ∧
      1 ≤ (Position.advance .first cs).column := by
    intro cs
    rw [Position.advance_eq]
    exact Position.one_le_afterAll cs ⟨Nat.le_refl 1, Nat.le_refl 1⟩
  refine ⟨hnested, ?_, hcuts.start ▸ hcounted b, hcuts.stop ▸ hcounted (b ++ i),
    ⟨b, i, a, hcuts⟩, ?_⟩
  · rw [extent_of_tree htree]
    exact place_of_tree htree
  · intro b' i' a' hcuts' name
    obtain rfl := hcuts.unique hcuts'
    have hread := (@read_denotes_iff ⟨name, String.ofList i⟩ [t.erase]).mpr
      ⟨us, by rwa [String.toList_ofList], hdenotes⟩
    obtain ⟨forest, hforest, herase⟩ := hread
    rw [Source.eraseAll_eq_map] at herase
    obtain ⟨t', rest, rfl, ht', hrest⟩ := List.map_eq_cons_iff.mp herase
    obtain rfl := List.map_eq_nil_iff.mp hrest
    exact ⟨t', hforest, ht'⟩

/-- A tree and the trees after it are exact and stand in order. -/
theorem exact_cons {t : Source} {ss : List Source} {p q : Position}
    (ht : s.Exact t) (hbelow : ∀ k ∈ Source.nodesAll t.children, s.Exact k)
    (hp : p ≤ t.extent.start) (hq : t.extent.stop ≤ q)
    (h : (∀ k ∈ Source.nodesAll ss, s.Exact k) ∧ Source.Between t.extent.stop q ss) :
    (∀ k ∈ Source.nodesAll (t :: ss), s.Exact k) ∧ Source.Between p q (t :: ss) := by
  refine ⟨?_, .cons hp ht.nonempty hq h.2⟩
  exact Source.forall_mem_nodesAll_cons.mpr ⟨ht, hbelow, h.1⟩

/-- A tree that is read from a single token is exact, and so are the trees after it. -/
theorem exact_token_cons {d : Datum} {ds : List Datum} {ss : List Source} {p q : Position}
    {cs rest : List Char} {tok : Token} {ts : List Token} (hat : At s.content.toList p cs)
    (hscan : Scans p cs (tok :: ts) q rest) (hgroups : Groups [tok] [d])
    (hextent : d.extent = tok.extent) (hleaf : ∀ t, s.tree d = .ok t → t.children = [])
    (htrees : s.trees (d :: ds) = .ok ss)
    (ih : ∀ {p : Position} {cs : List Char} {ss : List Source}, At s.content.toList p cs →
      Scans p cs ts q rest → s.trees ds = .ok ss →
      (∀ t ∈ Source.nodesAll ss, s.Exact t) ∧ Source.Between p q ss) :
    (∀ t ∈ Source.nodesAll ss, s.Exact t) ∧ Source.Between p q ss := by
  obtain ⟨t, ss, htree, hrest, rfl⟩ := trees_cons_eq_ok_iff.mp htrees
  obtain ⟨hp, hnonempty, tail, hat', hscan'⟩ := hat.token hscan
  obtain ⟨q', mid, hself, -⟩ :=
    Scans.exists_of_append (show Scans p cs ([tok] ++ ts) q rest from hscan)
  have hq := (hat'.scans hscan').2
  have hnone := hleaf t htree
  have hrest' := ih hat' hscan' hrest
  rw [← hextent, ← extent_of_tree htree] at hp hnonempty hq hrest'
  refine exact_cons (exact_of_scans hat hself hgroups rfl hextent htree ?_) ?_ hp hq hrest'
  · exact ⟨hnonempty, by simp [hnone], by simp [hnone]⟩
  · simp [hnone, Source.nodesAll]

/-- The trees below a tree that was read from a group were read inside the group. -/
theorem exists_trees_of_group {b : Bracket} {items : List Datum} {e : Extent} {t : Source}
    (h : s.tree (.group b items e) = .ok t) :
    ∃ before, s.trees items = .ok (before ++ t.children) := by
  cases b with
  | square =>
      obtain ⟨es, hes, rfl⟩ := tree_list_eq_ok_iff.mp h
      exact ⟨[], hes⟩
  | round =>
      obtain ⟨head, e', rest, as, rfl, hsymbol, has, rfl⟩ := tree_call_eq_ok_iff.mp h
      exact ⟨[_], trees_head_cons hsymbol has e'⟩

/-- The trees of some tokens are exact and stand in order where the tokens are scanned. -/
theorem exact_of_groups {ts : List Token} {ds : List Datum} (h : Groups ts ds) :
    ∀ {p q : Position} {cs rest : List Char} {ss : List Source}, At s.content.toList p cs →
      Scans p cs ts q rest → s.trees ds = .ok ss →
      (∀ t ∈ Source.nodesAll ss, s.Exact t) ∧ Source.Between p q ss := by
  induction h with
  | nil =>
      intro p q cs rest ss _ _ htrees
      rw [trees] at htrees
      cases htrees
      exact ⟨by simp [Source.nodesAll], ⟨by simp, .nil⟩⟩
  | @string v e ts ds _ ih =>
      intro p q cs rest ss hat hscan htrees
      refine exact_token_cons hat hscan (.string .nil) rfl ?_ htrees ih
      intro t htree
      rw [tree] at htree
      cases htree
      rfl
  | @atom w e ts ds _ ih =>
      intro p q cs rest ss hat hscan htrees
      refine exact_token_cons hat hscan (.atom .nil) rfl ?_ htrees ih
      intro t htree
      obtain ⟨v, -, rfl⟩ := tree_atom_eq_ok_iff.mp htree
      rfl
  | @group b e e' inner ts items ds hinner hgroups ihinner ih =>
      intro p q cs rest ss hat hscan htrees
      obtain ⟨t, ss, htree, hrest, rfl⟩ := trees_cons_eq_ok_iff.mp htrees
      have he : t.extent = ⟨e.start, e'.stop⟩ := extent_of_tree htree
      have hstart : t.extent.start = e.start := by rw [he]
      have hstop : t.extent.stop = e'.stop := by rw [he]
      -- The opening bracket, what is inside, the closing bracket, and what follows.
      obtain ⟨hp, hopen, tail, hat₁, hscan₁⟩ := hat.token hscan
      obtain ⟨r, mid, hinside, hscan₂⟩ := hscan₁.exists_of_append
      obtain ⟨hat₂, hr⟩ := hat₁.scans hinside
      obtain ⟨hr', hclose, tail', hat₃, hscan₃⟩ := hat₂.token hscan₂
      -- The tokens of the group by themselves.
      obtain ⟨q', mid', hself, -⟩ : ∃ q' mid', Scans p cs
          (⟨.opening b, e⟩ :: (inner ++ [⟨.closing b, e'⟩])) q' mid' ∧ Scans q' mid' ts q rest :=
        Scans.exists_of_append (by simpa using hscan)
      have hgroup : Groups (⟨.opening b, e⟩ :: (inner ++ [⟨.closing b, e'⟩]))
          [.group b items ⟨e.start, e'.stop⟩] := .group hinner .nil
      obtain ⟨before, hitems⟩ := exists_trees_of_group htree
      obtain ⟨hexact, hbetween⟩ := ihinner hat₁ hinside hitems
      rw [Source.nodesAll_eq_flatMap, List.flatMap_append, ← Source.nodesAll_eq_flatMap,
        ← Source.nodesAll_eq_flatMap] at hexact
      have hnested : t.Nested := Source.nested_of_between (hstart ▸ hopen) hr
        (hstop ▸ Position.lt_of_le_of_lt hr' hclose) hbetween.of_append
      have hlast : (⟨.opening b, e⟩ :: (inner ++ [⟨.closing b, e'⟩]) : List Token).getLast? =
          some ⟨.closing b, e'⟩ := by
        rw [← List.cons_append, List.getLast?_concat]
      refine exact_cons (exact_of_scans hat hself hgroup hlast rfl htree hnested)
        (List.forall_mem_append.mp hexact).2 (hstart ▸ hp) (hstop ▸ (hat₃.scans hscan₃).2) ?_
      rw [hstop]
      exact ih hat₃ hscan₃ hrest

/-- **Spans are exact.**  Every tree that is read carries the extent of a piece of the text which by
itself is read as that tree alone; trees lie inside the trees above them, in order and without
overlap, so that each tree starts later than the trees before it and no two are located at one
place. -/
theorem read_spans {s : Script} {forest : List Source} (h : s.read = .ok forest) :
    (∀ t ∈ Source.nodesAll forest, s.Exact t) ∧
      (forest.Pairwise fun a b => a.extent.stop ≤ b.extent.start) ∧
      ((Source.nodesAll forest).Pairwise fun a b => a.extent.start < b.extent.start) ∧
      ((Source.nodesAll forest).map Source.location).Nodup := by
  obtain ⟨ts, ds, ⟨q, hscan⟩, hgroups, htrees⟩ := read_eq_ok_iff.mp h
  obtain ⟨hexact, hbetween⟩ := exact_of_groups hgroups ⟨[], rfl, rfl⟩ hscan htrees
  have hnodes : (Source.nodesAll forest).Pairwise fun a b => a.extent.start < b.extent.start := by
    rw [Source.nodesAll_eq_flatMap] at hexact ⊢
    refine Source.pairwise_flatMap_nodes (fun t ht => Source.nodes_order fun k hk => ?_)
      hbetween.order
    exact (hexact k (List.mem_flatMap.mpr ⟨t, ht, hk⟩)).toNested
  refine ⟨hexact, hbetween.order, hnodes, ?_⟩
  rw [List.nodup_iff_pairwise_ne, List.pairwise_map]
  refine hnodes.imp_of_mem ?_
  intro a b ha hb hlt heq
  rw [Source.location, Source.location, (hexact a ha).place, (hexact b hb).place] at heq
  have hstart : a.extent.start = b.extent.start := by
    have hline := congrArg Location.line (Option.some.inj heq)
    have hcolumn := congrArg Location.column (Option.some.inj heq)
    exact Position.mk.injEq .. ▸ ⟨hline, hcolumn⟩
  rw [hstart] at hlt
  exact Position.lt_irrefl _ hlt

/-- The list and the string in `["a"]` are located at different places. -/
theorem read_spans_list :
    ∃ forest, (Script.mk "t.hy" (String.ofList ['[', '"', 'a', '"', ']'])).read = .ok forest ∧
      forest.map Source.erase = [.list [.string "a"] .unknown] ∧
      ((Source.nodesAll forest).map Source.location).Nodup := by
  have hstring : Quoted ['a'] ['a'] := .plain (by decide) (by decide) .nil
  have hopen : ('[', .opening .square) ∈ brackets := by decide
  have hclose : (']', .closing .square) ∈ brackets := by decide
  have hdenotes : Denotes [.opening .square, .string "a", .closing .square]
      [.list [.string "a"] .unknown] := .list (.string .nil) .nil
  have hread := (@read_denotes_iff ⟨"t.hy", String.ofList ['[', '"', 'a', '"', ']']⟩ _).mpr
    ⟨_, ⟨_, .bracket hopen (.string hstring (.bracket hclose .done))⟩, hdenotes⟩
  obtain ⟨forest, hforest, herase⟩ := hread
  rw [Source.eraseAll_eq_map] at herase
  exact ⟨forest, hforest, herase, (read_spans hforest).2.2.2⟩

end Script

end FormLower
