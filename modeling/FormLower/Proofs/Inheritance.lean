import FormLower.Proofs.Erasure

/-! # Locations handed down

A position in a program is the number of a statement and then, for every step down, the number of a
child.  Locating a program keeps all positions.  The tree at a position keeps its location if it has
one, and gets that of the nearest tree above it otherwise (`find?_inherit`), so that a program that
is located throughout stays as it is. -/

namespace FormLower

/-! ### Located trees -/

namespace Target

variable {t : Target}

theorem isLocated_iff : t.isLocated ↔ t.location.isSome ∧ ∀ c ∈ t.children, c.isLocated := by
  rw [isLocated_eq, Bool.and_eq_true, List.all_eq_true]

theorem isLocated_of_nodes (h : ∀ u ∈ t.nodes, u.location.isSome) : t.isLocated := by
  induction t using Target.induction with
  | step t ih =>
      rw [nodes_eq, List.forall_mem_cons, List.forall_mem_flatMap] at h
      exact isLocated_iff.mpr ⟨h.1, fun c hc => ih c hc (h.2 c hc)⟩

theorem inherit_of_isLocated (h : t.isLocated) (above : Location) : t.inherit above = t := by
  induction t using Target.induction generalizing above with
  | step t ih =>
      obtain ⟨hl, hchildren⟩ := isLocated_iff.mp h
      obtain ⟨l, hl⟩ := Option.isSome_iff_exists.mp hl
      have hkept : t.mapChildren (inherit l) = t.mapChildren id :=
        mapChildren_congr fun c hc => ih c hc (hchildren c hc) l
      have hhere : some l = t.location := hl.symm
      rw [inherit_eq, hl, Option.getD_some, hkept, mapChildren_id, hhere, withLocation_location]

theorem location_inherit (t : Target) (above : Location) :
    (t.inherit above).location = some (t.location.getD above) := by
  cases t <;> rfl

/-- Every tree in a tree that inherits is a tree in it that inherits. -/
theorem mem_nodes_inherit {u : Target} {above : Location} (h : u ∈ (t.inherit above).nodes) :
    ∃ v ∈ t.nodes, ∃ here, u = v.inherit here := by
  induction t using Target.induction generalizing above with
  | step t ih =>
      rw [nodes_eq, children_inherit, List.flatMap_map] at h
      rw [nodes_eq]
      rcases List.mem_cons.mp h with rfl | h
      · exact ⟨t, List.mem_cons_self, above, rfl⟩
      · obtain ⟨c, hc, hu⟩ := List.mem_flatMap.mp h
        obtain ⟨v, hv, here, rfl⟩ := ih c hc hu
        exact ⟨v, List.mem_cons_of_mem _ (List.mem_flatMap.mpr ⟨c, hc, hv⟩), here, rfl⟩

theorem isLocated_inherit (t : Target) (above : Location) : (t.inherit above).isLocated := by
  induction t using Target.induction generalizing above with
  | step t ih =>
      rw [isLocated_iff, location_inherit, children_inherit]
      refine ⟨rfl, fun c hc => ?_⟩
      obtain ⟨d, hd, rfl⟩ := List.mem_map.mp hc
      exact ih d hd _

end Target

/-! ### Positions -/

/-- The tree that numbers of children lead to, and the trees passed on the way down to it, the
nearest one first. -/
def Target.find? (above : List Target) (t : Target) : List Nat → Option (Target × List Target)
  | [] => some (t, above)
  | i :: path => t.children[i]?.bind fun c => c.find? (t :: above) path

/-- The tree at a position of a program and the trees above it, the nearest one first. -/
def Program.find? (p : Program) : List Nat → Option (Target × List Target)
  | [] => none
  | i :: path => p.body[i]?.bind fun t => t.find? [] path

namespace Target

/-- The location that is handed down to a tree: that of the nearest tree above it that has one. -/
def handedDown (root : Location) (above : List Target) : Location :=
  (above.findSome? location).getD root

theorem handedDown_cons (root : Location) (t : Target) (above : List Target) :
    handedDown root (t :: above) = t.location.getD (handedDown root above) := by
  unfold handedDown
  rw [List.findSome?_cons]
  cases t.location <;> rfl

/-- **At every position of a tree that inherits stands the tree that was there, which inherits what
is handed down to it.** -/
theorem find?_inherit (root : Location) (t : Target) (above above' : List Target)
    (path : List Nat) :
    ((t.inherit (handedDown root above)).find? above' path).map Prod.fst =
      (t.find? above path).map fun x => x.1.inherit (handedDown root x.2) := by
  induction path generalizing t above above' with
  | nil => rfl
  | cons i path ih =>
      rw [find?, find?, children_inherit, List.getElem?_map, ← handedDown_cons]
      cases t.children[i]? with
      | none => rfl
      | some c => exact ih c (t :: above) _

end Target

/-! ### Programs -/

namespace Program

theorem find?_located (p : Program) (path : List Nat) :
    (p.located.find? path).map Prod.fst =
      (p.find? path).map fun x => x.1.inherit (Target.handedDown p.root x.2) := by
  cases path with
  | nil => rfl
  | cons i path =>
      rw [find?, find?, located, List.getElem?_map]
      cases p.body[i]? with
      | none => rfl
      | some t => exact Target.find?_inherit p.root t [] [] path

theorem isLocated_located (p : Program) : p.located.isLocated := by
  unfold isLocated
  rw [List.all_eq_true]
  intro t ht
  obtain ⟨u, -, rfl⟩ := List.mem_map.mp ht
  exact u.isLocated_inherit p.root

theorem located_of_isLocated {p : Program} (h : p.isLocated) : p.located = p := by
  have hbody : p.body.map (Target.inherit p.root) = p.body.map id :=
    List.map_congr_left fun t ht => Target.inherit_of_isLocated (List.all_eq_true.mp h t ht) _
  rw [located, hbody, List.map_id]

/-- **Locating a program gives every tree a location and changes nothing else.**  At each position
the tree keeps its location if it had one; otherwise it gets the one of the nearest tree above that
had one, and if there is none, the first character of the file that the program is named after.
There are no other positions, the program keeps its name, and its trees differ in nothing but their
locations.  So all trees are located, locating them again changes nothing, and nothing changes in a
program that was located already. -/
theorem located_inherits (p : Program) :
    (∀ path u above, p.find? path = some (u, above) →
      ∃ v above', p.located.find? path = some (v, above') ∧ v.erase = u.erase ∧
        (∀ l, u.location = some l → v.location = some l) ∧
        (u.location = none →
          v.location = some ((above.findSome? Target.location).getD ⟨p.name, 1, 1⟩))) ∧
    (∀ path, p.find? path = none → p.located.find? path = none) ∧
    p.located.name = p.name ∧
    p.located.body.map Target.erase = p.body.map Target.erase ∧
    p.located.isLocated ∧
    p.located.located = p.located ∧
    (p.isLocated → p.located = p) := by
  refine ⟨?_, ?_, rfl, p.map_erase_located, p.isLocated_located,
    located_of_isLocated p.isLocated_located, located_of_isLocated⟩
  · intro path u above hfind
    have hlocated := p.find?_located path
    rw [hfind, Option.map_some, Option.map_eq_some_iff] at hlocated
    obtain ⟨⟨v, above'⟩, hv, rfl⟩ := hlocated
    refine ⟨_, above', hv, u.erase_inherit _, fun l hl => ?_, fun hl => ?_⟩
    · rw [Target.location_inherit, hl]
      rfl
    · rw [Target.location_inherit, hl]
      rfl
  · intro path hfind
    have hlocated := p.find?_located path
    rwa [hfind, Option.map_none, Option.map_eq_none_iff] at hlocated

/-- In a print of a call, of which only the call is located, the function of the call gets the
location of the call, and the print that of the program. -/
theorem located_inherits_call :
    let here : Location := ⟨"t.hy", 4, 2⟩
    let f : Target := .name "f" .load none
    let call : Target := .call f [] (some here)
    let print : Target := .print [call] true none
    let p : Program := ⟨"m", [print]⟩
    p.find? [0, 0, 0] = some (f, [call, print]) ∧ p.find? [0] = some (print, []) ∧
      (∃ v above, p.located.find? [0, 0, 0] = some (v, above) ∧ v.location = some here) ∧
      (∃ v above, p.located.find? [0] = some (v, above) ∧ v.location = some ⟨"m", 1, 1⟩) := by
  intro here f call print p
  obtain ⟨v, above, hv, -, -, hlocation⟩ := (located_inherits p).1 [0, 0, 0] f [call, print] rfl
  obtain ⟨w, above', hw, -, -, hroot⟩ := (located_inherits p).1 [0] print [] rfl
  exact ⟨rfl, rfl, ⟨v, above, hv, hlocation rfl⟩, w, above', hw, hroot rfl⟩

end Program
end FormLower
