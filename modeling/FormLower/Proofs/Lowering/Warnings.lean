import FormLower.Proofs.Lowering.Steps
import FormLower.Proofs.Lowering.Tables
import FormLower.Proofs.Trees

/-! # Warnings

Four forms drop arguments: a definition what follows its value, a conditional what follows its
second branch, a return what comes before its last value and a function all bodies but the last.
Each of them leaves a warning when it drops something, and nothing else leaves one:
`Source.warnings_perm` compares the warnings of a run with those that the lowered calls call for. -/

namespace FormLower

/-! ### Warnings -/

/-- The warnings among some notices. -/
def warnings (ns : List Notice) : List Notice := ns.filter fun n => n.severity = .warn

namespace Source

mutual

/-- The calls that are lowered when a tree is, the outer ones first: of a definition only the value
is lowered, of any other call everything. -/
def calls : Source → List Source
  | .leaf _ _ => []
  | .call head args place =>
    .call head args place :: if head = "def" then valueCalls args else allCalls args
  | .list _ _ => []

def allCalls : List Source → List Source
  | [] => []
  | s :: ss => s.calls ++ allCalls ss

/-- The calls that are lowered when the value of a definition is. -/
def valueCalls : List Source → List Source
  | _ :: value :: _ => value.calls
  | _ => []

end

theorem allCalls_eq_flatMap : ∀ ss : List Source, allCalls ss = ss.flatMap calls
  | [] => rfl
  | s :: ss => by rw [allCalls, allCalls_eq_flatMap ss, List.flatMap_cons]

/-- The name that the first argument of a definition gives. -/
def boundName (args : List Source) : String := ((args.head?.bind rawText?).getD "")

/-- The bodies of a function: what follows its parameters, without its documentation. -/
def functionBodies (args : List Source) : List Source :=
  match args.drop 2 with
  | [] => []
  | first :: rest => if first.isString then rest else first :: rest

/-- The warning that a call leaves itself: one if it has more arguments than its head keeps, and
none else. -/
def surplus : Source → List Notice
  | .call head args _ =>
    if head = "def" then Run.counted (.extraValues (boundName args)) (args.length - 2)
    else if head = "if" then Run.counted .extraBranches (args.length - 3)
    else if head = "return" then Run.counted .discardedValues (args.length - 1)
    else if head = "defn" then
      Run.counted (.droppedBodies (boundName args)) ((functionBodies args).length - 1)
    else []
  | _ => []

end Source

/-! ### Notices that are warnings -/

@[simp] theorem warnings_nil : warnings [] = [] := rfl

@[simp] theorem warnings_append (ns ms : List Notice) :
    warnings (ns ++ ms) = warnings ns ++ warnings ms := List.filter_append ns ms

@[simp] theorem warnings_structural (head : String) (ns : List Notice) :
    warnings (.structural head :: ns) = warnings ns := rfl

@[simp] theorem warnings_special (head : String) (count : Nat) (ns : List Notice) :
    warnings (.special head count :: ns) = warnings ns := rfl

theorem warnings_concat_special (ns : List Notice) (head : String) (count : Nat) :
    warnings (ns ++ [.special head count]) = warnings ns := by
  rw [warnings_append, warnings_special, warnings_nil, List.append_nil]

/-- A count of what is dropped is a warning whenever there is anything to count. -/
theorem warnings_counted {n : Nat → Notice} (hn : ∀ count, (n count).severity = .warn)
    (count : Nat) : warnings (Run.counted n count) = Run.counted n count := by
  unfold Run.counted
  split
  · rfl
  · rw [warnings, List.filter_cons_of_pos (by simp [hn]), List.filter_nil]

theorem counted_eq_nil_iff {n : Nat → Notice} {count : Nat} :
    Run.counted n count = [] ↔ count = 0 := by
  unfold Run.counted
  split <;> simp [*]

variable {α : Type} {n : Nat → Notice} {xs : List α} {ns : List Notice}

theorem quiet_of_warnings_counted (hn : ∀ count, (n count).severity = .warn)
    (h : warnings (Run.counted n xs.length ++ ns) = []) : xs = [] ∧ warnings ns = [] := by
  rw [warnings_append, warnings_counted hn] at h
  obtain ⟨hcount, hns⟩ := List.append_eq_nil_iff.mp h
  exact ⟨List.length_eq_zero_iff.mp (counted_eq_nil_iff.mp hcount), hns⟩

theorem quiet_of_warnings_special {head : String} {count : Nat}
    (hn : ∀ count, (n count).severity = .warn)
    (h : warnings (ns ++ .special head count :: Run.counted n xs.length) = []) :
    warnings ns = [] ∧ xs = [] := by
  rw [warnings_append, warnings_special, warnings_counted hn] at h
  obtain ⟨hns, hcount⟩ := List.append_eq_nil_iff.mp h
  exact ⟨hns, List.length_eq_zero_iff.mp (counted_eq_nil_iff.mp hcount)⟩

/-! ### Every warning has its cause -/

namespace Source

/-- The warnings of all calls that are lowered when a tree is. -/
def reports (s : Source) : List Notice := s.calls.flatMap surplus

theorem reports_list (elements : List Source) (place : Place) :
    (Source.list elements place).reports = [] := rfl

theorem reports_of_names {n : Reading.Named} (h : Reading.Names n) : n.2.reports = [] := by
  obtain ⟨name, s⟩ := n
  cases s with
  | leaf value place => rfl
  | call head args place => cases h
  | list elements place => rfl

/-- A call that is no definition reports itself and everything below. -/
theorem reports_call {head : String} {args : List Source} {place : Place} (h : head ≠ "def") :
    (Source.call head args place).reports =
      (Source.call head args place).surplus ++ args.flatMap reports := by
  rw [reports, calls, if_neg h, List.flatMap_cons, allCalls_eq_flatMap, List.flatMap_assoc]
  rfl

/-- The heads that do not keep all their arguments. -/
def droppingHeads : List String := ["def", "if", "return", "defn"]

theorem reports_keeping {head : String} {args : List Source} {place : Place}
    (h : head ∉ droppingHeads) : (Source.call head args place).reports = args.flatMap reports := by
  simp only [droppingHeads, List.mem_cons, List.not_mem_nil, or_false, not_or] at h
  obtain ⟨hdef, hif, hreturn, hdefn⟩ := h
  rw [reports_call hdef, surplus, if_neg hdef, if_neg hif, if_neg hreturn, if_neg hdefn,
    List.nil_append]

theorem not_mem_droppingHeads {head : String}
    (h : head ∉ formHeads ∨ head ∈ arithmeticHeads ++ comparisonHeads ∨ head = "print" ∨
      head = "do") : head ∉ droppingHeads := by
  have hforms : ∀ h ∈ droppingHeads, h ∈ formHeads := by decide
  have hoperators : ∀ h ∈ arithmeticHeads ++ comparisonHeads, h ∉ droppingHeads := by decide
  rcases h with h | h | rfl | rfl
  · exact fun hd => h (hforms head hd)
  · exact hoperators head h
  · decide
  · decide

theorem surplus_condition (args : List Source) (place : Place) :
    (Source.call "if" args place).surplus = Run.counted .extraBranches (args.length - 3) := rfl

theorem surplus_ret (args : List Source) (place : Place) :
    (Source.call "return" args place).surplus =
      Run.counted .discardedValues (args.length - 1) := rfl

theorem reports_define {n : Reading.Named} {value : Source} {extra : List Source} {place : Place}
    (hn : Reading.Names n) :
    (Source.call "def" (n.2 :: value :: extra) place).reports =
      Run.counted (.extraValues n.1) extra.length ++ value.reports := by
  have hname : boundName (n.2 :: value :: extra) = n.1 := by
    change (n.2.rawText?).getD "" = n.1
    rw [show n.2.rawText? = some n.1 from hn, Option.getD_some]
  have hself : (Source.call "def" (n.2 :: value :: extra) place).surplus =
      Run.counted (.extraValues n.1) extra.length := by
    change Run.counted (.extraValues (boundName (n.2 :: value :: extra))) _ = _
    rw [hname]
    rfl
  rw [← hself]
  rfl

theorem functionBodies_eq {sig : StructuralForm.Signature} {bodies : List Source}
    (hs : sig.Precedes bodies) (name params : Source) :
    functionBodies (name :: params :: (sig.doc.toList ++ bodies)) = bodies := by
  cases hdoc : sig.doc with
  | some d => exact if_pos (hs.doc d hdoc)
  | none =>
      cases bodies with
      | nil => rfl
      | cons first rest =>
          have hfirst := hs.bodies hdoc first rfl
          change (if first.isString then rest else first :: rest) = _
          rw [hfirst, if_neg Bool.false_ne_true]

theorem reports_function {sig : StructuralForm.Signature} {bodies : List Source}
    {paramsPlace place : Place} (hs : sig.Precedes bodies) :
    (Source.call "defn" (sig.name.2 :: .list (sig.params.map Prod.snd) paramsPlace ::
        (sig.doc.toList ++ bodies)) place).reports =
      Run.counted (.droppedBodies sig.name.1) (bodies.length - 1) ++ bodies.flatMap reports := by
  have hself : (Source.call "defn" (sig.name.2 :: .list (sig.params.map Prod.snd) paramsPlace ::
      (sig.doc.toList ++ bodies)) place).surplus =
      Run.counted (.droppedBodies sig.name.1) (bodies.length - 1) := by
    change Run.counted (.droppedBodies ((sig.name.2.rawText?).getD ""))
      ((functionBodies _).length - 1) = _
    rw [functionBodies_eq hs, show sig.name.2.rawText? = some sig.name.1 from hs.name,
      Option.getD_some]
  have hdoc : sig.doc.toList.flatMap reports = [] := by
    cases hd : sig.doc with
    | none => rfl
    | some d =>
        have hstring := hs.doc d hd
        rw [Option.toList_some, List.flatMap_singleton]
        cases d with
        | leaf value place => rfl
        | call head args place => cases hstring
        | list elements place => rfl
  rw [reports_call (by decide), hself, List.flatMap_cons, reports_of_names hs.name,
    List.flatMap_cons, reports_list, List.flatMap_append, hdoc]
  rfl

end Source

/-- Lowering the tree leaves the warnings that its calls have to leave, each of them once. -/
def Source.Reports (s : Source) : Prop :=
  ∀ ns r, Forms.default.Lowers s ns r → (warnings ns).Perm s.reports

theorem Forms.LowersAll.warnings_perm {ss : List Source} {ns : List Notice} {rs : List Lowered}
    (h : Forms.default.LowersAll ss ns rs) (ih : ∀ s ∈ ss, s.Reports) :
    (warnings ns).Perm (ss.flatMap Source.reports) := by
  induction h with
  | nil => exact .nil
  | @cons s ss ns ms r rs hs hss ihss =>
      obtain ⟨ihs, ihrest⟩ := List.forall_mem_cons.mp ih
      rw [warnings_append, List.flatMap_cons]
      exact (ihs ns r hs).append (ihss ihrest)

/-- **The warnings of a run are those that the lowered calls have to leave, each of them once.** -/
theorem Source.warnings_perm (s : Source) : s.Reports := by
  induction s with
  | leaf value place =>
      intro ns r h
      obtain ⟨rfl, -⟩ := Forms.lowers_leaf_iff.mp h
      exact .nil
  | list elements place _ => exact fun ns r h => absurd h Forms.not_lowers_list
  | call head args place ih =>
      intro ns r h
      cases Forms.lowers_call_iff.mp h with
      | call hm hargs =>
          have hform : head ∉ formHeads := Forms.meaning_eq_call_iff.mp hm
          rw [reports_keeping (not_mem_droppingHeads (.inl hform))]
          exact hargs.warnings_perm ih
      | @define n value extra ms t hm hn hvalue =>
          obtain rfl : head = "def" := Forms.meaning_eq_define_iff.mp hm
          have hv := ih value (by simp) ms _ hvalue
          rw [reports_define hn, warnings_structural, warnings_append,
            warnings_counted fun _ => rfl]
          exact hv.append_left _
      | @function sig _ earlier last ms ms' rs b hm hs hearlier hlast =>
          obtain rfl : head = "defn" := Forms.meaning_eq_function_iff.mp hm
          have hmem : ∀ s ∈ earlier, s.Reports := fun s hs => ih s (by simp [hs])
          have hfirst := hearlier.warnings_perm hmem
          have hb := ih last (by simp) ms' b hlast
          rw [reports_function hs, warnings_structural, warnings_append, warnings_append,
            warnings_counted fun _ => rfl, List.length_append, List.length_singleton,
            Nat.add_sub_cancel, List.flatMap_append, List.flatMap_singleton]
          -- The warning stands between those of the dropped bodies and those of the last one.
          refine (hfirst.append (hb.append_left _)).trans ?_
          rw [← List.append_assoc, ← List.append_assoc]
          exact List.perm_append_comm.append_right _
      | skip hm => exact absurd hm Forms.meaning_ne_skip.1
      | print hm hargs =>
          have hprint : head = "print" := Forms.meaning_eq_print_iff.mp hm
          rw [reports_keeping (not_mem_droppingHeads (.inr (.inr (.inl hprint)))),
            warnings_concat_special]
          exact hargs.warnings_perm ih
      | arithmetic hm _ hargs =>
          have hhead : head ∈ arithmeticHeads := Forms.meaning_eq_arithmetic_iff.mp hm
          rw [reports_keeping (not_mem_droppingHeads (.inr (.inl (List.mem_append_left _ hhead)))),
            warnings_concat_special]
          exact hargs.warnings_perm ih
      | comparison hm _ hargs =>
          have hhead : head ∈ comparisonHeads := Forms.meaning_eq_comparison_iff.mp hm
          rw [reports_keeping (not_mem_droppingHeads (.inr (.inl (List.mem_append_right _ hhead)))),
            warnings_concat_special]
          exact hargs.warnings_perm ih
      | @condition _ ms t body orelse extra hm hargs =>
          obtain rfl : head = "if" := Forms.meaning_eq_condition_iff.mp hm
          have hcount : args.length - 3 = extra.length := by
            rw [hargs.length_eq]
            rfl
          rw [reports_call (by decide), surplus_condition, hcount, warnings_append,
            warnings_special, warnings_counted fun _ => rfl]
          exact List.perm_append_comm.trans ((hargs.warnings_perm ih).append_left _)
      | sequence hm hargs =>
          have hdo : head = "do" := Forms.meaning_eq_sequence_iff.mp hm
          rw [reports_keeping (not_mem_droppingHeads (.inr (.inr (.inr hdo)))),
            warnings_concat_special]
          exact hargs.warnings_perm ih
      | @ret _ ms rs t hm hargs =>
          obtain rfl : head = "return" := Forms.meaning_eq_ret_iff.mp hm
          have hcount : args.length - 1 = rs.length := by
            rw [hargs.length_eq, List.length_append, List.length_singleton, Nat.add_sub_cancel]
          rw [reports_call (by decide), surplus_ret, hcount, warnings_append, warnings_special,
            warnings_counted fun _ => rfl]
          exact List.perm_append_comm.trans ((hargs.warnings_perm ih).append_left _)
      | drop hm => exact absurd hm Forms.meaning_ne_skip.2

end FormLower
