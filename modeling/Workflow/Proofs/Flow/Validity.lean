import Workflow.Proofs.Flow.Cycle
/-!
A flow without problems is a valid flow, and the other way round: each check finds something exactly if
its condition fails, at every depth of sub-flows.
-/

namespace Workflow.Flow

variable {f : Flow} {edges seen : List Edge} {subflows : List (String × Flow)}

/-- An edge of the flow starts at the one id and ends at the other. -/
def Joins (f : Flow) (a b : String) : Prop :=
  ∃ e ∈ f.edges, e.source = a ∧ e.target = b

/-- No two edges have both their source and their label in common. -/
def LabelsDiffer (edges : List Edge) : Prop :=
  edges.Pairwise fun d e => ¬ (d.source = e.source ∧ d.label = e.label)

/-- A flow that can be carried out, apart from the flows inside it. -/
structure IsWellFormed (f : Flow) : Prop where
  nonempty : f.nodes ≠ []
  distinct : (f.nodes.map (·.id)).Nodup
  kinds : ∀ n ∈ f.nodes, n.kind ≠ ""
  ends : ∀ e ∈ f.edges, (∃ n ∈ f.nodes, n.id = e.source) ∧ ∃ n ∈ f.nodes, n.id = e.target
  labels : LabelsDiffer f.edges
  /-- An entry that is given is the id of a node; else there is a node that no edge leads to. -/
  entry : if f.entry.isVacant then ∃ n ∈ f.nodes, ∀ e ∈ f.edges, e.target ≠ n.id
    else ∃ n ∈ f.nodes, f.entry = .str n.id
  acyclic : ∀ id, ¬ Relation.TransGen f.Joins id id

/-- A flow that is well-formed at every depth. -/
inductive IsValid : Flow → Prop
  | intro (f : Flow) (own : f.IsWellFormed) (inside : ∀ entry ∈ f.subflows, IsValid entry.2) :
    IsValid f

theorem repeatedNodes_eq_nil_iff : f.repeatedNodes = [] ↔ (f.nodes.map (·.id)).Nodup := by
  have hcount : ∀ id, f.nodes.countP (·.id == id) = (f.nodes.map (·.id)).count id := by
    intro id
    rw [List.count_eq_countP, List.countP_map]
    rfl
  simp only [repeatedNodes, List.filterMap_eq_nil_iff, List.nodup_iff_count_le_one, hcount,
    ite_eq_right_iff, reduceCtorEq, imp_false, not_lt]
  constructor
  · intro h id
    by_cases hid : id ∈ f.nodeIds
    · exact h id hid
    · rw [List.count_eq_zero_of_not_mem]
      · exact Nat.zero_le 1
      · intro hm
        rw [mem_nodeIds, hasNode_iff] at hid
        exact hid (List.mem_map.mp hm)
  · exact fun h id _ => h id

theorem kindlessNodes_eq_nil_iff : f.kindlessNodes = [] ↔ ∀ n ∈ f.nodes, n.kind ≠ "" := by
  simp [kindlessNodes, List.filterMap_eq_nil_iff]

theorem looseEnds_eq_nil_iff : f.looseEnds = [] ↔
    ∀ e ∈ f.edges, (∃ n ∈ f.nodes, n.id = e.source) ∧ ∃ n ∈ f.nodes, n.id = e.target := by
  simp only [looseEnds, List.flatMap_eq_nil_iff, List.append_eq_nil_iff, ite_eq_left_iff,
    reduceCtorEq, imp_false, not_not, hasNode_iff]

theorem repeatedLabels_eq_nil_iff : repeatedLabels seen edges = [] ↔
    (∀ d ∈ seen, ∀ e ∈ edges, ¬ (d.source = e.source ∧ d.label = e.label)) ∧ LabelsDiffer edges := by
  induction edges generalizing seen with
  | nil => simp [repeatedLabels, LabelsDiffer]
  | cons e rest ih =>
    simp only [repeatedLabels, LabelsDiffer, List.append_eq_nil_iff, ite_eq_right_iff, reduceCtorEq,
      imp_false, ih, List.pairwise_cons, List.any_eq_true, Bool.and_eq_true, beq_iff_eq,
      List.forall_mem_cons]
    constructor
    · rintro ⟨hseen, ⟨he, hrest⟩, hd⟩
      exact ⟨fun d hm => ⟨fun h => hseen ⟨d, hm, h⟩, hrest d hm⟩, he, hd⟩
    · rintro ⟨hseen, he, hd⟩
      exact ⟨fun ⟨d, hm, h⟩ => (hseen d hm).1 h, ⟨he, fun d hm => (hseen d hm).2⟩, hd⟩

theorem node?_eq_none_iff (id : String) : f.node? id = none ↔ f.hasNode id = false := by
  simp [node?, hasNode]

theorem entryProblems_eq_nil_iff : f.entryProblems = [] ↔
    if f.entry.isVacant then ∃ n ∈ f.nodes, ∀ e ∈ f.edges, e.target ≠ n.id
    else ∃ n ∈ f.nodes, f.entry = .str n.id := by
  cases hv : f.entry.isVacant with
  | true => simp [entryProblems, hv, entryNode?, firstWithoutIncoming?]
  | false =>
    cases he : f.entry with
    | str id =>
      have hid : (∃ n ∈ f.nodes, Value.str id = .str n.id) ↔ f.hasNode id = true := by
        rw [hasNode_iff]
        exact exists_congr fun n => and_congr_right fun _ => by rw [Value.str.injEq, eq_comm]
      rw [he] at hv
      simp only [entryProblems, entryNode?, he, hv, hid]
      cases hn : f.hasNode id <;> simp [node?_eq_none_iff, hn]
    | _ => simp [entryProblems, he ▸ hv, he]

theorem cycleProblems_eq_nil_iff : f.cycleProblems = [] ↔ f.findCycle? = none := by
  unfold cycleProblems
  cases f.findCycle? <;> simp

/-- With no loose ends every edge counts in the search for cycles. -/
theorem leads_iff_joins
    (h : ∀ e ∈ f.edges, (∃ n ∈ f.nodes, n.id = e.source) ∧ ∃ n ∈ f.nodes, n.id = e.target)
    (a b : String) : f.Leads a b ↔ f.Joins a b := by
  constructor
  · exact fun hl => hl.2.2
  · rintro ⟨e, he, rfl, rfl⟩
    exact ⟨hasNode_iff.mpr (h e he).1, hasNode_iff.mpr (h e he).2, e, he, rfl, rfl⟩

theorem ownProblems_eq_nil_iff (hn : f.nodes ≠ []) : f.ownProblems = [] ↔ f.IsWellFormed := by
  simp only [ownProblems, List.append_eq_nil_iff, repeatedNodes_eq_nil_iff,
    kindlessNodes_eq_nil_iff, looseEnds_eq_nil_iff, repeatedLabels_eq_nil_iff,
    entryProblems_eq_nil_iff, cycleProblems_eq_nil_iff, findCycle?_eq_none_iff]
  have hedges : ∀ he : (∀ e ∈ f.edges, (∃ n ∈ f.nodes, n.id = e.source) ∧
      ∃ n ∈ f.nodes, n.id = e.target), f.Leads = f.Joins := fun he => by
    funext a b
    exact propext (leads_iff_joins he a b)
  constructor
  · rintro ⟨⟨⟨⟨⟨hd, hk⟩, he⟩, -, hl⟩, hs⟩, hc⟩
    exact ⟨hn, hd, hk, he, hl, hs, hedges he ▸ hc⟩
  · rintro ⟨-, hd, hk, he, hl, hs, hc⟩
    exact ⟨⟨⟨⟨⟨hd, hk⟩, he⟩, by simp, hl⟩, hs⟩, hedges he ▸ hc⟩

theorem problems_eq (f : Flow) : f.problems =
    if f.nodes.isEmpty then [.noNodes f.id] else f.ownProblems ++ subflowProblems f.subflows := by
  cases f
  rw [problems]

theorem subflowProblems_eq_nil_iff :
    subflowProblems subflows = [] ↔ ∀ entry ∈ subflows, entry.2.problems = [] := by
  induction subflows with
  | nil => simp [subflowProblems]
  | cons entry rest ih => simp [subflowProblems, ih]

/-- One level of a flow. -/
theorem problems_eq_nil_iff : f.problems = [] ↔
    f.IsWellFormed ∧ ∀ entry ∈ f.subflows, entry.2.problems = [] := by
  rw [problems_eq]
  split
  · rename_i hn
    simp only [reduceCtorEq, false_iff]
    exact fun h => h.1.nonempty (List.isEmpty_iff.mp hn)
  · rename_i hn
    rw [List.isEmpty_iff] at hn
    rw [List.append_eq_nil_iff, ownProblems_eq_nil_iff hn, subflowProblems_eq_nil_iff]

theorem IsValid.problems_eq_nil (h : f.IsValid) : f.problems = [] := by
  induction h with
  | intro f own _ ih => exact problems_eq_nil_iff.mpr ⟨own, ih⟩

theorem sizeOf_subflow_lt {entry : String × Flow} (h : entry ∈ f.subflows) :
    sizeOf entry.2 < sizeOf f := by
  have hlt := List.sizeOf_lt_of_mem h
  cases f
  cases entry
  simp only [Prod.mk.sizeOf_spec, Flow.mk.sizeOf_spec] at hlt ⊢
  omega

theorem isValid_of_problems_eq_nil (f : Flow) (h : f.problems = []) : f.IsValid := by
  obtain ⟨own, hsub⟩ := problems_eq_nil_iff.mp h
  refine .intro f own fun entry he => ?_
  exact isValid_of_problems_eq_nil entry.2 (hsub entry he)
termination_by sizeOf f
decreasing_by exact sizeOf_subflow_lt he

/-- Validation is exact: nothing is wrong with a flow exactly if it is valid at every depth, and the
search for cycles finds a closed walk, which is one, exactly if there is a cycle among the nodes. -/
theorem validation_exact (f : Flow) : (f.problems = [] ↔ f.IsValid) ∧
    (f.findCycle? = none ↔ ¬ ∃ id, Relation.TransGen f.Leads id id) ∧
    ∀ walk, f.findCycle? = some walk → f.IsClosedWalk walk :=
  ⟨⟨isValid_of_problems_eq_nil f, IsValid.problems_eq_nil⟩,
    findCycle?_eq_none_iff.trans not_exists.symm, fun _ => findCycle?_closed⟩

/-- A flow that goes round from its second node. -/
def roundabout : Flow where
  id := "inner"
  nodes := [{ id := "a", kind := "noop" }, { id := "b", kind := "noop" }, { id := "c", kind := "noop" }]
  edges := [
    { id := "ab", source := "a", target := "b", label := "default" },
    { id := "bc", source := "b", target := "c", label := "default" },
    { id := "cb", source := "c", target := "b", label := "again" }]

/-- A cycle is found, and makes the flow around its flow invalid. -/
theorem validation_exact_roundabout : roundabout.findCycle? = some ["b", "c", "b"] ∧
    roundabout.IsClosedWalk ["b", "c", "b"] ∧
    ∀ nodes, ¬ IsValid { id := "outer", nodes, subflows := [("inner", roundabout)] } := by
  have hc : roundabout.findCycle? = some ["b", "c", "b"] := by decide
  refine ⟨hc, (validation_exact roundabout).2.2 _ hc, fun nodes h => ?_⟩
  have hinner : roundabout.IsValid := by
    cases h with
    | intro _ _ inside => exact inside ("inner", roundabout) List.mem_cons_self
  obtain ⟨id, hl⟩ := (findCycle?_closed hc).transGen
  obtain ⟨own, -⟩ := problems_eq_nil_iff.mp ((validation_exact roundabout).1.mpr hinner)
  exact own.acyclic id (.mono (fun a b => (leads_iff_joins own.ends a b).mp) id id hl)

end Workflow.Flow
