import Mathlib.Data.List.Pairwise
import Mathlib.Data.Multiset.Basic
import Workflow.Proofs.Flow.Validity
import Workflow.Refusal
/-!
Flows with their edges in another order, at every depth of sub-flows. Which edge carries a label out of a node
and which nodes an edge leads to does not depend on the order, as long as no two edges have both their source
and their label in common.
-/

namespace Workflow

namespace Flow

variable {f g : Flow} {edges edges' : List Edge}

/-- A flow with its edges in another order, and so on for the flows inside it. -/
inductive IsRearranged : Flow → Flow → Prop
  | intro (f : Flow) {edges : List Edge} {subflows : List (String × Flow)} (hedges : f.edges.Perm edges)
    (hkeys : f.subflows.map (·.1) = subflows.map (·.1))
    (inside : ∀ s ∈ f.subflows.zip subflows, IsRearranged s.1.2 s.2.2) :
    IsRearranged f { f with edges, subflows }

/-- Flows under the same names, each the same or valid and with its edges in another order. -/
structure AreRearranged (fs gs : Entries Flow) : Prop where
  keys : fs.map (·.1) = gs.map (·.1)
  flows : ∀ s ∈ fs.zip gs, s.1.2 = s.2.2 ∨ (s.1.2.IsValid ∧ s.1.2.IsRearranged s.2.2)

/-- What stands in one list has something beside it in another one as long. -/
theorem exists_zip {α β : Type} {xs : List α} {ys : List β} (hl : xs.length = ys.length) {y : β} (hy : y ∈ ys) :
    ∃ x, (x, y) ∈ xs.zip ys := by
  obtain ⟨i, hi, rfl⟩ := List.getElem_of_mem hy
  exact ⟨xs[i], List.mem_iff_getElem.mpr ⟨i, by simp [hl, hi], by simp⟩⟩

namespace LabelsDiffer

theorem perm (hd : LabelsDiffer edges) (h : edges.Perm edges') : LabelsDiffer edges' :=
  (h.pairwise_iff fun hne he => hne ⟨he.1.symm, he.2.symm⟩).mp hd

theorem eq (h : LabelsDiffer edges) {d e : Edge} (hd : d ∈ edges) (he : e ∈ edges)
    (hs : d.source = e.source) (hl : d.label = e.label) : d = e := by
  have : Std.Symm fun d e : Edge => ¬ (d.source = e.source ∧ d.label = e.label) :=
    ⟨fun _ _ hne he => hne ⟨he.1.symm, he.2.symm⟩⟩
  by_contra hne
  exact h.forall hd he hne ⟨hs, hl⟩

/-- The edge with a label out of a node is the same in any order. -/
theorem find?_perm (h : LabelsDiffer edges) (hp : edges.Perm edges') (id label : String) :
    edges'.find? (fun e => e.source == id && e.label == label) =
      edges.find? (fun e => e.source == id && e.label == label) := by
  cases hd : edges.find? (fun e => e.source == id && e.label == label) with
  | none =>
    rw [List.find?_eq_none] at hd ⊢
    exact fun e he => hd e (hp.mem_iff.mpr he)
  | some d =>
    have hmem := List.mem_of_find?_eq_some hd
    obtain ⟨hs, hl⟩ : d.source = id ∧ d.label = label := by simpa using List.find?_some hd
    obtain ⟨e, he⟩ := Option.isSome_iff_exists.mp (List.find?_isSome.mpr
      ⟨d, hp.mem_iff.mp hmem, List.find?_some hd⟩)
    obtain ⟨hs', hl'⟩ : e.source = id ∧ e.label = label := by simpa using List.find?_some he
    rw [he, h.eq hmem (hp.mem_iff.mpr (List.mem_of_find?_eq_some he)) (hs.trans hs'.symm) (hl.trans hl'.symm)]

end LabelsDiffer

/-! Validity. -/

theorem IsWellFormed.perm (h : f.IsWellFormed) (hp : f.edges.Perm edges) (subflows : List (String × Flow)) :
    IsWellFormed { f with edges, subflows } where
  nonempty := h.nonempty
  distinct := h.distinct
  kinds := h.kinds
  ends e he := h.ends e (hp.mem_iff.mpr he)
  labels := h.labels.perm hp
  entry := by
    have hleads (n : Node) : (∀ e ∈ edges, e.target ≠ n.id) ↔ ∀ e ∈ f.edges, e.target ≠ n.id :=
      forall_congr' fun e => by rw [hp.mem_iff]
    simpa only [hleads] using h.entry
  acyclic id hid := by
    refine h.acyclic id (Relation.TransGen.mono (fun a b => ?_) id id hid)
    rintro ⟨e, he, hj⟩
    exact ⟨e, hp.mem_iff.mpr he, hj⟩

/-- A valid flow is valid with its edges in any other order. -/
theorem IsRearranged.isValid (h : f.IsRearranged g) (hf : f.IsValid) : g.IsValid := by
  induction h with
  | @intro f edges subflows hedges hkeys _ ih =>
    cases hf with
    | intro _ own inside =>
      refine .intro _ (own.perm hedges subflows) fun entry he => ?_
      obtain ⟨s, hs⟩ := exists_zip (by simpa using congrArg List.length hkeys) he
      exact ih _ hs (inside s (List.of_mem_zip hs).1)

theorem unreadableEntryIn?_eq_none {subflows : List (String × Flow)}
    (h : ∀ entry ∈ subflows, Flow.unreadableEntry? entry.2 = none) : unreadableEntryIn? subflows = none := by
  induction subflows with
  | nil => rw [unreadableEntryIn?]
  | cons s rest ih =>
    obtain ⟨hs, hrest⟩ := List.forall_mem_cons.mp h
    rw [unreadableEntryIn?, hs]
    exact ih hrest

/-- The entry of a valid flow is the id of a node, if one is given. -/
theorem IsValid.readable (h : f.IsValid) : f.unreadableEntry? = none := by
  induction h with
  | intro f own _ ih =>
    have hentry := own.entry
    have hinside := unreadableEntryIn?_eq_none ih
    cases f with
    | mk id nodes edges vars entry subflows policy name version =>
      rw [ unreadableEntry?]
      dsimp only at hentry hinside ⊢
      split at hentry
      · rename_i hv
        simp [hv, hinside]
      · obtain ⟨n, -, rfl⟩ := hentry
        simp [Value.isHashable, hinside]

theorem validate_eq_ok_iff : f.validate = .ok () ↔ f.IsValid := by
  unfold validate
  constructor
  · intro h
    split at h
    · cases h
    · split at h
      · exact isValid_of_problems_eq_nil f (by assumption)
      · cases h
  · intro h
    rw [h.readable, h.problems_eq_nil]

end Flow

/-- A way to put edges in an order, such that one finds in it what one looks for among them. -/
structure Arrangement where
  arrange : List Edge → List Edge
  find? : ∀ edges id label, (arrange edges).find? (fun e => e.source == id && e.label == label) =
    edges.find? (fun e => e.source == id && e.label == label)
  any : ∀ edges id, (arrange edges).any (·.target == id) = edges.any (·.target == id)

namespace Arrangement

mutual

/-- A flow with its edges put in order, and so on for the flows inside it. -/
def flow (o : Arrangement) : Flow → Flow
  | ⟨id, nodes, edges, vars, entry, subflows, policy, name, version⟩ =>
    ⟨id, nodes, o.arrange edges, vars, entry, o.subflows subflows, policy, name, version⟩

def subflows (o : Arrangement) : List (String × Flow) → List (String × Flow)
  | [] => []
  | (key, f) :: rest => (key, o.flow f) :: o.subflows rest

end

variable (o : Arrangement)

theorem subflows_eq (fs : List (String × Flow)) : o.subflows fs = fs.map fun s => (s.1, o.flow s.2) := by
  induction fs with
  | nil => rw [subflows, List.map_nil]
  | cons s rest ih => rw [subflows, ih, List.map_cons]

theorem flow_eq (f : Flow) : o.flow f =
    { f with edges := o.arrange f.edges, subflows := f.subflows.map fun s => (s.1, o.flow s.2) } := by
  cases f
  rw [flow, subflows_eq]

@[simp] theorem flow_id (f : Flow) : (o.flow f).id = f.id := by rw [flow_eq]
@[simp] theorem flow_nodes (f : Flow) : (o.flow f).nodes = f.nodes := by rw [flow_eq]
@[simp] theorem flow_vars (f : Flow) : (o.flow f).vars = f.vars := by rw [flow_eq]
@[simp] theorem flow_entry (f : Flow) : (o.flow f).entry = f.entry := by rw [flow_eq]
@[simp] theorem flow_policy (f : Flow) : (o.flow f).policy = f.policy := by rw [flow_eq]

@[simp] theorem edge?_flow (f : Flow) (id label : String) : (o.flow f).edge? id label = f.edge? id label := by
  rw [flow_eq]
  exact o.find? f.edges id label

@[simp] theorem node?_flow (f : Flow) (id : String) : (o.flow f).node? id = f.node? id := by
  rw [Flow.node?, flow_nodes, Flow.node?]

@[simp] theorem next?_flow (f : Flow) (id : String) (labels : List String) :
    (o.flow f).next? id labels = f.next? id labels := by
  induction labels with
  | nil => rfl
  | cons label rest ih =>
    unfold Flow.next?
    simp only [edge?_flow, node?_flow, ih]

@[simp] theorem entryNode?_flow (f : Flow) : (o.flow f).entryNode? = f.entryNode? := by
  have hfirst : (o.flow f).firstWithoutIncoming? = f.firstWithoutIncoming? := by
    rw [flow_eq]
    simp only [Flow.firstWithoutIncoming?, o.any]
  unfold Flow.entryNode?
  simp only [hfirst, flow_entry, node?_flow]

/-- Under a name the same flow is found, put in order. -/
theorem find?_map (key : String) (fs : Entries Flow) :
    Entries.find? key (fs.map fun s => (s.1, o.flow s.2)) = (Entries.find? key fs).map o.flow := by
  induction fs with
  | nil => rfl
  | cons s rest ih =>
    rw [List.map_cons, Entries.find?, Entries.find?, ih]
    split <;> rfl

theorem find?_subflows (key : String) (f : Flow) :
    Entries.find? key (o.flow f).subflows = (Entries.find? key f.subflows).map o.flow := by
  rw [← find?_map, flow_eq]

open Classical in
/-- The edges in an order that depends only on which they are, if it is of no account. -/
noncomputable def canonical : Arrangement where
  arrange edges := if Flow.LabelsDiffer edges then (edges : Multiset Edge).toList else edges
  find? edges id label := by
    split
    · rename_i h
      exact h.find?_perm (Multiset.coe_eq_coe.mp (Multiset.coe_toList _)).symm id label
    · rfl
  any edges id := by
    split
    · exact (Multiset.coe_eq_coe.mp (Multiset.coe_toList (edges : Multiset Edge))).any_eq
    · rfl

theorem canonical_arrange {edges edges' : List Edge} (h : Flow.LabelsDiffer edges) (hp : edges.Perm edges') :
    canonical.arrange edges = canonical.arrange edges' := by
  unfold canonical
  dsimp only
  rw [if_pos h, if_pos (h.perm hp), Multiset.coe_eq_coe.mpr hp]

/-- Flows that are the same in an order, with the same keys. -/
theorem map_congr {fs gs : List (String × Flow)} (hkeys : fs.map (·.1) = gs.map (·.1))
    (h : ∀ s ∈ fs.zip gs, o.flow s.1.2 = o.flow s.2.2) :
    fs.map (fun s => (s.1, o.flow s.2)) = gs.map fun s => (s.1, o.flow s.2) := by
  induction fs generalizing gs with
  | nil => rw [List.map_eq_nil_iff.mp hkeys.symm]
  | cons s fs ih =>
    cases gs with
    | nil => cases hkeys
    | cons t gs =>
      obtain ⟨hkey, hrest⟩ := List.cons.inj hkeys
      have hflow : o.flow s.2 = o.flow t.2 := h (s, t) List.mem_cons_self
      rw [List.map_cons, List.map_cons, show s.1 = t.1 from hkey, hflow,
        ih hrest fun s hs => h s (List.mem_cons_of_mem _ hs)]

/-- In this order there is one flow for all that are the same but for the order of their edges. -/
theorem canonical_flow {f g : Flow} (h : f.IsRearranged g) (hf : f.IsValid) :
    canonical.flow f = canonical.flow g := by
  induction h with
  | @intro f edges subflows hedges hkeys _ ih =>
    cases hf with
    | intro _ own inside =>
      have hsub := canonical.map_congr hkeys fun s hs => ih s hs (inside s.1 (List.of_mem_zip hs).1)
      rw [canonical.flow_eq f, canonical.flow_eq, canonical_arrange own.labels hedges, hsub]

theorem canonical_flows {fs gs : Entries Flow} (h : Flow.AreRearranged fs gs) :
    fs.map (fun s => (s.1, canonical.flow s.2)) = gs.map fun s => (s.1, canonical.flow s.2) :=
  canonical.map_congr h.keys fun s hs => (h.flows s hs).elim (congrArg canonical.flow) fun hr =>
    canonical_flow hr.2 hr.1

end Arrangement

end Workflow
