import Mathlib.Data.List.Chain
import Workflow.Proofs.Flow.Ordering
import Workflow.Proofs.Flow.Validity
/-!
Lists of steps as flows. The nodes of the steps are linked one behind the other, so that the only order in
which every link leads forward is that of the steps, and so that whoever follows the links from the entry
comes past each step once.
-/

namespace Workflow

theorem Edge.defaultId_index {i j : Nat} {a b c d : String} (h : defaultId i a b = defaultId j c d) :
    i = j := by
  have hdigits (k : Nat) (s t : String) :
      ((defaultId k s t).toList.drop 2).takeWhile (· != '_') = Nat.toDigits 10 k := by
    have hplain : ∀ c ∈ Nat.toDigits 10 k, (c != '_') = true := by
      intro c hc
      rw [bne_iff_ne]
      rintro rfl
      exact Nat.underscore_not_in_toDigits hc
    have hlist : (defaultId k s t).toList.drop 2 = Nat.toDigits 10 k ++ '_' :: (s.toList ++ '_' :: t.toList) := by
      simp [defaultId, String.toList_append]
    rw [hlist, List.takeWhile_append_of_pos hplain]
    simp
  calc i
    _ = Nat.ofDigitChars 10 (Nat.toDigits 10 i) 0 := Nat.ofDigitChars_ten_toDigits.symm
    _ = Nat.ofDigitChars 10 (Nat.toDigits 10 j) 0 := by rw [← hdigits i a b, h, hdigits]
    _ = j := Nat.ofDigitChars_ten_toDigits

namespace Steps

variable {ns : List Node} {a b : Node} {e : Edge} {index : Nat}

/-! The nodes of steps. -/

theorem nodes_eq_mapIdx (index : Nat) (steps : List Value) :
    nodes index steps = steps.mapIdx fun i step => node (index + i) step := by
  induction steps generalizing index with
  | nil => rfl
  | cons step steps ih =>
    rw [nodes, List.mapIdx_cons, ih]
    simp only [Nat.add_zero, Nat.add_assoc, Nat.add_comm 1]

theorem textOr_ne_empty {default : String} (h : default ≠ "") (v : Value) : textOr default v ≠ "" := by
  unfold textOr
  split
  · rename_i s
    split
    · exact h
    · rename_i hs
      rwa [String.isEmpty_iff] at hs
  · exact h

theorem node_kind_ne_empty (index : Nat) (step : Value) : (node index step).kind ≠ "" :=
  textOr_ne_empty (by decide) _

theorem node_id_ne_empty (index : Nat) (step : Value) : (node index step).id ≠ "" :=
  textOr_ne_empty (by simp [String.append_eq_empty_iff]) _

/-! The links between nodes. -/

/-- The edge from a node to the one behind it. -/
def link (index : Nat) (a b : Node) : Edge :=
  { id := Edge.defaultId index a.id b.id, source := a.id, target := b.id, label := Label.default }

theorem links_cons_cons (index : Nat) (a b : Node) (ns : List Node) :
    links index (a :: b :: ns) = link index a b :: links (index + 1) (b :: ns) := rfl

/-- The links are those from each node to the following one. -/
theorem mem_links : e ∈ links index ns ↔
    ∃ front a b rest, ns = front ++ a :: b :: rest ∧ e = link (index + front.length) a b := by
  induction ns generalizing index with
  | nil => simp [links]
  | cons a ns ih =>
    cases ns with
    | nil => simp [links, List.cons_eq_append_iff]
    | cons b ns =>
      rw [links_cons_cons, List.mem_cons, ih]
      constructor
      · rintro (rfl | ⟨front, c, d, rest, hns, rfl⟩)
        · exact ⟨[], a, b, ns, rfl, rfl⟩
        · refine ⟨a :: front, c, d, rest, by rw [hns, List.cons_append], ?_⟩
          rw [List.length_cons]
          congr 1
          omega
      · rintro ⟨front, c, d, rest, hns, rfl⟩
        cases front with
        | nil =>
          cases hns
          exact .inl rfl
        | cons x front =>
          rw [List.cons_append, List.cons.injEq] at hns
          obtain ⟨rfl, hns⟩ := hns
          refine .inr ⟨front, c, d, rest, hns, ?_⟩
          rw [List.length_cons]
          congr 1
          omega

theorem map_source_links (index : Nat) (ns : List Node) :
    (links index ns).map (·.source) = (ns.map (·.id)).dropLast := by
  induction ns generalizing index with
  | nil => rfl
  | cons a ns ih =>
    cases ns with
    | nil => rfl
    | cons b ns =>
      rw [links_cons_cons, List.map_cons, ih]
      rfl

theorem map_target_links (index : Nat) (ns : List Node) :
    (links index ns).map (·.target) = (ns.map (·.id)).tail := by
  induction ns generalizing index with
  | nil => rfl
  | cons a ns ih =>
    cases ns with
    | nil => rfl
    | cons b ns =>
      rw [links_cons_cons, List.map_cons, ih]
      rfl

theorem source_mem_of_links (h : e ∈ links index ns) : e.source ∈ ns.map (·.id) := by
  have hs := List.mem_map_of_mem (f := (·.source)) h
  rw [map_source_links] at hs
  exact List.mem_of_mem_dropLast hs

theorem target_mem_of_links (h : e ∈ links index ns) : e.target ∈ ns.map (·.id) := by
  have ht := List.mem_map_of_mem (f := (·.target)) h
  rw [map_target_links] at ht
  exact List.mem_of_mem_tail ht

/-- A link leads forward. -/
theorem sublist_of_links (h : e ∈ links index ns) : [e.source, e.target].Sublist (ns.map (·.id)) := by
  obtain ⟨front, a, b, rest, rfl, rfl⟩ := mem_links.mp h
  rw [List.map_append, List.map_cons, List.map_cons]
  exact List.Sublist.trans (.cons_cons _ (.cons_cons _ (List.nil_sublist _))) (List.sublist_append_right _ _)

/-- The place of a link makes its id differ from all others. -/
theorem nodup_links_id (index : Nat) (ns : List Node) : ((links index ns).map (·.id)).Nodup := by
  induction ns generalizing index with
  | nil => exact .nil
  | cons a ns ih =>
    cases ns with
    | nil => exact .nil
    | cons b ns =>
      rw [links_cons_cons, List.map_cons, List.nodup_cons]
      refine ⟨fun hmem => ?_, ih _⟩
      obtain ⟨e, he, hid⟩ := List.mem_map.mp hmem
      obtain ⟨front, c, d, rest, -, rfl⟩ := mem_links.mp he
      have hindex : index + 1 + front.length = index := Edge.defaultId_index hid
      omega

/-- Links lead round nowhere. -/
theorem isAcyclic_of_links {es : List Edge} (hd : (ns.map (·.id)).Nodup) (hes : es ⊆ links index ns) :
    IsAcyclic es := by
  have hlt (a b : String) (h : Leads es a b) : (ns.map (·.id)).idxOf a < (ns.map (·.id)).idxOf b := by
    obtain ⟨e, he, rfl, rfl⟩ := h
    exact idxOf_lt_of_sublist hd (sublist_of_links (hes he))
  intro id h
  have hself := Relation.TransGen.lift (p := (· < ·)) (ns.map (·.id)).idxOf hlt id id h
  rw [Relation.transGen_eq_self] at hself
  exact Nat.lt_irrefl _ hself

theorem selected_links (index : Nat) (ns : List Node) :
    selected ns none (links index ns) = links index ns := by
  refine List.filter_eq_self.mpr fun e he => ?_
  obtain ⟨a, ha, hs⟩ := List.mem_map.mp (source_mem_of_links he)
  obtain ⟨b, hb, ht⟩ := List.mem_map.mp (target_mem_of_links he)
  simp only [Bool.true_and, Bool.and_eq_true, List.any_eq_true, beq_iff_eq]
  exact ⟨⟨a, ha, hs⟩, b, hb, ht⟩

/-- The one node comes before the other among the ids. -/
def Precedes (ids : List String) (a b : Node) : Prop :=
  ids.idxOf a.id < ids.idxOf b.id

instance (ids : List String) : IsTrans Node (Precedes ids) :=
  ⟨fun _ _ _ h h' => Nat.lt_trans h h'⟩

/-- An order in which each node stands before the one that is linked behind it is the order they are in. -/
theorem eq_of_links_forward {ordered : List Node} (hd : (ns.map (·.id)).Nodup) (hp : ordered.Perm ns)
    (h : ∀ e ∈ links index ns, [e.source, e.target].Sublist (ordered.map (·.id))) : ordered = ns := by
  have hdo : (ordered.map (·.id)).Nodup := (hp.map _).nodup_iff.mpr hd
  have hordered : ordered.Pairwise (Precedes (ordered.map (·.id))) := by
    rw [List.pairwise_iff_forall_sublist]
    intro a b hab
    have hids : [a.id, b.id].Sublist (ordered.map (·.id)) := hab.map Node.id
    exact idxOf_lt_of_sublist hdo hids
  have hstored : ns.Pairwise (Precedes (ordered.map (·.id))) := by
    rw [← List.isChain_iff_pairwise, List.isChain_iff_forall_rel_of_append_cons_cons]
    intro a b front rest hns
    exact idxOf_lt_of_sublist hdo (h _ (mem_links.mpr ⟨front, a, b, rest, hns, rfl⟩))
  refine hp.eq_of_pairwise (fun a b _ _ hab hba => ?_) hordered hstored
  exact absurd hab (Nat.lt_asymm hba)

/-- Linked nodes are in order. -/
theorem order_links (index : Nat) (ns : List Node) : order ns (links index ns) none = ns := by
  obtain ⟨hperm, hforward, hstored, -⟩ := order_topological ns (links index ns) none
  rw [selected_links] at hforward hstored
  by_cases hd : (ns.map (·.id)).Nodup
  · have hacyclic : IsAcyclic (links index ns) := isAcyclic_of_links hd (List.Subset.refl _)
    exact eq_of_links_forward hd hperm (hforward hd hacyclic)
  · exact hstored fun h => hd h.1

theorem toFlow_nodes (id : String) (steps : List Value) (vars : Entries Value) (name : Value)
    (subflows : List (String × Flow)) : (toFlow id steps vars name subflows).nodes = steps.mapIdx node := by
  simp [toFlow, nodes_eq_mapIdx]

theorem toFlow_edges (id : String) (steps : List Value) (vars : Entries Value) (name : Value)
    (subflows : List (String × Flow)) :
    (toFlow id steps vars name subflows).edges = links 0 (steps.mapIdx node) := by
  simp [toFlow, nodes_eq_mapIdx]

theorem ofFlow_toFlow (id : String) (steps : List Value) (vars : Entries Value) (name : Value)
    (subflows : List (String × Flow)) :
    ofFlow (toFlow id steps vars name subflows) = (steps.mapIdx node).mapM ofNode := by
  rw [ofFlow, ofNodes, toFlow_nodes, toFlow_edges, order_links, ite_self]

end Steps

/-! Following the links. -/

namespace Flow

/-- Following the default edges from a node comes past these nodes, each one the next after the one before it,
and stops behind the last one. -/
inductive Traverses (f : Flow) : Option Node → List Node → Prop
  | done : Traverses f none []
  | past {n : Node} {ns : List Node} (h : Traverses f (f.next? n.id [Label.default]) ns) :
    Traverses f (some n) (n :: ns)

variable {f : Flow} {a b n : Node} {index : Nat} {front rest : List Node}

theorem node?_eq_some (hd : (f.nodes.map (·.id)).Nodup) (hn : n ∈ f.nodes) : f.node? n.id = some n := by
  have h : f.nodes.reverse.reverse.find? (·.id == n.id) = some n :=
    Steps.find?_id (by simpa using hd) (List.mem_reverse.mpr hn)
  rwa [List.reverse_reverse] at h

section Linked

variable (hl : f.edges = Steps.links index f.nodes) (hd : (f.nodes.map (·.id)).Nodup)

include hl hd

/-- One link at most starts at each node. -/
theorem nodup_source_linked : (f.edges.map (·.source)).Nodup := by
  rw [hl, Steps.map_source_links]
  exact hd.sublist (List.dropLast_sublist _)

theorem edge?_linked (hn : f.nodes = front ++ a :: b :: rest) :
    f.edge? a.id Label.default = some (Steps.link (index + front.length) a b) := by
  have hmem : Steps.link (index + front.length) a b ∈ f.edges :=
    hl ▸ Steps.mem_links.mpr ⟨front, a, b, rest, hn, rfl⟩
  cases hfind : f.edge? a.id Label.default with
  | none => exact absurd (List.find?_eq_none.mp hfind _ hmem) (by simp [Steps.link])
  | some e =>
    have he := List.find?_some hfind
    rw [Bool.and_eq_true, beq_iff_eq] at he
    rw [List.inj_on_of_nodup_map (nodup_source_linked hl hd) (List.mem_of_find?_eq_some hfind) hmem he.1]

theorem edge?_last (hn : f.nodes = front ++ [a]) : f.edge? a.id Label.default = none := by
  have ha : a.id ∉ front.map (·.id) := by
    intro h
    rw [hn, List.map_append, List.nodup_append] at hd
    exact hd.2.2 _ h _ (List.mem_singleton.mpr rfl) rfl
  refine List.find?_eq_none.mpr fun e he hs => ?_
  rw [Bool.and_eq_true, beq_iff_eq] at hs
  have hmem := List.mem_map_of_mem (f := (·.source)) he
  rw [hl, Steps.map_source_links, hn, List.map_append, List.map_singleton, List.dropLast_concat, hs.1] at hmem
  exact ha hmem

/-- Behind each node comes the following one. -/
theorem next?_linked (hn : f.nodes = front ++ a :: rest) : f.next? a.id [Label.default] = rest.head? := by
  cases rest with
  | nil => rw [next?, edge?_last hl hd hn, next?, List.head?_nil]
  | cons b rest =>
    have hb : b ∈ f.nodes := hn ▸ by simp
    rw [next?, edge?_linked hl hd hn, List.head?_cons]
    exact node?_eq_some hd hb

theorem traverses_linked (front : List Node) (hn : f.nodes = front ++ rest) : f.Traverses rest.head? rest := by
  induction rest generalizing front with
  | nil => exact .done
  | cons a rest ih =>
    refine .past ?_
    rw [next?_linked hl hd hn]
    exact ih (front ++ [a]) (by rw [hn, List.append_assoc, List.singleton_append])

/-- No link leads to the first node. -/
theorem target_ne_first (hn : f.nodes = a :: rest) : ∀ e ∈ f.edges, e.target ≠ a.id := by
  intro e he ht
  have hmem := List.mem_map_of_mem (f := (·.target)) he
  rw [hl, Steps.map_target_links, hn, List.map_cons, List.tail_cons, ht] at hmem
  rw [hn, List.map_cons] at hd
  exact (List.nodup_cons.mp hd).1 hmem

theorem firstWithoutIncoming?_linked : f.firstWithoutIncoming? = f.nodes.head? := by
  cases hn : f.nodes with
  | nil => rw [firstWithoutIncoming?, hn, List.find?_nil, List.head?_nil]
  | cons a rest =>
    have hfirst : f.edges.any (·.target == a.id) = false := by
      rw [List.any_eq_false]
      intro e he
      simpa using target_ne_first hl hd hn e he
    rw [firstWithoutIncoming?, hn, List.find?_cons_of_pos (by simpa using hfirst), List.head?_cons]

theorem isWellFormed_linked (hne : f.nodes ≠ []) (hk : ∀ n ∈ f.nodes, n.kind ≠ "")
    (hv : f.entry.isVacant = true) : f.IsWellFormed where
  nonempty := hne
  distinct := hd
  kinds := hk
  ends e he := by
    rw [hl] at he
    exact ⟨List.mem_map.mp (Steps.source_mem_of_links he), List.mem_map.mp (Steps.target_mem_of_links he)⟩
  labels := (List.pairwise_map.mp (nodup_source_linked hl hd)).imp fun hne h => hne h.1
  entry := by
    obtain ⟨a, rest, hn⟩ := List.exists_cons_of_ne_nil hne
    rw [if_pos hv]
    exact ⟨a, hn ▸ List.mem_cons_self, target_ne_first hl hd hn⟩
  acyclic := by
    have hacyclic : Steps.IsAcyclic f.edges := Steps.isAcyclic_of_links hd fun _ he => hl ▸ he
    exact hacyclic

end Linked

end Flow

namespace Steps

/-- Steps that differ in their ids, given or made up, make a valid flow if the flows inside it are valid. Its
edges differ in their ids, it starts at the first step, and whoever follows its default edges comes past all
steps in order and stops behind the last. -/
theorem steps_in_order (id : String) (steps : List Value) (vars : Entries Value) (name : Value)
    (subflows : List (String × Flow)) (hne : steps ≠ []) (hd : ((steps.mapIdx node).map (·.id)).Nodup)
    (hsub : ∀ entry ∈ subflows, entry.2.problems = []) :
    let f := toFlow id steps vars name subflows
    f.problems = [] ∧ (f.edges.map (·.id)).Nodup ∧ f.entryNode? = steps.head?.map (node 0) ∧
      f.Traverses f.entryNode? (steps.mapIdx node) := by
  intro f
  have hnodes : f.nodes = steps.mapIdx node := toFlow_nodes id steps vars name subflows
  have hl : f.edges = links 0 f.nodes := by rw [hnodes, ← toFlow_edges id steps vars name subflows]
  have hdf : (f.nodes.map (·.id)).Nodup := hnodes ▸ hd
  have hentry : f.entryNode? = (steps.mapIdx node).head? := by
    rw [← hnodes]
    exact Flow.firstWithoutIncoming?_linked hl hdf
  have hkinds : ∀ n ∈ f.nodes, n.kind ≠ "" := by
    intro n hn
    rw [hnodes, List.mem_mapIdx] at hn
    obtain ⟨i, hi, rfl⟩ := hn
    exact node_kind_ne_empty i _
  have hvalid : f.IsWellFormed :=
    Flow.isWellFormed_linked hl hdf (by simpa [hnodes] using hne) hkinds rfl
  refine ⟨Flow.problems_eq_nil_iff.mpr ⟨hvalid, hsub⟩, hl ▸ nodup_links_id 0 f.nodes, ?_, ?_⟩
  · cases steps with
    | nil => exact absurd rfl hne
    | cons step steps => rw [hentry, List.mapIdx_cons]; rfl
  · rw [hentry]
    exact Flow.traverses_linked hl hdf [] hnodes

/-- Steps with and without ids of their own, the last one being no object at all. -/
def motley : List Value :=
  [.obj [("id", .str "open"), ("type", .str "navigate")], .obj [("type", .str "click"), ("id", .str "")], .null]

/-- The ids of steps that have none tell them apart, and the flow inside is one made of a single step. -/
theorem steps_in_order_motley :
    (motley.mapIdx node).map (·.id) = ["open", "n_1", "n_2"] ∧
    let f := toFlow "main" motley [] .null [("inner", toFlow "inner" [.null] [] .null [])]
    f.problems = [] ∧ f.Traverses f.entryNode? (motley.mapIdx node) := by
  have hids : (motley.mapIdx node).map (·.id) = ["open", "n_1", "n_2"] := by decide
  have hinner : (toFlow "inner" [.null] [] .null []).problems = [] :=
    (steps_in_order "inner" [.null] [] .null [] (by simp) (by simp) (by simp)).1
  obtain ⟨hvalid, -, -, hwalk⟩ := steps_in_order "main" motley [] .null
    [("inner", toFlow "inner" [.null] [] .null [])] (by simp [motley]) (by rw [hids]; decide) (by simpa using hinner)
  exact ⟨hids, hvalid, hwalk⟩

end Steps

end Workflow
