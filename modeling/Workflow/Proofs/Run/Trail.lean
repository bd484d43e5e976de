import Workflow.Proofs.Flow.Validity
import Workflow.Proofs.Run.Retry
/-!
The nodes that are carried out in a frame, one after the other, if nothing is wrong with its flow. A frame is
followed along the steps of the task that walks it, whatever the nodes answer and whatever else happens to the
run: it begins at the entry of the flow and goes along edges, so that it comes to no node twice, and what fails
in it is a node and never the walk itself.
-/

namespace Workflow

namespace Flow

variable {f : Flow} {id : String} {labels : List String} {n : Node} {ns : List Node}

theorem next?_joins (h : f.next? id labels = some n) : n ∈ f.nodes ∧ f.Joins id n.id := by
  induction labels with
  | nil => cases h
  | cons label labels ih =>
    unfold next? at h
    split at h
    · rename_i e he
      have hfound := List.find?_some he
      rw [Bool.and_eq_true, beq_iff_eq] at hfound
      have hn : f.nodes.find? (·.id == e.target) = some n := h
      have hid := List.find?_some hn
      rw [beq_iff_eq] at hid
      exact ⟨List.mem_of_find?_eq_some hn, e, List.mem_of_find?_eq_some he, hfound.1, hid.symm⟩
    · exact ih h

theorem entryNode?_mem (h : f.entryNode? = some n) : n ∈ f.nodes := by
  unfold entryNode? at h
  split at h
  · exact List.mem_of_find?_eq_some h
  · split at h
    · exact List.mem_of_find?_eq_some h
    · cases h

namespace IsWellFormed

variable (hw : f.IsWellFormed)

include hw

/-- An edge that is followed leads to a node. -/
theorem edge?_eq_none (h : f.next? id labels = none) : ∀ l ∈ labels, f.edge? id l = none := by
  induction labels with
  | nil => simp
  | cons label labels ih =>
    unfold next? at h
    split at h
    · rename_i e he
      obtain ⟨n, hn, hid⟩ := (hw.ends e (List.mem_of_find?_eq_some he)).2
      have hnone : f.node? e.target = none := h
      exact absurd (beq_iff_eq.mpr hid) (List.find?_eq_none.mp hnone n hn)
    · rename_i he
      exact List.forall_mem_cons.mpr ⟨he, ih h⟩

theorem exists_entry : ∃ n, f.entryNode? = some n := by
  have he := hw.entry
  unfold entryNode?
  split
  · rename_i hv
    rw [if_pos hv] at he
    obtain ⟨n, hn, hfree⟩ := he
    refine Option.isSome_iff_exists.mp (List.find?_isSome.mpr ⟨n, hn, ?_⟩)
    simpa using hfree
  · rename_i hv
    rw [if_neg hv] at he
    obtain ⟨n, hn, hid⟩ := he
    rw [hid]
    exact Option.isSome_iff_exists.mp (List.find?_isSome.mpr ⟨n, hn, by simp⟩)

theorem entry_isHashable : (!f.entry.isVacant && !f.entry.isHashable) = false := by
  have he := hw.entry
  split at he
  · rename_i hv
    rw [hv]
    rfl
  · obtain ⟨n, -, hid⟩ := he
    rw [hid, Bool.and_eq_false_iff]
    exact .inr rfl

/-- Nodes along edges are all different, as there is no way back to a node. -/
theorem nodup_of_isChain (h : ns.IsChain fun a b => f.Joins a.id b.id) : (ns.map (·.id)).Nodup := by
  have hreach : ns.IsChain fun a b => Relation.TransGen f.Joins a.id b.id := h.imp fun _ _ hj => .single hj
  have : IsTrans Node fun a b => Relation.TransGen f.Joins a.id b.id := ⟨fun _ _ _ h k => h.trans k⟩
  rw [List.Nodup, List.pairwise_map]
  refine hreach.pairwise.imp fun {a b} hab (heq : a.id = b.id) => ?_
  rw [← heq] at hab
  exact hw.acyclic a.id hab

end IsWellFormed

/-- Nodes of a flow that are all different are no more than the flow has. -/
theorem length_le_of_nodup (hm : ∀ n ∈ ns, n ∈ f.nodes) (hd : (ns.map (·.id)).Nodup) :
    ns.length ≤ f.nodes.length := by
  have hsub : ns.map (·.id) ⊆ f.nodes.map (·.id) := List.map_subset _ hm
  simpa using (List.subperm_of_subset hd hsub).length_le

end Flow

namespace Answer

/-- A failure or a fault. -/
def IsFailure : Answer → Prop
  | .outcome (.failed _ _) | .thrown _ => True
  | _ => False

/-- What a frame answers if a node answers it a failure or a fault. -/
def blamedOn (node : Node) : Answer → Answer
  | .outcome (.failed e none) => .outcome (.failed e (some node.id))
  | b => b

end Answer

/-- What has come of the walk of a frame so far. -/
structure Trail where
  /-- The nodes that have been dispatched. -/
  nodes : List Node := []
  /-- What they have answered. -/
  answers : List Answer := []
  /-- What the frame answers, once the walk is over. -/
  ending : Option Answer := none

namespace Trail

/-- Takes a step of the task into account, for a frame whose walk lies on so much other work. -/
def note (v : Trail) (height : Nat) (m : Machine) (s : Strand) : Trail :=
  match s.control with
  | .dispatch _ node =>
    if s.pending.length = height ∧ m.token.cancelled = false then { v with nodes := v.nodes ++ [node] } else v
  | .answer b =>
    if s.pending.length = height then { v with ending := some b }
    else
      match s.pending with
      | .visit _ _ :: p => if p.length = height then { v with answers := v.answers ++ [b] } else v
      | _ => v
  | _ => v

/-- The last node that was dispatched, with what it answered. -/
structure IsLast (v : Trail) (node : Node) (b : Answer) : Prop where
  even : v.answers.length = v.nodes.length
  node : v.nodes.getLast? = some node
  answer : v.answers.getLast? = some b

/-- A frame walks along the edges of its flow, and comes to no node twice. -/
structure IsSimple (v : Trail) (f : Flow) : Prop where
  entry : ∀ n, v.nodes.head? = some n → f.entryNode? = some n
  members : ∀ n ∈ v.nodes, n ∈ f.nodes
  /-- Behind a node comes the one that its answer leads to. -/
  followed : ∀ i b, v.nodes[i + 1]? = some b → ∃ a label, v.nodes[i]? = some a ∧
    v.answers[i]? = some (.outcome (.completed label)) ∧ f.next? a.id (Machine.labelsAfter label) = some b
  linked : v.nodes.IsChain fun a b => f.Joins a.id b.id
  distinct : (v.nodes.map (·.id)).Nodup
  bounded : v.nodes.length ≤ f.nodes.length
  /-- The frame completes where there is no edge to be followed. -/
  completed : ∀ l, v.ending = some (.outcome (.completed l)) → ∃ a label,
    v.IsLast a (.outcome (.completed label)) ∧ ∀ l ∈ Machine.labelsAfter label, f.edge? a.id l = none

/-- If a frame fails, it is by the last of its nodes. -/
def FailsByNode (v : Trail) : Prop :=
  ∀ b, v.ending = some b → b.IsFailure → ∃ node c, v.IsLast node c ∧ b = c.blamedOn node

end Trail

namespace Trail

variable {v : Trail} {f : Flow} {node : Node} {b : Answer}

/-- What is known of a walk that has come so far. -/
structure Follows (v : Trail) (f : Flow) : Prop where
  entry : ∀ n, v.nodes.head? = some n → f.entryNode? = some n
  followed : ∀ i b, v.nodes[i + 1]? = some b → ∃ a label, v.nodes[i]? = some a ∧
    v.answers[i]? = some (.outcome (.completed label)) ∧ f.next? a.id (Machine.labelsAfter label) = some b

/-- The walk leads to a node: to the entry at first, and then behind the last node. -/
inductive LeadsTo (v : Trail) (f : Flow) (node : Node) : Prop
  | entry (hn : v.nodes = []) (ha : v.answers = []) (h : f.entryNode? = some node)
  | follow {a : Node} {label : Option String} (hl : v.IsLast a (.outcome (.completed label)))
      (h : f.next? a.id (Machine.labelsAfter label) = some node)

theorem LeadsTo.even (h : v.LeadsTo f node) : v.answers.length = v.nodes.length := by
  cases h with
  | entry hn ha => rw [hn, ha]; rfl
  | follow hl => exact hl.even

namespace Follows

theorem members (h : v.Follows f) : ∀ n ∈ v.nodes, n ∈ f.nodes := by
  intro n hn
  obtain ⟨i, hi⟩ := List.getElem?_of_mem hn
  cases i with
  | zero => exact Flow.entryNode?_mem (h.entry n (by rwa [List.head?_eq_getElem?]))
  | succ i =>
    obtain ⟨a, label, -, -, hnext⟩ := h.followed i n hi
    exact (Flow.next?_joins hnext).1

theorem linked (h : v.Follows f) : v.nodes.IsChain fun a b => f.Joins a.id b.id := by
  rw [List.isChain_iff_getElem]
  intro i hi
  obtain ⟨a, label, ha, -, hnext⟩ := h.followed i _ (List.getElem?_eq_getElem hi)
  rw [List.getElem?_eq_getElem (Nat.lt_of_succ_lt hi)] at ha
  cases ha
  exact (Flow.next?_joins hnext).2

theorem distinct (h : v.Follows f) (hw : f.IsWellFormed) : (v.nodes.map (·.id)).Nodup :=
  hw.nodup_of_isChain h.linked

theorem bounded (h : v.Follows f) (hw : f.IsWellFormed) : v.nodes.length ≤ f.nodes.length :=
  Flow.length_le_of_nodup h.members (h.distinct hw)

/-- The next node is dispatched. -/
theorem dispatch (h : v.Follows f) (hl : v.LeadsTo f node) :
    ({ v with nodes := v.nodes ++ [node] } : Trail).Follows f where
  entry n hn := by
    cases hl with
    | entry he _ hentry =>
      simp only [he, List.nil_append, List.head?_cons, Option.some.injEq] at hn
      exact hn ▸ hentry
    | follow hlast =>
      have hne : v.nodes ≠ [] := fun he => by simpa [he] using hlast.node
      exact h.entry n (by rwa [List.head?_append_of_ne_nil _ hne] at hn)
  followed i b hb := by
    change (v.nodes ++ [node])[i + 1]? = some b at hb
    show ∃ a label, (v.nodes ++ [node])[i]? = some a ∧ _
    by_cases hi : i + 1 < v.nodes.length
    · rw [List.getElem?_append_left hi] at hb
      rw [List.getElem?_append_left (Nat.lt_of_succ_lt hi)]
      exact h.followed i b hb
    · have hlen := (List.getElem?_eq_some_iff.mp hb).1
      rw [List.length_append, List.length_singleton] at hlen
      have hi : v.nodes.length = i + 1 := by omega
      rw [← hi, List.getElem?_concat_length] at hb
      cases hb
      rw [List.getElem?_append_left (by omega)]
      cases hl with
      | entry he => rw [he] at hi; cases hi
      | @follow a label hlast hnext =>
        have hn := hlast.node
        have ha := hlast.answer
        rw [List.getLast?_eq_getElem?, hi, Nat.add_sub_cancel] at hn
        rw [List.getLast?_eq_getElem?, hlast.even, hi, Nat.add_sub_cancel] at ha
        exact ⟨a, label, hn, ha, hnext⟩

/-- The node that was dispatched answers. -/
theorem answer (h : v.Follows f) (b : Answer) : ({ v with answers := v.answers ++ [b] } : Trail).Follows f where
  entry := h.entry
  followed i c hc := by
    obtain ⟨a, label, ha, hl, hnext⟩ := h.followed i c hc
    refine ⟨a, label, ha, ?_, hnext⟩
    rw [List.getElem?_append_left (List.getElem?_eq_some_iff.mp hl).1, hl]

/-- With the next node there are still no more of them than the flow has. -/
theorem roomy (h : v.Follows f) (hw : f.IsWellFormed) (hl : v.LeadsTo f node) :
    v.nodes.length + 1 ≤ f.nodes.length := by
  simpa using (h.dispatch hl).bounded hw

theorem isSimple (h : v.Follows f) (hw : f.IsWellFormed)
    (hc : ∀ l, v.ending = some (.outcome (.completed l)) → ∃ a label,
      v.IsLast a (.outcome (.completed label)) ∧ ∀ l ∈ Machine.labelsAfter label, f.edge? a.id l = none) :
    v.IsSimple f :=
  ⟨h.entry, h.members, h.followed, h.linked, h.distinct hw, h.bounded hw, hc⟩

end Follows

/-- The walk is over, in a way that it may end; if there are enough steps for all nodes, it is not because of
the steps. -/
structure IsOver (v : Trail) (f : Flow) (enough : Prop) : Prop where
  follows : v.Follows f
  completed : ∀ l, v.ending = some (.outcome (.completed l)) → ∃ a label,
    v.IsLast a (.outcome (.completed label)) ∧ ∀ l ∈ Machine.labelsAfter label, f.edge? a.id l = none
  failed : enough → v.FailsByNode

/-- Where the task is that walks a frame. -/
inductive Goes (v : Trail) (f : Flow) (enough : Prop) (u : List Pending) : Control → List Pending → Prop
  | entering {place : Place} (frame : Nat) (hf : place.flow = f) (hv : v = {}) :
    Goes v f enough u (.enter place frame) u
  | coming {walk : Walk} (hf : walk.place.flow = f) (hs : walk.steps = v.nodes.length) {node : Node}
      (hl : v.LeadsTo f node) : Goes v f enough u (.next walk (some node)) u
  | pausing {walk : Walk} (hf : walk.place.flow = f) (hs : walk.steps = v.nodes.length + 1) {node : Node}
      (hl : v.LeadsTo f node) (s i : Bool) :
    Goes v f enough u (.wake .resumption s i) (.checkpoint walk node :: u)
  | paused {walk : Walk} (hf : walk.place.flow = f) (hs : walk.steps = v.nodes.length + 1) {node : Node}
      (hl : v.LeadsTo f node) {b : Answer} (hb : b = .done ∨ b = .interrupted) :
    Goes v f enough u (.answer b) (.checkpoint walk node :: u)
  | dispatching {walk : Walk} (hf : walk.place.flow = f) (hs : walk.steps = v.nodes.length + 1) {node : Node}
      (hl : v.LeadsTo f node) : Goes v f enough u (.dispatch walk node) u
  | visiting {walk : Walk} (hf : walk.place.flow = f) (hs : walk.steps = v.nodes.length) {node : Node}
      (hn : v.nodes.getLast? = some node) (ha : v.answers.length + 1 = v.nodes.length) (c : Control)
      (ks : List Pending) : Goes v f enough u c (ks ++ .visit walk node :: u)
  | finishing {a : Node} {label : Option String} (walk : Walk) (hl : v.IsLast a (.outcome (.completed label)))
      (hn : ∀ l ∈ Machine.labelsAfter label, f.edge? a.id l = none) : Goes v f enough u (.next walk none) u
  | answering (b : Answer) (h : ({ v with ending := some b } : Trail).IsOver f enough) :
    Goes v f enough u (.answer b) u

namespace Goes

variable {enough : Prop} {u p : List Pending} {c d : Control}

theorem aim (h : v.Goes f enough u c p) (hd : d.aim = c.aim) : v.Goes f enough u d p := by
  have same (hc : ∀ w s i, c ≠ .wake w s i) : v.Goes f enough u d p := Control.eq_of_aim hd hc ▸ h
  cases h with
  | pausing hf hs hl s i =>
    cases d with
    | wake w s' i' => cases w <;> cases hd; exact .pausing hf hs hl s' i'
    | _ => cases hd
  | visiting hf hs hn ha c ks => exact .visiting hf hs hn ha d ks
  | _ => exact same nofun

end Goes

/-- What a step of the task makes of the walk: it is over, or it goes on. -/
def Moves (v : Trail) (f : Flow) (enough : Prop) (u : List Pending) (x : Post) : Prop :=
  (v.ending ≠ none ∧ v.IsOver f enough) ∨
    (v.ending = none ∧ v.Follows f ∧ ∃ d q, x = .doing d q ∧ v.Goes f enough u d q)

section note

variable (v : Trail) (m : Machine) (t : TaskId) (u : List Pending)

theorem note_answer (b : Answer) : v.note u.length m ⟨t, .answer b, u⟩ = { v with ending := some b } :=
  if_pos rfl

theorem note_dispatch (walk : Walk) (node : Node) (hl : m.token.cancelled = false) :
    v.note u.length m ⟨t, .dispatch walk node, u⟩ = { v with nodes := v.nodes ++ [node] } :=
  if_pos ⟨rfl, hl⟩

theorem note_visit (walk : Walk) (node : Node) (b : Answer) :
    v.note u.length m ⟨t, .answer b, .visit walk node :: u⟩ = { v with answers := v.answers ++ [b] } := by
  simp [note]

/-- A step in the middle of a visit leaves the walk as it is. -/
theorem note_above {c : Control} {p : List Pending} (hp : u.length < p.length)
    (hc : (∀ b, c ≠ .answer b) ∨ u.length + 1 < p.length) : v.note u.length m ⟨t, c, p⟩ = v := by
  have hne : p.length ≠ u.length := Nat.ne_of_gt hp
  unfold note
  dsimp only
  cases c with
  | dispatch walk node => exact if_neg fun h => hne h.1
  | answer b =>
    have hp : u.length + 1 < p.length := hc.resolve_left fun h => h b rfl
    dsimp only
    rw [if_neg hne]
    split
    · exact if_neg (by simp only [List.length_cons] at hp; omega)
    · rfl
  | _ => rfl

end note

section steps

variable {enough : Prop} {u p : List Pending} {c : Control} {walk : Walk} {m : Machine} {env : Surroundings}
  {t : TaskId}

/-- A walk ends in the midst of the flow if it is cancelled, or if a fault or a failure is none of its own. -/
theorem Follows.isOver (h : v.Follows f) {b : Answer} (hc : ∀ l, b ≠ .outcome (.completed l))
    (hf : enough → ¬ b.IsFailure) : ({ v with ending := some b } : Trail).IsOver f enough where
  follows := ⟨h.entry, h.followed⟩
  completed l hl := absurd (Option.some.inj hl) (hc l)
  failed he b' hb' hfail := by
    cases hb'
    exact absurd hfail (hf he)

theorem entering_moves (hw : f.IsWellFormed) {place : Place} (frame : Nat) (hf : place.flow = f) :
    (({} : Trail).note u.length m ⟨t, .enter place frame, u⟩).Moves f enough u
      (m.step env t (.enter place frame) u).2.post := by
  obtain ⟨node, hn⟩ := hw.exists_entry
  have hstep : (m.step env t (.enter place frame) u).2 =
      .go (.next ⟨{ place with depth := m.run.stack.length - 1 }, frame, 0⟩ (some node)) u := by
    show (m.enter place frame u).2 = _
    unfold Machine.enter
    simp only [hf, hw.entry_isHashable, hn, Bool.false_eq_true, if_false]
  rw [hstep]
  exact .inr ⟨rfl, ⟨nofun, nofun⟩, _, _, rfl, .coming hf rfl (.entry rfl rfl hn)⟩

theorem coming_moves (hw : f.IsWellFormed) (hk : v.Follows f) (he : v.ending = none)
    (hroom : enough → f.nodes.length ≤ env.settings.maxStepsPerFrame) (hf : walk.place.flow = f)
    (hs : walk.steps = v.nodes.length) {node : Node} (hl : v.LeadsTo f node) :
    (v.note u.length m ⟨t, .next walk (some node), u⟩).Moves f enough u
      (m.step env t (.next walk (some node)) u).2.post := by
  show v.Moves f enough u (m.next env t walk (some node) u).2.post
  unfold Machine.next
  dsimp only
  split
  · exact .inr ⟨he, hk, _, _, rfl, .answering _ (hk.isOver nofun fun _ h => h)⟩
  · split
    · rename_i hmax
      have hlen := hk.roomy hw hl
      exact .inr ⟨he, hk, _, _, rfl, .answering _ (hk.isOver nofun fun h => by have := hroom h; omega)⟩
    · let next : Walk := { walk with steps := walk.steps + 1 }
      have hf : next.place.flow = f := hf
      have hs : next.steps = v.nodes.length + 1 := congrArg (· + 1) hs
      split
      · exact .inr ⟨he, hk, _, _, rfl, .dispatching hf hs hl⟩
      · exact .inr ⟨he, hk, _, _, rfl, .pausing hf hs hl false false⟩

theorem pausing_moves (hk : v.Follows f) (he : v.ending = none) (hf : walk.place.flow = f)
    (hs : walk.steps = v.nodes.length + 1) {node : Node} (hl : v.LeadsTo f node) (s i : Bool) :
    (v.note u.length m ⟨t, .wake .resumption s i, .checkpoint walk node :: u⟩).Moves f enough u
      (m.step env t (.wake .resumption s i) (.checkpoint walk node :: u)).2.post := by
  refine .inr ⟨he, hk, _, _, rfl, .paused hf hs hl ?_⟩
  cases i
  · exact .inl rfl
  · exact .inr rfl

theorem paused_moves (hk : v.Follows f) (he : v.ending = none) (hf : walk.place.flow = f)
    (hs : walk.steps = v.nodes.length + 1) {node : Node} (hl : v.LeadsTo f node) {b : Answer}
    (hb : b = .done ∨ b = .interrupted) :
    (v.note u.length m ⟨t, .answer b, .checkpoint walk node :: u⟩).Moves f enough u
      (m.step env t (.answer b) (.checkpoint walk node :: u)).2.post := by
  have hnote : v.note u.length m ⟨t, .answer b, .checkpoint walk node :: u⟩ = v := by simp [note]
  rw [hnote]
  rcases hb with rfl | rfl
  · exact .inr ⟨he, hk, _, _, rfl, .dispatching hf hs hl⟩
  · exact .inr ⟨he, hk, _, _, rfl, .answering _ (hk.isOver nofun fun _ h => h)⟩

theorem dispatching_moves (hk : v.Follows f) (he : v.ending = none) (hf : walk.place.flow = f)
    (hs : walk.steps = v.nodes.length + 1) {node : Node} (hl : v.LeadsTo f node) :
    (v.note u.length m ⟨t, .dispatch walk node, u⟩).Moves f enough u
      (m.step env t (.dispatch walk node) u).2.post := by
  show Moves _ f enough u (m.dispatch env walk node u).2.post
  cases hc : m.token.cancelled with
  | true =>
    have hnote : v.note u.length m ⟨t, .dispatch walk node, u⟩ = v := by simp [note, hc]
    rw [hnote]
    unfold Machine.dispatch
    dsimp only
    rw [if_pos hc]
    exact .inr ⟨he, hk, _, _, rfl, .answering _ (hk.isOver nofun fun _ h => h)⟩
  | false =>
    rw [note_dispatch v m t u walk node hc]
    obtain ⟨d, hd⟩ : ∃ d, (m.dispatch env walk node u).2.post = .doing d (.visit walk node :: u) := by
      unfold Machine.dispatch
      dsimp only
      rw [if_neg (by simp [hc])]
      split
      · exact ⟨_, rfl⟩
      · split
        · exact ⟨_, rfl⟩
        · split <;> exact ⟨_, rfl⟩
    have hlen : (v.nodes ++ [node]).length = v.nodes.length + 1 := by simp
    refine .inr ⟨he, hk.dispatch hl, d, _, hd, ?_⟩
    exact .visiting (v := { v with nodes := v.nodes ++ [node] }) hf (hs.trans hlen.symm) (by simp)
      ((congrArg (· + 1) hl.even).trans hlen.symm) d []

/-- What a node answers is the last answer. -/
theorem isLast_answer {node : Node} (hn : v.nodes.getLast? = some node)
    (ha : v.answers.length + 1 = v.nodes.length) (b : Answer) :
    ({ v with answers := v.answers ++ [b] } : Trail).IsLast node b :=
  ⟨by simpa using ha, hn, by simp⟩

/-- A node answers: the walk goes on along an edge, or ends by what the node answered. -/
theorem answered_moves (hw : f.IsWellFormed) (hk : v.Follows f) (he : v.ending = none)
    (hf : walk.place.flow = f) (hs : walk.steps = v.nodes.length) {node : Node}
    (hn : v.nodes.getLast? = some node) (ha : v.answers.length + 1 = v.nodes.length) (b : Answer) :
    (v.note u.length m ⟨t, .answer b, .visit walk node :: u⟩).Moves f enough u
      (m.step env t (.answer b) (.visit walk node :: u)).2.post := by
  rw [note_visit]
  have hk := hk.answer b
  have hl := isLast_answer hn ha b
  -- An answer that is no completion is the end of the walk.
  have ends (c : Answer) (hc : ∀ l, c ≠ .outcome (.completed l)) (hb : c.IsFailure → c = b.blamedOn node) :
      Goes { v with answers := v.answers ++ [b] } f enough u (.answer c) u := by
    refine .answering c ⟨⟨hk.entry, hk.followed⟩, fun l hlc => absurd (Option.some.inj hlc) (hc l), ?_⟩
    intro _ c' hc' hfail
    cases hc'
    exact ⟨node, b, ⟨hl.even, hl.node, hl.answer⟩, hb hfail⟩
  cases b with
  | outcome o =>
    cases o with
    | completed label =>
      have hpost : (m.step env t (.answer (.outcome (.completed label))) (.visit walk node :: u)).2.post =
          .doing (.next walk (f.next? node.id (Machine.labelsAfter label))) u := by rw [← hf]; rfl
      rw [hpost]
      refine .inr ⟨he, hk, _, _, rfl, ?_⟩
      let w : Trail := { v with answers := v.answers ++ [.outcome (.completed label)] }
      cases hnext : f.next? node.id (Machine.labelsAfter label) with
      | some n => exact .coming (v := w) hf hs (.follow hl hnext)
      | none => exact .finishing (v := w) walk hl (hw.edge?_eq_none hnext)
    | failed e n =>
      cases n with
      | none => exact .inr ⟨he, hk, _, _, rfl, ends _ nofun fun _ => rfl⟩
      | some n => exact .inr ⟨he, hk, _, _, rfl, ends _ nofun fun _ => rfl⟩
    | cancelled => exact .inr ⟨he, hk, _, _, rfl, ends _ nofun False.elim⟩
  | thrown fault => exact .inr ⟨he, hk, _, _, rfl, ends _ nofun fun _ => rfl⟩
  | _ => exact .inr ⟨he, hk, _, _, rfl, ends _ nofun False.elim⟩

/-- A step in the middle of a visit. -/
theorem visiting_moves (hw : f.IsWellFormed) (hk : v.Follows f) (he : v.ending = none)
    (hf : walk.place.flow = f) (hs : walk.steps = v.nodes.length) {node : Node}
    (hn : v.nodes.getLast? = some node) (ha : v.answers.length + 1 = v.nodes.length) (c : Control)
    (ks : List Pending) :
    let p := ks ++ .visit walk node :: u
    (v.note u.length m ⟨t, c, p⟩).Moves f enough u (m.step env t c p).2.post := by
  intro p
  -- What the step leaves alone has the visit in it, unless it is the visit that is handed an answer.
  have above (ls : List Pending) (hnote : v.note u.length m ⟨t, c, p⟩ = v)
      (hrest : c.rest p = ls ++ .visit walk node :: u) :
      (v.note u.length m ⟨t, c, p⟩).Moves f enough u (m.step env t c p).2.post := by
    obtain ⟨d, ms, hd⟩ := m.step_post env t (c := c) (p := p) (by rw [hrest]; simp)
    rw [hnote, hd, hrest, ← List.append_assoc]
    exact .inr ⟨he, hk, d, _, rfl, .visiting hf hs hn ha d (ms ++ ls)⟩
  have hp : u.length < p.length := by simp [p]; omega
  cases c with
  | answer b =>
    rcases ks with _ | ⟨k, ks⟩
    · exact answered_moves hw hk he hf hs hn ha b
    · refine above ks (note_above v m t u hp (.inr ?_)) rfl
      simp only [p, List.length_cons, List.length_append]
      omega
  | _ => exact above ks (note_above v m t u hp (.inl nofun)) rfl

theorem finishing_moves (hk : v.Follows f) (he : v.ending = none) {a : Node} {label : Option String}
    (hl : v.IsLast a (.outcome (.completed label))) (hn : ∀ l ∈ Machine.labelsAfter label, f.edge? a.id l = none) :
    (v.note u.length m ⟨t, .next walk none, u⟩).Moves f enough u (m.step env t (.next walk none) u).2.post := by
  refine .inr ⟨he, hk, .answer (.outcome (.completed none)), u, rfl, .answering _ ⟨⟨hk.entry, hk.followed⟩, ?_, ?_⟩⟩
  · exact fun _ _ => ⟨a, label, ⟨hl.even, hl.node, hl.answer⟩, hn⟩
  · rintro - b hb hfail
    cases hb
    exact absurd hfail id

theorem Goes.moves (hw : f.IsWellFormed) (h : v.Goes f enough u c p) (hk : v.Follows f) (he : v.ending = none)
    (hroom : enough → f.nodes.length ≤ env.settings.maxStepsPerFrame) :
    (v.note u.length m ⟨t, c, p⟩).Moves f enough u (m.step env t c p).2.post := by
  cases h with
  | entering frame hf hv => exact hv ▸ entering_moves hw frame hf
  | coming hf hs hl => exact coming_moves hw hk he hroom hf hs hl
  | pausing hf hs hl s i => exact pausing_moves hk he hf hs hl s i
  | paused hf hs hl hb => exact paused_moves hk he hf hs hl hb
  | dispatching hf hs hl => exact dispatching_moves hk he hf hs hl
  | visiting hf hs hn ha c ks => exact visiting_moves hw hk he hf hs hn ha c ks
  | finishing walk hl hn => exact finishing_moves hk he hl hn
  | answering b h =>
    rw [note_answer]
    exact .inl ⟨nofun, h⟩

end steps

end Trail

namespace Execution

/-- What comes of the walk of a frame that a task makes, on so much other work, while some things happen. -/
def trail (t : TaskId) (height : Nat) : List Happening → Execution → Trail → Trail
  | [], _, v => v
  | a :: hs, x, v =>
    if v.ending.isSome then v
    else trail t height hs (x.meet a) ((x.stride? t a).elim v (v.note height x.machine))

variable {x : Execution} {t : TaskId} {c : Control} {p u : List Pending} {v : Trail} {f : Flow} {enough : Prop}

theorem trail_isOver (hw : f.IsWellFormed) (h : v.Goes f enough u c p) (hk : v.Follows f)
    (he : v.ending = none) (hx : x.IsAt t c p) {hs : List Happening}
    (hroom : enough → ∀ env, .step env ∈ hs → f.nodes.length ≤ env.settings.maxStepsPerFrame) :
    (trail t u.length hs x v).IsOver f enough := by
  induction hs generalizing x v c p with
  | nil => exact ⟨hk, fun l hl => by simp [trail, he] at hl, fun _ b hb => by simp [trail, he] at hb⟩
  | cons a hs ih =>
    have hrest := fun h env hm => hroom h env (List.mem_cons_of_mem a hm)
    unfold trail
    rw [he, if_neg (by decide)]
    obtain ⟨hnone, d, hd, hx⟩ | ⟨env, rfl, ha, ht⟩ := hx.stays a
    · rw [hnone]
      exact ih (h.aim hd) hk he hx hrest
    · have hsome : x.stride? t (.step env) = some ⟨t, c, p⟩ := by simp [stride?, ha]
      rw [hsome]
      obtain ⟨hover, hdone⟩ | ⟨hon, hk, d, q, hpost, hgo⟩ :=
        h.moves (m := x.machine) (t := t) hw hk he fun h => hroom h env List.mem_cons_self
      · show (trail t u.length hs (x.stepIn env) (v.note u.length x.machine ⟨t, c, p⟩)).IsOver f enough
        cases hs with
        | nil => exact hdone
        | cons b hs =>
          unfold trail
          rw [if_pos (Option.isSome_iff_ne_none.mpr hover)]
          exact hdone
      · exact ih hgo hk hon (.stepIn ha ht hpost) hrest

/-- However a run is carried out, and whatever the nodes answer, a frame whose flow is accepted begins at the
entry, follows edges, which all lead to nodes, and comes to no node twice. If it may take as many steps as
there are nodes, it fails only if one of its nodes does. -/
theorem frame_walks_simply (id : String) (flow : Flow) (bindings : Entries Value) (breakpoints : Breakpoints)
    (pauseOnStart : Bool) (stamp : Instant) (before : List Happening) :
    let x := following before (ofMachine (.create id flow bindings breakpoints pauseOnStart stamp))
    ∀ t place frame p, x.active = some ⟨t, .enter place frame, p⟩ → place.flow.validate = .ok () → ∀ hs,
      let v := trail t p.length hs x {}
      v.IsSimple place.flow ∧
        ((∀ env, .step env ∈ hs → place.flow.nodes.length ≤ env.settings.maxStepsPerFrame) → v.FailsByNode) := by
  intro x t place frame p hx hv hs v
  have hw : place.flow.IsWellFormed := by
    unfold Flow.validate at hv
    split at hv
    · cases hv
    · split at hv
      · exact (Flow.problems_eq_nil_iff.mp ‹_›).1
      · cases hv
  have hm : x.IsManned := (IsManned.of_idle rfl).following before
  have hover : v.IsOver place.flow
      (∀ env, .step env ∈ hs → place.flow.nodes.length ≤ env.settings.maxStepsPerFrame) :=
    trail_isOver hw (.entering frame rfl rfl) ⟨nofun, nofun⟩ rfl (.active hx (hm _ hx)) fun h => h
  exact ⟨hover.follows.isSimple hw hover.completed, hover.failed⟩

/-- A flow that asks which way to go. -/
def forking : Flow where
  id := "main"
  nodes := [{ id := "ask", kind := "if", config := [("condition", .bool true)] },
    { id := "here", kind := "log", disabled := true }, { id := "there", kind := "log" }]
  edges := [{ id := "e1", source := "ask", target := "here", label := "true" },
    { id := "e2", source := "ask", target := "there", label := "false" }]

/-- The walk goes one of the two ways, and completes there. -/
theorem frame_walks_simply_forking : ∃ place frame p,
    (walked [] forking 1).active = some ⟨0, .enter place frame, p⟩ ∧ place.flow.validate = .ok () ∧
    let v := trail 0 p.length (List.replicate 12 (.step (forlorn []))) (walked [] forking 1) {}
    v.IsSimple place.flow ∧ v.FailsByNode ∧ v.nodes.map (·.id) = ["ask", "here"] ∧
      v.ending.isSome = true := by
  obtain ⟨frame, p, hx, hv, hn, he⟩ : ∃ frame p,
      (walked [] forking 1).active = some ⟨0, .enter ⟨forking, Machine.rootLayers, 0⟩ frame, p⟩ ∧
      forking.validate = .ok () ∧
      let v := trail 0 p.length (List.replicate 12 (.step (forlorn []))) (walked [] forking 1) {}
      v.nodes.map (·.id) = ["ask", "here"] ∧ v.ending.isSome = true :=
    ⟨_, _, rfl, rfl, by decide +kernel, by decide +kernel⟩
  obtain ⟨hs, hf⟩ := frame_walks_simply "" forking [] [] false 0 (walking [] 1) 0 _ frame p hx hv
    (List.replicate 12 (.step (forlorn [])))
  refine ⟨_, frame, p, hx, hv, hs, hf fun env he => ?_, hn, he⟩
  cases List.eq_of_mem_replicate he
  decide

end Execution

end Workflow
