import Mathlib.Data.List.Nodup
import Mathlib.Data.List.Perm.Subperm
import Mathlib.Logic.Relation
import Mathlib.Order.WellFoundedSet
import Workflow.Flow.Steps
/-!
The order in which nodes become steps. While nodes are taken, each one waits for as many edges as come from
nodes that are not taken yet, so that a node is taken behind all nodes that lead to it. If some node is never
taken, then each such node waits for another one, and there is a cycle.
-/

namespace Workflow.Steps

variable {ns : List Node} {es : List Edge} {a b id : String} {ids known queue taken targets : List String}
  {waiting : Waiting} {e : Edge} {label : Option String}

/-- An edge leads from the one node to the other. -/
def Leads (es : List Edge) (a b : String) : Prop :=
  ∃ e ∈ es, e.source = a ∧ e.target = b

/-- Edges that lead round nowhere. -/
def IsAcyclic (es : List Edge) : Prop :=
  ∀ id, ¬ Relation.TransGen (Leads es) id id

/-! Releasing. -/

theorem release_cons (t : String) (targets : List String) (waiting : Waiting) (queue : List String) :
    release (t :: targets) waiting queue =
      release targets (fun id => if id == t then waiting t - 1 else waiting id)
        (if waiting t - 1 == 0 then queue ++ [t] else queue) := rfl

theorem release_waiting (id : String) :
    (release targets waiting queue).1 id = waiting id - targets.count id := by
  induction targets generalizing waiting queue with
  | nil => rfl
  | cons t targets ih =>
    rw [release_cons, ih]
    by_cases h : id = t
    · subst h
      rw [if_pos (by simp), List.count_cons_self]
      omega
    · rw [if_neg (by simpa using h), List.count_cons_of_ne (Ne.symm h)]

/-- Those join the queue that wait for nothing else. -/
theorem mem_release (h : ∀ t, targets.count t ≤ waiting t) : id ∈ (release targets waiting queue).2 ↔
    id ∈ queue ∨ id ∈ targets ∧ waiting id = targets.count id := by
  induction targets generalizing waiting queue with
  | nil => simp [release]
  | cons t targets ih =>
    have ht := h t
    rw [List.count_cons_self] at ht
    rw [release_cons, ih]
    · by_cases hid : id = t
      · subst hid
        have hmem : 0 < targets.count id ↔ id ∈ targets := List.count_pos_iff
        simp only [beq_self_eq_true, if_true, beq_iff_eq, List.mem_cons, true_or, true_and,
          List.count_cons_self]
        split
        · simp
          omega
        · rw [← hmem]
          refine or_congr_right ?_
          omega
      · have hne : (id == t) = false := by simpa using hid
        rw [List.count_cons_of_ne (Ne.symm hid), List.mem_cons, hne]
        split <;> simp [hid]
    · intro u
      have hu := h u
      by_cases hut : u = t
      · subst hut
        rw [if_pos (by simp)]
        omega
      · rw [if_neg (by simpa using hut)]
        rwa [List.count_cons_of_ne (Ne.symm hut)] at hu

theorem length_release (targets : List String) (waiting : String → Nat) (queue : List String) :
    (release targets waiting queue).2.length ≤ queue.length + targets.length := by
  induction targets generalizing waiting queue with
  | nil => simp [release]
  | cons t targets ih =>
    rw [release_cons]
    refine Nat.le_trans (ih _ _) ?_
    split <;> simp only [List.length_append, List.length_cons, List.length_nil] <;> omega

/-! Taking nodes. -/

/-- The edges to a node that come from nodes not taken yet. -/
def awaited (es : List Edge) (taken : List String) (id : String) : Nat :=
  es.countP fun e => e.target == id && !taken.contains e.source

theorem awaited_eq_zero_iff : awaited es taken id = 0 ↔ ∀ e ∈ es, e.target = id → e.source ∈ taken := by
  simp only [awaited, List.countP_eq_zero, Bool.and_eq_true, beq_iff_eq, Bool.not_eq_true',
    List.contains_iff_mem, not_and, Bool.not_eq_false]

/-- When a node is taken, its targets wait for its edges no more. -/
theorem awaited_append (h : a ∉ taken) (id : String) :
    awaited es taken id =
      awaited es (taken ++ [a]) id + ((es.filter (·.source == a)).map (·.target)).count id := by
  induction es with
  | nil => rfl
  | cons e es ih =>
    simp only [awaited, List.countP_cons, List.filter_cons] at ih ⊢
    rw [ih]
    by_cases hs : e.source = a
    · subst hs
      by_cases ht : e.target = id
      · simp [h, ht]
        omega
      · simp [ht]
    · by_cases ht : e.target = id
      · simp [hs, ht]
        omega
      · simp [hs, ht]

/-- What is known while nodes are taken. -/
structure IsUnderway (es : List Edge) (known : List String) (waiting : Waiting) (queue taken : List String) :
    Prop where
  waiting : ∀ id, waiting id = awaited es taken id
  nodup : taken.Nodup
  /-- Those that wait for nothing are taken or about to be, and no others. -/
  ready : ∀ id, awaited es taken id = 0 ∧ id ∈ known ↔ id ∈ queue ∨ id ∈ taken
  /-- A node is taken behind those that lead to it. -/
  behind : ∀ e ∈ es, e.target ∈ taken → [e.source, e.target].Sublist taken

namespace IsUnderway

theorem skip (h : IsUnderway es known waiting (id :: queue) taken) (hid : id ∈ taken) :
    IsUnderway es known waiting queue taken where
  waiting := h.waiting
  nodup := h.nodup
  ready u := by
    rw [h.ready u, List.mem_cons]
    constructor
    · rintro ((rfl | hu) | hu)
      · exact .inr hid
      · exact .inl hu
      · exact .inr hu
    · exact Or.imp_left .inr
  behind := h.behind

/-- The next node is taken. -/
theorem take (h : IsUnderway es known waiting (id :: queue) taken) (hid : id ∉ taken)
    (hes : ∀ e ∈ es, e.target ∈ known) :
    let targets := (es.filter (·.source == id)).map (·.target)
    IsUnderway es known (release targets waiting queue).1 (release targets waiting queue).2 (taken ++ [id]) := by
  intro targets
  have hsplit (u : String) : awaited es taken u = awaited es (taken ++ [id]) u + targets.count u :=
    awaited_append hid u
  have hcount (u : String) : targets.count u ≤ waiting u := by
    rw [h.waiting, hsplit]
    exact Nat.le_add_left _ _
  obtain ⟨hzero, hknown⟩ := (h.ready id).mpr (.inl List.mem_cons_self)
  have hall := awaited_eq_zero_iff.mp hzero
  refine ⟨fun u => ?_, ?_, fun u => ?_, fun e he ht => ?_⟩
  · rw [release_waiting, h.waiting, hsplit, Nat.add_sub_cancel]
  · rw [← List.concat_eq_append]
    exact h.nodup.concat hid
  · have htarget (hu : u ∈ targets) : u ∈ known := by
      obtain ⟨e, he, rfl⟩ := List.mem_map.mp hu
      exact hes e (List.mem_filter.mp he).1
    have hnone : u ∉ targets → targets.count u = 0 := List.count_eq_zero_of_not_mem
    have hold := h.ready u
    have hu := hsplit u
    rw [mem_release hcount, h.waiting, List.mem_append, List.mem_singleton]
    rw [List.mem_cons] at hold
    constructor
    · rintro ⟨hz, hk⟩
      by_cases ht : u ∈ targets
      · exact .inl (.inr ⟨ht, by omega⟩)
      · rcases hold.mp ⟨by rw [hu, hz, hnone ht], hk⟩ with (rfl | hq) | hq
        · exact .inr (.inr rfl)
        · exact .inl (.inl hq)
        · exact .inr (.inl hq)
    · have waits (hq : (u = id ∨ u ∈ queue) ∨ u ∈ taken) : awaited es (taken ++ [id]) u = 0 ∧ u ∈ known := by
        obtain ⟨hz, hk⟩ := hold.mpr hq
        exact ⟨by omega, hk⟩
      rintro ((hq | ⟨ht, hw⟩) | hq | rfl)
      · exact waits (.inl (.inr hq))
      · exact ⟨by omega, htarget ht⟩
      · exact waits (.inr hq)
      · exact waits (.inl (.inl rfl))
  · rcases List.mem_append.mp ht with ht | ht
    · exact (h.behind e he ht).trans (List.sublist_append_left _ _)
    · rw [List.mem_singleton] at ht
      rw [ht]
      exact (List.singleton_sublist.mpr (hall e he ht)).append (.refl [id])

end IsUnderway

/-- Enough fuel for all that are in the queue and all that edges may still add to it. -/
def Suffices (es : List Edge) (fuel : Nat) (queue taken : List String) : Prop :=
  queue.length + es.countP (fun e => !taken.contains e.source) ≤ fuel

theorem Suffices.take {fuel : Nat} (h : Suffices es (fuel + 1) (id :: queue) taken) (hid : id ∉ taken) :
    Suffices es fuel (release ((es.filter (·.source == id)).map (·.target)) waiting queue).2 (taken ++ [id]) := by
  have hsplit : es.countP (fun e => !taken.contains e.source) =
      es.countP (fun e => !(taken ++ [id]).contains e.source) + (es.filter (·.source == id)).length := by
    rw [← List.countP_eq_length_filter]
    clear h
    induction es with
    | nil => rfl
    | cons e es ih =>
      simp only [List.countP_cons]
      rw [ih]
      by_cases hs : e.source = id
      · simp [hs, hid]
        omega
      · simp [hs]
        omega
  have hlen := length_release ((es.filter (·.source == id)).map (·.target)) waiting queue
  simp only [Suffices, List.length_map, List.length_cons] at h hlen ⊢
  omega

/-- What is known once there is no node that could be taken. -/
structure IsExhausted (es : List Edge) (known taken : List String) : Prop where
  nodup : taken.Nodup
  ready : ∀ id, awaited es taken id = 0 ∧ id ∈ known ↔ id ∈ taken
  behind : ∀ e ∈ es, e.target ∈ taken → [e.source, e.target].Sublist taken

theorem takeReady_nil (fuel : Nat) : takeReady es fuel waiting [] taken = taken := by
  cases fuel <;> rfl

theorem IsUnderway.isExhausted (h : IsUnderway es known waiting [] taken) : IsExhausted es known taken :=
  ⟨h.nodup, fun u => (h.ready u).trans (by simp), h.behind⟩

theorem takeReady_isExhausted {fuel : Nat} (h : IsUnderway es known waiting queue taken)
    (hf : Suffices es fuel queue taken) (hes : ∀ e ∈ es, e.target ∈ known) :
    IsExhausted es known (takeReady es fuel waiting queue taken) := by
  induction fuel generalizing waiting queue taken with
  | zero =>
    have hq : queue = [] := List.length_eq_zero_iff.mp (by unfold Suffices at hf; omega)
    subst hq
    exact h.isExhausted
  | succ fuel ih =>
    cases queue with
    | nil => exact takeReady_nil _ ▸ h.isExhausted
    | cons id queue =>
      unfold takeReady
      split
      · rename_i hid
        rw [List.contains_iff_mem] at hid
        exact ih (h.skip hid) (by simp only [Suffices, List.length_cons] at hf ⊢; omega)
      · rename_i hid
        rw [List.contains_iff_mem] at hid
        exact ih (h.take hid hes) (hf.take hid)

/-- In a list without repetitions, what comes first has the lower index. -/
theorem idxOf_lt_of_sublist (hn : ids.Nodup) (hs : [a, b].Sublist ids) : ids.idxOf a < ids.idxOf b := by
  induction ids with
  | nil => cases hs
  | cons c ids ih =>
    obtain ⟨hc, hn⟩ := List.nodup_cons.mp hn
    cases hs with
    | cons _ hs =>
      have hne {d : String} (hd : d ∈ [a, b]) : c ≠ d := fun he => hc (he ▸ hs.subset hd)
      rw [List.idxOf_cons_ne _ (hne (by simp)), List.idxOf_cons_ne _ (hne (by simp))]
      exact Nat.succ_lt_succ (ih hn hs)
    | cons_cons _ hs =>
      have hb : b ∈ ids := List.singleton_sublist.mp hs
      rw [List.idxOf_cons_self, List.idxOf_cons_ne _ (by rintro rfl; exact hc hb)]
      exact Nat.succ_pos _

namespace IsExhausted

variable (h : IsExhausted es known taken)

include h

theorem subset : taken ⊆ known :=
  fun _ hid => ((h.ready _).mpr hid).2

/-- If all nodes are taken, there is no way back. -/
theorem isAcyclic (hall : known ⊆ taken) (hes : ∀ e ∈ es, e.target ∈ known) : IsAcyclic es := by
  have single {a b : String} (hl : Leads es a b) : taken.idxOf a < taken.idxOf b := by
    obtain ⟨e, he, rfl, rfl⟩ := hl
    exact idxOf_lt_of_sublist h.nodup (h.behind e he (hall (hes e he)))
  have further {a b : String} (hl : Relation.TransGen (Leads es) a b) : taken.idxOf a < taken.idxOf b := by
    induction hl with
    | single hl => exact single hl
    | tail _ hl ih => exact ih.trans (single hl)
  exact fun id hl => Nat.lt_irrefl _ (further hl)

/-- If there is no way back, all nodes are taken: one that is not taken waits for another one. -/
theorem known_subset (hc : IsAcyclic es) (hes : ∀ e ∈ es, e.source ∈ known) : known ⊆ taken := by
  intro id hid
  by_contra hn
  have : Std.Irrefl (Relation.TransGen (Leads es)) := ⟨hc⟩
  have : IsStrictOrder String (Relation.TransGen (Leads es)) := ⟨⟩
  have hfin : Set.Finite { id | id ∈ known ∧ id ∉ taken } := (List.finite_toSet known).subset fun _ hid => hid.1
  obtain ⟨s, -, hmin⟩ :=
    (hfin.wellFoundedOn (r := Relation.TransGen (Leads es))).has_min Set.univ ⟨⟨id, hid, hn⟩, trivial⟩
  have hwaits : awaited es taken s.1 ≠ 0 := fun hz => s.2.2 ((h.ready s.1).mp ⟨hz, s.2.1⟩)
  rw [Ne, awaited_eq_zero_iff] at hwaits
  simp only [not_forall] at hwaits
  obtain ⟨e, he, ht, hs⟩ := hwaits
  exact hmin ⟨e.source, hes e he, hs⟩ trivial (.single ⟨e, he, rfl, ht⟩)

end IsExhausted

/-! The order. -/

theorem mem_selected : e ∈ selected ns label es ↔
    e ∈ es ∧ (∀ l, label = some l → e.label = l) ∧ e.source ∈ ns.map (·.id) ∧ e.target ∈ ns.map (·.id) := by
  cases label <;> simp [selected, and_assoc]

/-- The ids of the nodes as far as they can be taken one behind the other. -/
def taking (ns : List Node) (es : List Edge) : List String :=
  takeReady es (ns.length + es.length) (fun id => es.countP (·.target == id))
    ((ns.map (·.id)).filter fun id => es.countP (·.target == id) == 0) []

theorem order_eq (ns : List Node) (es : List Edge) (label : Option String) : order ns es label =
    if (taking ns (selected ns label es)).length == ns.length then
      (taking ns (selected ns label es)).filterMap fun id => ns.reverse.find? (·.id == id)
    else ns := rfl

theorem taking_isExhausted (hes : ∀ e ∈ es, e.target ∈ ns.map (·.id)) :
    IsExhausted es (ns.map (·.id)) (taking ns es) := by
  have hall (id : String) : awaited es [] id = es.countP (·.target == id) := by simp [awaited]
  refine takeReady_isExhausted ⟨fun id => (hall id).symm, .nil, fun id => ?_, nofun⟩ ?_ hes
  · rw [hall]
    simp [and_comm]
  · have hlen := List.length_filter_le (fun id => es.countP (·.target == id) == 0) (ns.map (·.id))
    rw [List.length_map] at hlen
    have hcount := List.countP_le_length (p := fun e : Edge => !([] : List String).contains e.source) (l := es)
    unfold Suffices
    omega

/-- A node is found by its id if no other one has it. -/
theorem find?_id (hd : (ns.map (·.id)).Nodup) {n : Node} (hn : n ∈ ns) :
    ns.reverse.find? (·.id == n.id) = some n := by
  cases hf : ns.reverse.find? (·.id == n.id) with
  | none => exact absurd (List.find?_eq_none.mp hf n (List.mem_reverse.mpr hn)) (by simp)
  | some m =>
    have hm : m ∈ ns := List.mem_reverse.mp (List.mem_of_find?_eq_some hf)
    have hid : m.id = n.id := by simpa using List.find?_some hf
    rw [List.inj_on_of_nodup_map hd hm hn hid]

/-- The node that an id stands for. -/
theorem filterMap_ids (hd : (ns.map (·.id)).Nodup) :
    (ns.map (·.id)).filterMap (fun id => ns.reverse.find? (·.id == id)) = ns := by
  rw [List.filterMap_map]
  calc ns.filterMap ((fun id => ns.reverse.find? (·.id == id)) ∘ (·.id))
    _ = ns.filterMap some := List.filterMap_congr fun n hn => find?_id hd hn
    _ = ns := List.filterMap_some

theorem selected_source (h : e ∈ selected ns label es) : e.source ∈ ns.map (·.id) :=
  (mem_selected.mp h).2.2.1

theorem selected_target (h : e ∈ selected ns label es) : e.target ∈ ns.map (·.id) :=
  (mem_selected.mp h).2.2.2

/-- All nodes are taken if they differ in their ids and no edges lead round, and only then. -/
theorem taking_perm_iff (hs : ∀ e ∈ es, e.source ∈ ns.map (·.id)) (ht : ∀ e ∈ es, e.target ∈ ns.map (·.id)) :
    (taking ns es).length = ns.length ↔ (ns.map (·.id)).Nodup ∧ IsAcyclic es := by
  have h := taking_isExhausted ht
  have hsub : (taking ns es).Subperm (ns.map (·.id)) := List.subperm_of_subset h.nodup h.subset
  constructor
  · intro hlen
    have hp : (taking ns es).Perm (ns.map (·.id)) :=
      hsub.perm_of_length_le (by rw [List.length_map, hlen])
    exact ⟨hp.nodup_iff.mp h.nodup, h.isAcyclic hp.symm.subset ht⟩
  · rintro ⟨hd, hc⟩
    have hp := hsub.antisymm (List.subperm_of_subset hd (h.known_subset hc hs))
    rw [hp.length_eq, List.length_map]

/-- The nodes of ids are a rearrangement of all nodes if the ids are one of all ids. -/
theorem filterMap_perm (hd : (ns.map (·.id)).Nodup) (hp : ids.Perm (ns.map (·.id))) :
    (ids.filterMap fun id => ns.reverse.find? (·.id == id)).Perm ns := by
  have h := hp.filterMap fun id => ns.reverse.find? (·.id == id)
  rwa [filterMap_ids hd] at h

/-- The nodes of ids have these ids. -/
theorem map_filterMap_ids (hd : (ns.map (·.id)).Nodup) (hids : ids ⊆ ns.map (·.id)) :
    (ids.filterMap fun id => ns.reverse.find? (·.id == id)).map (·.id) = ids := by
  induction ids with
  | nil => rfl
  | cons id ids ih =>
    obtain ⟨hid, hrest⟩ := List.cons_subset.mp hids
    obtain ⟨n, hn, rfl⟩ := List.mem_map.mp hid
    have hfind := find?_id hd hn
    rw [List.filterMap_cons_some (f := fun id => ns.reverse.find? (·.id == id)) hfind, List.map_cons, ih hrest]

/-- Without edges the ids leave the queue as they stand in it. -/
theorem takeReady_no_edges {fuel : Nat} (hf : queue.length ≤ fuel) (hd : (taken ++ queue).Nodup) :
    takeReady [] fuel waiting queue taken = taken ++ queue := by
  induction fuel generalizing queue taken with
  | zero =>
    rw [List.length_eq_zero_iff.mp (Nat.le_zero.mp hf)]
    exact (List.append_nil _).symm
  | succ fuel ih =>
    cases queue with
    | nil => exact (takeReady_nil _).trans (List.append_nil _).symm
    | cons id queue =>
      have hid : id ∉ taken := fun h => (List.nodup_append.mp hd).2.2 id h id List.mem_cons_self rfl
      have happ : taken ++ id :: queue = (taken ++ [id]) ++ queue := by simp
      unfold takeReady
      rw [if_neg (by simpa using hid), happ]
      exact ih (Nat.le_of_succ_le_succ hf) (happ ▸ hd)

theorem taking_no_edges (hd : (ns.map (·.id)).Nodup) : taking ns [] = ns.map (·.id) := by
  have hall : (ns.map (·.id)).filter (fun id => ([] : List Edge).countP (·.target == id) == 0) = ns.map (·.id) :=
    List.filter_eq_self.mpr fun _ _ => rfl
  unfold taking
  rw [hall]
  exact takeReady_no_edges (by simp) (by simpa using hd)

/-- The order is a rearrangement of the nodes. If they differ in their ids and the edges that count lead round
nowhere, every such edge leads forward in it; if not, it is the order in which the nodes are stored. So it is
if no edge counts. -/
theorem order_topological (ns : List Node) (es : List Edge) (label : Option String) :
    (order ns es label).Perm ns ∧
    ((ns.map (·.id)).Nodup → IsAcyclic (selected ns label es) →
      ∀ e ∈ selected ns label es, [e.source, e.target].Sublist ((order ns es label).map (·.id))) ∧
    (¬ ((ns.map (·.id)).Nodup ∧ IsAcyclic (selected ns label es)) → order ns es label = ns) ∧
    (selected ns label es = [] → order ns es label = ns) := by
  have hs (e) (he : e ∈ selected ns label es) := selected_source he
  have ht (e) (he : e ∈ selected ns label es) := selected_target he
  have hiff := taking_perm_iff hs ht
  have h := taking_isExhausted ht
  have taken (hall : (ns.map (·.id)).Nodup ∧ IsAcyclic (selected ns label es)) :
      order ns es label =
        (taking ns (selected ns label es)).filterMap fun id => ns.reverse.find? (·.id == id) := by
    rw [order_eq, if_pos (by simpa using hiff.mpr hall)]
  have stored (hno : ¬ ((ns.map (·.id)).Nodup ∧ IsAcyclic (selected ns label es))) :
      order ns es label = ns := by
    rw [order_eq, if_neg (by simpa using hiff.not.mpr hno)]
  refine ⟨?_, fun hd hc e he => ?_, stored, fun hnone => ?_⟩
  · by_cases hall : (ns.map (·.id)).Nodup ∧ IsAcyclic (selected ns label es)
    · rw [taken hall]
      have hsub := List.subperm_of_subset h.nodup h.subset
      exact filterMap_perm hall.1
        (hsub.perm_of_length_le (by rw [List.length_map, hiff.mpr hall]))
    · rw [stored hall]
  · rw [taken ⟨hd, hc⟩, map_filterMap_ids hd h.subset]
    exact h.behind e he (h.known_subset hc hs (ht e he))
  · by_cases hall : (ns.map (·.id)).Nodup ∧ IsAcyclic (selected ns label es)
    · rw [taken hall, hnone, taking_no_edges hall.1, filterMap_ids hall.1]
    · exact stored hall

/-- Nodes that are not stored in order, with two edges between the same nodes. -/
def tangled : List Node :=
  [{ id := "c", kind := "end" }, { id := "a", kind := "start" }, { id := "b", kind := "script" }]

def tangledEdges : List Edge :=
  [{ id := "1", source := "b", target := "c", label := Label.default },
    { id := "2", source := "a", target := "b", label := Label.default },
    { id := "3", source := "a", target := "b", label := Label.onError },
    { id := "4", source := "c", target := "z", label := Label.default }]

theorem tangled_topological :
    (tangled.map (·.id)).Nodup ∧ IsAcyclic (selected tangled none tangledEdges) ∧
    ∀ e ∈ selected tangled none tangledEdges,
      [e.source, e.target].Sublist ((order tangled tangledEdges none).map (·.id)) := by
  have hsource : ∀ e ∈ selected tangled none tangledEdges, e.source ∈ tangled.map (·.id) := fun _ => selected_source
  have htarget : ∀ e ∈ selected tangled none tangledEdges, e.target ∈ tangled.map (·.id) := fun _ => selected_target
  have hall := (taking_perm_iff hsource htarget).mp (by decide)
  exact ⟨hall.1, hall.2, (order_topological tangled tangledEdges none).2.1 hall.1 hall.2⟩

end Workflow.Steps
