import Mathlib.Data.List.Chain
import Mathlib.Data.List.Nodup
import Mathlib.Data.List.Perm.Subperm
import Mathlib.Data.List.TakeWhile
import Mathlib.Logic.Relation
import Workflow.Flow.Validity
/-!
The search for cycles is exact. The path of a visit is a walk back to where the search set out, so a
child on it closes a walk; the nodes that are done lead only to nodes done before them, so none of them
lies on a cycle.
-/

namespace Workflow.Flow

variable {f : Flow} {a b id child : String} {path done walk ids : List String}

theorem hasNode_iff : f.hasNode id = true ↔ ∃ n ∈ f.nodes, n.id = id := by
  simp [hasNode]

/-- An edge leads from a node of the flow to another one. -/
def Leads (f : Flow) (a b : String) : Prop :=
  f.hasNode a = true ∧ f.hasNode b = true ∧ ∃ e ∈ f.edges, e.source = a ∧ e.target = b

/-- A walk along edges that ends where it begins. -/
def IsClosedWalk (f : Flow) (walk : List String) : Prop :=
  ∃ id inner, walk = id :: (inner ++ [id]) ∧ walk.IsChain f.Leads

theorem IsClosedWalk.transGen (h : f.IsClosedWalk walk) :
    ∃ id, Relation.TransGen f.Leads id id := by
  obtain ⟨id, inner, rfl, hc⟩ := h
  refine ⟨id, ?_⟩
  cases inner with
  | nil => exact .single (List.isChain_pair.mp hc)
  | cons w inner =>
    rw [List.cons_append, List.isChain_cons_cons] at hc
    refine .head' hc.1 ?_
    exact List.relationReflTransGen_of_exists_isChain_cons _ hc.2 (by simp)

theorem mem_children (ha : f.hasNode a = true) : b ∈ f.children a ↔ f.Leads a b := by
  simp only [children, List.mem_map, List.mem_filter, Bool.and_eq_true, beq_iff_eq, Leads]
  constructor
  · rintro ⟨e, ⟨he, hs, ht⟩, rfl⟩
    exact ⟨ha, ht, e, he, hs, rfl⟩
  · rintro ⟨-, hb, e, he, hs, rfl⟩
    exact ⟨e, ⟨he, hs, hb⟩, rfl⟩

/-- Collecting names keeps those there are and adds those that are missing. -/
theorem mem_collect (names : List String) : id ∈ names.foldl
    (fun ids id => if ids.contains id then ids else ids ++ [id]) ids ↔ id ∈ ids ∨ id ∈ names := by
  induction names generalizing ids with
  | nil => simp
  | cons name names ih =>
    rw [List.foldl_cons, ih, List.mem_cons]
    split
    · rename_i h
      rw [List.contains_iff_mem] at h
      constructor
      · rintro (hi | hi)
        · exact .inl hi
        · exact .inr (.inr hi)
      · rintro (hi | rfl | hi)
        · exact .inl hi
        · exact .inl h
        · exact .inr hi
    · rw [List.mem_append, List.mem_singleton, or_assoc]

theorem mem_nodeIds : id ∈ f.nodeIds ↔ f.hasNode id = true := by
  rw [nodeIds, mem_collect, hasNode_iff]
  simp

/-- Nodes that lead only to those after them in the list. -/
inductive IsSettled (f : Flow) : List String → Prop
  | nil : IsSettled f []
  | cons {id : String} {done : List String} (h : IsSettled f done)
      (hc : ∀ b, f.Leads id b → b ∈ done) : IsSettled f (id :: done)

namespace IsSettled

theorem closed (h : f.IsSettled done) (ha : a ∈ done) (hl : f.Leads a b) : b ∈ done := by
  induction h with
  | nil => cases ha
  | cons _ hc ih =>
    obtain rfl | ha := List.mem_cons.mp ha
    · exact List.mem_cons_of_mem _ (hc b hl)
    · exact List.mem_cons_of_mem _ (ih ha)

theorem closed_transGen (h : f.IsSettled done) (ha : a ∈ done)
    (hl : Relation.TransGen f.Leads a b) : b ∈ done := by
  induction hl with
  | single hl => exact h.closed ha hl
  | tail _ hl ih => exact h.closed ih hl

theorem acyclic (h : f.IsSettled done) (ha : a ∈ done) : ¬ Relation.TransGen f.Leads a a := by
  induction h with
  | nil => cases ha
  | @cons id done h hc ih =>
    obtain rfl | ha := List.mem_cons.mp ha
    · intro hl
      -- The first edge of such a walk leads into what is done, and there is no way out again.
      obtain ⟨b, hab, hba⟩ := Relation.TransGen.head'_iff.mp hl
      have hb := hc b hab
      obtain heq | hba := Relation.reflTransGen_iff_eq_or_transGen.mp hba
      · exact ih (heq ▸ hb) hl
      · exact ih (h.closed_transGen hb hba) hl
    · exact ih ha

end IsSettled

/-- The path of a visit, from the node visited back to where the search set out. -/
structure IsPath (f : Flow) (path : List String) : Prop where
  nodup : path.Nodup
  listed : ∀ id ∈ path, f.hasNode id = true
  linked : path.IsChain fun b a => f.Leads a b

namespace IsPath

theorem single (h : f.hasNode id = true) : f.IsPath [id] where
  nodup := List.nodup_singleton id
  listed := fun _ hi => List.mem_singleton.mp hi ▸ h
  linked := .singleton id

theorem extend (h : f.IsPath (id :: path)) (hl : f.Leads id child) (hc : child ∉ id :: path) :
    f.IsPath (child :: id :: path) where
  nodup := List.nodup_cons.mpr ⟨hc, h.nodup⟩
  listed := fun _ hi => (List.mem_cons.mp hi).elim (· ▸ hl.2.1) (h.listed _)
  linked := List.isChain_cons_cons.mpr ⟨hl, h.linked⟩

theorem length_le (h : f.IsPath path) : path.length ≤ f.nodeIds.length :=
  (List.subperm_of_subset h.nodup fun _ hi => mem_nodeIds.mpr (h.listed _ hi)).length_le

/-- A child on the path closes the walk from where the child stands. -/
theorem closes (h : f.IsPath (id :: path)) (hl : f.Leads id child) (hc : child ∈ id :: path) :
    f.IsClosedWalk ((id :: path).reverse.dropWhile (· != child) ++ [child]) := by
  obtain ⟨inner, hd⟩ : ∃ inner, (id :: path).reverse.dropWhile (· != child) = child :: inner := by
    have hne : (id :: path).reverse.dropWhile (· != child) ≠ [] := by
      rw [ne_eq, List.dropWhile_eq_nil_iff]
      intro hall
      simpa using hall child (List.mem_reverse.mpr hc)
    obtain ⟨c, inner, hd⟩ := List.exists_cons_of_ne_nil hne
    have hh := List.head_dropWhile_not (· != child) hne
    simp only [hd, List.head_cons, bne_eq_false_iff_eq] at hh
    exact ⟨inner, hh ▸ hd⟩
  have hsuf : (child :: inner) <:+ (id :: path).reverse := hd ▸ List.dropWhile_suffix _
  refine ⟨child, inner, by rw [hd, List.cons_append], ?_⟩
  rw [hd]
  refine List.IsChain.append ((List.isChain_reverse.mpr h.linked).suffix hsuf) (.singleton _) ?_
  intro b hb c hcc
  -- The last node of the walk is the one visited.
  have hlast : (child :: inner).getLast? = some id := by
    obtain ⟨front, hfront⟩ := hsuf
    have := congrArg List.getLast? hfront
    rwa [List.getLast?_append_cons, List.getLast?_reverse, List.head?_cons] at this
  rw [hlast] at hb
  cases hb
  cases hcc
  exact hl

end IsPath

/-- What comes of searching from nodes when some are done: they are done as well and all is settled, or
there is a closed walk. -/
def Settles (f : Flow) (done ids : List String) : Except (List String) (List String) → Prop
  | .ok all => f.IsSettled all ∧ done ⊆ all ∧ ids ⊆ all
  | .error walk => f.IsClosedWalk walk

theorem Settles.skip (h : f.IsSettled done) (hi : id ∈ done) : f.Settles done [id] (.ok done) :=
  ⟨h, List.Subset.refl _, by simpa using hi⟩

/-- Searching from one node after the other. -/
theorem Settles.foldlM {step : List String → String → Except (List String) (List String)}
    (hs : ∀ done, f.IsSettled done → ∀ id ∈ ids, f.Settles done [id] (step done id))
    (h : f.IsSettled done) : f.Settles done ids (ids.foldlM step done) := by
  induction ids generalizing done with
  | nil => exact ⟨h, List.Subset.refl _, List.nil_subset _⟩
  | cons id ids ih =>
    rw [List.foldlM_cons]
    have hfirst := hs done h id List.mem_cons_self
    cases hstep : step done id with
    | error walk =>
      rw [hstep] at hfirst
      exact hfirst
    | ok middle =>
      rw [hstep] at hfirst
      obtain ⟨hm, hdm, him⟩ := hfirst
      have hrest := ih (fun done h id hi => hs done h id (List.mem_cons_of_mem _ hi)) hm
      change f.Settles done (id :: ids) (ids.foldlM step middle)
      cases hall : ids.foldlM step middle with
      | error walk =>
        rw [hall] at hrest
        exact hrest
      | ok all =>
        rw [hall] at hrest
        obtain ⟨ha, hma, hia⟩ := hrest
        exact ⟨ha, List.Subset.trans hdm hma, List.cons_subset.mpr ⟨hma (him List.mem_cons_self), hia⟩⟩

/-- What a visit does with a child of the node it has come to. -/
def look (f : Flow) (fuel : Nat) (path done : List String) (child : String) :
    Except (List String) (List String) :=
  if path.contains child then .error (path.reverse.dropWhile (· != child) ++ [child])
  else if done.contains child then .ok done
  else f.visit fuel path done child

theorem visit_succ (fuel : Nat) (path done : List String) (id : String) :
    f.visit (fuel + 1) path done id =
      (f.children id).foldlM (f.look fuel (id :: path)) done >>= fun all => .ok (id :: all) :=
  rfl

/-- A visit settles its node. Fuel for all nodes that are not on the path is enough, as a path has no
node twice. -/
theorem visit_settles {fuel : Nat} (hp : f.IsPath (id :: path))
    (hf : f.nodeIds.length ≤ fuel + path.length) (h : f.IsSettled done) :
    f.Settles done [id] (f.visit fuel path done id) := by
  induction fuel generalizing path done id with
  | zero =>
    have hlen := hp.length_le
    rw [List.length_cons] at hlen
    omega
  | succ fuel ih =>
    have hid := hp.listed id List.mem_cons_self
    have hlook : ∀ done, f.IsSettled done → ∀ child ∈ f.children id,
        f.Settles done [child] (f.look fuel (id :: path) done child) := by
      intro done h child hc
      have hl := (mem_children hid).mp hc
      unfold look
      split
      · rename_i hmem
        exact hp.closes hl (List.contains_iff_mem.mp hmem)
      · rename_i hmem
        rw [List.contains_iff_mem] at hmem
        split
        · rename_i hdone
          exact .skip h (List.contains_iff_mem.mp hdone)
        · exact ih (hp.extend hl hmem) (by rw [List.length_cons]; omega) h
    have hchildren := Settles.foldlM hlook h
    rw [visit_succ]
    cases hr : (f.children id).foldlM (f.look fuel (id :: path)) done with
    | error walk =>
      rw [hr] at hchildren
      exact hchildren
    | ok all =>
      rw [hr] at hchildren
      obtain ⟨ha, hda, hca⟩ := hchildren
      have hc : ∀ b, f.Leads id b → b ∈ all := fun b hb => hca ((mem_children hid).mpr hb)
      exact ⟨ha.cons hc, List.Subset.trans hda (List.subset_cons_self _ _), by simp⟩

theorem search_settles : f.Settles [] f.nodeIds (f.nodeIds.foldlM
    (fun done id => if done.contains id then .ok done else f.visit f.nodeIds.length [] done id) []) := by
  refine Settles.foldlM (fun done h id hi => ?_) .nil
  split
  · rename_i hdone
    exact .skip h (List.contains_iff_mem.mp hdone)
  · exact visit_settles (.single (mem_nodeIds.mp hi)) (by simp) h

theorem findCycle?_closed (h : f.findCycle? = some walk) : f.IsClosedWalk walk := by
  have hs := f.search_settles
  unfold findCycle? at h
  dsimp only at h
  split at h
  · cases h
  · rename_i hsearch
    cases h
    rw [hsearch] at hs
    exact hs

theorem findCycle?_eq_none_iff :
    f.findCycle? = none ↔ ∀ id, ¬ Relation.TransGen f.Leads id id := by
  constructor
  · intro h id hl
    have hs := f.search_settles
    unfold findCycle? at h
    dsimp only at h
    split at h
    · rename_i all hsearch
      rw [hsearch] at hs
      obtain ⟨b, hb, -⟩ := Relation.TransGen.head'_iff.mp hl
      exact hs.1.acyclic (hs.2.2 (mem_nodeIds.mpr hb.1)) hl
    · cases h
  · intro h
    cases hc : f.findCycle? with
    | none => rfl
    | some walk =>
      obtain ⟨id, hl⟩ := (findCycle?_closed hc).transGen
      exact absurd hl (h id)

end Workflow.Flow
