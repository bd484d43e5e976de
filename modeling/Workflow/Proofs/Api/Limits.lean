import Workflow.Api.Form
import Workflow.Proofs.Value.Fallible
import Workflow.Proofs.Value.Nesting
/-!
Which forms of flows are accepted. How many nodes or steps there are and what the variables and sub-flows hold
is bounded exactly as it should be. What nodes, edges, steps and the policy hold is not looked into, though a
sub-flow is with all of its nodes.
-/

namespace Workflow.Api.FlowForm

open Form

variable {f : FlowForm} {body : Value}

/-- Objects as the items of one list. -/
def listed (fs : List (Entries Value)) : Value :=
  .list (fs.map .obj)

/-- The values of a form that are looked into. -/
def inspected (f : FlowForm) : List Value :=
  [.obj f.vars, .obj f.subflowValues]

/-- The other values of a form. -/
def overlooked (f : FlowForm) : List Value :=
  (f.nodes.map listed).toList ++ [listed f.edges] ++ (f.steps.map listed).toList
    ++ (f.policy.map .obj).toList

structure IsWithinLimits (f : FlowForm) : Prop where
  oneSided : f.nodes.isSome ≠ f.steps.isSome
  size : ∀ ns, f.nodes = some ns ∨ f.steps = some ns → ns.length ≤ nodeLimit
  values : ∀ v ∈ f.inspected, v.IsWithin bounds

/-- What a form is told that is beyond the limits. -/
inductive Breaks (f : FlowForm) : String → Prop
  | sides (h : f.nodes.isSome = f.steps.isSome) : Breaks f "provide exactly one of 'nodes' or 'steps'"
  | size {ns : List (Entries Value)} (h : f.nodes = some ns ∨ f.steps = some ns)
      (hl : nodeLimit < ns.length) :
      Breaks f ("flow has " ++ toString ns.length ++ " nodes, maximum is " ++ toString nodeLimit)
  | values {v : Value} {e : Excess} (hv : v ∈ f.inspected) (he : v.Exceeds bounds 0 e) :
      Breaks f e.message

theorem excess?_inspected (f : FlowForm) :
    (((Value.obj f.vars).excess? bounds 0).or ((Value.obj f.subflowValues).excess? bounds 0)) = none ↔
      ∀ v ∈ f.inspected, v.IsWithin bounds := by
  rw [Option.or_eq_none_iff, Value.excess?_eq_none_iff, Value.excess?_eq_none_iff]
  simp [inspected]

theorem exceeds_inspected {e : Excess} (h : ((Value.obj f.vars).excess? bounds 0).or
    ((Value.obj f.subflowValues).excess? bounds 0) = some e) :
    ∃ v ∈ f.inspected, v.Exceeds bounds 0 e := by
  rw [Option.or_eq_some_iff] at h
  obtain h | ⟨-, h⟩ := h
  · exact ⟨_, by simp [inspected], Value.exceeds_of_excess? bounds 0 _ h⟩
  · exact ⟨_, by simp [inspected], Value.exceeds_of_excess? bounds 0 _ h⟩

/-- Of a form with nodes or steps, but not both, these are all. -/
theorem eq_getD_of_oneSided (h : f.nodes.isSome ≠ f.steps.isSome) (ns : List (Entries Value)) :
    f.nodes = some ns ∨ f.steps = some ns ↔ ns = f.nodes.getD (f.steps.getD []) := by
  cases hn : f.nodes <;> cases hs : f.steps <;> simp_all [eq_comm]

theorem broken?_eq_none_iff : f.broken? = none ↔ f.IsWithinLimits := by
  rw [broken?]
  by_cases hsides : f.nodes.isSome = f.steps.isSome
  · rw [if_pos (by simpa using hsides)]
    exact iff_of_false (by simp) fun h => h.oneSided hsides
  · rw [if_neg (by simpa using hsides)]
    have hsize := eq_getD_of_oneSided hsides
    dsimp only
    by_cases hl : nodeLimit < (f.nodes.getD (f.steps.getD [])).length
    · rw [if_pos hl]
      exact iff_of_false (by simp) fun h => Nat.not_lt.mpr (h.size _ ((hsize _).mpr rfl)) hl
    · rw [if_neg hl, Option.map_eq_none_iff, excess?_inspected]
      refine ⟨fun h => ⟨hsides, fun ns hns => ?_, h⟩, fun h => h.values⟩
      rw [(hsize ns).mp hns]
      exact Nat.not_lt.mp hl

theorem breaks_of_broken? {message : String} (h : f.broken? = some message) : f.Breaks message := by
  rw [broken?] at h
  split at h
  · cases h
    exact .sides (by simpa using ‹(f.nodes.isSome == f.steps.isSome) = true›)
  · have hsides : f.nodes.isSome ≠ f.steps.isSome := by
      simpa using ‹¬(f.nodes.isSome == f.steps.isSome) = true›
    dsimp only at h
    split at h
    · cases h
      exact .size ((eq_getD_of_oneSided hsides _).mpr rfl) ‹_›
    · obtain ⟨e, he, rfl⟩ := Option.map_eq_some_iff.mp h
      obtain ⟨v, hv, hx⟩ := exceeds_inspected he
      exact .values hv hx

theorem read_eq_error {message : String} (hf : fill body = .ok f) (hb : f.broken? = some message) :
    read body = .error [⟨[], .rule message⟩] := by
  rw [read, hf]
  dsimp only [bind, Except.bind]
  rw [hb]
  rfl

theorem read_eq_ok_iff : read body = .ok f ↔ fill body = .ok f ∧ f.IsWithinLimits := by
  rw [read, bind_eq_ok_iff, ← broken?_eq_none_iff]
  constructor
  · rintro ⟨g, hg, hr⟩
    cases hb : g.broken? with
    | none =>
      rw [hb] at hr
      cases hr
      exact ⟨hg, hb⟩
    | some message =>
      rw [hb] at hr
      cases hr
  · rintro ⟨hg, hb⟩
    exact ⟨f, hg, by rw [hb]; rfl⟩

/-- A value in so many lists, one within the other. -/
def boxed : Nat → Value → Value
  | 0, v => v
  | n + 1, v => .list [boxed n v]

theorem inside_boxed (v : Value) : (n : Nat) → Value.Inside v n (boxed n v)
  | 0 => .here
  | n + 1 => .item List.mem_cons_self (inside_boxed v n)

/-- A node that assigns a value. -/
def assigning (v : Value) : Entries Value :=
  [("id", .str "a"), ("kind", .str "assign"), ("config", .obj [("value", v)])]

/-- A flow with one node, which assigns a value, and with one variable. -/
def single (held given : Value) : Value :=
  .obj [("id", .str "single"), ("nodes", .list [.obj (assigning held)]),
    ("variables", .obj [("given", given)])]

def singleForm (held given : Value) : FlowForm where
  id := "single"
  name := none
  nodes := some [assigning held]
  edges := []
  steps := none
  vars := [("given", given)]
  entry := none
  subflows := []
  policy := none
  replace := false

theorem fill_single (held given : Value) : fill (single held given) = .ok (singleForm held given) := rfl

theorem isWithinLimits_single {held given : Value} :
    (singleForm held given).IsWithinLimits ↔ given.IsWithinFrom bounds 1 := by
  have hvars : (Value.obj (singleForm held given).vars).IsWithin bounds ↔
      given.IsWithinFrom bounds 1 := by
    simp [singleForm, Value.IsWithin, Value.isWithinFrom_obj]
  refine ⟨fun h => hvars.mp (h.values _ List.mem_cons_self), fun h => ⟨by simp [singleForm], ?_, ?_⟩⟩
  · simp [singleForm, nodeLimit]
  · have hsubflows : (Value.obj (singleForm held given).subflowValues).IsWithin bounds := by
      simp [singleForm, subflowValues, Entries.mapValues, Value.IsWithin, Value.isWithinFrom_obj]
    simpa [inspected, hsubflows] using hvars.mpr h

/-- A form is accepted if and only if its fields can be read, it has either nodes or steps and not too many of
them, and its variables and its sub-flows nest no deeper and have no longer lists than they may. One that is
refused is told a limit that it does break. Of an accepted form all values are within the bounds just if
those are that are not looked into. -/
theorem limits_checked (body : Value) :
    (∀ f, read body = .ok f ↔ fill body = .ok f ∧ f.IsWithinLimits) ∧
    (∀ f, fill body = .ok f → ¬ f.IsWithinLimits →
      ∃ message, f.Breaks message ∧ read body = .error [⟨[], .rule message⟩]) ∧
    (∀ f, read body = .ok f →
      ((∀ v ∈ f.inspected ++ f.overlooked, v.IsWithin bounds) ↔ ∀ v ∈ f.overlooked, v.IsWithin bounds)) := by
  refine ⟨fun f => read_eq_ok_iff, fun f hf hl => ?_, fun f hf => ?_⟩
  · cases hb : f.broken? with
    | none => exact absurd (broken?_eq_none_iff.mp hb) hl
    | some message => exact ⟨message, breaks_of_broken? hb, read_eq_error hf hb⟩
  · have hinspected := (read_eq_ok_iff.mp hf).2.values
    rw [List.forall_mem_append]
    exact and_iff_right hinspected

/-- A variable that nests deeper than it may is refused and told so, one without anything inside is not. -/
theorem limits_checked_nested :
    read (single .null .null) = .ok (singleForm .null .null) ∧
    ∃ message, (singleForm .null (boxed 20 .null)).Breaks message ∧
      read (single .null (boxed 20 .null)) = .error [⟨[], .rule message⟩] := by
  have hflat : (singleForm .null .null).IsWithinLimits :=
    isWithinLimits_single.mpr ((Value.isWithinFrom_leaf (by simp) (by simp)).mpr (by decide))
  have hnested : ¬ (singleForm .null (boxed 20 .null)).IsWithinLimits := fun h =>
    absurd ((isWithinLimits_single.mp h).nests (inside_boxed .null 20)) (by decide)
  exact ⟨((limits_checked _).1 _).mpr ⟨fill_single _ _, hflat⟩,
    (limits_checked _).2.1 _ (fill_single _ _) hnested⟩

/-- What the one node of a flow assigns lies among the values that are not looked into. -/
theorem inside_overlooked_single {n : Nat} {w held : Value} (given : Value) (h : Value.Inside w n held) :
    ∃ v ∈ (singleForm held given).overlooked, Value.Inside w (n + 3) v := by
  have hconfig : ("config", .obj [("value", held)]) ∈ assigning held := by simp [assigning]
  exact ⟨listed [assigning held], by simp [overlooked, singleForm],
    .item List.mem_cons_self (.field hconfig (.field List.mem_cons_self h))⟩

/-- A flow is accepted whose node assigns a list of more items than any may have, which lies deeper than any
value may. -/
theorem deep_config_accepted :
    ∃ f, read (single (boxed 30 (.list (List.replicate 1001 .null))) .null) = .ok f ∧
      ∃ v ∈ f.overlooked, ∃ n items, Value.Inside (.list items) n v ∧ bounds.depth < n ∧
        bounds.items < items.length := by
  let held := boxed 30 (.list (List.replicate 1001 .null))
  have hlimits : (singleForm held .null).IsWithinLimits :=
    isWithinLimits_single.mpr ((Value.isWithinFrom_leaf (by simp) (by simp)).mpr (by decide))
  obtain ⟨v, hv, hin⟩ := inside_overlooked_single .null
    (inside_boxed (.list (List.replicate 1001 .null)) 30)
  exact ⟨singleForm held .null, read_eq_ok_iff.mpr ⟨fill_single _ _, hlimits⟩, v, hv, _, _, hin,
    by decide, by rw [List.length_replicate]; decide⟩

end Workflow.Api.FlowForm
