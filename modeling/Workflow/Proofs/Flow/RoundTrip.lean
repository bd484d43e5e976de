import Workflow.Proofs.Flow.Sequence
import Workflow.Proofs.Value.Entries
import Workflow.Proofs.Value.Fallible
/-!
Steps to nodes and back. A step that was made of a node is settled: it says its id and its kind first, its
targets are objects, and it comes back unchanged from every further round. A node comes back from its step
exactly if its config has no field of its own where a step keeps the id and the kind.
-/

namespace Workflow.Steps

open Entries

variable {n : Node} {step out v : Value} {fields fs : Entries Value} {key id kind : String} {index : Nat}

/-! Targets. -/

/-- One field, its value made an object if it is a target that is given. -/
def settleField (f : String × Value) : String × Value :=
  if targetFields.contains f.1 && !f.2.isVacant then (f.1, .obj (target f.2)) else f

theorem normalizeTargets_eq_map (fields : Entries Value) : normalizeTargets fields = fields.map settleField :=
  rfl

theorem settleField_fst (f : String × Value) : (settleField f).1 = f.1 := by
  unfold settleField
  split <;> rfl

theorem settleField_idem (f : String × Value) : settleField (settleField f) = settleField f := by
  by_cases h : (targetFields.contains f.1 && !f.2.isVacant) = true
  · have hf : settleField f = (f.1, .obj (target f.2)) := if_pos h
    rw [hf, settleField]
    split <;> rfl
  · have hf : settleField f = f := if_neg h
    rw [hf, hf]

theorem settleField_of_not_mem (v : Value) (h : key ∉ targetFields) : settleField (key, v) = (key, v) := by
  have hplain : targetFields.contains key = false := by
    rw [← Bool.not_eq_true, List.contains_iff_mem]
    exact h
  rw [settleField, hplain, Bool.false_and, if_neg Bool.false_ne_true]

theorem settleField_of_isObject {f : String × Value} (h : f.2.isVacant = true ∨ f.2.isObject = true) :
    settleField f = f := by
  unfold settleField
  split
  · rename_i hgiven
    rw [Bool.and_eq_true, Bool.not_eq_true'] at hgiven
    obtain ⟨key, v⟩ := f
    cases v with
    | obj fields => rfl
    | _ => simp [hgiven.2, Value.isObject] at h
  · rfl

theorem keys_normalizeTargets (fields : Entries Value) : keys (normalizeTargets fields) = keys fields := by
  rw [keys, keys, normalizeTargets_eq_map, List.map_map]
  exact List.map_congr_left fun f _ => settleField_fst f

theorem normalizeTargets_idem (fields : Entries Value) :
    normalizeTargets (normalizeTargets fields) = normalizeTargets fields := by
  rw [normalizeTargets_eq_map, normalizeTargets_eq_map, List.map_map]
  exact List.map_congr_left fun f _ => settleField_idem f

theorem normalizeTargets_eq_self (h : ∀ f ∈ fields, settleField f = f) : normalizeTargets fields = fields := by
  calc normalizeTargets fields
    _ = fields.map id := List.map_congr_left h
    _ = fields := List.map_id fields

theorem find?_normalizeTargets (h : key ∉ targetFields) (fields : Entries Value) :
    find? key (normalizeTargets fields) = find? key fields := by
  induction fields with
  | nil => rfl
  | cons f fields ih =>
    have hcons : normalizeTargets (f :: fields) = settleField f :: normalizeTargets fields := rfl
    rw [hcons]
    by_cases hk : f.1 = key
    · have hf : settleField f = f := settleField_of_not_mem f.2 (hk ▸ h)
      rw [hf, find?, find?, if_pos (by simpa using hk), if_pos (by simpa using hk)]
    · have hne : ((settleField f).1 == key) = false := by rw [settleField_fst]; simpa using hk
      rw [find?, find?, ih, if_neg (by simpa using hne), if_neg (by simpa using hk)]

/-! The shape of a step. -/

/-- No field of the config stands where a step keeps the id and the kind. -/
structure IsSeparate (config : Entries Value) : Prop where
  id : "id" ∉ keys config
  kind : "type" ∉ keys config

/-- The step that says an id, a kind and further fields. -/
def spelled (id kind : String) (fields : Entries Value) : Value :=
  .obj (("id", .str id) :: ("type", .str kind) :: fields)

/-- A step as rounds leave it. -/
inductive IsSettled : Value → Prop
  | intro {id kind : String} {fields : Entries Value} (hid : id ≠ "") (hkind : kind ≠ "")
    (hdelay : kind ≠ "delay") (hkeys : (keys fields).Nodup) (hsep : IsSeparate fields)
    (htargets : normalizeTargets fields = fields) : IsSettled (spelled id kind fields)

theorem IsSeparate.of_keys (h : IsSeparate fields) (hk : ∀ key ∈ keys fs, key ∈ keys fields) : IsSeparate fs :=
  ⟨fun hm => h.id (hk _ hm), fun hm => h.kind (hk _ hm)⟩

theorem isSeparate_config (step : Value) : IsSeparate (config step) := by
  have hkeys : keys (config step) = keys (step.fields.filter fun f => f.1 != "id" && f.1 != "type") :=
    keys_normalizeTargets _
  have hplain (key : String) (h : key ∈ keys (config step)) : key ≠ "id" ∧ key ≠ "type" := by
    rw [hkeys] at h
    obtain ⟨f, hf, rfl⟩ := List.mem_map.mp h
    simpa using (List.mem_filter.mp hf).2
  exact ⟨fun h => (hplain _ h).1 rfl, fun h => (hplain _ h).2 rfl⟩

theorem IsSeparate.filter (h : IsSeparate fields) :
    fields.filter (fun f => f.1 != "id" && f.1 != "type") = fields := by
  refine List.filter_eq_self.mpr fun f hf => ?_
  have hmem : f.1 ∈ keys fields := List.mem_map_of_mem hf
  simp only [Bool.and_eq_true, bne_iff_ne]
  exact ⟨fun he => h.id (he ▸ hmem), fun he => h.kind (he ▸ hmem)⟩

theorem config_spelled (h : IsSeparate fields) : config (spelled id kind fields) = normalizeTargets fields := by
  calc config (spelled id kind fields)
    _ = normalizeTargets (fields.filter fun f => f.1 != "id" && f.1 != "type") := rfl
    _ = normalizeTargets fields := by rw [h.filter]

theorem textOr_str {default s : String} (h : s ≠ "") : textOr default (.str s) = s := by
  rw [textOr, if_neg (by simpa using h)]

/-- The node of a step that is spelled out. -/
theorem node_spelled (hid : id ≠ "") (hkind : kind ≠ "") (h : IsSeparate fields) (index : Nat) :
    node index (spelled id kind fields) = { id, kind, config := normalizeTargets fields } := by
  have hidField : (spelled id kind fields).field "id" = .str id := rfl
  have hkindField : (spelled id kind fields).field "type" = .str kind := rfl
  rw [node, hidField, hkindField, textOr_str hid, textOr_str hkind, config_spelled h]

/-- The step for a node that is no delay: the config is laid over its id and its kind. -/
def inlined (n : Node) : Value :=
  .obj (normalizeTargets (update [("id", .str n.id), ("type", .str n.kind)] n.config))

theorem ofNode_of_ne_delay (h : n.kind ≠ "delay") : ofNode n = .ok (inlined n) := by
  rw [ofNode, if_neg (by simpa using h)]
  rfl

/-- The step of a node whose config keeps out of the way is spelled out. -/
theorem inlined_eq_spelled (hs : IsSeparate n.config) :
    inlined n = spelled n.id n.kind (normalizeTargets (ofList n.config)) := by
  have hdisjoint : ∀ key ∈ keys n.config, key ∉ keys [("id", Value.str n.id), ("type", .str n.kind)] := by
    intro key hk hm
    simp only [keys, List.map_cons, List.map_nil, List.mem_cons, List.not_mem_nil, or_false] at hm
    obtain rfl | rfl := hm
    · exact hs.id hk
    · exact hs.kind hk
  rw [inlined, update_of_disjoint hdisjoint]
  rfl

theorem ofNode_spelled (h : n.kind ≠ "delay") (hs : IsSeparate n.config) :
    ofNode n = .ok (spelled n.id n.kind (normalizeTargets (ofList n.config))) := by
  rw [ofNode_of_ne_delay h, inlined_eq_spelled hs]

theorem IsSettled.ofNode_node (h : IsSettled step) (index : Nat) : ofNode (node index step) = .ok step := by
  cases h with
  | intro hid hkind hdelay hkeys hsep htargets =>
    rw [node_spelled hid hkind hsep, htargets]
    rw [ofNode_spelled hdelay hsep, ofList_eq_self hkeys, htargets]

/-- The step for a delay. -/
def waiting (id : String) (ms : Value) : Value :=
  spelled id "wait" [("condition", .obj [("sleep", ms)])]

theorem ofNode_delay (h : n.kind = "delay") : ofNode n = (delay n.config).map (waiting n.id) := by
  rw [ofNode, if_pos (by simpa using h)]
  cases delay n.config <;> rfl

theorem isSettled_waiting (hid : id ≠ "") (ms : Value) : IsSettled (waiting id ms) :=
  .intro hid (by decide) (by decide) (by simp [keys]) ⟨by simp [keys], by simp [keys]⟩ rfl

/-- The step of a node that was made of a step is settled and has the node's id. -/
theorem isSettled_of_ofNode (h : ofNode (node index step) = .ok out) :
    IsSettled out ∧ out.field "id" = .str (node index step).id := by
  have hid := node_id_ne_empty index step
  have hsep : IsSeparate (node index step).config := isSeparate_config step
  by_cases hk : (node index step).kind = "delay"
  · rw [ofNode_delay hk] at h
    cases hms : delay (node index step).config with
    | error fault => rw [hms] at h; cases h
    | ok ms =>
      rw [hms] at h
      cases h
      exact ⟨isSettled_waiting hid ms, rfl⟩
  · rw [ofNode_spelled hk hsep] at h
    cases h
    refine ⟨.intro hid (node_kind_ne_empty index step) hk ?_ ?_ (normalizeTargets_idem _), rfl⟩
    · rw [keys_normalizeTargets]
      exact nodup_keys_ofList _
    · refine hsep.of_keys fun key hm => ?_
      rw [keys_normalizeTargets] at hm
      exact mem_keys_ofList.mp hm

/-! The length of a delay. -/

/-- What a delay says of its length. -/
def saidDelay (fields : Entries Value) : Value :=
  ((find? "sleep" fields).or (find? "ms" fields)).getD .null

/-- A delay whose length is a whole number past the doubles. -/
def IsOverlong (n : Node) : Prop :=
  n.kind = "delay" ∧ ∃ ms, saidDelay n.config = .int ms ∧ Double.ofInt? ms = none

theorem toDouble_of_past {ms : Int} (h : Double.ofInt? ms = none) :
    (Value.int ms).toDouble = .error (.number .pastDoubles) := by
  rw [Value.toDouble, Number.toFloat, h]

/-- Whole numbers are the only values that can be too great to be read as a double. -/
theorem past_of_toDouble {fault : ShapeFault} (h : v.toDouble = .error fault) (hk : fault.kind = .overflow) :
    ∃ ms, v = .int ms ∧ Double.ofInt? ms = none := by
  cases v with
  | num number =>
    cases number with
    | int ms =>
      cases hms : Double.ofInt? ms with
      | none => exact ⟨ms, rfl, hms⟩
      | some x => rw [Value.toDouble, Number.toFloat, hms] at h; cases h
    | float x => cases h
  | str s =>
    rw [Value.toDouble, Numeral.readFloat] at h
    cases hs : Numeral.decimal? (Numeral.trimMargin s.toList) with
    | some x => rw [hs] at h; cases h
    | none => rw [hs] at h; cases h; cases hk
  | bool b => cases h
  | _ => cases h; cases hk

theorem delay_eq (fields : Entries Value) : delay fields =
    if (saidDelay fields).isNull then .ok (.int defaultDelay)
    else
      match (saidDelay fields).toDouble with
      | .error f => if f.kind == .overflow then .error f else .ok (.int defaultDelay)
      | .ok x =>
        if x > 0.0 then
          match Double.finite? x with
          | some d => .ok (if d.isWhole then .int d.truncate else .float x)
          | none => .ok (.float x)
        else .ok (.int 0) := by
  unfold delay saidDelay
  cases find? "sleep" fields <;> rfl

/-- A delay can be read unless its length is past the doubles. -/
theorem exists_delay_iff (fields : Entries Value) : (∃ ms, delay fields = .ok ms) ↔
    ¬ ∃ ms, saidDelay fields = .int ms ∧ Double.ofInt? ms = none := by
  rw [delay_eq]
  generalize saidDelay fields = said
  constructor
  · rintro ⟨v, h⟩ ⟨ms, rfl, hms⟩
    rw [toDouble_of_past hms] at h
    cases h
  · intro h
    split
    · exact ⟨_, rfl⟩
    · split
      · rename_i fault hfault
        split
        · rename_i hk
          exact absurd (past_of_toDouble hfault (by simpa using hk)) h
        · exact ⟨_, rfl⟩
      · split
        · split <;> exact ⟨_, rfl⟩
        · exact ⟨_, rfl⟩

theorem exists_ofNode_iff (n : Node) : (∃ step, ofNode n = .ok step) ↔ ¬ IsOverlong n := by
  unfold IsOverlong
  by_cases hk : n.kind = "delay"
  · have hdelay : (∃ step, ofNode n = .ok step) ↔ ∃ ms, delay n.config = .ok ms := by
      rw [ofNode_delay hk]
      cases delay n.config <;> simp [Except.map]
    rw [hdelay, exists_delay_iff, and_iff_right hk]
  · rw [ofNode_of_ne_delay hk]
    simp [hk]

/-! Lists of steps. -/

/-- Settled steps come back as they are, wherever they stand. -/
theorem mapM_mapIdx_settled {g : Nat → Value → Node} {steps : List Value}
    (h : ∀ step ∈ steps, ∀ i, ofNode (g i step) = .ok step) : (steps.mapIdx g).mapM ofNode = .ok steps := by
  rw [mapM_eq_ok_iff]
  induction steps generalizing g with
  | nil => exact .nil
  | cons step steps ih =>
    rw [List.forall_mem_cons] at h
    rw [List.mapIdx_cons]
    exact .cons (h.1 0) (ih fun s hs i => h.2 s hs (i + 1))

/-- One step comes of each node, in order, with its id; and all of them are settled. -/
theorem settled_of_mapM {steps outs : List Value} (h : (steps.mapIdx node).mapM ofNode = .ok outs) :
    List.Forall₂ (fun n out => ofNode n = .ok out ∧ out.field "id" = .str n.id) (steps.mapIdx node) outs ∧
    ∀ out ∈ outs, IsSettled out := by
  have hmade : ∀ n ∈ steps.mapIdx node, ∃ index step, n = node index step := by
    intro n hn
    obtain ⟨i, hi, rfl⟩ := List.mem_mapIdx.mp hn
    exact ⟨i, steps[i], rfl⟩
  have hall := (List.forall₂_and_left _ _).mpr ⟨hmade, mapM_eq_ok_iff.mp h⟩
  constructor
  · refine hall.imp fun n out hn => ?_
    obtain ⟨⟨index, step, rfl⟩, hout⟩ := hn
    exact ⟨hout, (isSettled_of_ofNode hout).2⟩
  · have hsettled : List.Forall₂ (fun out _ => IsSettled out ∧ True) outs (steps.mapIdx node) := by
      refine hall.flip.imp fun out n hn => ?_
      obtain ⟨⟨index, step, rfl⟩, hout⟩ := hn
      exact ⟨(isSettled_of_ofNode hout).1, trivial⟩
    exact ((List.forall₂_and_left _ _).mp hsettled).1

/-! Steps that lack nothing. -/

/-- The fields of a step that says an id and a kind, and whose targets are objects where something is given. -/
structure IsSpeltOut (fields : Entries Value) : Prop where
  distinct : (keys fields).Nodup
  id : ∃ id, id ≠ "" ∧ find? "id" fields = some (.str id)
  kind : ∃ kind, kind ≠ "" ∧ kind ≠ "delay" ∧ find? "type" fields = some (.str kind)
  targets : ∀ key ∈ targetFields, ∀ v, find? key fields = some v → v.isVacant = true ∨ v.isObject = true

namespace IsSpeltOut

variable (h : IsSpeltOut fields)

include h

theorem config_eq : config (.obj fields) = fields.filter fun f => f.1 != "id" && f.1 != "type" := by
  refine normalizeTargets_eq_self fun f hf => ?_
  have hmem : (f.1, f.2) ∈ fields := (List.mem_filter.mp hf).1
  by_cases ht : f.1 ∈ targetFields
  · exact settleField_of_isObject (h.targets f.1 ht f.2 ((find?_eq_some_iff h.distinct).mpr hmem))
  · exact settleField_of_not_mem f.2 ht

/-- The step comes back with the same fields, its id and its kind put first. -/
theorem ofNode_node (index : Nat) :
    ∃ fs : Entries Value, ofNode (node index (.obj fields)) = .ok (.obj fs) ∧ fs.Perm fields := by
  obtain ⟨id, hid, hfindId⟩ := h.id
  obtain ⟨kind, hkind, hdelay, hfindKind⟩ := h.kind
  have hidField : (Value.obj fields).field "id" = .str id := by rw [Value.field, Value.field?, hfindId]; rfl
  have hkindField : (Value.obj fields).field "type" = .str kind := by
    rw [Value.field, Value.field?, hfindKind]; rfl
  have hnode : node index (.obj fields) = { id, kind, config := config (.obj fields) } := by
    rw [node, hidField, hkindField, textOr_str hid, textOr_str hkind]
  have hsep : IsSeparate (config (.obj fields)) := isSeparate_config _
  have hnodup : (keys (config (.obj fields))).Nodup := by
    rw [h.config_eq]
    exact h.distinct.sublist (List.filter_sublist.map _)
  refine ⟨("id", .str id) :: ("type", .str kind) :: config (.obj fields), ?_, ?_⟩
  · rw [hnode, ofNode_spelled hdelay hsep, ofList_eq_self hnodup]
    have hsettled : normalizeTargets (config (.obj fields)) = config (.obj fields) := normalizeTargets_idem _
    rw [hsettled]
    rfl
  · refine perm_of_find?_eq ?_ h.distinct fun key => ?_
    · simp only [keys, List.map_cons, List.nodup_cons, List.mem_cons, not_or]
      exact ⟨⟨by decide, hsep.id⟩, hsep.kind, hnodup⟩
    · by_cases hkid : key = "id"
      · rw [hkid, hfindId]
        rfl
      by_cases hkkind : key = "type"
      · rw [hkkind, hfindKind]
        rfl
      have hkey : (key != "id" && key != "type") = true := by simp [hkid, hkkind]
      rw [find?, if_neg (by simpa using Ne.symm hkid), find?, if_neg (by simpa using Ne.symm hkkind), h.config_eq,
        find?_filter (p := fun key => key != "id" && key != "type") hkey]

end IsSpeltOut

theorem mapM_mapIdx_spelt {g : Nat → Value → Node} {steps : List (Entries Value)}
    (h : ∀ fields ∈ steps, ∀ i, ∃ fs : Entries Value, ofNode (g i (.obj fields)) = .ok (.obj fs) ∧ fs.Perm fields) :
    ∃ outs : List (Entries Value), ((steps.map Value.obj).mapIdx g).mapM ofNode = .ok (outs.map Value.obj) ∧
      List.Forall₂ List.Perm outs steps := by
  simp only [mapM_eq_ok_iff]
  induction steps generalizing g with
  | nil => exact ⟨[], .nil, .nil⟩
  | cons fields steps ih =>
    rw [List.forall_mem_cons] at h
    obtain ⟨fs, hfs, hperm⟩ := h.1 0
    obtain ⟨outs, houts, hperms⟩ := ih fun s hs i => h.2 s hs (i + 1)
    rw [List.map_cons, List.mapIdx_cons]
    exact ⟨fs :: outs, .cons hfs houts, .cons hperm hperms⟩

/-- A list of steps that is made a flow and taken back has one step for each step, in order and with its id,
whether ids repeat or not; only a delay that is too long for a double keeps it from being taken back. Another
round changes nothing, and steps that lack nothing come back with the fields they had. -/
theorem round_trip_settles (id : String) (vars : Entries Value) (name : Value) (subflows : List (String × Flow))
    (steps : List Value) :
    let back (steps : List Value) := ofFlow (toFlow id steps vars name subflows)
    ((∃ outs, back steps = .ok outs) ↔ ∀ n ∈ steps.mapIdx node, ¬ IsOverlong n) ∧
    (∀ outs, back steps = .ok outs →
      List.Forall₂ (fun n out => ofNode n = .ok out ∧ out.field "id" = .str n.id) (steps.mapIdx node) outs ∧
      back outs = .ok outs) ∧
    ∀ plain : List (Entries Value), steps = plain.map .obj → (∀ fields ∈ plain, IsSpeltOut fields) →
      ∃ outs : List (Entries Value), back steps = .ok (outs.map .obj) ∧ List.Forall₂ List.Perm outs plain := by
  intro back
  have hback (steps : List Value) : back steps = (steps.mapIdx node).mapM ofNode :=
    ofFlow_toFlow id steps vars name subflows
  simp only [hback]
  refine ⟨?_, fun outs h => ?_, ?_⟩
  · rw [exists_mapM_iff]
    exact forall₂_congr fun n _ => exists_ofNode_iff n
  · obtain ⟨hmade, hsettled⟩ := settled_of_mapM h
    exact ⟨hmade, mapM_mapIdx_settled fun out hout index => (hsettled out hout).ofNode_node index⟩
  · rintro plain rfl hplain
    exact mapM_mapIdx_spelt fun fields hf index => (hplain fields hf).ofNode_node index

/-- Steps with one id, the first one's target being no object, and one that is no object itself. -/
def mixed : List Value := [
  .obj [("type", .str "click"), ("target", .str "#go"), ("id", .str "a")],
  .obj [("id", .str "a"), ("type", .str "delay"), ("sleep", .str "soon")],
  .null]

/-- What they are after a round. -/
def mixedBack : List Value := [
  spelled "a" "click" [("target", .obj [("candidates", .list [])])],
  waiting "a" (.int 1000),
  spelled "n_2" "script" []]

theorem round_trip_settles_mixed :
    ofFlow (toFlow "f" mixed [] .null []) = .ok mixedBack ∧
    ofFlow (toFlow "f" mixedBack [] .null []) = .ok mixedBack := by
  have h : ofFlow (toFlow "f" mixed [] .null []) = .ok mixedBack := by
    rw [ofFlow_toFlow]
    rfl
  exact ⟨h, ((round_trip_settles "f" [] .null [] mixed).2.1 mixedBack h).2⟩

/-! Nodes to steps and back. -/

/-- The step names the id and the kind of the node, or those that the config has in their place. -/
def Carries (n : Node) (step : Value) : Prop :=
  step.field "id" = (find? "id" n.config).getD (.str n.id) ∧
    step.field "type" = (find? "type" n.config).getD (.str n.kind)

/-- What a step has room for of a node, its targets made objects. -/
def stripped (n : Node) : Node :=
  { id := n.id, kind := n.kind, config := normalizeTargets n.config }

theorem Carries.own (h : Carries n step) (hs : IsSeparate n.config) :
    step.field "id" = .str n.id ∧ step.field "type" = .str n.kind := by
  have hid : find? "id" n.config = none := find?_eq_none_iff.mpr hs.id
  have hkind : find? "type" n.config = none := find?_eq_none_iff.mpr hs.kind
  rw [Carries, hid, hkind] at h
  exact h

theorem carries_inlined (h : (keys n.config).Nodup) : Carries n (inlined n) := by
  have hfield {key : String} (hk : key ∉ targetFields) : (inlined n).field key =
      ((find? key n.config).or (find? key [("id", .str n.id), ("type", .str n.kind)])).getD .null := by
    rw [← find?_update h, ← find?_normalizeTargets hk]
    rfl
  constructor
  · rw [hfield (by decide)]
    cases find? "id" n.config <;> rfl
  · rw [hfield (by decide)]
    cases find? "type" n.config <;> rfl

/-- A node comes back from its step exactly if its config has no field where the step keeps the id and the
kind: such a field is not told from these. -/
theorem node_inlined_iff (hid : n.id ≠ "") (hkind : n.kind ≠ "") (h : (keys n.config).Nodup) (index : Nat) :
    node index (inlined n) = stripped n ↔ IsSeparate n.config := by
  constructor
  · intro heq
    have hconfig : config (inlined n) = normalizeTargets n.config := congrArg Node.config heq
    refine (isSeparate_config (inlined n)).of_keys fun key hk => ?_
    rwa [hconfig, keys_normalizeTargets]
  · intro hs
    have hsep : IsSeparate (normalizeTargets n.config) := hs.of_keys fun key hk => by
      rwa [keys_normalizeTargets] at hk
    rw [inlined_eq_spelled hs, ofList_eq_self h, node_spelled hid hkind hsep, normalizeTargets_idem]
    rfl

theorem mapIdx_inlined_iff {g : Nat → Value → Node} {ns : List Node}
    (h : ∀ n ∈ ns, ∀ i, g i (inlined n) = stripped n ↔ IsSeparate n.config) :
    (ns.map inlined).mapIdx g = ns.map stripped ↔ ∀ n ∈ ns, IsSeparate n.config := by
  induction ns generalizing g with
  | nil => simp
  | cons n ns ih =>
    rw [List.forall_mem_cons] at h
    rw [List.map_cons, List.mapIdx_cons, List.map_cons, List.cons.injEq, h.1 0, List.forall_mem_cons,
      ih fun m hm i => h.2 m hm (i + 1)]

/-- The nodes in the order in which they are exported. -/
theorem exists_ofNodes (ns : List Node) (es : List Edge) :
    ∃ ordered : List Node, ordered.Perm ns ∧ ofNodes ns es = ordered.mapM ofNode := by
  unfold ofNodes
  split
  · exact ⟨ns, .refl ns, rfl⟩
  · exact ⟨order ns es none, (order_topological ns es none).1, rfl⟩

/-- Nodes are exported as one step each, in some arrangement, whatever edges there are. A step names the id and
the kind of its node unless the config has a field in their place, and the nodes come back from the steps
exactly if no config has one. -/
theorem export_separable (ns : List Node) (es : List Edge) (hids : ∀ n ∈ ns, n.id ≠ "")
    (hkinds : ∀ n ∈ ns, n.kind ≠ "" ∧ n.kind ≠ "delay") (hkeys : ∀ n ∈ ns, (keys n.config).Nodup) :
    ∃ ordered steps, ordered.Perm ns ∧ ofNodes ns es = .ok steps ∧ List.Forall₂ Carries ordered steps ∧
      ((∀ n ∈ ns, IsSeparate n.config) →
        List.Forall₂ (fun n step => step.field "id" = .str n.id ∧ step.field "type" = .str n.kind) ordered steps) ∧
      (nodes 0 steps = ordered.map stripped ↔ ∀ n ∈ ns, IsSeparate n.config) := by
  obtain ⟨ordered, hperm, hsteps⟩ := exists_ofNodes ns es
  have hmem {n : Node} (hn : n ∈ ordered) : n ∈ ns := hperm.mem_iff.mp hn
  have hcarries (n : Node) (hn : n ∈ ordered) : Carries n (inlined n) := carries_inlined (hkeys n (hmem hn))
  refine ⟨ordered, ordered.map inlined, hperm, ?_, ?_, fun hs => ?_, ?_⟩
  · rw [hsteps, mapM_eq_ok_iff, List.forall₂_map_right_iff, List.forall₂_same]
    exact fun n hn => ofNode_of_ne_delay (hkinds n (hmem hn)).2
  · rw [List.forall₂_map_right_iff, List.forall₂_same]
    exact hcarries
  · rw [List.forall₂_map_right_iff, List.forall₂_same]
    exact fun n hn => (hcarries n hn).own (hs n (hmem hn))
  · have hall : (∀ n ∈ ordered, IsSeparate n.config) ↔ ∀ n ∈ ns, IsSeparate n.config :=
      forall_congr' fun n => by rw [hperm.mem_iff]
    rw [nodes_eq_mapIdx, ← hall]
    refine mapIdx_inlined_iff fun n hn index => ?_
    exact node_inlined_iff (hids n (hmem hn)) (hkinds n (hmem hn)).1 (hkeys n (hmem hn)) _

/-- Nodes that are not stored in the order of their edge. -/
def pressing : List Node := [
  { id := "b", kind := "click", config := [("target", .str "#go"), ("button", .str "left")] },
  { id := "a", kind := "navigate", config := [("url", .str "/")] }]

def pressingEdges : List Edge :=
  [{ id := "1", source := "a", target := "b", label := Label.default }]

theorem export_separable_pressing :
    ∃ (ordered : List Node) (steps : List Value), ordered.Perm pressing ∧ ofNodes pressing pressingEdges = .ok steps ∧
      nodes 0 steps = ordered.map stripped := by
  have hsep : ∀ n ∈ pressing, IsSeparate n.config := by
    simp only [pressing, List.forall_mem_cons]
    exact ⟨⟨by decide, by decide⟩, ⟨by decide, by decide⟩, nofun⟩
  obtain ⟨ordered, steps, hperm, hsteps, -, -, hback⟩ :=
    export_separable pressing pressingEdges (by decide) (by decide) (by decide)
  exact ⟨ordered, steps, hperm, hsteps, hback.mpr hsep⟩

/-- Two nodes, the first of which has a config that speaks of an id. -/
def namesakes : List Node := [
  { id := "a", kind := "click", config := [("id", .str "b")] },
  { id := "b", kind := "click" }]

/-- The first node's step says the id that its config has, so that the id of the node is lost. -/
theorem export_renames : (namesakes.map (·.id)).Nodup ∧ ∃ steps, ofNodes namesakes [] = .ok steps ∧
    steps.map (Value.field "id") = [.str "b", .str "b"] ∧ (nodes 0 steps).map (·.id) = ["b", "b"] := by
  refine ⟨by decide, [spelled "b" "click" [], spelled "b" "click" []], rfl, rfl, by decide⟩

end Workflow.Steps
