import Workflow.Proofs.Flow.Registration
import Workflow.Proofs.Run.Ledger
/-!
Flows exported and read again. A flow that was read of a description is exported without loss but for
names and entries that are vacant, and its export reads as a flow that is exported the same.
-/

namespace Workflow

namespace Entries

variable {α : Type}

theorem insert_ne_nil (key : String) (a : α) (es : Entries α) : insert key a es ≠ [] := by
  cases es with
  | nil => exact List.cons_ne_nil _ _
  | cons e es =>
    rw [insert]
    split <;> exact List.cons_ne_nil _ _

theorem update_ne_nil {es : Entries α} (h : es ≠ []) (others : Entries α) : update es others ≠ [] := by
  induction others generalizing es with
  | nil => exact h
  | cons e others ih => exact ih (insert_ne_nil e.1 e.2 es)

theorem ofList_ne_nil {es : Entries α} (h : es ≠ []) : ofList es ≠ [] := by
  cases es with
  | nil => exact absurd rfl h
  | cons e es => exact update_ne_nil (insert_ne_nil e.1 e.2 []) es

end Entries

namespace Double

theorem positionalText_ne_empty (digits : String) (exponent : Int) : positionalText digits exponent ≠ "" := by
  unfold positionalText
  split <;> simp [String.append_eq_empty_iff]

theorem scientificText_ne_empty (digits : String) (exponent : Int) :
    scientificText digits exponent ≠ "" := by
  simp [scientificText, String.append_eq_empty_iff]

theorem finiteText_ne_empty (x : Finite) : finiteText x ≠ "" := by
  unfold finiteText
  dsimp only
  split
  · simp [String.append_eq_empty_iff]
  · rw [ne_eq, String.append_eq_empty_iff]
    rintro ⟨-, h⟩
    split at h
    · exact positionalText_ne_empty _ _ h
    · exact scientificText_ne_empty _ _ h

theorem text_ne_empty (x : Float) : text x ≠ "" := by
  unfold text
  split
  · exact finiteText_ne_empty _
  · split
    · decide
    · split <;> decide

end Double

theorem natRepr_ne_empty (n : Nat) : n.repr ≠ "" := by
  rw [Nat.repr, ne_eq, String.ofList_eq_empty_iff]
  exact List.ne_nil_of_length_pos Nat.length_toDigits_pos

namespace Value

variable {v w : Value} {key : String} {entries : Entries Value}

/-- What is not vacant has a name that is not empty. -/
theorem name_ne_empty (h : v.isVacant = false) : v.name ≠ "" := by
  cases v with
  | undefined | null => cases h
  | bool b => cases b <;> decide
  | num n =>
    cases n with
    | int n =>
      cases n with
      | ofNat n => exact natRepr_ne_empty n
      | negSucc n =>
        show "-" ++ (n + 1).repr ≠ ""
        simp [String.append_eq_empty_iff]
    | float x => exact Double.text_ne_empty x
  | str s =>
    rintro rfl
    cases h
  | list items => simp [name, shown, String.append_eq_empty_iff]
  | obj fields => simp [name, shown, String.append_eq_empty_iff]

/-- Looking up a field where some are left out. -/
theorem field?_ofFields {fields : List (String × Option Value)} (hn : (fields.map (·.1)).Nodup)
    (key : String) : (ofFields fields).field? key = (Entries.find? key fields).join := by
  show Entries.find? key (fields.filterMap fun f => f.2.map (f.1, ·)) = _
  induction fields with
  | nil => rfl
  | cons f fields ih =>
    obtain ⟨name, w⟩ := f
    obtain ⟨hname, hrest⟩ := List.nodup_cons.mp hn
    rw [Entries.find?]
    cases w with
    | none =>
      -- The key of a field that is left out is not bound further on.
      rw [List.filterMap_cons_none rfl, ih hrest]
      split
      · rename_i hk
        rw [beq_iff_eq] at hk
        subst hk
        rw [Entries.find?_eq_none_iff.mpr hname]
        rfl
      · rfl
    | some w =>
      show Entries.find? key ((name, w) :: fields.filterMap fun f => f.2.map (f.1, ·)) = _
      rw [Entries.find?]
      split
      · rfl
      · exact ih hrest

theorem require_eq_ok (h : v.field? key = some w) : v.require key = .ok w := by
  cases v with
  | obj fields =>
    rw [field?] at h
    rw [require, h]
  | _ => cases h

theorem toFieldsOrNone_obj (entries : Entries Value) : (obj entries).toFieldsOrNone = .ok entries := by
  cases entries <;> rfl

theorem iterate_orElse_list (items : List Value) :
    ((list items).orElse (list [])).iterate = .ok items := by
  cases items <;> rfl

theorem pairs_ne_nil {index : Nat} {items : List Value} (hi : items ≠ [])
    (h : pairs index items = .ok entries) : entries ≠ [] := by
  cases items with
  | nil => exact absurd rfl hi
  | cons v rest =>
    obtain ⟨e, -, h⟩ := bind_ok h
    obtain ⟨es, -, h⟩ := bind_ok h
    cases h
    exact List.cons_ne_nil e es

/-- What is not vacant and can be read as fields has some. A text cannot: its characters are no pairs. -/
theorem toFields_ne_nil (hv : v.isVacant = false) (h : v.toFields = .ok entries) : entries ≠ [] := by
  cases v with
  | obj fields =>
    cases h
    rintro rfl
    cases hv
  | list items =>
    obtain ⟨es, hes, h⟩ := bind_ok (x := pairs 0 items) h
    cases h
    refine Entries.ofList_ne_nil (pairs_ne_nil ?_ hes)
    rintro rfl
    cases hv
  | str s =>
    obtain ⟨es, hes, h⟩ := bind_ok (x := pairs 0 (s.toList.map fun c => str (String.singleton c))) h
    cases hs : s.toList with
    | nil =>
      rw [String.toList_eq_nil_iff] at hs
      subst hs
      cases hv
    | cons c cs =>
      rw [hs, List.map_cons] at hes
      obtain ⟨e, he, -⟩ := bind_ok hes
      rw [pair, iterate?, String.toList_singleton] at he
      cases he
  | _ => cases h

/-- The version of the description is absent, null or a whole number. -/
def HasWholeVersion (d : Value) : Prop :=
  d.field "version" = .null ∨ ∃ n, d.field "version" = .int n

end Value

open Value

theorem policyOf_ne_nil {v : Value} {policy : Option (Entries Value)} (h : policyOf v = .ok policy) :
    policy ≠ some [] := by
  unfold policyOf at h
  split at h
  · cases h
    exact nofun
  · rename_i hv
    obtain ⟨entries, he, rfl⟩ := map_ok h
    exact fun hp => toFields_ne_nil (Bool.eq_false_of_not_eq_true hv) he (Option.some.inj hp)

/-- A policy that is not empty is read as it is exported. -/
theorem policyOf_map_obj {policy : Option (Entries Value)} (h : policy ≠ some []) :
    policyOf ((policy.map obj).getD .null) = .ok policy := by
  match policy with
  | none => rfl
  | some [] => exact absurd rfl h
  | some (_ :: _) => rfl

theorem isVacant_orElse_null (v : Value) : (v.orElse .null).isVacant = v.isVacant := by
  unfold Value.orElse
  split
  · exact Eq.symm ‹_›
  · rfl

theorem given_orElse_null (v : Value) :
    (if (v.orElse .null).isVacant then none else some (v.orElse .null)) =
      if v.isVacant then none else some v := by
  rw [isVacant_orElse_null]
  split
  · rfl
  · rw [Value.orElse, if_neg ‹_›]

/-- A field that is left out if vacant is read as null then. -/
theorem getD_given (v : Value) : (if v.isVacant then none else some v).getD .null = v.orElse .null := by
  unfold Value.orElse
  split <;> rfl

namespace Node

/-- The node as its export is read: a vacant name becomes null. -/
def plain (n : Node) : Node :=
  { n with name := n.name.orElse .null }

theorem toValue_plain (n : Node) : n.plain.toValue = n.toValue := by
  unfold toValue plain
  dsimp only
  rw [given_orElse_null]

/-- The fields of an exported node. -/
theorem field?_toValue (n : Node) (key : String) : n.toValue.field? key =
    (Entries.find? key [
      ("id", some (.str n.id)),
      ("kind", some (.str n.kind)),
      ("config", some (.obj n.config)),
      ("policy", n.policy.map .obj),
      ("disabled", if n.disabled then some (.bool true) else none),
      ("name", if n.name.isVacant then none else some n.name)]).join :=
  field?_ofFields (by simp) key

theorem ofValue_toValue {n : Node} (h : n.policy ≠ some []) : ofValue n.toValue = .ok n.plain := by
  have hid : n.toValue.require "id" = .ok (.str n.id) := require_eq_ok (field?_toValue n "id")
  have hkind : firstName n.toValue "kind" "type" = n.kind := by
    have hk : n.toValue.field "kind" = .str n.kind := by rw [field, field?_toValue]; rfl
    have ht : n.toValue.field "type" = .null := by rw [field, field?_toValue]; rfl
    rw [firstName, hk, ht]
    by_cases he : n.kind = ""
    · rw [he]
      rfl
    · have hv : (Value.str n.kind).isVacant = false := by simpa [Value.isVacant] using he
      simp [Value.orElse, hv, Value.name]
  have hconfig : (n.toValue.field "config").toFieldsOrNone = .ok n.config := by
    rw [field, field?_toValue]
    exact toFieldsOrNone_obj n.config
  have hpolicy : policyOf (n.toValue.field "policy") = .ok n.policy := by
    rw [field, field?_toValue]
    exact policyOf_map_obj h
  have hdisabled : (!(n.toValue.field "disabled").isVacant) = n.disabled := by
    rw [field, field?_toValue]
    show (!((if n.disabled then some (Value.bool true) else none).getD .null).isVacant) = n.disabled
    cases n.disabled <;> rfl
  have hname : n.toValue.field "name" = n.name.orElse .null := by
    rw [field, field?_toValue]
    exact getD_given n.name
  simp only [ofValue, hid, hkind, hconfig, hpolicy, hdisabled, hname, bind, Except.bind, pure, Except.pure]
  rfl

/-- A node that was read has no empty policy. -/
theorem ofValue_policy {v : Value} {n : Node} (h : ofValue v = .ok n) : n.policy ≠ some [] := by
  obtain ⟨id, -, h⟩ := bind_ok h
  obtain ⟨config, -, h⟩ := bind_ok h
  obtain ⟨policy, hp, h⟩ := bind_ok h
  cases h
  exact policyOf_ne_nil hp

end Node

namespace Edge

/-- The edge has an id and a label. -/
structure IsNamed (e : Edge) : Prop where
  id : e.id ≠ ""
  label : e.label ≠ ""

theorem defaultId_ne_empty (index : Nat) (source target : String) : defaultId index source target ≠ "" := by
  simp [defaultId, String.append_eq_empty_iff]

/-- Whatever is described, the edge that is read has an id and a label. -/
theorem ofValue_isNamed {index : Nat} {v : Value} {e : Edge} (h : ofValue index v = .ok e) :
    e.IsNamed := by
  unfold ofValue at h
  split at h
  · cases h
  · cases h
    constructor
    · dsimp only
      split
      · exact defaultId_ne_empty _ _ _
      · exact name_ne_empty (Bool.eq_false_of_not_eq_true ‹_›)
    · dsimp only
      split
      · decide
      · exact name_ne_empty (Bool.eq_false_of_not_eq_true ‹_›)

theorem ofValues_isNamed {index : Nat} {items : List Value} {edges : List Edge}
    (h : ofValues index items = .ok edges) : ∀ e ∈ edges, e.IsNamed := by
  induction items generalizing index edges with
  | nil =>
    cases h
    exact nofun
  | cons v rest ih =>
    obtain ⟨e, he, h⟩ := bind_ok h
    obtain ⟨es, hes, h⟩ := bind_ok h
    cases h
    exact List.forall_mem_cons.mpr ⟨ofValue_isNamed he, ih hes⟩

/-- The place of an edge does not matter once it has an id. -/
theorem ofValue_toValue {e : Edge} (h : e.IsNamed) (index : Nat) : ofValue index e.toValue = .ok e := by
  have hid : (Value.str e.id).isVacant = false := by simpa [Value.isVacant] using h.id
  have hlabel : (Value.str e.label).isVacant = false := by simpa [Value.isVacant] using h.label
  show Except.ok (Edge.mk (if (Value.str e.id).isVacant then _ else e.id) e.source e.target
    (if (Value.str e.label).isVacant then _ else e.label)) = _
  simp only [hid, hlabel]
  rfl

theorem ofValues_toValue {edges : List Edge} (h : ∀ e ∈ edges, e.IsNamed) (index : Nat) :
    ofValues index (edges.map toValue) = .ok edges := by
  induction edges generalizing index with
  | nil => rfl
  | cons e edges ih =>
    obtain ⟨he, h⟩ := List.forall_mem_cons.mp h
    rw [List.map_cons, ofValues, ofValue_toValue he, ih h]
    rfl

end Edge

namespace Flow

/-- Reading puts no default in the place of anything in the flow, apart from the flows inside it. -/
structure IsDefinite (f : Flow) : Prop where
  nodes : ∀ n ∈ f.nodes, n.policy ≠ some []
  edges : ∀ e ∈ f.edges, e.IsNamed
  policy : f.policy ≠ some []
  version : f.version ≠ 0

/-- A flow that its export describes at every depth. -/
inductive IsExportable : Flow → Prop
  | intro (f : Flow) (own : f.IsDefinite) (inside : ∀ entry ∈ f.subflows, IsExportable entry.2) :
    IsExportable f

mutual

/-- The flow as its export is read: at every depth names and entries that are vacant become null. -/
def plain : Flow → Flow
  | ⟨id, nodes, edges, vars, entry, subflows, policy, name, version⟩ =>
    ⟨id, nodes.map Node.plain, edges, vars, entry.orElse .null, plainEntries subflows, policy,
      name.orElse .null, version⟩

def plainEntries : List (String × Flow) → List (String × Flow)
  | [] => []
  | (key, f) :: rest => (key, plain f) :: plainEntries rest

end

theorem plainEntries_isEmpty (subflows : List (String × Flow)) :
    (plainEntries subflows).isEmpty = subflows.isEmpty := by
  cases subflows <;> rfl

mutual

/-- Nothing that is exported tells the two apart. -/
theorem toValue_plain : (f : Flow) → f.plain.toValue = f.toValue
  | ⟨id, nodes, edges, vars, entry, subflows, policy, name, version⟩ => by
    have hnodes : (nodes.map Node.plain).map Node.toValue = nodes.map Node.toValue := by
      rw [List.map_map]
      exact List.map_congr_left fun n _ => n.toValue_plain
    rw [plain, toValue, toValue, hnodes, given_orElse_null, given_orElse_null, plainEntries_isEmpty,
      subflowValues_plainEntries]

theorem subflowValues_plainEntries : (subflows : List (String × Flow)) →
    subflowValues (plainEntries subflows) = subflowValues subflows
  | [] => rfl
  | (key, f) :: rest => by
    rw [plainEntries, subflowValues, subflowValues, toValue_plain f, subflowValues_plainEntries rest]

end

/-- The fields of an exported flow. -/
theorem field?_toValue (f : Flow) (key : String) : f.toValue.field? key =
    (Entries.find? key [
      ("id", some (.str f.id)),
      ("version", some (.int f.version)),
      ("nodes", some (.list (f.nodes.map Node.toValue))),
      ("edges", some (.list (f.edges.map Edge.toValue))),
      ("variables", some (.obj f.vars)),
      ("name", if f.name.isVacant then none else some f.name),
      ("entryNodeId", if f.entry.isVacant then none else some f.entry),
      ("policy", f.policy.map .obj),
      ("subflows", if f.subflows.isEmpty then none else some (.obj (subflowValues f.subflows)))]).join := by
  cases f
  rw [toValue]
  exact field?_ofFields (by simp) key

theorem toValue_eq_obj (f : Flow) : ∃ fields, f.toValue = .obj fields := by
  cases f
  rw [toValue]
  exact ⟨_, rfl⟩

theorem mapM_toValue {nodes : List Node} (h : ∀ n ∈ nodes, n.policy ≠ some []) :
    (nodes.map Node.toValue).mapM Node.ofValue = .ok (nodes.map Node.plain) := by
  induction nodes with
  | nil => rfl
  | cons n nodes ih =>
    obtain ⟨hn, h⟩ := List.forall_mem_cons.mp h
    rw [List.map_cons, List.mapM_cons, Node.ofValue_toValue hn, ih h]
    rfl

theorem headOf_toValue {f : Flow} (h : f.IsDefinite) (fallback : Option String) :
    headOf f.toValue fallback = .ok {
      id := f.id, nodes := f.nodes.map Node.plain, edges := f.edges, vars := f.vars
      entry := f.entry.orElse .null } := by
  have hid : f.toValue.field? "id" = some (.str f.id) := field?_toValue f "id"
  have hnodes : ((f.toValue.field "nodes").orElse (.list [])).iterate =
      .ok (f.nodes.map Node.toValue) := by
    rw [field, field?_toValue]
    exact iterate_orElse_list _
  have hedges : ((f.toValue.field "edges").orElse (.list [])).iterate =
      .ok (f.edges.map Edge.toValue) := by
    rw [field, field?_toValue]
    exact iterate_orElse_list _
  have hvars : (f.toValue.field "variables").toFieldsOrNone = .ok f.vars := by
    rw [field, field?_toValue]
    exact toFieldsOrNone_obj f.vars
  have hentry : (f.toValue.field "entryNodeId").orElse (f.toValue.field "entry_node_id") =
      f.entry.orElse .null := by
    have hg : f.toValue.field "entryNodeId" = f.entry.orElse .null := by
      rw [field, field?_toValue]
      exact getD_given f.entry
    have hn : f.toValue.field "entry_node_id" = .null := by
      rw [field, field?_toValue]
      rfl
    rw [hg, hn]
    unfold Value.orElse
    split <;> rfl
  simp only [headOf, hid, hnodes, hedges, hvars, hentry, mapM_toValue h.nodes,
    Edge.ofValues_toValue h.edges, bind, Except.bind, pure, Except.pure]
  rfl

theorem versionOf_toValue {f : Flow} (h : f.version ≠ 0) : versionOf f.toValue = .ok f.version := by
  have hf : f.toValue.field "version" = .int f.version := by
    rw [field, field?_toValue]
    rfl
  have hv : (Value.int f.version).isVacant = false := by simpa [Value.isVacant, Number.isZero] using h
  rw [versionOf, hf, if_neg (by simp [hv])]
  rfl

theorem readSubflowsIn_eq (fields : List (String × Value)) : readSubflowsIn fields =
    match Entries.find? "subflows" fields with
    | none => .ok []
    | some v => readSubflows v := by
  induction fields with
  | nil => rw [readSubflowsIn, Entries.find?]
  | cons field rest ih =>
    rw [readSubflowsIn, Entries.find?]
    split
    · rfl
    · exact ih

theorem readEntries_subflowValues {subflows : List (String × Flow)}
    (h : ∀ entry ∈ subflows, ∀ fallback, read fallback entry.2.toValue = .ok entry.2.plain) :
    readEntries (subflowValues subflows) = .ok (plainEntries subflows) := by
  induction subflows with
  | nil => rw [subflowValues, readEntries, plainEntries]
  | cons entry rest ih =>
    obtain ⟨hentry, h⟩ := List.forall_mem_cons.mp h
    rw [subflowValues, readEntries, hentry, ih h]
    rfl

/-- Its export reads as the flow, by induction on its depth. -/
theorem IsExportable.read_toValue {f : Flow} (h : f.IsExportable) (fallback : Option String) :
    read fallback f.toValue = .ok f.plain := by
  induction h generalizing fallback with
  | intro f own inside ih =>
    obtain ⟨fields, hv⟩ := toValue_eq_obj f
    have hsub : readSubflowsIn fields = .ok (plainEntries f.subflows) := by
      have hf : Entries.find? "subflows" fields = f.toValue.field? "subflows" := by rw [hv, field?]
      rw [readSubflowsIn_eq, hf, field?_toValue]
      show (match if f.subflows.isEmpty then none else some (Value.obj (subflowValues f.subflows)) with
        | none => Except.ok []
        | some v => readSubflows v) = _
      cases he : f.subflows with
      | nil => rfl
      | cons entry rest =>
        rw [← he, if_neg (by simp [he])]
        exact readEntries_subflowValues ih
    have hpolicy : policyOf (f.toValue.field "policy") = .ok f.policy := by
      rw [field, field?_toValue]
      exact policyOf_map_obj own.policy
    have hname : f.toValue.field "name" = f.name.orElse .null := by
      rw [field, field?_toValue]
      exact getD_given f.name
    rw [hv, read, ← hv]
    simp only [headOf_toValue own, hsub, hpolicy, hname, versionOf_toValue own.version, bind,
      Except.bind, pure, Except.pure]
    cases f
    rw [plain]

theorem mapM_policy {items : List Value} {nodes : List Node} (h : items.mapM Node.ofValue = .ok nodes) :
    ∀ n ∈ nodes, n.policy ≠ some [] := by
  induction items generalizing nodes with
  | nil =>
    cases h
    exact nofun
  | cons v rest ih =>
    rw [List.mapM_cons] at h
    obtain ⟨n, hn, h⟩ := bind_ok h
    obtain ⟨ns, hns, h⟩ := bind_ok h
    cases h
    exact List.forall_mem_cons.mpr ⟨Node.ofValue_policy hn, ih hns⟩

theorem headOf_definite {v : Value} {fallback : Option String} {head : Flow}
    (h : headOf v fallback = .ok head) :
    (∀ n ∈ head.nodes, n.policy ≠ some []) ∧ ∀ e ∈ head.edges, e.IsNamed := by
  unfold headOf at h
  split at h
  case h_3 => cases h
  -- Where the id is from does not matter.
  all_goals
    obtain ⟨id, -, h⟩ := bind_ok h
    obtain ⟨items, -, h⟩ := bind_ok h
    obtain ⟨nodes, hn, h⟩ := bind_ok h
    obtain ⟨items, -, h⟩ := bind_ok h
    obtain ⟨edges, he, h⟩ := bind_ok h
    obtain ⟨vars, -, h⟩ := bind_ok h
    cases h
    exact ⟨mapM_policy hn, Edge.ofValues_isNamed he⟩

theorem version_ne_zero {v : Value} {n : Int} (hv : v.HasWholeVersion) (h : versionOf v = .ok n) :
    n ≠ 0 := by
  rw [versionOf] at h
  split at h
  · cases h
    decide
  · rename_i hvac
    rcases hv with hv | ⟨m, hv⟩
    · rw [hv] at hvac
      exact absurd rfl hvac
    · rw [hv] at h hvac
      cases h
      rintro rfl
      exact hvac rfl

mutual

/-- What is read of a description with whole versions is exportable, at every depth. -/
theorem read_exportable : (fallback : Option String) → (v : Value) →
    (∀ d, v.Describes d → d.HasWholeVersion) → ∀ {f : Flow}, read fallback v = .ok f → f.IsExportable
  | fallback, .obj fields, hv, f, h => by
    rw [read] at h
    obtain ⟨head, hhead, h⟩ := bind_ok h
    obtain ⟨subflows, hsub, h⟩ := bind_ok h
    obtain ⟨policy, hpolicy, h⟩ := bind_ok h
    obtain ⟨version, hversion, h⟩ := bind_ok h
    cases h
    obtain ⟨hnodes, hedges⟩ := headOf_definite hhead
    refine .intro _ ⟨hnodes, hedges, policyOf_ne_nil hpolicy, version_ne_zero (hv _ (.self _)) hversion⟩ ?_
    exact readSubflowsIn_exportable fields (fun entries hf e he d hd => hv d (.sub hf he hd)) hsub
  | none, .undefined, _, _, h | none, .null, _, _, h | none, .bool _, _, _, h | none, .num _, _, _, h
  | none, .str _, _, _, h | none, .list _, _, _, h => nomatch h
  | some _, .undefined, _, _, h | some _, .null, _, _, h | some _, .bool _, _, _, h
  | some _, .num _, _, _, h | some _, .str _, _, _, h | some _, .list _, _, _, h => nomatch h

theorem readSubflowsIn_exportable : (fields : List (String × Value)) →
    (∀ entries, Entries.find? "subflows" fields = some (.obj entries) →
      ∀ e ∈ entries, ∀ d, e.2.Describes d → d.HasWholeVersion) →
    ∀ {subflows : List (String × Flow)}, readSubflowsIn fields = .ok subflows →
      ∀ entry ∈ subflows, entry.2.IsExportable
  | [], _, _, h => by
    rw [readSubflowsIn] at h
    cases h
    exact nofun
  | (key, v) :: rest, hv, _, h => by
    rw [readSubflowsIn] at h
    rw [Entries.find?] at hv
    split at h
    · exact readSubflows_exportable v (fun entries he => hv entries ((if_pos ‹_›).trans (congrArg some he))) h
    · exact readSubflowsIn_exportable rest (fun entries he => hv entries ((if_neg ‹_›).trans he)) h

theorem readSubflows_exportable : (v : Value) →
    (∀ entries, v = .obj entries → ∀ e ∈ entries, ∀ d, e.2.Describes d → d.HasWholeVersion) →
    ∀ {subflows : List (String × Flow)}, readSubflows v = .ok subflows →
      ∀ entry ∈ subflows, entry.2.IsExportable
  | .obj entries, hv, _, h => by
    rw [readSubflows] at h
    exact readEntries_exportable entries (hv entries rfl) h
  | .undefined, _, _, h | .null, _, _, h | .bool _, _, _, h | .num _, _, _, h | .str _, _, _, h
  | .list _, _, _, h => by
    rw [readSubflows] at h
    · split at h
      · cases h
        exact nofun
      · cases h
    · rintro _ ⟨⟩

theorem readEntries_exportable : (entries : List (String × Value)) →
    (∀ e ∈ entries, ∀ d, e.2.Describes d → d.HasWholeVersion) →
    ∀ {subflows : List (String × Flow)}, readEntries entries = .ok subflows →
      ∀ entry ∈ subflows, entry.2.IsExportable
  | [], _, _, h => by
    rw [readEntries] at h
    cases h
    exact nofun
  | (key, v) :: rest, hv, _, h => by
    rw [readEntries] at h
    obtain ⟨f, hf, h⟩ := bind_ok h
    obtain ⟨fs, hfs, h⟩ := bind_ok h
    cases h
    obtain ⟨hv, hrest⟩ := List.forall_mem_cons.mp hv
    exact List.forall_mem_cons.mpr
      ⟨read_exportable (some key) v hv hf, readEntries_exportable rest hrest hfs⟩

end

/-- Whatever description a flow was read of, in which versions are whole numbers where they are given,
the export of the flow is read again, as the flow with null for the names and entries that are vacant,
and exported once more it is the same: ids, orders, edges, labels, configs, policies and all else, at
every depth. -/
theorem wire_stable {v : Value} {f : Flow} (hv : ∀ d, v.Describes d → d.HasWholeVersion)
    (h : ofValue v = .ok f) :
    ∃ g : Flow, ofValue f.toValue = .ok g ∧ g.toValue = f.toValue ∧ g = f.plain :=
  ⟨f.plain, (read_exportable none v hv h).read_toValue none, toValue_plain f, rfl⟩

/-- A description with vacant names, an edge without an id, a policy in pairs and a version of zero in a
sub-flow that names no id. -/
def sparse : Value := .obj [
  ("id", .str "f"),
  ("nodes", .list [
    .obj [("id", .str "a"), ("type", .str "log"), ("disabled", .str "yes"),
      ("policy", .list [.list [.str "onError", .str "continue"]])],
    .obj [("id", .str "b"), ("kind", .str "log"), ("name", .str "")]]),
  ("edges", .list [.obj [("source", .str "a"), ("to", .str "b"), ("label", .bool false)]]),
  ("entry_node_id", .str "a"),
  ("subflows", .obj [("inner", .obj [("version", .int 0), ("name", .list [])])])]

/-- What is read of it. -/
def sparseFlow : Flow where
  id := "f"
  nodes := [
    { id := "a", kind := "log", policy := some [("onError", .str "continue")], disabled := true },
    { id := "b", kind := "log", name := .str "" }]
  edges := [{ id := "e_0_a_b", source := "a", target := "b", label := "default" }]
  entry := .str "a"
  subflows := [("inner", { id := "inner", nodes := [], name := .list [] })]

theorem wire_stable_sparse : (∀ d, sparse.Describes d → d.HasWholeVersion) ∧
    ofValue sparse = .ok sparseFlow ∧
    ∃ g : Flow, ofValue sparseFlow.toValue = .ok g ∧ g.toValue = sparseFlow.toValue ∧
      g.edges = sparseFlow.edges := by
  have hv : ∀ d, sparse.Describes d → d.HasWholeVersion := by
    intro d hd
    cases hd with
    | self => exact .inl rfl
    | sub hf hm hd =>
      cases hf
      rw [List.mem_singleton] at hm
      cases hm
      cases hd with
      | self => exact .inr ⟨0, rfl⟩
      | sub hf => cases hf
  have h : ofValue sparse = .ok sparseFlow := rfl
  obtain ⟨g, hg, he, hp⟩ := wire_stable hv h
  exact ⟨hv, h, g, hg, he, hp ▸ rfl⟩

/-- A version in text may be the number zero, which is exported but read as no version. -/
example : ∃ f g : Flow, ofValue (.obj [("id", .str "f"), ("version", .str "0")]) = .ok f ∧
    ofValue f.toValue = .ok g ∧ f.version = 0 ∧ g.version = 1 :=
  ⟨_, _, rfl, rfl, rfl, rfl⟩

end Flow

end Workflow
