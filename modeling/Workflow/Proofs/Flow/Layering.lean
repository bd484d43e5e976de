import Workflow.Proofs.Flow.Wire
/-!
The layers of a failure policy. They are merged by their keys, before the spellings of a field are told
apart: a field of the node's layer is laid over the flow's unless the flow spells it in a way that is
looked for first.
-/

namespace Workflow.Policy

open Entries

/-- The spellings of each field, those that are looked for first coming first. -/
def spellings : List (List String) := [
  ["onError", "on_error"],
  ["backoff"],
  ["fallback"],
  ["retries", "maxRetries", "max_retries"],
  ["timeoutMs", "timeout_ms"],
  ["backoffMs", "backoff_ms"],
  ["maxBackoffMs", "max_backoff_ms"],
  ["retryOn", "retry_on"]]

/-- Keys that are the same, or spell the same field. -/
def SameField (a b : String) : Prop :=
  a = b ∨ ∃ names ∈ spellings, a ∈ names ∧ b ∈ names

instance (a b : String) : Decidable (SameField a b) :=
  inferInstanceAs (Decidable (a = b ∨ ∃ names ∈ spellings, a ∈ names ∧ b ∈ names))

/-- A layer that gives each field at most once, and not as null. -/
structure IsPlain (layer : Entries Value) : Prop where
  once : layer.Pairwise fun e f => ¬SameField e.1 f.1
  given : ∀ names ∈ spellings, ∀ e ∈ layer, e.1 ∈ names → e.2.isNull = false

/-- The same layer in other accepted spellings. -/
def Respells (layer other : Entries Value) : Prop :=
  List.Forall₂ (fun e f => SameField e.1 f.1 ∧ e.2 = f.2) layer other

/-- Whether the flow spells a field in a way that is looked for before the node's. -/
def outranks (flow node : Entries Value) : List String → Bool
  | [] => false
  | key :: names => (contains key flow && names.any (contains · node)) || outranks flow node names

/-- What a flow's layer and a node's over it give for a field. -/
def laid (flow node : Entries Value) (names : List String) : Option Value :=
  if outranks flow node names then pick flow names else (pick node names).or (pick flow names)

/-- The layer of a flow or a node, which may have none. -/
def layerOf (policy : Option (Entries Value)) : Value := (policy.map Value.obj).getD .null

variable {a b key : String} {names : List String} {v : Value} {settings : Settings}
variable {layer other flow node given : Entries Value}

/-! The fields and their spellings. -/

theorem spellings_nodup : ∀ names ∈ spellings, names.Nodup := by
  decide

theorem spellings_disjoint :
    ∀ names ∈ spellings, ∀ others ∈ spellings, ∀ key ∈ names, key ∈ others → names = others := by
  decide

namespace SameField

theorem symm (h : SameField a b) : SameField b a :=
  h.imp Eq.symm fun ⟨names, hm, ha, hb⟩ => ⟨names, hm, hb, ha⟩

theorem mem (h : SameField a b) (hn : names ∈ spellings) (ha : a ∈ names) : b ∈ names := by
  obtain rfl | ⟨others, ho, hao, hb⟩ := h
  · exact ha
  · rw [spellings_disjoint names hn others ho a ha hao]
    exact hb

theorem trans {c : String} (h : SameField a b) (h' : SameField b c) : SameField a c := by
  obtain rfl | ⟨names, hn, ha, hb⟩ := h
  · exact h'
  · exact .inr ⟨names, hn, ha, h'.mem hn hb⟩

end SameField

/-! Layers that give each field at most once. -/

namespace IsPlain

theorem nodup_keys (h : IsPlain layer) : (keys layer).Nodup :=
  List.pairwise_map.mpr (h.once.imp fun hne he => hne (.inl he))

theorem find?_isNull (h : IsPlain layer) (hn : names ∈ spellings) (hk : key ∈ names)
    (hv : find? key layer = some v) : v.isNull = false :=
  h.given names hn (key, v) (mem_of_find? hv) hk

theorem eq_of_mem (h : IsPlain layer) (hn : names ∈ spellings) (ha : a ∈ names) (hb : b ∈ names)
    (hal : contains a layer) (hbl : contains b layer) : a = b := by
  obtain ⟨e, he, rfl⟩ := List.mem_map.mp (contains_iff.mp hal)
  obtain ⟨f, hf, rfl⟩ := List.mem_map.mp (contains_iff.mp hbl)
  by_contra hne
  have : Std.Symm fun x y : String × Value => ¬SameField x.1 y.1 := ⟨fun _ _ hxy h => hxy h.symm⟩
  exact h.once.forall he hf (fun hef => hne (congrArg (·.1) hef)) (.inr ⟨names, hn, ha, hb⟩)

/-- A field is what any of its spellings is bound to. -/
theorem pick_eq_some_iff (h : IsPlain layer) (hn : names ∈ spellings) :
    pick layer names = some v ↔ ∃ e ∈ layer, e.1 ∈ names ∧ e.2 = v := by
  constructor
  · intro hp
    obtain ⟨key, hk, hf⟩ := List.exists_of_findSome?_eq_some hp
    exact ⟨(key, v), mem_of_find? (Option.filter_eq_some_iff.mp hf).1, hk, rfl⟩
  · rintro ⟨⟨key, w⟩, he, hk, rfl⟩
    have hw : find? key layer = some w := (find?_eq_some_iff h.nodup_keys).mpr he
    obtain ⟨x, hx⟩ : ∃ x, pick layer names = some x := by
      rw [← Option.isSome_iff_exists, pick, List.findSome?_isSome_iff]
      exact ⟨key, hk, by rw [hw, Option.filter_some, h.find?_isNull hn hk hw]; rfl⟩
    -- What is found is found under a spelling that the layer has, and it has no second one.
    obtain ⟨key', hk', hf⟩ := List.exists_of_findSome?_eq_some hx
    have hx' : find? key' layer = some x := (Option.filter_eq_some_iff.mp hf).1
    obtain rfl : key = key' :=
      h.eq_of_mem hn hk hk' (by rw [contains, hw]; rfl) (by rw [contains, hx']; rfl)
    rw [hx, ← hx', hw]

end IsPlain

namespace Respells

/-- The entries of a field stay entries of the field. -/
theorem exists_iff (h : Respells layer other) (hn : names ∈ spellings) :
    (∃ e ∈ layer, e.1 ∈ names ∧ e.2 = v) ↔ ∃ e ∈ other, e.1 ∈ names ∧ e.2 = v := by
  induction h with
  | nil => rfl
  | @cons e f layer other hef _ ih =>
    have hkey : e.1 ∈ names ↔ f.1 ∈ names := ⟨hef.1.mem hn, hef.1.symm.mem hn⟩
    simp only [List.mem_cons, exists_eq_or_imp, hkey, hef.2, ih]

theorem apart (h : Respells layer other) {e f : String × Value} (he : SameField e.1 f.1)
    (hl : ∀ x ∈ layer, ¬SameField e.1 x.1) : ∀ x ∈ other, ¬SameField f.1 x.1 := by
  induction h with
  | nil => exact fun _ hx => nomatch hx
  | @cons x y layer other hxy _ ih =>
    intro z hz
    obtain rfl | hz := List.mem_cons.mp hz
    · exact fun hfz => hl x List.mem_cons_self ((he.trans hfz).trans hxy.1.symm)
    · exact ih (fun w hw => hl w (List.mem_cons_of_mem _ hw)) z hz

theorem isPlain (h : Respells layer other) (hl : IsPlain layer) : IsPlain other := by
  induction h with
  | nil => exact hl
  | @cons e f layer other hef hrest ih =>
    obtain ⟨hhead, htail⟩ := List.pairwise_cons.mp hl.once
    have hlayer : IsPlain layer :=
      ⟨htail, fun names hn x hx => hl.given names hn x (List.mem_cons_of_mem _ hx)⟩
    refine ⟨List.pairwise_cons.mpr ⟨apart hrest hef.1 hhead, (ih hlayer).once⟩, fun names hn x hx hk => ?_⟩
    obtain rfl | hx := List.mem_cons.mp hx
    · rw [← hef.2]
      exact hl.given names hn e List.mem_cons_self (hef.1.symm.mem hn hk)
    · exact (ih hlayer).given names hn x hx hk

theorem pick_eq (h : Respells layer other) (hl : IsPlain layer) (hn : names ∈ spellings) :
    pick other names = pick layer names := by
  refine Option.ext fun v => ?_
  rw [(h.isPlain hl).pick_eq_some_iff hn, hl.pick_eq_some_iff hn, h.exists_iff hn]

end Respells

/-! A layer over another one. -/

theorem pick_cons (layer : Entries Value) (key : String) (names : List String) :
    pick layer (key :: names) = ((find? key layer).filter (!·.isNull)).or (pick layer names) := by
  rw [pick, List.findSome?_cons]
  cases (find? key layer).filter (!·.isNull) <;> rfl

theorem pick_eq_none (h : names.any (contains · layer) = false) : pick layer names = none := by
  refine List.findSome?_eq_none_iff.mpr fun key hk => ?_
  have hc : (find? key layer).isSome = false :=
    Bool.eq_false_of_not_eq_true (List.any_eq_false.mp h key hk)
  rw [Option.isNone_iff_eq_none.mp (Option.isSome_eq_false_iff.mp hc), Option.filter_none]

/-- What a merged layer gives under one spelling. -/
theorem find?_merged (hf : (keys flow).Nodup) (hn : (keys node).Nodup) (key : String) :
    find? key (update (update [] flow) node) = (find? key node).or (find? key flow) := by
  rw [find?_update hn, find?_update hf]
  cases find? key flow <;> rfl

theorem outranks_eq_false (flow : Entries Value) (h : names.any (contains · node) = false) :
    outranks flow node names = false := by
  induction names with
  | nil => rfl
  | cons key names ih =>
    rw [List.any_cons, Bool.or_eq_false_iff] at h
    rw [outranks, ih h.2, h.2, Bool.and_false, Bool.or_false]

theorem filter_isNull (h : ∀ v ∈ find? key layer, v.isNull = false) :
    (find? key layer).filter (!·.isNull) = find? key layer := by
  cases hv : find? key layer with
  | none => rfl
  | some v => rw [Option.filter_some, h v hv]; rfl

/-- The spellings are gone through in order, the node's value lying over the flow's under each. The
spellings left to go through are `rest`. -/
theorem pick_merged_of_subset (hf : IsPlain flow) (hnode : IsPlain node) (hn : names ∈ spellings)
    {rest : List String} (hnodup : rest.Nodup) (hsub : rest ⊆ names) :
    pick (update (update [] flow) node) rest = laid flow node rest := by
  induction rest with
  | nil => rfl
  | cons key rest ih =>
    obtain ⟨hkey, hnodup⟩ := List.nodup_cons.mp hnodup
    obtain ⟨hk, hsub⟩ := List.cons_subset.mp hsub
    have hvf := filter_isNull fun v hv => hf.find?_isNull hn hk hv
    have hvn := filter_isNull fun v hv => hnode.find?_isNull hn hk hv
    have hmerged : (find? key (update (update [] flow) node)).filter (!·.isNull) =
        (find? key node).or (find? key flow) := by
      rw [find?_merged hf.nodup_keys hnode.nodup_keys]
      cases hv : find? key node with
      | none => exact hvf
      | some v => rwa [hv] at hvn
    rw [pick_cons, hmerged, ih hnodup hsub, laid, laid, pick_cons flow, hvf, pick_cons node, hvn, outranks]
    cases hv : find? key node with
    | some v =>
      -- The node spells the field so, hence in no other way.
      have hlater : rest.any (contains · node) = false := by
        refine List.any_eq_false.mpr fun b hb hc => hkey ?_
        rwa [hnode.eq_of_mem hn hk (hsub hb) (by rw [contains, hv]; rfl) hc]
      rw [outranks_eq_false flow hlater, hlater, Bool.and_false]
      rfl
    | none =>
      cases hw : find? key flow with
      | none =>
        have hc : contains key flow = false := by rw [contains, hw]; rfl
        rw [hc]
        rfl
      | some w =>
        have hc : contains key flow = true := by rw [contains, hw]; rfl
        cases hlater : rest.any (contains · node) with
        | true => rw [hc]; rfl
        | false =>
          rw [outranks_eq_false flow hlater, pick_eq_none hlater, Bool.and_false]
          rfl

theorem pick_merged (hf : IsPlain flow) (hnode : IsPlain node) (hn : names ∈ spellings) :
    pick (update (update [] flow) node) names = laid flow node names :=
  pick_merged_of_subset hf hnode hn (spellings_nodup names hn) (List.Subset.refl names)

/-! What a policy is read off. -/

/-- A policy is read off its fields, and these only. -/
theorem ofFields_congr (settings : Settings)
    (h : ∀ names ∈ spellings, pick given names = pick layer names) :
    ofFields settings given = ofFields settings layer := by
  simp only [spellings, List.forall_mem_cons] at h
  obtain ⟨h₁, h₂, h₃, h₄, h₅, h₆, h₇, h₈, -⟩ := h
  have hErr : onErrorOf given = onErrorOf layer := by rw [onErrorOf, h₁, onErrorOf]
  have hGrowth : growthOf given = growthOf layer := by rw [growthOf, h₂, growthOf]
  have hFall : fallbackOf given = fallbackOf layer := by rw [fallbackOf, h₃, fallbackOf]
  have hOn : retryOnOf given = retryOnOf layer := by rw [retryOnOf, h₈, retryOnOf]
  have hWhole (d : Nat) {names : List String} (hp : pick given names = pick layer names) :
      wholeOf given names d = wholeOf layer names d := by rw [wholeOf, hp, wholeOf]
  rw [ofFields, ofFields, hErr, hGrowth, hFall, hOn, hWhole _ h₄, hWhole _ h₅, hWhole _ h₆, hWhole _ h₇]

theorem toFieldsOrNone_layerOf (policy : Option (Entries Value)) :
    (layerOf policy).toFieldsOrNone = .ok (policy.getD []) := by
  cases policy with
  | none => rfl
  | some fields => exact Value.toFieldsOrNone_obj fields

theorem merge_layers (flow node : Option (Entries Value)) :
    merge ([flow, node].map layerOf) = .ok (update (update [] (flow.getD [])) (node.getD [])) := by
  simp only [merge, List.map_cons, List.map_nil, List.foldlM_cons, List.foldlM_nil, toFieldsOrNone_layerOf]
  rfl

theorem resolve_layers (settings : Settings) (flow node : Option (Entries Value)) :
    resolve settings ([flow, node].map layerOf) =
      ofFields settings (update (update [] (flow.getD [])) (node.getD [])) := by
  rw [resolve, merge_layers]
  rfl

/-- The policy of a flow's layer and a node's. Each field is the node's if it gives it, else the flow's,
else that of the settings, unless the flow's spelling of it outranks the node's: then it is the flow's.
Spelling a layer in another way makes no other difference. -/
theorem layers_settled (settings : Settings) (flow node : Option (Entries Value))
    (hflow : IsPlain (flow.getD [])) (hnode : IsPlain (node.getD [])) :
    (∃ merged, merge ([flow, node].map layerOf) = .ok merged ∧
      ∀ names ∈ spellings, pick merged names = laid (flow.getD []) (node.getD []) names) ∧
    (∀ given, (∀ names ∈ spellings, pick given names = laid (flow.getD []) (node.getD []) names) →
      resolve settings ([flow, node].map layerOf) = ofFields settings given) ∧
    ∀ flow' node', Respells (flow.getD []) (flow'.getD []) → Respells (node.getD []) (node'.getD []) →
      (∀ names ∈ spellings, outranks (flow'.getD []) (node'.getD []) names =
        outranks (flow.getD []) (node.getD []) names) →
      resolve settings ([flow', node'].map layerOf) = resolve settings ([flow, node].map layerOf) := by
  refine ⟨⟨_, merge_layers flow node, fun names hn => pick_merged hflow hnode hn⟩, fun given h => ?_,
    fun flow' node' hf hn hrank => ?_⟩
  · rw [resolve_layers]
    exact ofFields_congr settings fun names hn => (pick_merged hflow hnode hn).trans (h names hn).symm
  · rw [resolve_layers, resolve_layers]
    refine ofFields_congr settings fun names hm => ?_
    rw [pick_merged (hf.isPlain hflow) (hn.isPlain hnode) hm, pick_merged hflow hnode hm, laid, laid,
      hrank names hm, hf.pick_eq hflow hm, hn.pick_eq hnode hm]

/-- A flow that retries and a node that names its retries in another way: the number of retries is the
flow's, the wait between them the node's. -/
theorem layers_settled_retrying :
    let flow : Entries Value := [("onError", .str "retry"), ("retries", .int 1)]
    let node : Entries Value := [("max_retries", .int 3), ("backoff_ms", .int 10)]
    IsPlain flow ∧ IsPlain node ∧
      resolve {} ([some flow, some node].map layerOf) =
        .ok { onError := .retry, retries := 1, backoffMs := 10, maxBackoffMs := 30000 } := by
  intro flow node
  have hflow : IsPlain flow := ⟨by decide, by decide⟩
  have hnode : IsPlain node := ⟨by decide, by decide⟩
  obtain ⟨-, hgiven, -⟩ := layers_settled {} (some flow) (some node) hflow hnode
  refine ⟨hflow, hnode, ?_⟩
  rw [hgiven [("onError", .str "retry"), ("retries", .int 1), ("backoffMs", .int 10)] ?_]
  · rfl
  · simp only [spellings, List.forall_mem_cons]
    exact ⟨rfl, rfl, rfl, rfl, rfl, rfl, rfl, rfl, nofun⟩

/-- A node that stops on errors, over a flow that goes on: whether it stops depends on how it spells it. -/
theorem spelling_decides :
    let flow : Entries Value := [("onError", .str "continue")]
    let node : Entries Value := [("on_error", .str "stop")]
    let respelt : Entries Value := [("onError", .str "stop")]
    IsPlain flow ∧ IsPlain node ∧ Respells node respelt ∧
      (resolve {} ([some flow, some node].map layerOf)).map (·.onError) = .ok .continue ∧
      (resolve {} ([some flow, some respelt].map layerOf)).map (·.onError) = .ok .stop := by
  intro flow node respelt
  refine ⟨⟨by decide, by decide⟩, ⟨by decide, by decide⟩, .cons ⟨by decide, rfl⟩ .nil, ?_, ?_⟩
  · rfl
  · rfl

end Workflow.Policy
