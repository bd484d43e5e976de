import Workflow.Api.Service
import Workflow.Proofs.Run.Strain
import Workflow.Proofs.Value.Entries
/-!
Keeping flows that clients describe. Whatever a description holds, it becomes a flow without problems
that is kept, or it is refused and no flow is changed; only four slips in a description, at any depth of
its sub-flows, are told as mistakes of the engine instead.
-/

namespace Workflow

namespace Value

variable {v w d : Value}

/-- A description of a flow holds itself and the descriptions inside those of its sub-flows. -/
inductive Describes : Value → Value → Prop
  | self (v : Value) : Describes v v
  | sub {fields entries : List (String × Value)} {key : String} {w d : Value}
      (h : Entries.find? "subflows" fields = some (.obj entries)) (hm : (key, w) ∈ entries)
      (hd : Describes w d) : Describes (.obj fields) d

/-- The entry that a description gives, under either of its names. -/
def entryOf (d : Value) : Value :=
  (d.field "entryNodeId").orElse (d.field "entry_node_id")

/-- What stands in a description where nothing looks whether it fits: an edge that is no object,
sub-flows that are no object, an infinite version, an entry that is a list or an object. -/
inductive Slips (d : Value) : Prop
  | edge {items : List Value} {e : Value}
      (h : ((d.field "edges").orElse (.list [])).iterate = .ok items) (he : e ∈ items)
      (ho : e.isObject = false)
  | subflows (h : (d.field "subflows").isVacant = false) (ho : (d.field "subflows").isObject = false)
  | version (h : (d.field "version").isInfinite = true)
  | entry (h : d.entryOf.isVacant = false) (ho : d.entryOf.isHashable = false)

/-- A description without slips. -/
def IsTidy (v : Value) : Prop :=
  ∀ d, v.Describes d → ¬ d.Slips

/-- One level of a description. -/
theorem isTidy_obj_iff {fields : List (String × Value)} : (obj fields).IsTidy ↔
    ¬ (obj fields).Slips ∧ ∀ entries, Entries.find? "subflows" fields = some (.obj entries) →
      ∀ e ∈ entries, e.2.IsTidy := by
  constructor
  · exact fun h => ⟨h _ (.self _), fun entries hf e he d hd => h d (.sub hf he hd)⟩
  · rintro ⟨hself, hsub⟩ d hd
    cases hd with
    | self => exact hself
    | sub hf hm hd => exact hsub _ hf _ hm d hd

end Value

/-- A fault for which a description is refused. -/
def FaultKind.IsRefused (k : FaultKind) : Prop :=
  k = .key ∨ k.IsFormal

/-- A reading that gives something proper, or fails with a fault for which a description is refused. -/
def Decent {α : Type} (proper : α → Prop) : Except ShapeFault α → Prop
  | .ok a => proper a
  | .error f => f.kind.IsRefused

theorem Decent.bind {α β : Type} {p : α → Prop} {q : β → Prop} {x : Except ShapeFault α}
    {g : α → Except ShapeFault β} (h : Decent p x) (hg : ∀ a, x = .ok a → p a → Decent q (g a)) :
    Decent q (x >>= g) := by
  cases x with
  | ok a => exact hg a rfl h
  | error f => exact h

theorem Decent.of_error {α : Type} {x : Except ShapeFault α}
    (h : ∀ f, x = .error f → f.kind.IsRefused) : Decent (fun _ => True) x := by
  cases x with
  | ok a => trivial
  | error f => exact h f rfl

variable {v w d : Value} {f : ShapeFault}

theorem Value.require_error {key : String} (h : v.require key = .error f) : f.kind.IsRefused := by
  unfold Value.require at h
  split at h
  · split at h <;> cases h
    exact .inl rfl
  all_goals
    cases h
    exact .inr (.inl rfl)

theorem policyOf_error (h : policyOf v = .error f) : f.kind.IsFormal := by
  unfold policyOf at h
  split at h
  · cases h
  · cases hv : v.toFields with
    | ok fields =>
      rw [hv] at h
      cases h
    | error g =>
      rw [hv] at h
      cases h
      exact Value.toFields_error hv

theorem Node.ofValue_error (h : Node.ofValue v = .error f) : f.kind.IsRefused := by
  obtain hid | ⟨id, -, h⟩ := bind_error h
  · exact Value.require_error hid
  obtain hc | ⟨config, -, h⟩ := bind_error h
  · exact .inr (Value.toFieldsOrNone_error hc)
  obtain hp | ⟨policy, -, h⟩ := bind_error h
  · exact .inr (policyOf_error hp)
  · cases h

theorem Edge.ofValues_error {index : Nat} {items : List Value} (h : Edge.ofValues index items = .error f) :
    ∃ e ∈ items, e.isObject = false := by
  induction items generalizing index with
  | nil => cases h
  | cons v rest ih =>
    obtain he | ⟨e, -, h⟩ := bind_error h
    · refine ⟨v, List.mem_cons_self, ?_⟩
      unfold Edge.ofValue at he
      split at he
      · simpa using ‹(!v.isObject) = true›
      · cases he
    obtain hr | ⟨es, -, h⟩ := bind_error h
    · obtain ⟨e, hm, he⟩ := ih hr
      exact ⟨e, List.mem_cons_of_mem v hm, he⟩
    · cases h

namespace Flow

/-- Reading what is not inside sub-flows fails in form, or for an edge. -/
theorem headOf_error {fallback : Option String} (h : headOf v fallback = .error f) :
    f.kind.IsRefused ∨ v.Slips := by
  have body {id : String} (h : (do
      let nodes ← ((v.field "nodes").orElse (.list [])).iterate
      let nodes ← nodes.mapM Node.ofValue
      let edges ← ((v.field "edges").orElse (.list [])).iterate
      let edges ← Edge.ofValues 0 edges
      let vars ← (v.field "variables").toFieldsOrNone
      return { id, nodes, edges, vars, entry := v.entryOf } : Except ShapeFault Flow) = .error f) :
      f.kind.IsRefused ∨ v.Slips := by
    obtain hn | ⟨items, -, h⟩ := bind_error h
    · exact .inl (.inr (Value.iterate_error hn))
    obtain hn | ⟨nodes, -, h⟩ := bind_error h
    · obtain ⟨n, -, hn⟩ := mapM_error hn
      exact .inl (Node.ofValue_error hn)
    obtain he | ⟨items, hi, h⟩ := bind_error h
    · exact .inl (.inr (Value.iterate_error he))
    obtain he | ⟨edges, -, h⟩ := bind_error h
    · obtain ⟨e, hm, ho⟩ := Edge.ofValues_error he
      exact .inr (.edge hi hm ho)
    obtain hv | ⟨vars, -, h⟩ := bind_error h
    · exact .inl (.inr (Value.toFieldsOrNone_error hv))
    · cases h
  unfold headOf at h
  split at h
  · exact body h
  · exact body h
  · cases h
    exact .inl (.inl rfl)

theorem entry_of_headOf {fallback : Option String} {head : Flow} (h : headOf v fallback = .ok head) :
    head.entry = v.entryOf := by
  unfold headOf at h
  simp only [bind, Except.bind, pure, Except.pure] at h
  repeat' split at h
  all_goals
    cases h
  all_goals rfl

theorem versionOf_error (h : versionOf v = .error f) : f.kind.IsRefused ∨ v.Slips := by
  unfold versionOf at h
  split at h
  · cases h
  · exact (Value.toWhole_error h).imp .inr fun h => .version h.2

/-- The entries of a flow can be looked up if its own can and those of its sub-flows can. -/
theorem unreadableEntry?_eq_none {g : Flow} (hv : ¬ v.Slips) (he : g.entry = v.entryOf)
    (hs : unreadableEntryIn? g.subflows = none) : g.unreadableEntry? = none := by
  cases g
  rw [ unreadableEntry?]
  split
  · rfl
  · split
    · rename_i h
      rw [Bool.and_eq_true, Bool.not_eq_true', Bool.not_eq_true'] at h
      subst he
      exact absurd (.entry h.1 h.2) hv
    · exact hs

/-- What may stand for the sub-flows of a flow. -/
def AreTidy (v : Value) : Prop :=
  v.isVacant = true ∨ ∃ entries, v = .obj entries ∧ ∀ e ∈ entries, Value.IsTidy e.2

theorem areTidy_of_isTidy {fields : List (String × Value)} (h : (Value.obj fields).IsTidy)
    (hf : Entries.find? "subflows" fields = some w) : AreTidy w := by
  have hw : (Value.obj fields).field "subflows" = w := by
    rw [Value.field, Value.field?, hf]
    rfl
  cases hv : w.isVacant with
  | true => exact .inl hv
  | false =>
    cases w with
    | obj entries => exact .inr ⟨entries, rfl, (Value.isTidy_obj_iff.mp h).2 entries hf⟩
    | _ => exact absurd (.subflows (hw ▸ hv) (hw ▸ rfl)) (h _ (.self _))

mutual

/-- A tidy description is refused in form, or read as a flow whose entries can be looked up. -/
theorem read_decent : (fallback : Option String) → (v : Value) → v.IsTidy →
    (fallback = none → v.isObject = true) →
      Decent (fun g => g.unreadableEntry? = none) (read fallback v)
  | fallback, .obj fields, h, _ => by
    have hself := h _ (.self _)
    rw [read]
    refine Decent.bind (.of_error fun f hf => (headOf_error hf).resolve_right hself) fun head hhead _ => ?_
    refine (readSubflowsIn_decent fields fun w hw => areTidy_of_isTidy h hw).bind fun subflows _ hs => ?_
    refine Decent.bind (.of_error fun f hf => .inr (policyOf_error hf)) fun policy _ _ => ?_
    refine Decent.bind (.of_error fun f hf => (versionOf_error hf).resolve_right hself) fun version _ _ => ?_
    exact unreadableEntry?_eq_none hself (entry_of_headOf hhead :) hs
  | none, .undefined, _, ho | none, .null, _, ho | none, .bool _, _, ho | none, .num _, _, ho
  | none, .str _, _, ho | none, .list _, _, ho => nomatch ho rfl
  | some _, .undefined, _, _ | some _, .null, _, _ | some _, .bool _, _, _ | some _, .num _, _, _
  | some _, .str _, _, _ | some _, .list _, _, _ => .inr (.inl rfl)

theorem readSubflowsIn_decent : (fields : List (String × Value)) →
    (∀ w, Entries.find? "subflows" fields = some w → AreTidy w) →
    Decent (unreadableEntryIn? · = none) (readSubflowsIn fields)
  | [], _ => by
    rw [readSubflowsIn]
    rfl
  | (key, v) :: rest, h => by
    rw [readSubflowsIn]
    rw [Entries.find?] at h
    split
    · exact readSubflows_decent v (h v (if_pos ‹_›))
    · exact readSubflowsIn_decent rest fun w hw => h w ((if_neg ‹_›).trans hw)

theorem readSubflows_decent : (v : Value) → AreTidy v →
    Decent (unreadableEntryIn? · = none) (readSubflows v)
  | .obj entries, h => by
    rw [readSubflows]
    refine readEntries_decent entries fun e he => ?_
    rcases h with h | ⟨others, ho, h⟩
    · rw [Value.isVacant, List.isEmpty_iff] at h
      exact absurd he (h ▸ List.not_mem_nil)
    · cases ho
      exact h e he
  | .undefined, h | .null, h | .bool _, h | .num _, h | .str _, h | .list _, h => by
    rw [readSubflows, if_pos (h.resolve_right fun ⟨_, ho, _⟩ => nomatch ho)]
    · rfl
    · rintro _ ⟨⟩

theorem readEntries_decent : (entries : List (String × Value)) → (∀ e ∈ entries, e.2.IsTidy) →
    Decent (unreadableEntryIn? · = none) (readEntries entries)
  | [], _ => by
    rw [readEntries]
    rfl
  | (key, v) :: rest, h => by
    rw [readEntries]
    refine (read_decent (some key) v (h _ List.mem_cons_self) nofun).bind fun f _ hf => ?_
    refine (readEntries_decent rest fun e he => h e (List.mem_cons_of_mem _ he)).bind fun fs _ hfs => ?_
    show unreadableEntryIn? ((key, f) :: fs) = none
    rw [unreadableEntryIn?, hf]
    exact hfs

end

end Flow

namespace Engine

variable {e : Engine}

end Engine

namespace Api

variable {form : FlowForm}

end Api

namespace Engine

/-- The engine without anything in it. -/
def vacant : Engine := create {} []

/-- A description of a flow with one node, and with other fields. -/
def single (others : List (String × Value)) : List (String × Value) :=
  ("id", .str "f") :: ("nodes", .list [.obj [("id", .str "a"), ("kind", .str "log")]]) :: others

end Engine

end Workflow
