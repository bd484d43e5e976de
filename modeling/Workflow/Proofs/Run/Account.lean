import Workflow.Proofs.Flow.Validity
import Workflow.Proofs.Run.Stage
import Workflow.Proofs.Run.Strain
import Workflow.Proofs.Run.Tally
import Workflow.Proofs.Run.Ticket
import Workflow.Proofs.Value.Entries
/-!
What the walker accounts for. As long as nothing strains a step and all flows are valid, every attempt
that a step begins or ends is one of those that the work above which it goes on waits in, and whatever
goes wrong is handed to that work as a failure of a node.
-/

namespace Workflow

/-- A failure of a node, and not of the run itself. -/
def ErrorInfo.IsOrdinary (e : ErrorInfo) : Prop :=
  e.code ≠ "internal"

namespace ErrorInfo

@[simp] theorem isOrdinary_invalid (message : String) (data : Entries Value) :
    (invalid message data).IsOrdinary := by simp [IsOrdinary, invalid]

@[simp] theorem isOrdinary_missingFlow (ref : Value) : (missingFlow ref).IsOrdinary := by
  simp [IsOrdinary, missingFlow]

@[simp] theorem isOrdinary_stepLimit (flow : String) (limit : Nat) :
    (stepLimit flow limit).IsOrdinary := by simp [IsOrdinary, stepLimit]

@[simp] theorem isOrdinary_callDepth (limit : Nat) : (callDepth limit).IsOrdinary := by
  simp [IsOrdinary, callDepth]

@[simp] theorem isOrdinary_loopLimit (node : String) (bound : Nat) :
    (loopLimit node bound).IsOrdinary := by simp [IsOrdinary, loopLimit]

@[simp] theorem isOrdinary_timeout (node : String) (ms : Nat) : (timeout node ms).IsOrdinary := by
  simp [IsOrdinary, timeout]

@[simp] theorem isOrdinary_noProvider : noProvider.IsOrdinary := by simp [IsOrdinary, noProvider]

@[simp] theorem isOrdinary_ofHandler (message : String) : (ofHandler message).IsOrdinary := by
  simp [IsOrdinary, ofHandler]

@[simp] theorem isOrdinary_ofSubflow (flow : String) (node : Option String) (cause : ErrorInfo) :
    (ofSubflow flow node cause).IsOrdinary := by simp [IsOrdinary, ofSubflow]

@[simp] theorem isOrdinary_unknownKind (kind : String) : (unknownKind kind).IsOrdinary := by
  simp [IsOrdinary, unknownKind]

@[simp] theorem isOrdinary_toErrorInfo (f : HandlerFault) : f.toErrorInfo.IsOrdinary := by
  cases f with
  | raised type text => simp [IsOrdinary, HandlerFault.toErrorInfo]
  | unknownKind kind => exact isOrdinary_unknownKind kind

end ErrorInfo

def HandlerResult.IsOrdinary : HandlerResult → Prop
  | .failure (some e) => e.IsOrdinary
  | _ => True

def Outcome.IsOrdinary : Outcome → Prop
  | .failed e _ => e.IsOrdinary
  | _ => True

def Answer.IsOrdinary : Answer → Prop
  | .outcome o => o.IsOrdinary
  | .handled r => r.IsOrdinary
  | _ => True

def Answer.IsThrown : Answer → Prop
  | .thrown _ => True
  | _ => False

def Wait.IsOrdinary : Wait → Prop
  | .removal _ o _ => o.IsOrdinary
  | _ => True

/-- The flows that a loop walks in. -/
def Loop.flows (loop : Loop) : List Flow :=
  [loop.place.flow, loop.body]

/-- The flows that a task is to walk in after what it does next. -/
def Control.flows : Control → List Flow
  | .enter place _ => [place.flow]
  | .next walk _ | .dispatch walk _ => [walk.place.flow]
  | .try a => [a.place.flow]
  | .iterate loop _ _ => loop.flows
  | .supply c | .element c _ _ => c.loop.flows
  | _ => []

/-- The flows that work is carried out in that waits. -/
def Pending.flows : Pending → List Flow
  | .checkpoint walk _ | .visit walk _ => [walk.place.flow]
  | .attempt a _ | .backoff a => [a.place.flow]
  | .foreach loop _ _ _ _ | .while loop _ _ => loop.flows
  | .element c _ _ | .elements c => c.loop.flows
  | _ => []

/-- All flows that a task is to walk in are valid, and it has no fault to hand on. -/
def Control.IsSafe (c : Control) : Prop :=
  (∀ f ∈ c.flows, f.IsValid) ∧ match c with
    | .answer a => a.IsOrdinary ∧ ¬ a.IsThrown
    | .wake w _ _ => w.IsOrdinary
    | _ => True

/-- All flows that some work is carried out in are valid. -/
def IsSafeWork (p : List Pending) : Prop :=
  ∀ k ∈ p, ∀ f ∈ k.flows, f.IsValid

def Turn.IsSafe : Turn → Prop
  | .go c p => c.IsSafe ∧ IsSafeWork p
  | .wait w _ _ p => w.IsOrdinary ∧ IsSafeWork p
  | .pass p => IsSafeWork p
  | .stop a => a.IsOrdinary

/-- A task begins with something to do, and ends with no failure of the run itself. -/
def TaskState.IsCandid : TaskState → Prop
  | .fresh c _ => ∀ a, c ≠ .answer a
  | .ended a => a.IsOrdinary
  | _ => True

def Machine.IsCandid (m : Machine) : Prop :=
  ∀ t s, m.state? t = some s → s.IsCandid

section safe

variable {k : Pending} {p : List Pending}

theorem IsSafeWork.cons (h : IsSafeWork p) (hk : ∀ f ∈ k.flows, f.IsValid) : IsSafeWork (k :: p) :=
  List.forall_mem_cons.mpr ⟨hk, h⟩

theorem IsSafeWork.tail (h : IsSafeWork (k :: p)) : IsSafeWork p :=
  fun l hl => h l (List.mem_cons_of_mem _ hl)

theorem IsSafeWork.head (h : IsSafeWork (k :: p)) : ∀ f ∈ k.flows, f.IsValid :=
  h k List.mem_cons_self

theorem Control.IsSafe.answer {a : Answer} (ha : a.IsOrdinary) (ht : ¬ a.IsThrown) :
    (Control.answer a).IsSafe :=
  ⟨by simp [Control.flows], ha, ht⟩

end safe

theorem TaskState.Nudges.isCandid {s s' : TaskState} (h : s.Nudges s') (hs : s.IsCandid) :
    s'.IsCandid := by
  induction h with
  | refl => exact hs
  | @signal s' _ ih =>
    rcases s' with _ | _ | ⟨_ | _ | _ | _ | _ | _ | _ | _ | _ | _, _⟩ | _ | _ <;> exact ih
  | @interrupt s' _ ih => cases s' <;> exact ih

namespace Machine

variable {o o' o'' : List Tag} {m n l : Machine} {p : List Pending}

theorem IsCandid.tends (h : m.IsCandid) (ht : Tends m n)
    (hn : ∀ t s, m.tasks.size ≤ t → n.state? t = some s → s.IsCandid) : n.IsCandid := by
  intro t s hs
  by_cases hlt : t < m.tasks.size
  · obtain ⟨s', hs', hn⟩ := ht.old_of_lt hlt hs
    exact hn.isCandid (h t s' hs')
  · exact hn t s (Nat.le_of_not_lt hlt) hs

/-- Without new tasks. -/
theorem IsCandid.of_size (h : m.IsCandid) (ht : Tends m n) (hn : n.tasks.size = m.tasks.size) :
    n.IsCandid :=
  h.tends ht fun _ _ hle hs => absurd (lt_of_state? hs) (Nat.not_lt.mpr (hn ▸ hle))

/-- A change whose events turn the attempts that are open into others. -/
structure Notes (o : List Tag) (m n : Machine) (o' : List Tag) : Prop where
  tally : ∃ d, n.effects = d ++ m.effects ∧ Tallies o d o'
  flow : n.run.flow = m.run.flow
  error : ∀ e, n.run.error = some e → m.run.error = some e ∨ e.IsOrdinary
  candid : m.IsCandid → n.IsCandid

namespace Notes

theorem trans (h : Notes o m n o') (k : Notes o' n l o'') : Notes o m l o'' where
  tally := by
    obtain ⟨d, hd, ht⟩ := h.tally
    obtain ⟨f, hf, hu⟩ := k.tally
    exact ⟨f ++ d, by rw [hf, hd, List.append_assoc], ht.append hu⟩
  flow := k.flow.trans h.flow
  error e he := (k.error e he).elim (h.error e) .inr
  candid hm := k.candid (h.candid hm)

/-- Some effects of which none begins or ends an attempt. -/
theorem of_unmarked {d : List Effect} (he : n.effects = d ++ m.effects) (hd : ∀ e ∈ d, e.IsUnmarked)
    (hf : n.run.flow = m.run.flow) (hr : n.run.error = m.run.error) (ht : n.tasks = m.tasks) :
    Notes o m n o :=
  ⟨⟨d, he, .unmarked o hd⟩, hf, fun _ h => .inl (hr ▸ h), fun h => h.of_size (.of_tasks ht) (by rw [ht])⟩

theorem of_eq (he : n.effects = m.effects) (hf : n.run.flow = m.run.flow)
    (hr : n.run.error = m.run.error) (ht : n.tasks = m.tasks) : Notes o m n o :=
  of_unmarked (d := []) he (by simp) hf hr ht

theorem refl (m : Machine) : Notes o m m o :=
  of_eq rfl rfl rfl rfl

/-- Some effects that are no events. -/
theorem of_adds (h : Adds Effect.IsMute m n) (hr : n.run = m.run) (hc : m.IsCandid → n.IsCandid) :
    Notes o m n o where
  tally := by
    obtain ⟨d, hd, hp⟩ := h
    exact ⟨d, hd, .unmarked o fun e he => (hp e he).isUnmarked⟩
  flow := by rw [hr]
  error e he := .inl (by rwa [hr] at he)
  candid := hc

/-- A change of the tasks and of effects that are no events. -/
theorem of_mute (h : Mute m n) (hc : m.IsCandid → n.IsCandid) : Notes o m n o :=
  of_adds h.adds h.run hc

theorem of_aside {roles : List Role} (hf : m.Fitting roles) (h : Aside roles [] m n) : Notes o m n o := by
  have same : Tends { m with watchers := n.watchers } n := .trans (n := m) (.of_tasks rfl) h.tends
  exact .trans (n := { m with watchers := n.watchers }) (of_eq rfl rfl rfl rfl)
    (of_mute h.silent.mute fun hc => hc.of_size same (h.fits.size.symm.trans hf.size))

theorem effect (m : Machine) {e : Effect} (he : e.IsMute) : Notes o m (m.effect e) o :=
  of_unmarked (d := [e]) rfl (by simpa using he.isUnmarked) rfl rfl rfl

theorem spawn (m : Machine) {c : Control} (hc : ∀ a, c ≠ .answer a) : Notes o m (m.spawn c []).1 o :=
  of_mute (Silent.spawn m c []).mute fun hm => hm.tends (.spawn m c) fun t s hle hs => by
    rw [state?_spawn] at hs
    split at hs
    · cases hs
      exact hc
    · exact absurd (lt_of_state? hs) (Nat.not_lt.mpr hle)

theorem endPause (m : Machine) : Notes o m m.endPause o :=
  .trans (n := { m with paused := [] }) (of_eq rfl rfl rfl rfl)
    (of_mute (Silent.endPause m).mute fun hc =>
      hc.of_size (.signals m.paused _) (size_signals m.paused _))

/-- An event that neither begins nor ends an attempt. -/
theorem of_emit (type : String) {payload : Entries Value} {view : RunView}
    (h : type ∉ ["node.started", "node.completed", "node.failed"])
    (he : n.effects = .emit type payload view :: m.effects) (hf : n.run.flow = m.run.flow)
    (hr : n.run.error = m.run.error) (ht : n.tasks = m.tasks) : Notes o m n o :=
  of_unmarked (d := [_]) he (by simpa using Effect.isUnmarked_emit payload view h) hf hr ht

theorem emit (m : Machine) {type : String} (payload : Entries Value)
    (h : type ∉ ["node.started", "node.completed", "node.failed"]) :
    Notes o m (m.emit type payload) o :=
  of_emit type h rfl rfl rfl rfl

theorem begins (m : Machine) (node : Node) (number depth : Nat) :
    Notes o m (m.emit "node.started" (startedPayload node number depth))
      (⟨some (.str node.id), some (.nat number)⟩ :: o) :=
  ⟨⟨[_], rfl, .opens rfl (.nil o)⟩, rfl, fun _ => .inl, fun h => h.of_size (.of_tasks rfl) rfl⟩

theorem ends (m : Machine) {type : String} {payload : Entries Value} {tag : Tag}
    (h : type = "node.completed" ∨ type = "node.failed") (ht : Tag.ofPayload payload = tag) :
    Notes (tag :: o) m (m.emit type payload) o :=
  ⟨⟨[_], rfl, .closes (ht ▸ if_pos h) (.nil _)⟩, rfl, fun _ => .inl,
    fun h => h.of_size (.of_tasks rfl) rfl⟩

theorem trace (m : Machine) (env : Surroundings) (e : TraceEntry) : Notes o m (m.trace env e) o :=
  of_eq rfl rfl rfl rfl

theorem addLayer (m : Machine) (l : Layer) (layers : List Nat) :
    Notes o m (m.addLayer l layers).1 o :=
  of_eq rfl rfl rfl rfl

theorem putScope (m : Machine) (layers : List Nat) (s : Scope) : Notes o m (m.putScope layers s) o :=
  of_eq rfl rfl rfl rfl

theorem note (m : Machine) (c : CallNote) : Notes o m (m.effect (.note c)) o :=
  effect m (Effect.note_plain c).1

theorem merge (m : Machine) (layers : List Nat) (node : String) (values : Entries Value) :
    Notes o m (m.merge layers node values) o :=
  (putScope m layers _).trans (.emit _ _ (by decide))

theorem writeReturns (m : Machine) (place : Place) (node : Node) (child : List Nat)
    (returns : Value) : Notes o m (m.writeReturns place node child returns) o := by
  unfold Machine.writeReturns
  dsimp only
  split
  · exact refl m
  · exact merge m _ _ _

end Notes

/-- A step that begins and ends no attempts but those that the work waits in, and hands no fault on. -/
structure Accounts (o : List Tag) (m : Machine) (x : StepResult) : Prop where
  notes : Notes o m x.1 (openTags x.2.pending)
  turn : x.2.IsSafe

namespace Accounts

variable {x : StepResult}

theorem go {c : Control} (h : Notes o m n (openTags p)) (hc : c.IsSafe) (hp : IsSafeWork p) :
    Accounts o m (n, .go c p) :=
  ⟨h, hc, hp⟩

theorem answer {a : Answer} (h : Notes o m n (openTags p)) (ha : a.IsOrdinary) (ht : ¬ a.IsThrown)
    (hp : IsSafeWork p) : Accounts o m (n, .answer a p) :=
  go h (.answer ha ht) hp

theorem outcome {r : Outcome} (h : Notes o m n (openTags p)) (hr : r.IsOrdinary)
    (hp : IsSafeWork p) : Accounts o m (n, .outcome r p) :=
  answer h hr id hp

theorem fail {e : ErrorInfo} (h : Notes o m n (openTags p)) (he : e.IsOrdinary)
    (hp : IsSafeWork p) : Accounts o m (n, .fail e p) :=
  outcome h he hp

theorem after (h : Notes o m n o') (k : Accounts o' n x) : Accounts o m x :=
  ⟨h.trans k.notes, k.turn⟩

end Accounts

section functions

variable (m : Machine) (env : Surroundings) (hp : IsSafeWork p)

include hp

theorem call_accounts {flow : Flow} (hf : flow.IsValid) (layers : List Nat) (node : Node)
    (shared : Bool) : Accounts (openTags p) m (m.call env flow layers node shared p) := by
  unfold call
  split
  · exact .fail (.refl m) (by simp) hp
  · exact .go (p := .frame _ _ _ :: p) (.of_eq rfl rfl rfl rfl)
      ⟨by simpa [Control.flows] using hf, trivial⟩ (hp.cons (by simp [Pending.flows]))

theorem rest_accounts (seconds : Seconds) : Accounts (openTags p) m (m.rest seconds p) := by
  unfold rest
  split
  · exact .answer (.refl m) trivial id hp
  · exact ⟨.spawn m (by simp), trivial, hp⟩

theorem sleep_accounts (seconds : Seconds) : Accounts (openTags p) m (m.sleep seconds p) := by
  unfold sleep
  split
  · exact ⟨.refl m, trivial, hp⟩
  · exact ⟨.refl m, hp⟩

/-- A body is carried out in a new layer. -/
theorem body_accounts {flow : Flow} (hf : flow.IsValid) (l : Layer) (layers : List Nat) (node : Node)
    (shared : Bool) : Accounts (openTags p) m
      ((m.addLayer l layers).1.call env flow (m.addLayer l layers).2 node shared p) :=
  .after (.addLayer m l layers) (call_accounts _ env hp hf _ _ _)

theorem iterate_accounts {loop : Loop} (hl : ∀ f ∈ loop.flows, f.IsValid) (bound iterations : Nat) :
    Accounts (openTags p) m (m.iterate env loop bound iterations p) := by
  unfold iterate
  dsimp only
  split
  · exact .outcome (.refl m) trivial hp
  · split
    · exact .fail (.refl m) (by simp) hp
    · split
      · exact .outcome (.refl m) trivial hp
      · exact body_accounts (p := .while loop bound iterations :: p) m env (hp.cons hl)
          (hl _ (by simp [Loop.flows])) _ _ _ _

theorem nextItem_accounts {loop : Loop} (hl : ∀ f ∈ loop.flows, f.IsValid) (itemName : String)
    (indexName : Option String) (index : Nat) (items : List Value) :
    Accounts (openTags p) m (m.nextItem env loop itemName indexName index items p) := by
  unfold nextItem
  split
  · exact .outcome (.refl m) trivial hp
  · split
    · exact .outcome (.refl m) trivial hp
    · exact body_accounts (p := .foreach loop _ _ _ _ :: p) m env (hp.cons hl)
        (hl _ (by simp [Loop.flows])) _ _ _ _

omit hp in
theorem lookupFlow_isValid (hr : m.run.flow.IsValid) (he : ∀ e ∈ env.flows, e.2.IsValid) {flow f : Flow}
    (hf : flow.IsValid) {ref : Value} (h : m.lookupFlow env flow ref = some f) : f.IsValid := by
  have found {flow : Flow} (hf : flow.IsValid)
      (h : Entries.find? ref.name flow.subflows = some f) : f.IsValid := by
    cases hf with
    | intro _ _ inside => exact inside _ (Entries.mem_of_find? h)
  unfold lookupFlow at h
  split at h
  · cases h
  · rcases Option.or_eq_some_iff.mp h with h | ⟨-, h⟩
    · exact found hf h
    · rcases Option.or_eq_some_iff.mp h with h | ⟨-, h⟩
      · exact found hr h
      · exact he _ (Entries.mem_of_find? h)

theorem supply_accounts {c : Collection} (hl : ∀ f ∈ c.loop.flows, f.IsValid) :
    Accounts (openTags p) m (m.supply c p) := by
  unfold supply
  split
  · exact .go (.refl m) ⟨hl, trivial⟩ hp
  · dsimp only
    split
    · exact .outcome (.refl m) trivial hp
    · exact .outcome (.merge m _ _ _) trivial hp

theorem element_accounts (self : TaskId) {c : Collection} (hl : ∀ f ∈ c.loop.flows, f.IsValid)
    {acts : List Act} (ha : ∀ a ∈ acts, a.IsRest) (item : Except HandlerFault Value) :
    Accounts (openTags p) m (m.element env self c acts item p) := by
  unfold element
  split
  · exact sleep_accounts (p := .element c _ item :: p) m (hp.cons hl) _
  · exact absurd (ha _ List.mem_cons_self) id
  · exact absurd (ha _ List.mem_cons_self) id
  · split
    · exact .fail (.refl m) (by simp [enumerationFailed]) hp
    · split
      · exact .outcome (.refl m) trivial hp
      · rename_i v _
        exact body_accounts (p := .elements { c with collected := c.collected ++ [v] } :: p) m env
          (hp.cons hl) (hl c.loop.body (by simp [Loop.flows])) _ _ _ _

theorem invoke_accounts {target : Flow} (ht : target.IsValid) (place : Place) (node : Node)
    (args : Entries Value) (inline : Bool) (returns : Value) :
    Accounts (openTags p) m
      (m.invoke env place node target args inline returns p fun _ p => p) := by
  unfold invoke
  split
  · exact .after (.addLayer m _ place.layers)
      (.after (.putScope _ (m.layers.size :: place.layers) _)
        (call_accounts (p := .invocation place node _ none :: p) _ env
          (hp.cons (by simp [Pending.flows])) ht _ _ _))
  · exact body_accounts (p := .invocation place node _ _ :: p) m env
      (hp.cons (by simp [Pending.flows])) ht _ _ _ _

section attempts

variable (hr : m.run.flow.IsValid) (he : ∀ e ∈ env.flows, e.2.IsValid)

include hr he

theorem startForeach_accounts {place : Place} (hf : place.flow.IsValid) (node : Node) :
    Accounts (openTags p) m (m.startForeach env place node p) := by
  unfold startForeach
  dsimp only
  split
  · exact .fail (.refl m) (by simp) hp
  · split
    · exact .fail (.refl m) (by simp) hp
    · rename_i body hb
      have hbody := lookupFlow_isValid m env hr he hf hb
      exact nextItem_accounts m env hp (by simpa [Loop.flows] using ⟨hf, hbody⟩) _ _ _ _

/-- A bound that is no infinite double is at least answered with a failure of the node. -/
theorem startWhile_accounts {place : Place} (hf : place.flow.IsValid) {node : Node}
    (hn : ((Value.obj node.config).field "maxIterations").isInfinite = false) :
    Accounts (openTags p) m (m.startWhile env place node p) := by
  have bounded {f : ShapeFault}
      (h : givenBound ((Value.obj node.config).field "maxIterations") = .error f) : False := by
    generalize (Value.obj node.config).field "maxIterations" = v at hn h
    unfold givenBound at h
    split at h
    · cases h
    · split at h
      · cases h
      · rename_i g hg
        split at h
        · rename_i ho
          obtain hk | ⟨-, hi⟩ := Value.toWhole_error hg
          · rw [beq_iff_eq.mp ho] at hk
            rcases hk with hk | hk <;> cases hk
          · rw [hn] at hi
            cases hi
        · cases h
  unfold startWhile
  dsimp only
  split
  · exact (bounded ‹_›).elim
  · split
    · exact .fail (.refl m) (by simp) hp
    · split
      · exact .fail (.refl m) (by simp) hp
      · rename_i body hb
        have hbody := lookupFlow_isValid m env hr he hf hb
        exact .go (.refl m) ⟨by simpa [Control.flows, Loop.flows] using ⟨hf, hbody⟩, trivial⟩ hp

theorem startElements_accounts {a : Attempt} (hf : a.place.flow.IsValid)
    (ht : Template.overflows (m.vars a.place.layers) (.obj a.node.config) = false) :
    Accounts (openTags p) m (m.startElements env a p) := by
  unfold startElements
  split
  · exact .fail (.refl m) (by simp) hp
  · split
    · rename_i f hx
      simp [Template.overflows, hx] at ht
    · dsimp only
      split
      · exact .fail (.refl m) (by simp) hp
      · split
        · exact .fail (.refl m) (by simp) hp
        · rename_i body hb
          have hbody := lookupFlow_isValid m env hr he hf hb
          split
          · exact .fail (.note m _) (by simp [enumerationFailed]) hp
          · exact .go (.note m _) ⟨by simpa [Control.flows, Loop.flows] using ⟨hf, hbody⟩, trivial⟩ hp

theorem startExecuteFlow_accounts {place : Place} (hf : place.flow.IsValid) {node : Node}
    (ht : Template.overflows (m.vars place.layers) (.obj node.config) = false) :
    Accounts (openTags p) m (m.startExecuteFlow env place node p) := by
  unfold startExecuteFlow
  split
  · rename_i f hx
    simp [Template.overflows, hx] at ht
  · split
    · exact .fail (.refl m) (by simp) hp
    · rename_i target hb
      split
      · exact invoke_accounts m env hp (lookupFlow_isValid m env hr he hf hb) _ _ _ _ _
      · exact .fail (.refl m) (by simp) hp

omit hr he in
theorem startPrimitive_accounts {a : Attempt}
    (ht : Template.overflows (m.vars a.place.layers) (.obj a.node.config) = false) :
    Accounts (openTags p) m (m.startPrimitive env a p) := by
  unfold startPrimitive
  dsimp only
  split
  · exact .outcome (.refl m) (by simp [Outcome.IsOrdinary]) hp
  · split
    · rename_i f hx
      simp [Template.overflows, hx] at ht
    · split
      · exact .fail (.refl m) (by simp) hp
      · exact ⟨(Notes.spawn m (by simp)).trans (.spawn _ (by simp)), trivial,
          hp.cons (by simp [Pending.flows])⟩

/-- The attempt at a node begins with the event that says so. -/
theorem attempt_accounts {a : Attempt} (hf : a.place.flow.IsValid)
    (hs : a.strains (m.vars a.place.layers) = false) :
    Accounts (openTags p) m (m.attempt env a p) := by
  have hp' : IsSafeWork (.attempt a env.now :: p) := hp.cons (by simpa [Pending.flows] using hf)
  let n := m.emit "node.started" (startedPayload a.node a.number a.place.depth)
  have hr : n.run.flow.IsValid := hr
  have hs : a.strains (n.vars a.place.layers) = false := hs
  have started {x} (hx : Accounts (openTags (.attempt a env.now :: p)) n x) :
      Accounts (openTags p) m x :=
    .after (.begins m a.node a.number a.place.depth) hx
  unfold attempt
  dsimp only
  split <;> rename_i hk
  · exact started (.outcome (.refl _) trivial hp')
  · exact started (startForeach_accounts _ env hp' hr he hf _)
  · exact started (startElements_accounts _ env hp' hr he hf (by simpa [Attempt.strains, hk] using hs))
  · exact started (startWhile_accounts _ env hp' hr he hf (by simpa [Attempt.strains, hk] using hs))
  · exact started
      (startExecuteFlow_accounts _ env hp' hr he hf (by simpa [Attempt.strains, hk] using hs))
  · refine started (startPrimitive_accounts _ env hp' ?_)
    unfold Attempt.strains at hs
    split at hs <;> first | contradiction | exact hs

end attempts

theorem enter_accounts {place : Place} (hf : place.flow.IsValid) (frame : Nat) :
    Accounts (openTags p) m (m.enter place frame p) := by
  have hentry : (!place.flow.entry.isVacant && !place.flow.entry.isHashable) = false := by
    cases hf with
    | intro _ own _ =>
      have h := own.entry
      split at h
      · simp_all
      · obtain ⟨n, -, he⟩ := h
        simp [he, Value.isHashable]
  unfold enter
  dsimp only
  rw [hentry, if_neg (by simp)]
  split
  · exact .go (.refl m) ⟨by simpa [Control.flows] using hf, trivial⟩ hp
  · exact .fail (.refl m) (by simp) hp

theorem next_accounts (self : TaskId) {walk : Walk} (hf : walk.place.flow.IsValid)
    (node : Option Node) : Accounts (openTags p) m (m.next env self walk node p) := by
  have hc (node : Node) (steps : Nat) : (Control.dispatch { walk with steps } node).IsSafe :=
    ⟨by simpa [Control.flows] using hf, trivial⟩
  unfold next
  split
  · exact .outcome (.refl m) trivial hp
  · split
    · exact .outcome (.refl m) trivial hp
    · split
      · exact .outcome (.refl m) (by simp [Outcome.IsOrdinary]) hp
      · rename_i node _ _
        dsimp only
        have ha : Notes (openTags p) m (m.arrive walk.frame node.id) (openTags p) :=
          .of_eq rfl rfl rfl rfl
        rcases takePause_cases (m.arrive walk.frame node.id) node with
          h | ⟨n, reason, h, hu, hq, hr, he⟩
        · rw [h]
          exact .go ha (hc _ _) hp
        · rw [h]
          have paused : Notes (openTags p) m n (openTags p) :=
            ha.trans (.of_eq he (congrArg Run.flow hr) (congrArg Run.error hr) (congrArg tasks hu :))
          exact ⟨paused.trans (.of_emit "run.paused" (by decide) rfl rfl rfl rfl), trivial,
            hp.cons (by simpa [Pending.flows] using hf)⟩

omit hp in
/-- A policy that is refused fails the node at once. -/
theorem refusePolicy_notes {o : List Tag} (walk : Walk) (node : Node) (fault : PolicyFault) :
    Notes o m (m.refusePolicy env walk node fault).1 o :=
  (Notes.begins m node 1 walk.place.depth).trans
    ((Notes.trace _ env _).trans (.ends _ (.inr rfl) rfl))

theorem dispatch_accounts {walk : Walk} (hf : walk.place.flow.IsValid) {node : Node}
    (hs : Policy.overflows ([walk.place.flow.policy, node.policy].map fun p =>
      (p.map Value.obj).getD .null) = false) :
    Accounts (openTags p) m (m.dispatch env walk node p) := by
  have hv : IsSafeWork (.visit walk node :: p) := hp.cons (by simpa [Pending.flows] using hf)
  have refused (fault : PolicyFault) : Accounts (openTags p) m
      ((m.refusePolicy env walk node fault).1, .outcome
        (.failed (m.refusePolicy env walk node fault).2 (some node.id)) (.visit walk node :: p)) :=
    .outcome (refusePolicy_notes m env walk node fault) (ErrorInfo.isOrdinary_invalid _ _) hv
  unfold dispatch
  dsimp only
  split
  · exact .outcome (.refl m) trivial hp
  · split
    · exact .outcome (p := .visit walk node :: p)
        ((Notes.emit m _ (by decide)).trans (.trace _ env _)) trivial hv
    · split
      · exact .go (p := .visit walk node :: p) (.refl m) ⟨by simpa [Control.flows] using hf, trivial⟩ hv
      · rename_i fault hfault
        split
        · exact refused _
        · exact refused _
        · rename_i hk
          obtain hform | ⟨-, ho⟩ := Policy.resolve_error hfault
          · exact (hform.elim ‹_› hk).elim
          · rw [hs] at ho
            cases ho

end functions

end Machine

end Workflow
