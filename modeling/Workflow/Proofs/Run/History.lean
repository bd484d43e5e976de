import Workflow.Proofs.Run.Walk
/-!
The history of a run, as its events tell it: which event may follow which, and what the status of the
run is after each.
-/

namespace Workflow

/-- Whether an event tells of what a debugger did to the variables. -/
def isDebuggerPatch (type : String) (payload : Entries Value) : Bool :=
  type == "vars.patch" && match Entries.find? "source" payload with
    | some (.str source) => source == "debugger"
    | _ => false

namespace Effect

/-- The type of an event that comes of the run itself. -/
def kernelType? : Effect → Option String
  | .emit type payload _ => if isDebuggerPatch type payload then none else some type
  | _ => none

theorem IsMute.kernelType? {e : Effect} (h : e.IsMute) : e.kernelType? = none := by
  cases e <;> first | rfl | cases h

theorem Among.kernelType? {types : List String} {e : Effect} (h : e.Among types) {t : String}
    (ht : e.kernelType? = some t) : t ∈ types := by
  cases e with
  | emit type payload view =>
    have hm := h.1 _ rfl
    simp only [Effect.kernelType?, Option.ite_none_left_eq_some, Option.some.injEq] at ht
    exact ht.2 ▸ hm
  | _ => cases ht

end Effect

/-- The types of events after which there are no others. -/
def terminalTypes : List String := ["run.completed", "run.failed", "run.cancelled"]

namespace Status

/-- The status that an event of the run's own names. -/
def named? : String → Option Status
  | "run.started" | "run.resumed" => some .running
  | "run.paused" => some .paused
  | "run.completed" => some .completed
  | "run.failed" => some .failed
  | "run.cancelled" => some .cancelled
  | _ => none

/-- The events that a run may have in each status, and its status after them. -/
def moves : List (Status × String × Status) := [
  (.pending, "run.started", .running), (.pending, "run.cancelled", .cancelled),
  (.running, "run.paused", .paused), (.running, "run.completed", .completed),
  (.running, "run.failed", .failed), (.running, "run.cancelled", .cancelled),
  (.paused, "run.resumed", .running), (.paused, "run.cancelled", .cancelled)]
  ++ walkTypes.map fun t => (.running, t, .running)

/-- A run passes from one status to another with some effects, the newest first. -/
inductive Passes : Status → List Effect → Status → Prop
  | nil (s : Status) : Passes s [] s
  | skip {s s' : Status} {d : List Effect} {e : Effect} (he : e.kernelType? = none)
      (h : Passes s d s') : Passes s (e :: d) s'
  | move {s s' s'' : Status} {d : List Effect} {e : Effect} {t : String}
      (he : e.kernelType? = some t) (ht : (s', t, s'') ∈ moves) (h : Passes s d s') :
      Passes s (e :: d) s''

namespace Passes

variable {s s' s'' : Status} {d d' : List Effect}

theorem append (h : Passes s d s') (k : Passes s' d' s'') : Passes s (d' ++ d) s'' := by
  induction k with
  | nil => exact h
  | skip he _ ih => exact .skip he ih
  | move he ht _ ih => exact .move he ht ih

/-- Effects that are no events pass by. -/
theorem mute (s : Status) (h : ∀ e ∈ d, e.IsMute) : Passes s d s := by
  induction d with
  | nil => exact .nil s
  | cons e d ih =>
    exact .skip (h e List.mem_cons_self).kernelType? (ih fun e he => h e (List.mem_cons_of_mem _ he))

/-- The events of a walk do not change the status of a run that runs. -/
theorem walk (h : ∀ e ∈ d, e.Among walkTypes) : Passes .running d .running := by
  induction d with
  | nil => exact .nil _
  | cons e d ih =>
    have hd := ih fun e he => h e (List.mem_cons_of_mem _ he)
    cases ht : e.kernelType? with
    | none => exact .skip ht hd
    | some t =>
      have hm := (h e List.mem_cons_self).kernelType? ht
      exact .move ht (List.mem_append_right _ (List.mem_map_of_mem hm)) hd

/-- A run that has ended stays as it is. -/
theorem eq_of_terminal (h : Passes s d s') (hs : s.isTerminal = true) : s' = s := by
  have fromTerminal : ∀ x ∈ moves, x.1.isTerminal = false := by decide
  induction h with
  | nil => rfl
  | skip _ _ ih => exact ih
  | move _ ht _ ih =>
    have := fromTerminal _ ht
    rw [ih, hs] at this
    cases this

end Passes

end Status

/-- What the history of a run is like, given the types of its events, the oldest first, and its
status. -/
structure IsLifecycle (es : List String) (s : Status) : Prop where
  begins : es = [] ∨ es = ["run.cancelled"] ∨ es.head? = some "run.started"
  pauses : ∀ l b r, es = l ++ "run.paused" :: b :: r → b = "run.resumed" ∨ b = "run.cancelled"
  resumes : ∀ l r, es = l ++ "run.resumed" :: r → l.getLast? = some "run.paused"
  ends : ∀ l a r, es = l ++ a :: r → a ∈ terminalTypes → r = []
  rests : s = .paused → es.getLast? = some "run.paused"
  status : s = (es.reverse.findSome? Status.named?).getD .pending

namespace IsLifecycle

variable {es : List String} {s s' : Status} {t : String}

theorem nil : IsLifecycle [] .pending where
  begins := .inl rfl
  pauses l b r h := by simp at h
  resumes l r h := by simp at h
  ends l a r h := by simp at h
  rests h := by cases h
  status := rfl

/-- A list that ends with a new element, split right at it or somewhere before. -/
theorem split_snoc {α : Type} {es l r : List α} {a t : α} (h : es ++ [t] = l ++ a :: r) :
    (r = [] ∧ a = t ∧ es = l) ∨ ∃ r', r = r' ++ [t] ∧ es = l ++ a :: r' := by
  rcases List.eq_nil_or_concat r with rfl | ⟨r', b, rfl⟩
  · obtain ⟨rfl, ht⟩ := List.append_inj' h rfl
    exact .inl ⟨rfl, (List.singleton_inj.mp ht).symm, rfl⟩
  · have hs : es ++ [t] = (l ++ a :: r') ++ [b] := by simpa using h
    obtain ⟨rfl, ht⟩ := List.append_inj' hs rfl
    exact .inr ⟨r', by rw [List.singleton_inj.mp ht, List.concat_eq_append], rfl⟩

/-- The status is the one that the last event names, if it names any. -/
theorem status_of_named (h : IsLifecycle (es ++ [t]) s) (hs : Status.named? t = some s') : s = s' := by
  rw [h.status, List.reverse_append, List.reverse_singleton, List.singleton_append,
    List.findSome?_cons, hs]
  rfl

theorem begins_snoc (h : IsLifecycle es s) (hm : (s, t, s') ∈ Status.moves) :
    es ++ [t] = [] ∨ es ++ [t] = ["run.cancelled"] ∨ (es ++ [t]).head? = some "run.started" := by
  have fromPending : ∀ x ∈ Status.moves, x.1 = .pending →
      x.2.1 = "run.started" ∨ x.2.1 = "run.cancelled" := by decide
  have fromCancelled : ∀ x ∈ Status.moves, x.1 ≠ .cancelled := by decide
  rcases h.begins with rfl | rfl | hs
  · rcases fromPending _ hm h.status with ht | ht
    · exact .inr (.inr (congrArg some ht))
    · exact .inr (.inl (by rw [List.nil_append, ← ht]))
  · exact absurd h.status (fromCancelled _ hm)
  · exact .inr (.inr (by rw [List.head?_append, hs]; rfl))

theorem pauses_snoc (h : IsLifecycle es s) (hm : (s, t, s') ∈ Status.moves) (l : List String)
    (b : String) (r : List String) (he : es ++ [t] = l ++ "run.paused" :: b :: r) :
    b = "run.resumed" ∨ b = "run.cancelled" := by
  have fromPaused : ∀ x ∈ Status.moves, x.1 = .paused →
      x.2.1 = "run.resumed" ∨ x.2.1 = "run.cancelled" := by decide
  have hb : es ++ [t] = (l ++ ["run.paused"]) ++ b :: r := by simpa using he
  rcases split_snoc hb with ⟨-, rfl, rfl⟩ | ⟨r', -, rfl⟩
  · exact fromPaused _ hm (h.status_of_named rfl)
  · exact h.pauses l b r' (by simp)

theorem resumes_snoc (h : IsLifecycle es s) (hm : (s, t, s') ∈ Status.moves) (l r : List String)
    (he : es ++ [t] = l ++ "run.resumed" :: r) : l.getLast? = some "run.paused" := by
  have toResumed : ∀ x ∈ Status.moves, x.2.1 = "run.resumed" → x.1 = .paused := by decide
  rcases split_snoc he with ⟨-, ht, rfl⟩ | ⟨r', -, hr⟩
  · exact h.rests (toResumed _ hm ht.symm)
  · exact h.resumes l r' hr

theorem ends_snoc (h : IsLifecycle es s) (hm : (s, t, s') ∈ Status.moves) (l : List String)
    (a : String) (r : List String) (he : es ++ [t] = l ++ a :: r) (ha : a ∈ terminalTypes) :
    r = [] := by
  have terminal : ∀ a ∈ terminalTypes, ∃ s, Status.named? a = some s ∧ s.isTerminal := by decide
  have fromTerminal : ∀ x ∈ Status.moves, x.1.isTerminal = false := by decide
  rcases split_snoc he with ⟨rfl, -⟩ | ⟨r', -, rfl⟩
  · rfl
  · have hr := h.ends l a r' rfl ha
    subst hr
    obtain ⟨s'', hn, ht⟩ := terminal a ha
    rw [← h.status_of_named hn, fromTerminal _ hm] at ht
    cases ht

theorem snoc (h : IsLifecycle es s) (hm : (s, t, s') ∈ Status.moves) :
    IsLifecycle (es ++ [t]) s' where
  begins := h.begins_snoc hm
  pauses := h.pauses_snoc hm
  resumes := h.resumes_snoc hm
  ends := h.ends_snoc hm
  rests hs := by
    have toPaused : ∀ x ∈ Status.moves, x.2.2 = .paused → x.2.1 = "run.paused" := by decide
    rw [List.getLast?_concat]
    exact congrArg some (toPaused _ hm hs)
  status := by
    have named : ∀ x ∈ Status.moves, Status.named? x.2.1 = some x.2.2 ∨
        Status.named? x.2.1 = none ∧ x.2.2 = x.1 := by decide
    rw [List.reverse_append, List.reverse_singleton, List.singleton_append, List.findSome?_cons]
    rcases named _ hm with hn | ⟨hn, hs⟩
    · rw [show Status.named? t = some s' from hn]
      rfl
    · rw [show Status.named? t = none from hn, show s' = s from hs]
      exact h.status

/-- Nothing follows the end of a run, and its status stays. -/
theorem eq_of_terminal {late : List String} (h : IsLifecycle es s) (hs : s.isTerminal = true)
    (k : IsLifecycle (es ++ late) s') : s' = s := by
  have fromTerminal {t : String} {s : Status} (hn : Status.named? t = some s)
      (hs : s.isTerminal = true) : t ∈ terminalTypes := by
    unfold Status.named? at hn
    split at hn <;> cases hn <;> first | decide | cases hs
  cases hf : es.reverse.findSome? Status.named? with
  | none =>
    rw [h.status, hf] at hs
    cases hs
  | some r =>
    obtain ⟨t, ht, hn⟩ := List.exists_of_findSome?_eq_some hf
    obtain ⟨l, r', rfl⟩ := List.append_of_mem (List.mem_reverse.mp ht)
    have hr : r = s := by rw [h.status, hf]; rfl
    have hlate := k.ends l t (r' ++ late) (by simp) (fromTerminal hn (hr ▸ hs))
    obtain ⟨rfl, rfl⟩ := List.append_eq_nil_iff.mp hlate
    rw [k.status, h.status, List.append_nil]

end IsLifecycle

/-- The types of a run's own events among some effects that begin with the newest, the oldest
first. -/
def kernelTypes (log : List Effect) : List String :=
  log.reverse.filterMap Effect.kernelType?

theorem kernelTypes_append (late log : List Effect) :
    kernelTypes (late ++ log) = kernelTypes log ++ kernelTypes late := by
  rw [kernelTypes, List.reverse_append, List.filterMap_append, ← kernelTypes, ← kernelTypes]

/-- A run that has passed from the start to a status has had the events of a life. -/
theorem Status.Passes.lifecycle {log : List Effect} {s : Status} (h : Passes .pending log s) :
    IsLifecycle (kernelTypes log) s := by
  induction h with
  | nil => exact .nil
  | skip he _ ih => simpa [kernelTypes, he] using ih
  | move he ht _ ih => simpa [kernelTypes, he] using ih.snoc ht

end Workflow
