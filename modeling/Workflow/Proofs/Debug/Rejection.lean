import Workflow.Debug.Command
/-!
A command of a debugger that is rejected changes nothing, and without an attached session all
commands but three are rejected.
-/

namespace Workflow.Debugger

/-- The name of the command that is given. -/
def opOf (given : Value) : String :=
  commandName ((given.field "type").orElse (.str "")).name

namespace Work

variable {α β : Type}

/-- What work comes to, and the engine after it. -/
def result (x : Work α) (e : Engine) : Except Rejection α × Engine :=
  x.run.run e

theorem result_bind (x : Work α) (f : α → Work β) (e : Engine) :
    result (x >>= f) e = match result x e with
      | (.ok a, e) => result (f a) e
      | (.error r, e) => (.error r, e) := by
  have h : result (x >>= f) e =
      (ExceptT.bindCont f (result x e).1 : StateM Engine _).run (result x e).2 := rfl
  rw [h]
  rcases result x e with ⟨r | a, e⟩ <;> rfl

/-- Work that leaves the engine as it is. -/
def Looks (x : Work α) : Prop :=
  ∀ e, (x.result e).2 = e

/-- Work that leaves the engine as it is if it is rejected. -/
def Careful (x : Work α) : Prop :=
  ∀ e r, (x.result e).1 = .error r → (x.result e).2 = e

/-- Work that is never rejected. -/
def Sure (x : Work α) : Prop :=
  ∀ e r, (x.result e).1 ≠ .error r

variable {x : Work α} {f : α → Work β}

theorem Looks.careful (h : Looks x) : Careful x :=
  fun e _ _ => h e

theorem Looks.pure (a : α) : Looks (pure a) :=
  fun _ => rfl

theorem Looks.throw (r : Rejection) : Looks (throw r : Work α) :=
  fun _ => rfl

theorem Looks.get : Looks get :=
  fun _ => rfl

/-- What holds of a rejection, and of work that a check leads to, holds of both together. -/
theorem Looks.leads (h : Looks x) {P : Except Rejection β × Engine → Prop} {e : Engine}
    (hr : ∀ r, P (.error r, e)) (hf : ∀ a, (x.result e).1 = .ok a → P ((f a).result e)) :
    P ((x >>= f).result e) := by
  have hx := h e
  rw [result_bind]
  generalize x.result e = y at hx hf
  obtain ⟨r | a, e⟩ := y <;> cases hx
  · exact hr r
  · exact hf a rfl

theorem Looks.bind (h : Looks x) (hf : ∀ a, Looks (f a)) : Looks (x >>= f) :=
  fun e => h.leads (P := fun y => y.2 = e) (fun _ => rfl) fun a _ => hf a e

/-- What is checked before anything is changed. -/
theorem Looks.before (h : Looks x) (hf : ∀ a, Careful (f a)) : Careful (x >>= f) :=
  fun e => h.leads (P := fun y => ∀ r, y.1 = .error r → y.2 = e) (fun _ _ _ => rfl) fun a _ => hf a e

theorem Sure.careful (h : Sure x) : Careful x :=
  fun e r hr => absurd hr (h e r)

theorem Sure.pure (a : α) : Sure (pure a) := by
  intro e r h
  cases h

theorem Sure.get : Sure get := by
  intro e r h
  cases h

theorem Sure.modify (f : Engine → Engine) : Sure (modify f) := by
  intro e r h
  cases h

theorem Sure.bind (h : Sure x) (hf : ∀ a, Sure (f a)) : Sure (x >>= f) := by
  intro e r hr
  have hx := h e
  rw [result_bind] at hr
  generalize x.result e = y at hx hr
  obtain ⟨r' | a, e⟩ := y
  · exact hx r' rfl
  · exact hf a e r hr

end Work

open Work

/-! Checks. -/

theorem requireRun_looks (run : String) : Looks (requireRun run) := by
  refine Looks.get.bind fun e => ?_
  split
  · exact .pure _
  · exact .throw _

theorem requireMachine_looks (run : String) : Looks (requireMachine run) := by
  refine Looks.get.bind fun e => ?_
  split
  · exact .pure _
  · exact .throw _

theorem requireAttached_looks (run : String) : Looks (requireAttached run) := by
  refine Looks.get.bind fun e => ?_
  split
  · exact .pure _
  · exact (requireRun_looks run).bind fun _ => .throw _

/-! Changes. -/

theorem stateOf_sure (run : String) : Sure (stateOf run) :=
  Sure.get.bind fun _ => .pure _

/-- A change after which the state of a run is told. -/
theorem told_sure (f : Engine → Engine) (run : String) :
    Sure (do modify f; stateOf run) :=
  (Sure.modify f).bind fun _ => stateOf_sure run

theorem attach_careful (run : String) : Careful (attach run) :=
  (requireRun_looks run).before fun k =>
    ((Sure.modify (openSession run k)).bind fun _ => told_sure _ run).careful

theorem closing_sure (run : String) : Sure (do
    modify (closeSession run)
    modify (tellState run)
    let state ← stateOf run
    modify (dropRetired run)
    return state) :=
  (Sure.modify _).bind fun _ => (Sure.modify _).bind fun _ => (stateOf_sure run).bind fun state =>
    (Sure.modify _).bind fun _ => .pure state

theorem detach_careful (run : String) : Careful (detach run) := by
  refine Looks.get.before fun e => ?_
  split
  · exact (requireRun_looks run).before fun _ => (closing_sure run).careful
  · exact (closing_sure run).careful

theorem control_careful (run command needs : String) (fits : Status → Bool)
    (f : Machine → Machine × Bool) : Careful (control run command needs fits f) := by
  refine (requireAttached_looks run).before fun _ => (requireMachine_looks run).before fun k =>
    Looks.get.before fun e => ?_
  dsimp only
  split
  · exact (Looks.throw _).careful
  · exact (told_sure _ run).careful

theorem changeBreakpoints_careful (run : String) (f : Breakpoints → Breakpoints) :
    Careful (changeBreakpoints run f) :=
  (requireRun_looks run).before fun _ =>
    ((Sure.modify _).bind fun _ => told_sure _ run).careful

theorem setBreakpoints_careful (run : String) (nodes : Value) :
    Careful (setBreakpoints run nodes) := by
  refine (requireAttached_looks run).before fun _ => ?_
  split
  · exact changeBreakpoints_careful run _
  · exact (Looks.throw _).careful

theorem changeBreakpoint_careful (run : String) (node : Value)
    (f : Breakpoints → String → Breakpoints) : Careful (changeBreakpoint run node f) := by
  refine (requireAttached_looks run).before fun _ => ?_
  dsimp only
  split
  · exact (Looks.throw _).careful
  · exact changeBreakpoints_careful run _

theorem getVar_looks (run : String) (name frame : Value) : Looks (getVar run name frame) := by
  refine (requireAttached_looks run).bind fun _ => ?_
  dsimp only
  split
  · exact Looks.throw _
  · refine Looks.get.bind fun e => ?_
    split
    · split
      · refine (Looks.pure _).bind fun vars => ?_
        split
        · split <;> exact .pure _
        · exact .throw _
      · exact .throw _
    · refine (Looks.pure _).bind fun vars => ?_
      split
      · split <;> exact .pure _
      · exact .throw _

theorem setVar_careful (run : String) (name v frame : Value) :
    Careful (setVar run name v frame) := by
  refine (requireAttached_looks run).before fun _ => ?_
  dsimp only
  split
  · exact (Looks.throw _).careful
  · refine (requireMachine_looks run).before fun k => Looks.get.before fun e => ?_
    split
    · exact (Looks.throw _).careful
    · split
      · exact (Looks.throw _).careful
      · split
        · exact (Looks.throw _).careful
        · exact (told_sure _ run).careful

theorem command_careful (op run : String) (given : Value) : Careful (command op run given) := by
  unfold command
  split
  · exact attach_careful run
  · exact detach_careful run
  · exact control_careful run _ _ _ _
  · exact control_careful run _ _ _ _
  · exact control_careful run _ _ _ _
  · exact setBreakpoints_careful run _
  · exact changeBreakpoint_careful run _ _
  · exact changeBreakpoint_careful run _ _
  · exact setVar_careful run _ _ _
  · exact (getVar_looks run _ _).careful
  · exact (requireAttached_looks run).before fun _ => (stateOf_sure run).careful

/-! Commands without a session. -/

theorem requireAttached_rejected {e : Engine} {run : String}
    (h : e.debugger.isAttached run = false) :
    ∃ r, ((requireAttached run).result e).1 = .error r := by
  have hx : (requireAttached run).result e =
      (requireRun run >>= fun _ => throw (.notAttached run) : Work Unit).result e := by
    show (if e.debugger.isAttached run = true then _ else _ : Work Unit).result e = _
    rw [h]
    rfl
  rw [hx, result_bind]
  rcases (requireRun run).result e with ⟨r | k, e'⟩
  · exact ⟨r, rfl⟩
  · exact ⟨_, rfl⟩

/-- What needs an attached session is rejected without one. -/
theorem unattached {e : Engine} {run : String} (h : e.debugger.isAttached run = false) {α : Type}
    (f : Unit → Work α) : ∃ r, ((requireAttached run >>= f).result e).1 = .error r := by
  obtain ⟨r, hr⟩ := requireAttached_rejected h
  refine ⟨r, ?_⟩
  rw [result_bind]
  generalize (requireAttached run).result e = y at hr
  obtain ⟨a, e'⟩ := y
  cases hr
  rfl

theorem command_unattached {e : Engine} {op run : String} {given : Value}
    (h : e.debugger.isAttached run = false) (ha : op ≠ "attach") (hd : op ≠ "detach") :
    ∃ r, ((command op run given).result e).1 = .error r := by
  unfold command
  split
  · exact absurd rfl ha
  · exact absurd rfl hd
  · exact unattached h _
  · exact unattached h _
  · exact unattached h _
  · exact unattached h _
  · exact unattached h _
  · exact unattached h _
  · exact unattached h _
  · exact unattached h _
  · exact unattached h _

theorem handle_cases (e : Engine) (given : Value) :
    let op := commandName ((given.field "type").orElse (.str "")).name
    (∃ r, handle e given = (e, rejected r)) ∨
    (op = "listRuns" ∧ ∃ r, handle e given = (e, accepted r)) ∨
    handle e given = match (command op (given.field "runId").name given).result e with
      | (.error r, e) => (e, rejected r)
      | (.ok r, e) => (e, accepted r) := by
  unfold handle
  dsimp only
  split
  · exact .inl ⟨_, rfl⟩
  · split
    · rename_i hl
      exact .inr (.inl ⟨beq_iff_eq.mp hl, _, rfl⟩)
    · split
      · exact .inl ⟨_, rfl⟩
      · split
        · exact .inl ⟨_, rfl⟩
        · exact .inr (.inr rfl)

end Workflow.Debugger
