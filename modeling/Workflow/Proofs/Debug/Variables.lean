import Workflow.Proofs.Debug.Attachment
import Workflow.Proofs.Run.Site
import Workflow.Proofs.Scope.Agreement
/-!
Writing and reading the variables of a run. What a debugger writes under a name it reads there again, in
whatever frame, as long as the name has no dots. Under a name with dots it writes what no name reads, and
reads what is at a path.
-/

namespace Workflow

open Machine

/-- What is told of a value: null if there is none. -/
def Value.told : Value → Value
  | .undefined => .null
  | v => v

namespace Scope

variable {s : Scope} {key name : String}

theorem find?_setLocal (hs : s ≠ []) (key name : String) (v : Value) :
    (s.setLocal key v).find? name = if name = key then some v else s.find? name := by
  cases s with
  | nil => exact absurd rfl hs
  | cons l s =>
    rw [setLocal, find?, Entries.find?_insert]
    by_cases h : name = key
    · rw [if_pos h, if_pos h]
    · rw [if_neg h, if_neg h, find?]

theorem length_setLocal (key : String) (v : Value) (s : Scope) : (s.setLocal key v).length = s.length := by
  cases s <;> rfl

end Scope

section names

variable {name p : String}

theorem namePath_of_plain (h : '.' ∉ name.toList) : namePath name = [name] := by
  have hp : Text.parts name = [name] := Text.parts_eq_iff.mpr ⟨by simp, by simpa using h, by simp⟩
  rw [namePath, hp]
  split
  · rename_i he
    cases he
  · rfl

/-- The parts of a path have no dots. -/
theorem not_mem_of_mem_namePath (h : p ∈ namePath name) : '.' ∉ p.toList := by
  refine Text.not_mem_of_mem_parts (s := name) ?_
  unfold namePath at h
  split at h
  · rename_i part rest hp
    rw [hp]
    exact List.mem_cons_of_mem _ h
  · exact h

end names

namespace Machine

variable {m m' n : Machine} {name : String} {v frame : Value} {layers : List Nat}

theorem IsHoused.isChain (h : m.IsHoused IsChain) (hf : m.frameLayers frame = .ok layers) :
    IsChain m.layers.size layers := by
  unfold frameLayers at hf
  split at hf
  · cases hf
    exact h.root
  · rename_i i
    split at hf
    · cases hf
      cases hi : m.run.stack[i.toNat]? with
      | none => exact h.root
      | some f => exact h.frames f (List.mem_of_getElem? hi)
    · cases hf
  · cases hf

theorem setVar_ok (h : m.setVar name v frame = .ok m') : ∃ layers, m.frameLayers frame = .ok layers ∧
    ∃ s payload, (s = (m.scope layers).set name v ∨ s = (m.scope layers).setLocal name v) ∧
      m' = (m.putScope layers s).emit "vars.patch" payload := by
  unfold setVar at h
  cases hl : m.frameLayers frame with
  | error x => rw [hl] at h; cases h
  | ok layers =>
    rw [hl] at h
    exact ⟨layers, rfl, _, _, ite_eq_or_eq _ _ _, (Except.ok.inj h).symm⟩

/-- After a write the name is bound to the value in the frame's scope, and all other names to what they
were. -/
theorem find?_setVar (hc : IsChain m.layers.size layers) (hl : m.frameLayers frame = .ok layers)
    (h : m.setVar name v frame = .ok m') (other : String) :
    (m'.scope layers).find? other = if other = name then some v else (m.scope layers).find? other := by
  obtain ⟨layers', hl', s, payload, hs, rfl⟩ := setVar_ok h
  cases hl.symm.trans hl'
  have hne : m.scope layers ≠ [] := by
    rw [scope, ne_eq, List.map_eq_nil_iff]
    exact hc.ne_nil
  have hlen : s.length = layers.length := by
    rcases hs with rfl | rfl
    · exact ((Scope.Written.refl _).set name v).length.trans (by simp [scope])
    · exact (Scope.length_setLocal _ _ _).trans (by simp [scope])
  have hscope : ((m.putScope layers s).emit "vars.patch" payload).scope layers = s :=
    scope_putScope (hc.descends.imp fun hij => Nat.ne_of_gt hij) hc.lt hlen
  rw [hscope]
  rcases hs with rfl | rfl
  · exact Scope.find?_set hne _ _ _
  · exact Scope.find?_setLocal hne _ _ _

theorem getVar_eq (m : Machine) (name : String) (frame : Value) :
    m.getVar name frame = (m.frameLayers frame).map fun layers =>
      ((m.vars layers).lookup (namePath name)).told := by
  unfold getVar
  cases m.frameLayers frame with
  | error x => rfl
  | ok layers =>
    refine congrArg Except.ok ?_
    show (match (m.vars layers).lookup (namePath name) with | .undefined => Value.null | v => v) =
      ((m.vars layers).lookup (namePath name)).told
    cases (m.vars layers).lookup (namePath name) <;> rfl

/-- A name reads as the same if the parts of its path are bound to the same. -/
theorem getVar_congr (hf : n.frameLayers frame = m.frameLayers frame)
    (h : ∀ layers, m.frameLayers frame = .ok layers → ∀ p ∈ namePath name,
      (n.scope layers).find? p = (m.scope layers).find? p) :
    n.getVar name frame = m.getVar name frame := by
  rw [getVar_eq, getVar_eq, hf]
  cases hl : m.frameLayers frame with
  | error x => rfl
  | ok layers =>
    have hp := h layers hl
    refine congrArg (fun v : Value => Except.ok v.told) ?_
    cases hpath : namePath name with
    | nil => exact absurd hpath (namePath_ne_nil name)
    | cons p rest =>
      have hfind : (n.vars layers).find? p = (m.vars layers).find? p := hp p (hpath ▸ List.mem_cons_self)
      rw [Variables.lookup, Variables.lookup, hfind]

/-- What is written under a name without dots is read there. -/
theorem getVar_setVar (hm : m.IsHoused IsChain) (h : m.setVar name v frame = .ok m')
    (hn : '.' ∉ name.toList) : m'.getVar name frame = .ok v.told := by
  obtain ⟨layers, hl, -⟩ := setVar_ok h
  have hl' : m'.frameLayers frame = .ok layers := by
    obtain ⟨-, -, s, payload, -, rfl⟩ := setVar_ok h
    exact hl
  rw [getVar_eq, hl', namePath_of_plain hn]
  refine congrArg (fun v : Value => Except.ok v.told) ?_
  have hfind : (m'.vars layers).find? name = some v :=
    (find?_setVar (hm.isChain hl) hl h name).trans (if_pos rfl)
  rw [Variables.lookup, hfind]
  rfl

/-- What is written under a name with dots is read under none. -/
theorem getVar_setVar_dotted (hm : m.IsHoused IsChain) (h : m.setVar name v frame = .ok m')
    (hn : '.' ∈ name.toList) (other : String) : m'.getVar other frame = m.getVar other frame := by
  refine getVar_congr ?_ fun layers hl p hp => ?_
  · obtain ⟨-, -, s, payload, -, rfl⟩ := setVar_ok h
    rfl
  · rw [find?_setVar (hm.isChain hl) hl h, if_neg]
    rintro rfl
    exact not_mem_of_mem_namePath hp hn

/-- A run whose variables and whose frames' layers are those of another one. -/
structure SameVariables (m n : Machine) : Prop where
  layers : n.layers = m.layers
  frames : n.run.stack.map Frame.layers = m.run.stack.map Frame.layers

theorem SameVariables.getVar (h : SameVariables m n) (name : String) (frame : Value) :
    n.getVar name frame = m.getVar name frame := by
  refine getVar_congr ?_ fun layers _ p _ => by rw [scope, scope, h.layers]
  have hlen : n.run.stack.length = m.run.stack.length := by
    simpa using congrArg List.length h.frames
  have hat (i : Nat) : (n.run.stack[i]?).map Frame.layers = (m.run.stack[i]?).map Frame.layers := by
    rw [← List.getElem?_map, ← List.getElem?_map, h.frames]
  unfold frameLayers
  split
  · rfl
  · rw [hlen, hat]
  · rfl

end Machine

namespace Debugger

open Work

variable {e e' : Engine} {run : String} {name v frame given : Value} {k : MachineId} {r : Reply}

/-- What an event tells the debugger attaches and detaches nothing. -/
theorem observe_isAttached (d : Debugger) (ev : RunEvent) (view : Option RunView) (run : String) :
    (d.observe ev view).1.isAttached run = d.isAttached run := by
  have taken : (d.takeValues ev).isAttached run = d.isAttached run := by
    unfold takeValues
    split
    · split
      · rfl
      · split <;> rfl
    · rfl
  have placed (d : Debugger) : (d.takePosition ev).isAttached run = d.isAttached run := by
    unfold takePosition isAttached
    dsimp only
    rw [Entries.find?_modify]
    split
    · cases Entries.find? run d.sessions <;> rfl
    · rfl
  unfold observe
  dsimp only
  split <;> exact (placed _).trans taken

end Debugger

namespace Engine

open Debugger

variable {e e' : Engine} {k : MachineId} {m : Machine}

theorem emit_isAttached (e : Engine) (k : MachineId) (type : String) (payload : Entries Value)
    (view : RunView) (run : String) :
    (e.emit k type payload view).debugger.isAttached run = e.debugger.isAttached run := by
  have told (ls : List Listener) (event : RunEvent) (id : String) (e : Engine) :
      (ls.foldl (fun e (_ : Listener) =>
        { e with debugger := (e.debugger.observe event (e.viewOf id k view)).1 }.push
          (e.debugger.observe event (e.viewOf id k view)).2) e).debugger.isAttached run =
        e.debugger.isAttached run := by
    induction ls generalizing e with
    | nil => rfl
    | cons l ls ih => exact (ih _).trans (observe_isAttached _ _ _ _)
  unfold emit
  exact told _ _ _ _

/-- A machine that has one event to tell of is replaced, and the event is told. -/
theorem onMachine_emit (hk : k < e.machines.size) (hm : m.effects = []) (type : String)
    (payload : Entries Value) :
    let e' := e.onMachine k fun _ => m.emit type payload
    e'.machine k = m ∧ e'.runs = e.runs ∧
      ∀ run, e'.debugger.isAttached run = e.debugger.isAttached run := by
  intro e'
  let replaced : Array Machine := e.machines.modify k fun _ => m.emit type payload
  let e₁ : Engine := { e with machines := replaced.modify k ({ · with effects := [] }) }
  have hat : replaced[k]? = some (m.emit type payload) := by
    rw [Array.getElem?_modify, if_pos rfl, Array.getElem?_eq_getElem hk]
    rfl
  have hk₁ : e₁.machines[k]? = some m := by
    show (replaced.modify k _)[k]? = _
    rw [Array.getElem?_modify, if_pos rfl, hat]
    show some { m.emit type payload with effects := [] } = some m
    rw [← hm]
    rfl
  have he : e' = e₁.emit k type payload m.view := by
    show ({ e with machines := replaced } : Engine).settleEffects k = _
    unfold settleEffects
    rw [machine_of_getElem? (e := { e with machines := replaced }) hat]
    show (Machine.effects (m.emit type payload)).reverse.foldl _ _ = _
    rw [Machine.emit, Machine.effect, hm]
    rfl
  obtain ⟨d, p, hs⟩ := emit_shape e₁ k type payload m.view
  refine ⟨?_, ?_, fun run => ?_⟩
  · rw [he, hs]
    exact machine_of_getElem? (e := e₁) hk₁
  · rw [he, hs]
  · rw [he]
    exact emit_isAttached e₁ k type payload m.view run

end Engine

namespace Debugger

open Work

variable {α β : Type} {e : Engine} {x : Work α} {f : α → Work β} {b : β} {r : Reply} {run name : String}
variable {given v frame : Value}

/-- What comes to something after checks that leave the engine as it is. -/
theorem ok_after (hx : Looks x) (h : ((x >>= f).result e).1 = .ok b) :
    ∃ a, x.result e = (.ok a, e) ∧ (x >>= f).result e = (f a).result e := by
  have hl := hx e
  rw [result_bind] at h ⊢
  generalize x.result e = y at h hl ⊢
  obtain ⟨r | a, e'⟩ := y
  · cases h
  · cases hl
    exact ⟨a, rfl, rfl⟩

/-- A write that was carried out. -/
theorem setVar_result (h : ((setVar run (.str name) v frame).result e).1 = .ok r) :
    ∃ k m, e.debugger.isAttached run = true ∧ name.isEmpty = false ∧
      Entries.find? run e.runs = some k ∧ (e.machine k).run.status.isTerminal = false ∧
      (e.machine k).setVar name v frame = .ok m ∧
      ((setVar run (.str name) v frame).result e).2 = e.onMachine k fun _ => m := by
  unfold setVar at h ⊢
  obtain ⟨_, ha, h₁⟩ := ok_after (requireAttached_looks run) h
  rw [h₁] at h ⊢
  dsimp only at h ⊢
  split at h
  · cases h
  rename_i hn
  rw [if_neg hn]
  obtain ⟨k, hk, h₂⟩ := ok_after (requireMachine_looks run) h
  rw [h₂] at h ⊢
  obtain ⟨e₁, he, h₃⟩ := ok_after Looks.get h
  cases he
  rw [h₃] at h ⊢
  split at h
  · cases h
  rename_i ht
  rw [if_neg ht]
  split at h
  · cases h
  rename_i m hm
  exact ⟨k, m, requireAttached_ok (congrArg (·.1) ha), Bool.eq_false_iff.mpr hn,
    requireMachine_ok (congrArg (·.1) hk), Bool.eq_false_iff.mpr ht, hm, rfl⟩

theorem requireAttached_result (ha : e.debugger.isAttached run = true) :
    (requireAttached run).result e = (.ok (), e) := by
  show result (if e.debugger.isAttached run = true then pure () else _ : Work Unit) e = _
  rw [if_pos ha]
  rfl

/-- What a debugger that is attached to a run is told of a variable. -/
def told (m : Machine) (name frame : Value) : Except Rejection Reply :=
  if name.isVacant then .error .noName
  else match name, m.getVar name.name frame with
    | _, .error frame => .error (.badFrame frame)
    | .str _, .ok v => .ok ("value", v)
    | _, .ok _ => .error .unusable

theorem getVar_result (ha : e.debugger.isAttached run = true)
    (hk : Entries.find? run e.runs = some k) (name frame : Value) :
    (getVar run name frame).result e = (told (e.machine k) name frame, e) := by
  unfold getVar told
  rw [result_bind, requireAttached_result ha]
  dsimp only
  split
  · rfl
  rw [result_bind, show result get e = (.ok e, e) from rfl]
  dsimp only [Engine.machine?]
  rw [hk]
  dsimp only [Option.map_some, Machine.getVar]
  cases (e.machine k).frameLayers frame with
  | error x => cases name <;> rfl
  | ok layers =>
    cases name with
    | str n =>
      show result (match ((e.machine k).vars layers).lookup (namePath n) with
        | .undefined => pure ("value", .null)
        | v => pure ("value", v)) e = (Except.ok ("value",
          match ((e.machine k).vars layers).lookup (namePath n) with
          | .undefined => .null
          | v => v), e)
      cases ((e.machine k).vars layers).lookup (namePath n) <;> rfl
    | _ => rfl

/-- A command that is given for a run comes to what it is carried out with. -/
theorem handle_command (ho : given.isObject = true) (hc : opOf given ∈ commands)
    (hr : (given.field "runId").isVacant = false) : handle e given =
      match (command (opOf given) (given.field "runId").name given).result e with
      | (.error r, e) => (e, rejected r)
      | (.ok r, e) => (e, accepted r) := by
  have hl : (opOf given == "listRuns") = false := by
    refine beq_eq_false_iff_ne.mpr fun he => ?_
    rw [he] at hc
    exact absurd hc (by decide)
  unfold handle
  unfold opOf at hc hl ⊢
  dsimp only
  rw [ho, hl, List.contains_iff_mem.mpr hc, hr]
  rfl

/-- What is not rejected names a command, and all but the listing of runs name a run. -/
theorem handle_accepted (h : (handle e given).2.field "ok" = .bool true) (hl : opOf given ≠ "listRuns") :
    given.isObject = true ∧ opOf given ∈ commands ∧ (given.field "runId").isVacant = false := by
  have rejects {e' : Engine} {r : Rejection} : (e', rejected r).2.field "ok" ≠ .bool true := by rintro ⟨⟩
  unfold handle at h
  dsimp only at h
  split at h
  · exact absurd h rejects
  rename_i ho
  split at h
  · rename_i he
    exact absurd (beq_iff_eq.mp he) hl
  split at h
  · exact absurd h rejects
  rename_i hc
  split at h
  · exact absurd h rejects
  rename_i hr
  simp only [Bool.not_eq_true', Bool.not_eq_false] at ho hc
  exact ⟨ho, List.contains_iff_mem.mp hc, Bool.eq_false_iff.mpr hr⟩

end Debugger

namespace Engine

open Debugger

variable {given asked : Value} {name : String}

/-- A write that is accepted is a write to a run that is held, has not ended, and has a debugger attached
to it. -/
theorem handle_setVar {e : Engine} (hop : opOf given = "setVar") (hn : given.field "name" = .str name)
    (h : (handle e given).2.field "ok" = .bool true) :
    ∃ k m, e.debugger.isAttached (given.field "runId").name = true ∧
      (given.field "runId").isVacant = false ∧ name.isEmpty = false ∧
      Entries.find? (given.field "runId").name e.runs = some k ∧
      (e.machine k).run.status.isTerminal = false ∧
      (e.machine k).setVar name (given.field "value") (given.field "frame") = .ok m ∧
      (handle e given).1 = e.onMachine k fun _ => m := by
  obtain ⟨ho, hc, hr⟩ := handle_accepted h (by rw [hop]; decide)
  have hw := handle_command (e := e) ho hc hr
  rw [hop, show command "setVar" (given.field "runId").name given = Debugger.setVar
    (given.field "runId").name (given.field "name") (given.field "value") (given.field "frame") from rfl, hn] at hw
  have hres (r : Reply) (hr : ((Debugger.setVar (given.field "runId").name (.str name)
    (given.field "value") (given.field "frame")).result e).1 = .ok r) := setVar_result hr
  rw [hw] at h ⊢
  generalize (Debugger.setVar _ _ _ _).result e = y at h hres ⊢
  obtain ⟨r | r, e'⟩ := y
  · cases h
  · obtain ⟨k, m, ha, hne, hk, ht, hm, he⟩ := hres r rfl
    exact ⟨k, m, ha, hr, hne, hk, ht, hm, he⟩

theorem handle_getVar_told {e : Engine} {k : MachineId} (hop : opOf asked = "getVar")
    (hr : (asked.field "runId").isVacant = false)
    (ha : e.debugger.isAttached (asked.field "runId").name = true)
    (hk : Entries.find? (asked.field "runId").name e.runs = some k) : handle e asked =
      (e, match told (e.machine k) (asked.field "name") (asked.field "frame") with
        | .error r => rejected r
        | .ok r => accepted r) := by
  have ho : asked.isObject = true := by
    have bare (v : Value) (hv : v.isObject = false) : opOf v = opOf .null := by
      cases v <;> first | rfl | cases hv
    by_contra hobj
    exact absurd ((bare asked (Bool.eq_false_iff.mpr hobj)).symm.trans hop) (by decide)
  rw [handle_command ho (by rw [hop]; decide) hr, hop]
  rw [show command "getVar" (asked.field "runId").name asked = Debugger.getVar
    (asked.field "runId").name (asked.field "name") (asked.field "frame") from rfl]
  rw [getVar_result ha hk]
  cases told (e.machine k) (asked.field "name") (asked.field "frame") <;> rfl

/-- What a debugger writes under a name without dots it reads there again, in the same frame of the same
run, as long as the run has the variables and the frames that the write left it with. What it writes under
a name with dots is not read: whatever it asks for in the frame is told as before the write. -/
theorem setVar_read_back (settings : Settings) (registry : Registry) (provider : Option ElementProvider)
    (shared : Entries Value) (ds : List Deed) (hop : opOf given = "setVar")
    (hn : given.field "name" = .str name)
    (h : (handle (after ds (opened settings registry provider shared)) given).2.field "ok" = .bool true) :
    let e := after ds (opened settings registry provider shared)
    let e' := (handle e given).1
    let r := (given.field "runId").name
    ∃ k, Entries.find? r e'.runs = some k ∧ e'.debugger.isAttached r = true ∧
      ∀ e'' : Engine, e''.debugger.isAttached r = true → Entries.find? r e''.runs = some k →
        (e'.machine k).SameVariables (e''.machine k) →
        ∀ asked, opOf asked = "getVar" → asked.field "runId" = given.field "runId" →
          asked.field "frame" = given.field "frame" →
          ('.' ∉ name.toList → asked.field "name" = .str name →
            handle e'' asked = (e'', accepted ("value", (given.field "value").told))) ∧
          ('.' ∈ name.toList → handle e'' asked = (e'', (handle e asked).2)) := by
  intro e e' r
  obtain ⟨k, m, ha, hr, hne, hk, -, hm, he⟩ := handle_setVar hop hn h
  have horder : e.IsOrderly := (opened_isOrderly settings registry provider shared).after ds
  have hsize : k < e.machines.size := (horder.held hk).1
  have hnew (m : Machine) (hm : m.IsNew) : (Execution.ofMachine m).IsHoused Machine.IsChain := by
    obtain ⟨id, flow, bindings, breakpoints, pauses, stamp, alone, rfl⟩ := hm
    have hroot : Machine.IsChain 1 Machine.rootLayers :=
      ⟨by simp [Machine.rootLayers], by simp [Machine.rootLayers], by simp [Machine.rootLayers]⟩
    have hc := Machine.IsHoused.create hroot id flow bindings breakpoints pauses stamp
    exact ⟨⟨hc.root, hc.frames, hc.begins, hc.waits⟩, fun s hs => nomatch hs⟩
  obtain ⟨x, hx, hhoused⟩ := each_after (Q := (·.IsHoused Machine.IsChain)) hnew
    (fun x a hx => hx.meet Machine.widens_isChain a) settings registry provider shared ds k hsize
  have hhoused : (e.machine k).IsHoused Machine.IsChain := hx.machine_eq ▸ hhoused.machine
  have hquiet : (e.machine k).effects = [] := hx.machine_eq ▸ hx.quiet
  obtain ⟨layers, -, s, payload, -, hs⟩ := Machine.setVar_ok hm
  obtain ⟨hmachine, hruns, hattached⟩ : e'.machine k = (e.machine k).putScope layers s ∧
      e'.runs = e.runs ∧ ∀ run, e'.debugger.isAttached run = e.debugger.isAttached run := by
    have ho := onMachine_emit (m := (e.machine k).putScope layers s) hsize hquiet "vars.patch" payload
    rw [← hs, ← he] at ho
    exact ho
  have hsame : m.SameVariables (e'.machine k) := by
    rw [hmachine, hs]
    exact ⟨rfl, rfl⟩
  refine ⟨k, hruns ▸ hk, (hattached r).trans ha, fun e'' ha'' hk'' hv asked hasked hrun hframe => ?_⟩
  have hread (name : String) (frame : Value) : (e''.machine k).getVar name frame = m.getVar name frame :=
    (hv.getVar name frame).trans (hsame.getVar name frame)
  have hid : (asked.field "runId").name = r := congrArg Value.name hrun
  have answered {e : Engine} (ha : e.debugger.isAttached r = true) (hk : Entries.find? r e.runs = some k) :=
    handle_getVar_told hasked (hrun.symm ▸ hr) (hid.symm ▸ ha) (hid.symm ▸ hk)
  rw [answered ha'' hk'']
  refine ⟨fun hplain hname => ?_, fun hdots => ?_⟩
  · have hne : ¬ (Value.str name).isVacant = true := Bool.eq_false_iff.mp hne
    unfold Debugger.told
    rw [hname, hframe, if_neg hne, hread, show (Value.str name).name = name from rfl,
      Machine.getVar_setVar hhoused hm hplain]
  · rw [answered ha hk]
    unfold Debugger.told
    rw [hframe, hread, Machine.getVar_setVar_dotted hhoused hm hdots]

/-- An engine with a run that waits to be started, and a debugger attached to it. -/
def attended : Engine :=
  after [.create waiting { id := some "r" }, .debug (givenFor "attach" "r")] (opened {} [] none [])

/-- A command about a variable of the run, and a value for it. -/
def givenOn (type name : String) : Value :=
  .obj [("type", .str type), ("runId", .str "r"), ("name", .str name), ("value", .str "new")]

theorem setVar_read_back_plain :
    (handle attended (givenOn "setVar" "x")).2.field "ok" = .bool true ∧
    let e := (handle attended (givenOn "setVar" "x")).1
    handle e (givenOn "getVar" "x") = (e, accepted ("value", .str "new")) := by
  have hop : opOf (givenOn "setVar" "x") = "setVar" := by decide +kernel
  have hok : (handle attended (givenOn "setVar" "x")).2.field "ok" = .bool true := by
    with_unfolding_all rfl
  obtain ⟨k, hk, ha, hread⟩ := setVar_read_back {} [] none []
    [.create waiting { id := some "r" }, .debug (givenFor "attach" "r")] hop rfl hok
  have hasked : opOf (givenOn "getVar" "x") = "getVar" := by decide +kernel
  exact ⟨hok, (hread _ ha hk ⟨rfl, rfl⟩ (givenOn "getVar" "x") hasked rfl rfl).1 (by decide) rfl⟩

/-- What is written under the name of a path is not read at the path. -/
theorem path_not_read_back :
    (handle attended (givenOn "setVar" "vars.x")).2.field "ok" = .bool true ∧
    (handle (handle attended (givenOn "setVar" "vars.x")).1 (givenOn "getVar" "vars.x")).2 =
      accepted ("value", .null) := by
  constructor
  · with_unfolding_all rfl
  · with_unfolding_all rfl

end Engine

end Workflow
