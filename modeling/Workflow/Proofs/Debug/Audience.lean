import Workflow.Proofs.Debug.Broadcast
import Workflow.Proofs.Run.Sign
/-!
What clients ask for, as observers are told of it.
-/

namespace Workflow

/-- Whether a deed is about who is told of runs. -/
def Deed.IsEnrolment : Deed → Bool
  | .subscribe _ _ | .unsubscribe _ | .closeDebugger => true
  | _ => false

namespace Engine

open Debugger

variable {d : Deed} {e e' e₁ : Engine} {k : MachineId} {run : String}

/-! Runs that are made and let go of. -/

theorem createFrom_hushed {f : Flow} {r : RunRequest} (h : e.createFrom f r = .ok (e', k)) : Hushed e e' := by
  unfold createFrom at h
  dsimp only at h
  split at h
  · cases h
  · cases h
    unfold Engine.freshId
    split <;> exact ⟨rfl, rfl, rfl, rfl, rfl⟩

theorem createStandalone_hushed (e : Engine) (f : Flow) (r : RunRequest) :
    Hushed e (e.createStandalone f r).1 := by
  unfold createStandalone Engine.freshId
  dsimp only
  split <;> exact ⟨rfl, rfl, rfl, rfl, rfl⟩

theorem keepFlow_hushed {f : Flow} {replace : Bool} (h : e.keepFlow f replace = .ok e') : Hushed e e' := by
  obtain ⟨-, -, h⟩ := bind_ok h
  split at h <;> cases h
  exact ⟨rfl, rfl, rfl, rfl, rfl⟩

theorem deleteFlow_hushed {id : String} (h : e.deleteFlow id = .ok e') : Hushed e e' := by
  unfold deleteFlow at h
  split at h <;> cases h
  exact ⟨rfl, rfl, rfl, rfl, rfl⟩

theorem serve_machines (e : Engine) (c : Client) : (e.serve c).machines = e.machines := by
  unfold serve
  dsimp only
  split
  · rfl
  · obtain ⟨g, h⟩ := release_shape { e with served := c.number :: e.served } ‹String›
    rw [h]

theorem await_hushed (e : Engine) (k : MachineId) (a : AfterEnd) : Hushed e (e.await k a).1 := by
  unfold await
  dsimp only
  split
  · exact ⟨rfl, rfl, rfl, rfl, rfl⟩
  · refine Hushed.trans ?_ (serve_hushed _ _)
    exact ⟨rfl, rfl, rfl, rfl, rfl⟩

theorem await_machines (e : Engine) (k : MachineId) (a : AfterEnd) : (e.await k a).1.machines = e.machines := by
  unfold await
  dsimp only
  split
  · rfl
  · exact serve_machines _ _

/-- A run obeys a command. -/
theorem obey_tells (he : e.IsOrderly) (hl : e.IsHeard) (k : MachineId) (c : Command) :
    Tells e (e.onMachine k fun m => (m.obey c).1) :=
  onMachine_tells hl k _ (Machine.obey_forthright (he.quiet k) c)

theorem cancelMachine_eq (e : Engine) (k : MachineId) (reason : Option String) :
    (e.cancelMachine k reason).1 = e.onMachine k fun m => (m.obey (.cancel reason e.stamp)).1 :=
  commandRun_onMachine e k _

theorem cancelMachine_tells (he : e.IsOrderly) (hl : e.IsHeard) (k : MachineId) (reason : Option String) :
    Tells e (e.cancelMachine k reason).1 := by
  rw [cancelMachine_eq]
  exact obey_tells he hl k _

/-- Whoever waits for the end of a run that is cancelled may let go of it. -/
theorem cancelled_tells (he : e.IsOrderly) (hl : e.IsHeard) (k : MachineId) (reason : Option String)
    (a : AfterEnd) : Tells e ((e.cancelMachine k reason).1.await k a).1 := by
  refine (cancelMachine_tells he hl k reason).before (fun i => ?_) (await_hushed _ k a)
  rw [machine, machine, await_machines]

theorem discard_tells {n : Nat} (he : e.IsOrderly) (hl : e.IsHeard) (h : e.discard run = .ok (e', n)) :
    Tells e e' := by
  obtain ⟨k, -, h⟩ := bind_ok h
  split at h
  · have hr := release_hushed e run
    generalize e.release run = e₁ at h hr
    cases h
    exact Hushed.tells hl (hr.trans ⟨rfl, rfl, rfl, rfl, rfl⟩)
  · have hc := cancelled_tells he hl k (some "discarded") (.discard run)
    generalize e.cancelMachine k (some "discarded") = y at h hc
    cases h
    exact hc

theorem cancelAndAwait_tells {reason : Option String} {n : Nat} (he : e.IsOrderly) (hl : e.IsHeard)
    (h : e.cancelAndAwait run reason = .ok (e', n)) : Tells e e' := by
  obtain ⟨k, -, h⟩ := bind_ok h
  have hc := cancelled_tells he hl k reason .nothing
  generalize e.cancelMachine k reason = y at h hc
  cases h
  exact hc

theorem startRun_tells (he : e.IsOrderly) (hl : e.IsHeard) (h : e.startRun run = .ok e') : Tells e e' := by
  obtain ⟨k, -, h⟩ := bind_ok h
  dsimp only at h
  split at h
  · cases h
    exact Hushed.tells hl (.refl e)
  · split at h
    · cases h
    · cases h
      exact obey_tells he hl k (.start true)

/-! All runs are cancelled. -/

theorem foldl_apply_runs (k : MachineId) {fs : List Effect} (hp : .prune ∉ fs) (e : Engine) :
    (fs.foldl (apply k) e).runs = e.runs := by
  induction fs generalizing e with
  | nil => rfl
  | cons f fs ih =>
    have hp := not_or.mp (hp ∘ List.mem_cons.mpr)
    rw [List.foldl_cons, ih hp.2, apply_runs k e f (Ne.symm hp.1)]

/-- What a cancelled run is told of is its end. -/
theorem cancel_told {m : Machine} (he : m.effects = []) (reason : Option String) (stamp : Instant) :
    (m.cancel reason stamp).1.run.status.isTerminal = true ∨ (m.cancel reason stamp).1.shown = [] := by
  obtain ⟨ht, hc⟩ | ⟨-, text, ⟨-, hc⟩ | ⟨-, -, hc⟩⟩ := m.cancel_cases reason stamp
  · rw [hc]
    exact .inl ht
  · rw [hc]
    refine .inr ?_
    have hs := (Machine.Still.cancelToken m (some text)).trans (.endPause _)
    exact hs.shown.trans (Machine.shown_of_effects he)
  · rw [hc]
    exact .inl (Machine.finalize_isTerminal _ _ _)

theorem onMachine_run_of_ne {i : MachineId} (hi : i ≠ k) (f : Machine → Machine) :
    ((e.onMachine k f).machine i).run = (e.machine i).run := by
  refine (settleEffects_run _ k i).trans ?_
  rw [machine, machine, Array.getElem?_modify, if_neg (Ne.symm hi)]

/-- A run that is cancelled is told of with its end, or not at all. -/
theorem cancelMachine_speaks (he : e.IsOrderly) (hl : e.IsHeard) (hk : k < e.machines.size)
    (reason : Option String) :
    let e₁ := (e.cancelMachine k reason).1
    e₁.runs = e.runs ∧ ∃ evs : List RunEvent, (∀ ev ∈ evs, ev.run = (e₁.machine k).run.id) ∧
      ((e₁.machine k).run.status.isTerminal = true ∨ evs = []) ∧ Speaks e₁.standOf evs e e₁ := by
  intro e₁
  generalize hm : ((e.machine k).cancel reason e.stamp).1 = m
  have hobey : ((e.machine k).obey (.cancel reason e.stamp)).1 = m := hm
  obtain ⟨hfrank, -⟩ := hobey ▸ Machine.obey_forthright (he.quiet k) (.cancel reason e.stamp)
  have hp : .prune ∉ m.effects := by
    refine Machine.unpruned_of_booked ?_
    rw [← hobey, ((e.machine k).obey_abides (by simp)).booked, Machine.bookedEffects, he.quiet k]
    rfl
  generalize hc : ({ e with machines := e.machines.modify k fun m =>
    (m.obey (.cancel reason e.stamp)).1 } : Engine) = c
  have hck : c.machine k = m := by
    rw [← hc, machine_modify_self e hk]
    exact hobey
  have hcl : c.IsHeard := hc ▸ hl
  have he₁ : e₁ = c.settleEffects k := by
    rw [← hc]
    exact cancelMachine_eq e k reason
  have hruns : e₁.runs = c.runs := by
    rw [he₁]
    exact foldl_apply_runs k (fun h => hp (hck ▸ List.mem_reverse.mp h)) _
  have hrun (i : MachineId) : (e₁.machine i).run = (c.machine i).run := he₁ ▸ settleEffects_run c k i
  obtain ⟨evs, hevs, hnone, hs⟩ := settleEffects_speaks hcl k (hck ▸ hfrank) (hck ▸ hp)
  refine ⟨hruns.trans (hc ▸ rfl), evs, fun ev hev => ?_, ?_, ?_⟩
  · rw [hevs ev hev, hrun]
  · rw [hrun, hck]
    exact (hm ▸ cancel_told (he.quiet k) reason e.stamp).imp_right fun h => hnone (hck ▸ h)
  · rw [standOf_congr hruns hrun, he₁]
    have modified : Speaks c.standOf [] e c := by
      rw [← hc]
      exact .silent _ rfl rfl rfl hl
    exact modified.trans hs

/-- A run is cancelled if it has not ended. -/
def quell (e : Engine) (k : MachineId) : Engine :=
  if (e.machine k).run.status.isTerminal then e else (e.cancelMachine k (some "shutdown")).1

theorem foldl_quell_ended (ht : (e.machine k).run.status.isTerminal = true) (ks : List MachineId) :
    ((ks.foldl quell e).machine k).run = (e.machine k).run := by
  induction ks generalizing e with
  | nil => rfl
  | cons i ks ih =>
    have hrun : ((e.quell i).machine k).run = (e.machine k).run := by
      unfold quell
      split
      · rfl
      · rename_i hi
        rw [cancelMachine_eq]
        exact onMachine_run_of_ne (by rintro rfl; exact hi ht) _
    rw [List.foldl_cons, ih (hrun ▸ ht), hrun]

theorem foldl_quell_speaks (ks : List MachineId) (he : e.IsOrderly) (hl : e.IsHeard) (ha : e.active = none)
    (hk : ∀ k ∈ ks, ∃ run, Entries.find? run e.runs = some k) :
    (ks.foldl quell e).runs = e.runs ∧
      ∃ evs, Speaks (e.standing (ks.foldl quell e)) evs e (ks.foldl quell e) := by
  induction ks generalizing e with
  | nil => exact ⟨rfl, [], .silent _ rfl rfl rfl hl⟩
  | cons k ks ih =>
    obtain ⟨⟨run, hrun⟩, hks⟩ := List.forall_mem_cons.mp hk
    rw [List.foldl_cons]
    by_cases ht : (e.machine k).run.status.isTerminal = true
    · rw [quell, if_pos ht]
      exact ih he hl ha hks
    · rw [quell, if_neg ht]
      obtain ⟨hsize, -⟩ := he.held hrun
      obtain ⟨hruns, evs, hid, hend, hs⟩ := cancelMachine_speaks he hl hsize (some "shutdown")
      have he₁ := he.changes (cancelMachine_changes ha (d := .shutdown) (k := k) (some "shutdown") rfl)
      have ha₁ : (e.cancelMachine k (some "shutdown")).1.active = none := by
        rw [cancelMachine_eq]
        exact (onMachine_rests e k _).active.trans ha
      generalize (e.cancelMachine k (some "shutdown")).1 = e₁ at hruns hid hend hs he₁ ha₁
      obtain ⟨hruns', evs', hs'⟩ := ih he₁ hs.heard ha₁ (hruns ▸ hks)
      refine ⟨hruns'.trans hruns, evs ++ evs', (hs.congr fun ev hev => ?_).trans (hs'.congr fun _ _ => ?_)⟩
      · obtain ht | rfl := hend
        · -- what is told of is the machine that is held under the id of the run
          have hheld : Entries.find? ev.run e₁.runs = some k := by
            rw [hid ev hev, hruns, (he₁.held (hruns ▸ hrun)).2.1, hrun]
          rw [standing, standOf, machine?, ← hruns, hheld]
          exact congrArg some (stand_of_run (foldl_quell_ended ht ks))
        · cases hev
      · rw [standing, standing, hruns]

theorem shutdown_tells (he : e.IsOrderly) (hl : e.IsHeard) (ha : e.active = none) : Tells e e.shutdown := by
  obtain ⟨-, evs, hs⟩ := foldl_quell_speaks (Entries.values e.runs) he hl ha fun k hk => by
    obtain ⟨entry, hmem, rfl⟩ := List.mem_map.mp hk
    exact ⟨entry.1, (Entries.find?_eq_some_iff he.keys).mpr hmem⟩
  exact ⟨evs, _, hs, .refl _⟩

/-! Commands of debuggers. -/

/-- Some notices are told, and the same observers are there. -/
structure Announces (xs : List Notice) (e e' : Engine) : Prop where
  told : ∃ ps, e'.messages = e.messages ++ ps ∧ Notice.Told e.debugger.audience xs ps
  ofRun : e'.debugger.ofRun = e.debugger.ofRun
  ofAll : e'.debugger.ofAll = e.debugger.ofAll
  next : e'.debugger.nextObserver = e.debugger.nextObserver

theorem Announces.before {xs : List Notice} (h : Announces xs e e₁) (g : Hushed e₁ e') : Announces xs e e' :=
  ⟨h.told.imp fun _ hp => ⟨g.messages.trans hp.1, hp.2⟩, g.ofRun.trans h.ofRun, g.ofAll.trans h.ofAll,
    g.next.trans h.next⟩

/-- The commands after which observers are told the state of the run. -/
def showing : List String :=
  ["attach", "detach", "setBreakpoints", "addBreakpoint", "removeBreakpoint"]

/-- The session that observers are told of after a command. -/
def sessionAfter (op run : String) (e e' : Engine) : Option DebugSession :=
  if op = "detach" then (Entries.find? run e.debugger.sessions).map shut
  else Entries.find? run e'.debugger.sessions

/-- How observers hear of a command: not of one that is rejected, and of some others the state of the run
that they lead to. -/
def Echoes (e : Engine) (op run : String) : Except Rejection Reply × Engine → Prop
  | (.error _, e') => e' = e
  | (.ok _, e') =>
    if op ∈ showing then
      e'.emitted = e.emitted ∧
        Announces [.state run (sessionAfter op run e e') (e'.standOf run)] e e'
    else Tells e e'

variable {op : String} {given : Value} {α : Type}

theorem Echoes.ok {v : Reply} (hop : op ∉ showing) (h : Tells e e') : Echoes e op run (.ok v, e') := by
  rw [Echoes, if_neg hop]
  exact h

theorem Echoes.shown {v : Reply} (hop : op ∈ showing) (he : e'.emitted = e.emitted)
    (h : Announces [.state run (sessionAfter op run e e') (e'.standOf run)] e e') :
    Echoes e op run (.ok v, e') := by
  rw [Echoes, if_pos hop]
  exact ⟨he, h⟩

/-- What a command comes to after checks. -/
theorem Echoes.after {x : Work α} {f : α → Work Reply} (hx : Work.Looks x)
    (hf : ∀ a, (x.result e).1 = .ok a → Echoes e op run ((f a).result e)) :
    Echoes e op run ((x >>= f).result e) :=
  hx.leads (P := Echoes e op run) (fun _ => rfl) hf

theorem Echoes.looks (hl : e.IsHeard) (hop : op ∉ showing) {x : Work Reply} (hx : Work.Looks x) :
    Echoes e op run (x.result e) := by
  have h := hx e
  generalize x.result e = y at h
  obtain ⟨r | v, e'⟩ := y
  · exact h
  · cases h
    exact .ok hop (Hushed.tells hl (.refl _))

/-- The state of a run is told after something that nobody is told of. -/
theorem Hushed.announces (h : Hushed e e₁) (run : String) :
    Announces [.state run (Entries.find? run e₁.debugger.sessions) (e₁.standOf run)] e (tellState run e₁) := by
  have hstand : (e₁.view? run).map RunView.stand = e₁.standOf run := by
    rw [view?, Option.map_map]
    rfl
  have htold := pushState_told e₁.debugger run (e₁.view? run)
  rw [hstand, audience_congr h.ofRun h.ofAll] at htold
  exact ⟨⟨_, (messages_push _ _).trans (congrArg (· ++ _) h.messages), htold⟩, h.ofRun, h.ofAll, h.next⟩

theorem openSession_hushed (run : String) (k : MachineId) (e : Engine) :
    Hushed e (openSession run k e) := by
  unfold openSession
  dsimp only
  split <;> exact ⟨rfl, rfl, rfl, rfl, rfl⟩

theorem dropRetired_hushed (run : String) (e : Engine) : Hushed e (dropRetired run e) := by
  unfold dropRetired
  split <;> exact ⟨rfl, rfl, rfl, rfl, rfl⟩

theorem attach_echoes : Echoes e "attach" run ((attach run).result e) := by
  refine .after (requireRun_looks run) fun k _ => ?_
  have ho := openSession_hushed run k e
  exact .shown (by decide) ho.emitted (ho.announces run)

theorem closing_echoes (run : String) (e : Engine) : Echoes e "detach" run (Work.result (do
    modify (closeSession run)
    modify (tellState run)
    let state ← stateOf run
    modify (dropRetired run)
    return state) e) := by
  have hc : Hushed e (closeSession run e) := ⟨rfl, rfl, rfl, rfl, rfl⟩
  have hd := dropRetired_hushed run (tellState run (closeSession run e))
  have hsession : Entries.find? run (closeSession run e).debugger.sessions =
      (Entries.find? run e.debugger.sessions).map shut := by
    show Entries.find? run (Entries.modify run shut e.debugger.sessions) = _
    rw [Entries.find?_modify, if_pos rfl]
  have hstand : (dropRetired run (tellState run (closeSession run e))).standOf run =
      (closeSession run e).standOf run := by
    unfold dropRetired
    split <;> rfl
  have ha := (hc.announces run).before hd
  rw [hsession, ← hstand] at ha
  exact .shown (by decide) hd.emitted ha

theorem detach_echoes : Echoes e "detach" run ((detach run).result e) := by
  refine .after Work.Looks.get fun _ he => ?_
  cases he
  split
  · exact .after (requireRun_looks run) fun _ _ => closing_echoes run e
  · exact closing_echoes run e

theorem control_echoes (he : e.IsOrderly) (hl : e.IsHeard) (hop : op ∉ showing) (cmd needs : String)
    (fits : Status → Bool) (c : Command) :
    Echoes e op run ((control run cmd needs fits (·.obey c)).result e) := by
  refine .after (requireAttached_looks run) fun _ _ => .after (requireMachine_looks run) fun k _ =>
    .after Work.Looks.get fun _ _ => ?_
  dsimp only
  split
  · exact rfl
  · simp only [commandRun_onMachine]
    exact .ok hop (obey_tells he hl k c)

theorem changeBreakpoints_echoes (he : e.IsOrderly) (hop : op ∈ showing) (hd : op ≠ "detach")
    (f : Breakpoints → Breakpoints) : Echoes e op run ((changeBreakpoints run f).result e) := by
  refine .after (requireRun_looks run) fun k _ => ?_
  have hc : Hushed e (e.onMachine k fun m => { m with run := { m.run with breakpoints := f m.run.breakpoints } }) :=
    onMachine_hushed (he.quiet k) ⟨rfl, rfl⟩
  have ha := hc.announces run
  refine .shown hop hc.emitted ?_
  rw [sessionAfter, if_neg hd]
  exact ha

theorem setBreakpoints_echoes (he : e.IsOrderly) (nodes : Value) :
    Echoes e "setBreakpoints" run ((setBreakpoints run nodes).result e) := by
  refine .after (requireAttached_looks run) fun _ _ => ?_
  split
  · exact changeBreakpoints_echoes he (by decide) (by decide) _
  · exact rfl

theorem changeBreakpoint_echoes (he : e.IsOrderly) (hop : op ∈ showing) (hd : op ≠ "detach") (node : Value)
    (f : Breakpoints → String → Breakpoints) :
    Echoes e op run ((changeBreakpoint run node f).result e) := by
  refine .after (requireAttached_looks run) fun _ _ => ?_
  dsimp only
  split
  · exact rfl
  · exact changeBreakpoints_echoes he hop hd _

theorem setVar_echoes (he : e.IsOrderly) (hl : e.IsHeard) (name v frame : Value) :
    Echoes e "setVar" run ((setVar run name v frame).result e) := by
  refine .after (requireAttached_looks run) fun _ _ => ?_
  dsimp only
  split
  · exact rfl
  · refine .after (requireMachine_looks run) fun k _ => .after Work.Looks.get fun _ he' => ?_
    cases he'
    split
    · exact rfl
    · split
      · exact rfl
      · rename_i m hm
        split
        · exact rfl
        · have hobey : ((e.machine k).obey (.setVar name.name v frame)).1 = m := by
            simp only [Machine.obey, hm]
          have hf := Machine.obey_forthright (he.quiet k) (.setVar name.name v frame)
          exact .ok (by decide) (onMachine_tells hl k _ (hobey ▸ hf))

theorem command_echoes (he : e.IsOrderly) (hl : e.IsHeard) (op run : String) (given : Value) :
    Echoes e op run ((command op run given).result e) := by
  unfold command
  split
  · exact attach_echoes
  · exact detach_echoes
  · exact control_echoes he hl (by decide) _ _ _ .pause
  · exact control_echoes he hl (by decide) _ _ _ .resume
  · exact control_echoes he hl (by decide) _ _ _ .stepOver
  · exact setBreakpoints_echoes he _
  · exact changeBreakpoint_echoes he (by decide) (by decide) _ _
  · exact changeBreakpoint_echoes he (by decide) (by decide) _ _
  · exact setVar_echoes he hl _ _ _
  · exact .looks hl (by decide) (getVar_looks run _ _)
  · refine .looks hl ?_ ((requireAttached_looks run).bind fun _ => stateOf_looks run)
    simp_all [showing]

/-- Whether a response says that a command was carried out. -/
def isAccepted (response : Value) : Bool :=
  match response.field "ok" with
  | .bool ok => ok
  | _ => false

/-- What observers are told of a deed itself: the state of a run that a debugger has attached itself to or
detached itself from, or whose breakpoints it has changed. -/
def reply (e : Engine) : Deed → List Notice
  | .debug given =>
    let op := opOf given
    let run := (given.field "runId").name
    let (e', response) := handle e given
    if e.active.isNone && isAccepted response && showing.contains op then
      [.state run (sessionAfter op run e e') (e'.standOf run)]
    else []
  | _ => []

/-- What a command of a debugger leads to, as observers are told of it. -/
theorem handle_tells (he : e.IsOrderly) (hl : e.IsHeard) (ha : e.active = none) (given : Value) :
    e.reply (.debug given) = [] ∧ Tells e (handle e given).1 ∨
      (handle e given).1.emitted = e.emitted ∧ Announces (e.reply (.debug given)) e (handle e given).1 := by
  have hreply : e.reply (.debug given) =
      if isAccepted (handle e given).2 && showing.contains (opOf given) then
        [.state (given.field "runId").name
          (sessionAfter (opOf given) (given.field "runId").name e (handle e given).1)
          ((handle e given).1.standOf (given.field "runId").name)]
      else [] := by
    simp only [reply, ha, Option.isNone_none, Bool.true_and]
  rw [hreply]
  obtain ⟨r, hr⟩ | ⟨hop, r, hr⟩ | hr := handle_cases e given
  · rw [hr]
    exact .inl ⟨rfl, Hushed.tells hl (.refl e)⟩
  · have hop : opOf given = "listRuns" := hop
    rw [hr, hop]
    exact .inl ⟨rfl, Hushed.tells hl (.refl e)⟩
  · have hc := command_echoes he hl (opOf given) (given.field "runId").name given
    have hr : handle e given = match (command (opOf given) (given.field "runId").name given).result e with
      | (.error r, e) => (e, rejected r)
      | (.ok r, e) => (e, accepted r) := hr
    rw [hr]
    generalize (command (opOf given) _ given).result e = y at hc
    obtain ⟨r | v, e'⟩ := y
    · cases hc
      exact .inl ⟨rfl, Hushed.tells hl (.refl _)⟩
    · have hok : isAccepted (accepted v) = true := rfl
      simp only [hok, Bool.true_and, List.contains_iff_mem]
      by_cases hop : opOf given ∈ showing
      · rw [Echoes, if_pos hop] at hc
        rw [if_pos hop]
        exact .inr hc
      · rw [Echoes, if_neg hop] at hc
        rw [if_neg hop]
        exact .inl ⟨rfl, hc⟩

/-! Deeds. -/

/-- What clients ask for but debuggers and observers. -/
theorem ask_tells (he : e.IsOrderly) (hl : e.IsHeard) (ha : e.active = none) (hd : d.IsEnrolment = false)
    (hg : ∀ given, d ≠ .debug given) (h : e.ask d = .ok e') : Tells e e' := by
  have hushed (h : Hushed e e') : Tells e e' := Hushed.tells hl h
  cases d with
  | step | pass t | setHandlers r => cases h; exact Hushed.tells hl ⟨rfl, rfl, rfl, rfl, rfl⟩
  | keepFlow f replace => exact hushed (keepFlow_hushed h)
  | deleteFlow id => exact hushed (deleteFlow_hushed h)
  | create f r =>
    obtain ⟨_, hc, rfl⟩ := map_ok h
    obtain ⟨-, -, hc⟩ := bind_ok hc
    exact Hushed.tells hl (createFrom_hushed hc)
  | createOf flow r =>
    obtain ⟨_, hc, rfl⟩ := map_ok h
    obtain ⟨_, _, hc⟩ := bind_ok hc
    exact Hushed.tells hl (createFrom_hushed hc)
  | createStandalone f r => cases h; exact Hushed.tells hl (createStandalone_hushed e f r)
  | start run => exact startRun_tells he hl h
  | startStandalone k =>
    cases h
    split
    · exact obey_tells he hl k (.start false)
    · exact Hushed.tells hl (.refl e)
  | cancel run reason waits =>
    change (if waits then (e.cancelAndAwait run reason).map (·.1)
      else (e.find run).map fun k => (e.cancelMachine k reason).1) = .ok e' at h
    split at h
    · obtain ⟨_, hc, rfl⟩ := map_ok h
      exact cancelAndAwait_tells he hl hc
    · obtain ⟨k, -, rfl⟩ := map_ok h
      exact cancelMachine_tells he hl k reason
  | discard run =>
    obtain ⟨_, hc, rfl⟩ := map_ok h
    exact discard_tells he hl hc
  | shutdown => cases h; exact shutdown_tells he hl ha
  | cancelTask run =>
    obtain ⟨k, -, h⟩ := bind_ok h
    cases h
    exact onMachine_tells hl k _ ((Machine.interruptMain_still _).forthright (he.quiet k))
  | command k c =>
    cases h
    split
    · exact Hushed.tells hl (.refl e)
    · rw [commandRun_onMachine]
      exact obey_tells he hl k c
  | debug given => exact absurd rfl (hg given)
  | subscribe name run | unsubscribe observer | closeDebugger => cases hd

/-- The events that have been emitted since. -/
def eventsSince (e e' : Engine) : List RunEvent :=
  (e'.emitted.take (e'.emitted.length - e.emitted.length)).reverse

/-- What observers are told of by a deed: its events, with the runs as the deed leaves them, and the deed
itself. -/
def noticesBy (e : Engine) (d : Deed) : List Notice :=
  notices (e.standing (e.meet d)) e.debugger (eventsSince e (e.meet d)) ++ e.reply d

theorem Tells.announces (h : Tells e e') :
    Announces (notices (e.standing e') e.debugger (eventsSince e e')) e e' := by
  obtain ⟨evs, e₁, hs, hh⟩ := h
  have hevs : eventsSince e e' = evs := by
    rw [eventsSince, hh.emitted, hs.emitted, List.length_append, Nat.add_sub_cancel, List.take_left,
      List.reverse_reverse]
  obtain ⟨ps, hp, ht⟩ := hs.told
  obtain ⟨hr, ha, hn⟩ := foldl_note_observers evs e.debugger
  rw [hevs]
  exact ⟨⟨ps, hh.messages.trans hp, ht⟩, hh.ofRun.trans (hs.debugger ▸ hr), hh.ofAll.trans (hs.debugger ▸ ha),
    hh.next.trans (hs.debugger ▸ hn)⟩

theorem notices_of_emitted (stand : String → Option Stand) (h : e'.emitted = e.emitted) :
    notices stand e.debugger (eventsSince e e') = [] := by
  rw [eventsSince, h, Nat.sub_self]
  rfl

/-- The notices of a deed are told, and the same observers are there. -/
theorem meet_announces (he : e.IsOrderly) (hl : e.IsHeard) (hd : d.IsEnrolment = false) :
    Announces (e.noticesBy d) e (e.meet d) := by
  have tells (h : Tells e (e.meet d)) (hr : e.reply d = []) : Announces (e.noticesBy d) e (e.meet d) := by
    rw [noticesBy, hr, List.append_nil]
    exact h.announces
  have same (h : e.meet d = e) (hr : e.reply d = []) : Announces (e.noticesBy d) e (e.meet d) :=
    tells (by rw [h]; exact Hushed.tells hl (.refl e)) hr
  by_cases hg : ∃ given, d = .debug given
  · obtain ⟨given, rfl⟩ := hg
    cases ha : e.active with
    | some a =>
      refine same ?_ ?_
      · show (if e.active.isNone then _ else _) = _
        rw [ha]
        rfl
      · simp [reply, ha]
    | none =>
      have hm : e.meet (.debug given) = (handle e given).1 := by
        show (if e.active.isNone then _ else _) = _
        rw [ha]
        rfl
      obtain ⟨hr, h⟩ | ⟨hemit, h⟩ := handle_tells he hl ha given
      · exact tells (hm ▸ h) hr
      · rw [noticesBy, notices_of_emitted _ (hm ▸ hemit), hm]
        exact h
  · have hr : e.reply d = [] := by
      cases d with
      | debug given => exact absurd ⟨given, rfl⟩ hg
      | _ => rfl
    refine tells ?_ hr
    obtain rfl | ⟨t, rfl⟩ | h | ⟨ha, h⟩ := meet_cases e d
    · show Tells e (e.step.getD e)
      cases h : e.step with
      | none => exact Hushed.tells hl (.refl e)
      | some e' => exact step_tells he hl h
    · exact Hushed.tells hl ⟨rfl, rfl, rfl, rfl, rfl⟩
    · rw [h]
      exact Hushed.tells hl (.refl e)
    · exact ask_tells he hl ha hd (fun given hd => hg ⟨given, hd⟩) h

end Engine

end Workflow
