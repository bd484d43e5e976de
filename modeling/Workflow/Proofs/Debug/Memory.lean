import Workflow.Proofs.Debug.Attachment
/-!
How much a debugger keeps. Each of its sessions is about a run that is held, or is attached and one of
those that were left behind, of which there are no more than the settings say; and there are values for
the runs that have a session only. So nothing is kept of a run that no debugger was attached to, unless
a run of its id that was there before has left its session behind.
-/

namespace Workflow

namespace Debugger

variable {d d' d'' : Debugger}

/-- As many sessions may be left behind as before, and if no more were so, then no more are. -/
structure Caps (d d' : Debugger) : Prop where
  retain : d'.retain = d.retain
  retired : d.retired.length ≤ d.retain → d'.retired.length ≤ d.retain

namespace Caps

theorem of_le (hr : d'.retain = d.retain) (h : d'.retired.length ≤ d.retired.length) : Caps d d' :=
  ⟨hr, h.trans⟩

theorem refl (d : Debugger) : Caps d d :=
  of_le rfl le_rfl

theorem trans (h : Caps d d') (g : Caps d' d'') : Caps d d'' :=
  ⟨g.retain.trans h.retain, fun hd => h.retain ▸ g.retired (h.retain ▸ h.retired hd)⟩

end Caps

theorem drop_caps (d : Debugger) (run : String) : Caps d (d.drop run) :=
  .of_le rfl (List.length_erase_le ..)

theorem foldl_drop (runs : List String) (d : Debugger) :
    (runs.foldl drop d).retain = d.retain ∧ (runs.foldl drop d).retired = runs.foldl List.erase d.retired := by
  induction runs generalizing d with
  | nil => exact ⟨rfl, rfl⟩
  | cons run runs ih => exact ih (d.drop run)

/-- The oldest ones that are dropped are those in front. -/
theorem foldl_erase_take (n : Nat) (runs : List String) :
    (runs.take n).foldl List.erase runs = runs.drop n := by
  induction runs generalizing n with
  | nil => simp
  | cons run runs ih =>
    cases n with
    | zero => rfl
    | succ n =>
      rw [List.take_succ_cons, List.foldl_cons, List.erase_cons_head]
      exact ih n

theorem forget_caps (d : Debugger) (run : String) : Caps d (d.forget run) := by
  unfold forget
  split
  · exact drop_caps d run
  · dsimp only
    generalize (if d.retired.contains run then d.retired else d.retired ++ [run]) = retired
    obtain ⟨hr, hd⟩ := foldl_drop (retired.take (retired.length - d.retain)) { d with retired }
    refine ⟨hr, fun _ => ?_⟩
    rw [hd, foldl_erase_take, List.length_drop]
    show retired.length - (retired.length - d.retain) ≤ d.retain
    omega

theorem observe_caps (d : Debugger) (ev : RunEvent) (view : Option RunView) :
    Caps d (d.observe ev view).1 := by
  have hd : (d.observe ev view).1 = (d.takeValues ev).takePosition ev := by
    unfold observe
    dsimp only
    split <;> rfl
  obtain ⟨lastValues, hv⟩ := takeValues_shape d ev
  obtain ⟨f, -, hp⟩ := takePosition_shape (d.takeValues ev) ev
  rw [hd, hp, hv]
  exact .of_le rfl le_rfl

end Debugger

namespace Engine

open Debugger

variable {d : Deed} {ds : List Deed} {e e' : Engine} {k : MachineId} {r : String}

variable {g : Debugger}

theorem Caps.foldl {α : Type} {f : Engine → α → Engine} (hf : ∀ e a, Caps e.debugger (f e a).debugger)
    (as : List α) (h : Caps g e.debugger) : Caps g (as.foldl f e).debugger := by
  induction as generalizing e with
  | nil => exact h
  | cons a as ih => exact ih (h.trans (hf e a))

theorem release_caps (e : Engine) (run : String) : Caps e.debugger (e.release run).debugger := by
  unfold release forget
  dsimp only
  exact Caps.foldl (fun e (_ : Listener) => forget_caps e.debugger run) _ (.refl e.debugger)

theorem emit_caps (e : Engine) (k : MachineId) (type : String) (payload : Entries Value) (view : RunView) :
    Caps e.debugger (e.emit k type payload view).debugger := by
  unfold emit
  dsimp only
  exact Caps.foldl (fun e (_ : Listener) => observe_caps e.debugger _ _) _ (.refl e.debugger)

theorem apply_caps (k : MachineId) (e : Engine) (x : Effect) : Caps e.debugger (apply k e x).debugger := by
  have promised (e : Engine) : e.promiseSlot.debugger = e.debugger := by
    unfold promiseSlot
    split <;> rfl
  cases x with
  | emit type payload view => exact emit_caps e k type payload view
  | giveSlotBack =>
    show Caps e.debugger (promiseSlot _).debugger
    rw [promised]
    exact .refl _
  | passSlotOn =>
    show Caps e.debugger (if e.slots.free > 0 then e.promiseSlot else e).debugger
    split
    · rw [promised]
      exact .refl _
    · exact .refl _
  | note c => cases c <;> exact .refl _
  | prune => exact Caps.foldl release_caps _ (.refl _)
  | ended t =>
    show Caps e.debugger (e.ended k t).debugger
    unfold ended
    split
    · dsimp only
      exact Caps.foldl (f := fun e c => e.queue (.client c 2)) (fun e _ => .refl e.debugger) _ (.refl e.debugger)
    · exact .refl _
  | _ => exact .refl _

theorem settleEffects_caps (h : Caps g e.debugger) (k : MachineId) :
    Caps g (e.settleEffects k).debugger := by
  unfold settleEffects
  exact Caps.foldl (apply_caps k) _ h

theorem onMachine_caps (h : Caps g e.debugger) (k : MachineId) (f : Machine → Machine) :
    Caps g (e.onMachine k f).debugger :=
  settleEffects_caps (e := { e with machines := e.machines.modify k f }) h k

theorem stepActive_caps (e : Engine) (a : Activity) : Caps e.debugger (e.stepActive a).debugger := by
  have h (m : Machine) : Caps e.debugger (settleEffects { e with
      machines := (e.machines.modify a.machine fun _ => default).modify a.machine fun _ => m
      active := none } a.machine).debugger := by
    refine settleEffects_caps ?_ _
    exact .refl e.debugger
  unfold stepActive
  dsimp only
  split <;> exact h _

theorem begin_caps (h : Caps g e.debugger) (k : MachineId) (t : TaskId) :
    Caps g (e.begin k t).debugger := by
  unfold Engine.begin
  dsimp only
  split
  · exact h
  · split
    · split
      · exact onMachine_caps h _ _
      · exact h
    · exact h
    · exact h

theorem Change.caps (h : Change d e e') : Caps e.debugger e'.debugger := by
  cases h with
  | aside h =>
    rw [h.debugger]
    exact .refl _
  | turn => exact stepActive_caps _ _
  | begin =>
    refine begin_caps ?_ _ _
    exact .refl e.debugger
  | tell =>
    refine onMachine_caps ?_ _ _
    exact .refl e.debugger
  | command | interrupt => exact onMachine_caps (.refl _) _ _
  | release run => exact release_caps e run
  | make | makeStandalone => exact .refl _
  | observers => exact .of_le rfl le_rfl
  | attach =>
    unfold openSession
    dsimp only
    split <;> exact .of_le rfl le_rfl
  | detach =>
    unfold dropRetired
    split
    · exact .of_le rfl (List.length_erase_le ..)
    · exact .of_le rfl le_rfl
  | close => exact .of_le rfl (Nat.zero_le _)

theorem Changes.caps (h : Changes d e e') : Caps e.debugger e'.debugger := by
  induction h with
  | refl => exact .refl _
  | tail _ h ih => exact ih.trans h.caps

theorem after_caps (h : e.IsAttended) (hd : .closeDebugger ∉ ds) :
    Caps e.debugger (after ds e).debugger := by
  induction ds generalizing e with
  | nil => exact .refl _
  | cons d ds ih =>
    have hmeet := Changes.caps (h.orderly.meets d)
    have hrest := ih (h.meet fun hc => hd (hc ▸ List.mem_cons_self)) fun hm => hd (List.mem_cons_of_mem _ hm)
    exact hmeet.trans hrest

/-! Who was attached. -/

/-- A debugger has attached itself under an id during some deeds. -/
def AttachedSince (e : Engine) (ds : List Deed) (r : String) : Prop :=
  ∃ before given behind, ds = before ++ .debug given :: behind ∧ (Deed.debug given).Attaches r ∧
    (handle (after before e) given).2.field "ok" = .bool true

theorem AttachedSince.append (h : AttachedSince e ds r) (d : Deed) : AttachedSince e (ds ++ [d]) r := by
  obtain ⟨before, given, behind, rfl, ha, hok⟩ := h
  exact ⟨before, given, behind ++ [d], by simp, ha, hok⟩

/-- A session that was not there is one that a debugger has attached itself by. -/
theorem attachedSince_of_session (h : e.IsAttended) (hs : Entries.contains r e.debugger.sessions = false)
    (hd : .closeDebugger ∉ ds) (hc : Entries.contains r (after ds e).debugger.sessions = true) :
    AttachedSince e ds r := by
  induction ds using List.reverseRecOn with
  | nil =>
    have hc : Entries.contains r e.debugger.sessions = true := hc
    rw [hs] at hc
    cases hc
  | append_singleton ds d ih =>
    have hds : .closeDebugger ∉ ds := fun h => hd (List.mem_append_left _ h)
    have hlate : d ≠ .closeDebugger := fun h => hd (List.mem_append_right _ (List.mem_singleton.mpr h.symm))
    have hatt := h.after hds
    rw [after_append ds [d] e] at hc
    by_cases ha : d.Attaches r
    · obtain ⟨given, rfl⟩ : ∃ given, d = .debug given := by
        cases d with
        | debug given => exact ⟨given, rfl⟩
        | _ => exact absurd ha id
      rcases meet_attaches (after ds e) ha with hmeet | ⟨j, -, -, hok⟩
      · rw [show after [.debug given] (after ds e) = (after ds e).meet (.debug given) from rfl, hmeet] at hc
        exact (ih hds hc).append _
      · exact ⟨ds, given, [], rfl, ha, hok⟩
    · obtain ⟨new, -, hsees⟩ := Stirs.sees (hatt.stirs d) ha hlate hatt.tidy
      exact (ih hds (hsees hc).1).append d

end Engine

/-- A debugger keeps something of a run of some id. -/
def Debugger.Keeps (d : Debugger) (r : String) : Prop :=
  Entries.contains r d.sessions = true ∨ Entries.contains r d.lastValues = true ∨ r ∈ d.retired

namespace Books.IsTidy

variable {b : Books} {r : String}

theorem session_of_retired (h : b.IsTidy) (hr : r ∈ b.retired) : Entries.contains r b.sessions = true := by
  have hg := h.gone hr
  rw [Entries.contains]
  cases hs : Entries.find? r b.sessions with
  | none =>
    rw [hs] at hg
    cases hg
  | some s => rfl

/-- Every session is of a run that is held or has left its session behind. -/
theorem length_sessions_le (h : b.IsTidy) : b.sessions.length ≤ b.runs.length + b.retired.length := by
  have hsub : Entries.keys b.sessions ⊆ Entries.keys b.runs ++ b.retired := by
    intro r hr
    rcases h.known (Entries.contains_iff.mpr hr) with hk | hk
    · exact List.mem_append_left _ (Entries.contains_iff.mp hk)
    · exact List.mem_append_right _ hk
  have hle := (h.sessions.subperm hsub).length_le
  rwa [List.length_append, Entries.keys, Entries.keys, List.length_map, List.length_map] at hle

end Books.IsTidy

namespace Engine

open Debugger

variable {ds : List Deed} {e e' : Engine} {k : MachineId} {r : String}

theorem IsAttended.not_keeps (h : e.IsAttended) (hs : Entries.contains r e.debugger.sessions = false) :
    ¬ e.debugger.Keeps r := by
  have hn : Entries.contains r e.books.sessions ≠ true := Bool.eq_false_iff.mp hs
  rintro (hk | hk | hk)
  · exact hn hk
  · exact hn (h.tidy.recalled r ▸ hk)
  · exact hn (h.tidy.session_of_retired hk)

/-- Nothing is kept of a run as long as no debugger attaches itself, if nothing was. -/
theorem IsAttended.keeps_nothing (h : e.IsAttended) (hs : Entries.contains r e.debugger.sessions = false)
    (hd : .closeDebugger ∉ ds) (ha : ¬ AttachedSince e ds r) : ¬ (Engine.after ds e).debugger.Keeps r :=
  (h.after hd).not_keeps (Bool.eq_false_iff.mpr fun hc => ha (attachedSince_of_session h hs hd hc))

/-- Whatever is done to an engine, each session of its debugger is of a run that is held, or it is
attached and was left behind. No more are left behind than the settings say, and there are values only
where there is a session. So there are no more sessions than runs that are held and that many. Nothing is
kept under an id that no debugger was attached by, nor of a run that no debugger was attached to since it
was made, unless an earlier run of its id had left its session behind. -/
theorem memory_bounded (settings : Settings) (registry : Registry) (provider : Option ElementProvider)
    (shared : Entries Value) (hds : .closeDebugger ∉ ds) :
    let e := after ds (opened settings registry provider shared)
    (∀ r, Entries.contains r e.debugger.sessions = true → Entries.contains r e.runs = true ∨
      e.debugger.isAttached r = true ∧ r ∈ e.debugger.retired) ∧
    e.debugger.retired.length ≤ settings.maxRunsRetained ∧
    (∀ r, Entries.contains r e.debugger.lastValues = true → Entries.contains r e.debugger.sessions = true) ∧
    e.debugger.sessions.length ≤ e.runs.length + settings.maxRunsRetained ∧
    (∀ r, ¬ AttachedSince (opened settings registry provider shared) ds r → ¬ e.debugger.Keeps r) ∧
    ∀ f q e' k, e.createFrom f q = .ok (e', k) → (e'.machine k).run.id ∉ e.debugger.retired →
      ∀ ds', .closeDebugger ∉ ds' → ¬ AttachedSince e' ds' (e'.machine k).run.id →
        ¬ (after ds' e').debugger.Keeps (e'.machine k).run.id := by
  intro e
  have hopened := opened_isAttended settings registry provider shared
  have he : e.IsAttended := hopened.after hds
  have hcap : e.debugger.retired.length ≤ settings.maxRunsRetained :=
    (after_caps hopened hds).retired (Nat.zero_le _)
  refine ⟨fun r hr => ?_, hcap, fun r hr => (he.tidy.recalled r).symm.trans hr, ?_, fun r ha => ?_,
    fun f q e' k hc hr ds' hds' ha => ?_⟩
  · exact (he.tidy.known hr).imp_right fun hg => ⟨he.tidy.gone hg, hg⟩
  · exact he.tidy.length_sessions_le.trans (Nat.add_le_add_left hcap _)
  · exact hopened.keeps_nothing rfl hds ha
  · have hnone : Entries.contains (e'.machine k).run.id e'.debugger.sessions = false :=
      Bool.eq_false_iff.mpr fun hs => hr (createFrom_session he hc hs)
    exact (createFrom_isAttended he hc).keeps_nothing hnone hds' ha

/-- What is done to a run that has been made and is not attached: a variable is set, and it is cancelled
and discarded. -/
def unattended (run : String) (k : MachineId) : List Deed :=
  [.command k (.setVar "y" (.int 5) .null), .cancel run none false, .discard run]

theorem not_attachedSince_unattended (e : Engine) (run : String) (k : MachineId) :
    ¬ AttachedSince e (unattended run k) r := by
  rintro ⟨before, given, behind, h, -⟩
  have hm : Deed.debug given ∈ unattended run k := by
    rw [h]
    simp
  simp [unattended] at hm

/-- One session was left behind; of the next run, which has another id, nothing is. -/
theorem memory_bounded_left : (afterDiscard [.debug (givenFor "attach" "r")]).debugger.sessions.length = 1 ∧
    (afterDiscard [.debug (givenFor "attach" "r")]).debugger.retired = ["r"] ∧
    ∃ e' k, (afterDiscard [.debug (givenFor "attach" "r")]).createFrom waiting { id := some "s" } = .ok (e', k) ∧
      ¬ (after (unattended "s" k) e').debugger.Keeps "s" := by
  have hc : ∃ p, (afterDiscard [.debug (givenFor "attach" "r")]).createFrom waiting { id := some "s" } = .ok p ∧
      (p.1.machine p.2).run.id = "s" := ⟨_, by with_unfolding_all rfl, by with_unfolding_all rfl⟩
  obtain ⟨⟨e', k⟩, hc, hid⟩ := hc
  have hds : .closeDebugger ∉ discarded [.debug (givenFor "attach" "r")] := by simp [discarded]
  have hret : (afterDiscard [.debug (givenFor "attach" "r")]).debugger.retired = ["r"] := by
    with_unfolding_all rfl
  have hone : (afterDiscard [.debug (givenFor "attach" "r")]).debugger.sessions.length = 1 := by
    with_unfolding_all rfl
  refine ⟨hone, hret, e', k, hc, ?_⟩
  have hfresh : (e'.machine k).run.id ∉ (afterDiscard [.debug (givenFor "attach" "r")]).debugger.retired := by
    rw [hid, hret]
    decide
  obtain ⟨-, -, -, -, -, hnew⟩ := memory_bounded {} [] none [] hds
  have hkeeps := hnew _ _ e' k hc hfresh (unattended "s" k) (by simp [unattended])
    (not_attachedSince_unattended e' "s" k)
  rwa [hid] at hkeeps

/-- A run of an id that has a session left behind leaves its own values there, though no debugger was
attached to it. -/
theorem left_session_recalls : ∃ e' k,
    (afterDiscard [.debug (givenFor "attach" "r")]).createFrom waiting { id := some "r" } = .ok (e', k) ∧
    ¬ AttachedSince e' (unattended "r" k) "r" ∧
    Entries.contains "r" (after (unattended "r" k) e').runs = false ∧
    (Entries.find? "r" (after (unattended "r" k) e').debugger.lastValues).bind (Entries.find? "y") =
      some (.int 5) := by
  refine ⟨_, _, by with_unfolding_all rfl, not_attachedSince_unattended _ _ _, ?_, ?_⟩
  · with_unfolding_all rfl
  · with_unfolding_all rfl

end Engine

end Workflow
