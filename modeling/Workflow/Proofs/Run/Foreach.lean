import Workflow.Proofs.Run.Items
import Workflow.Proofs.Run.Kin
import Workflow.Proofs.Run.Strain
/-!
Loops over lists. The body is run for the items as they were when the loop began. What it writes passes through
the layer of the item into the scope where the loop is, but for the item itself and its position, of which the
names are bound there as they were before.
-/

namespace Workflow

namespace Machine

variable {P Q : Nat → List Nat → Prop} {m n : Machine} {env : Surroundings} {t : TaskId} {a : Attempt}
  {loop : Loop} {item : String} {index : Option String} {u p : List Pending} {b : Answer}

theorem IsHoused.widen (h : m.IsHoused P) (hr : n.run = m.run) (ht : n.tasks = m.tasks)
    (hPQ : ∀ layers, P m.layers.size layers → Q n.layers.size layers) : n.IsHoused Q where
  root := hPQ _ h.root
  frames f hf := hPQ _ (h.frames f (hr ▸ hf))
  begins {u c i} hs q hq := hPQ _ (h.begins (show m.state? u = _ by rw [state?, ← ht]; exact hs) q hq)
  waits {u p} hp k hk q hq := hPQ _ (h.waits (show m.pending? u = _ by rw [pending?, ← ht]; exact hp) k hk q hq)

theorem call_tasks (m : Machine) (env : Surroundings) (flow : Flow) (layers : List Nat) (node : Node) (shared : Bool)
    (p : List Pending) : (m.call env flow layers node shared p).1.tasks = m.tasks := by
  unfold call
  split <;> rfl

/-- What a node with a loop over a list does when it goes on: it is done with the loop, or it calls the body with
a new layer for an item. -/
inductive Enters (m : Machine) (env : Surroundings) (loop : Loop) (item : String) (index : Option String)
    (u : List Pending) : StepResult → Prop
  | leaves {n : Machine} (hl : n.layers = m.layers) (ht : n.tasks = m.tasks) (b : Answer) :
      Enters m env loop item index u (n, .answer b u)
  | calls {n : Machine} (hl : n.layers = m.layers) (ht : n.tasks = m.tasks) (hr : n.run = m.run) (i : Nat)
      (v : Value) (rest : List Value) : Enters m env loop item index u
        ((n.addLayer (itemLayer item index i v) loop.place.layers).1.call env loop.body
          (m.layers.size :: loop.place.layers) loop.node true (.foreach loop item index (i + 1) rest :: u))

theorem nextItem_enters (hl : n.layers = m.layers) (ht : n.tasks = m.tasks) (hr : n.run = m.run) (i : Nat)
    (items : List Value) : Enters m env loop item index u (n.nextItem env loop item index i items u) := by
  obtain ⟨-, he⟩ | ⟨-, -, he⟩ | ⟨v, rest, -, he⟩ := n.nextItem_cases env loop item index i items u
  · exact he ▸ .leaves hl ht _
  · exact he ▸ .leaves hl ht _
  · rw [he, hl]
    exact .calls hl ht hr i v rest

theorem foreach_enters (b : Answer) (i : Nat) (rest : List Value) :
    Enters m env loop item index u (m.step env t (.answer b) (.foreach loop item index i rest :: u)) := by
  have passed : Enters m env loop item index u (m, .answer b u) := .leaves rfl rfl b
  cases b with
  | outcome o =>
    cases o with
    | completed l => exact nextItem_enters rfl rfl rfl i rest
    | _ => exact passed
  | _ => exact passed

end Machine

/-- Where a task is that goes through the rounds of a loop: in the body, at sites of some kind, or between two
rounds. -/
inductive Circles (Q : List Nat → Prop) (loop : Loop) (item : String) (index : Option String) (u : List Pending) :
    Control → List Pending → Prop
  | inside {c : Control} (ks : List Pending) (hc : c.IsInner) (hs : Lies Q c.site?) (hk : ∀ k ∈ ks, Lies Q k.site?)
      (key : Nat) (flow node : String) (i : Nat) (rest : List Value) :
      Circles Q loop item index u c (ks ++ .frame key flow node :: .foreach loop item index i rest :: u)
  | between (b : Answer) (i : Nat) (rest : List Value) :
      Circles Q loop item index u (.answer b) (.foreach loop item index i rest :: u)

theorem Circles.aim {Q Q' : List Nat → Prop} {loop : Loop} {item : String} {index : Option String}
    {u p : List Pending} {c d : Control} (h : Circles Q loop item index u c p) (hd : d.aim = c.aim)
    (hQ : ∀ layers, Q layers → Q' layers) : Circles Q' loop item index u d p := by
  cases h with
  | inside ks hc hs hk key flow node i rest =>
    exact .inside _ (hc.aim hd) (fun l hl => hQ _ (hs l (Control.site_aim hd ▸ hl)))
      (fun k hm l hl => hQ _ (hk k hm l hl)) key flow node i rest
  | between b i rest => exact Control.eq_answer hd ▸ .between b i rest

/-- What is handed an answer is work at such a site, or the frame of the body. -/
theorem lies_handed {Q : List Nat → Prop} {ks u q : List Pending} {k : Pending} (hk : ∀ k ∈ ks, Lies Q k.site?)
    {key : Nat} {flow node : String} (he : ks ++ .frame key flow node :: u = k :: q) : Lies Q k.site? := by
  cases ks with
  | nil => cases he; exact Machine.lies_none
  | cons l ks => cases he; exact hk k List.mem_cons_self

/-- In the body a step neither begins another round nor ends the attempt. -/
theorem Circles.step {P : Nat → List Nat → Prop} (hP : Widens P) {loop : Loop} {item : String} {index : Option String}
    {u ks : List Pending} {c : Control} {m : Machine} (hc : c.IsInner) (hs : Lies (P m.layers.size) c.site?)
    (hk : ∀ k ∈ ks, Lies (P m.layers.size) k.site?) (key : Nat) (flow node : String) (i : Nat) (rest : List Value)
    (v : Rounds) (a : Attempt) (env : Surroundings) (t : TaskId) :
    let p := ks ++ .frame key flow node :: .foreach loop item index i rest :: u
    let w := v.note a u.length m ⟨t, c, p⟩ (m.step env t c p)
    w.runs = v.runs ∧ w.ending = none ∧ ∃ d q, (m.step env t c p).2.post = .doing d q ∧
      Circles (P (m.step env t c p).1.layers.size) loop item index u d q := by
  intro p w
  have hlodges := Machine.step_lodges hP m env t p hs (fun _ _ _ _ he => lies_handed hk he) fun he => by
    rw [he] at hc
    exact absurd hc id
  -- The frame is left alone, unless it is the frame that is handed an answer.
  have above (ls : List Pending) (hls : ∀ k ∈ ls, Lies (P m.layers.size) k.site?)
      (hrest : c.rest p = ls ++ .frame key flow node :: .foreach loop item index i rest :: u) :
      w.runs = v.runs ∧ w.ending = none ∧ ∃ d q, (m.step env t c p).2.post = .doing d q ∧
        Circles (P (m.step env t c p).1.layers.size) loop item index u d q := by
    have hw : w = _ := Rounds.note_inside v a m env t u (by
      rw [hrest, List.length_append, List.length_cons, List.length_cons]
      omega)
    obtain ⟨d, q, hd⟩ := m.step_post env t (c := c) (p := p) (by rw [hrest]; simp)
    obtain ⟨hsite, ms, hq, hms⟩ := hlodges.heaped hd
    rw [hq, hrest, ← List.append_assoc] at hd
    refine ⟨by rw [hw], by rw [hw], d, _, hd, .inside _ (Machine.step_isInner hc hd) hsite (fun k hk l hl => ?_) ..⟩
    rcases List.mem_append.mp hk with hk | hk
    · exact hms k hk l hl
    · exact hP.mono hlodges.houses.grows (hls k hk l hl)
  cases c with
  | answer b =>
    cases ks with
    | nil =>
      have hw : w = _ := Rounds.note_walk v a m env t u b key flow node (.foreach loop item index i rest) rfl
      refine ⟨by rw [hw], by rw [hw], .answer (b.called flow), _, ?_, .between _ i rest⟩
      cases b <;> rfl
    | cons l ks => exact above ks (fun k hm => hk k (List.mem_cons_of_mem _ hm)) rfl
  | _ => exact above ks hk rfl

/-- A run that begins with a call is in the scope that the flow is called with. -/
theorem Rounds.layers_begun {height : Nat} {m : Machine} {env : Surroundings} {flow : Flow} {layers : List Nat}
    {node : Node} {shared : Bool} {p : List Pending} {z : Round}
    (hz : z ∈ begun height (m.call env flow layers node shared p)) : z.layers = layers := by
  obtain he | ⟨n, key, he, -⟩ := m.call_cases env p flow layers node shared
  · rw [he] at hz
    cases hz
  · rw [he] at hz
    change z ∈ if _ then _ else _ at hz
    split at hz
    · rw [List.mem_singleton.mp hz]
    · cases hz

namespace Execution

variable {P Q : Nat → List Nat → Prop} {x : Execution} {names : List String} {is behind : List Nat}
  {runs : List Round} {a : Happening} {env : Surroundings} {t : TaskId} {c : Control} {p u : List Pending}
  {loop : Loop} {item : String} {index : Option String}

theorem IsHoused.following (hP : Widens P) (h : x.IsHoused P) (hs : List Happening) : (following hs x).IsHoused P := by
  induction hs generalizing x with
  | nil => exact h
  | cons a hs ih => exact ih (h.meet hP a)

/-- The layers of some runs keep certain names to themselves, and lie in front of certain others wherever they
are. -/
structure Encloses (names : List String) (is behind : List Nat) (x : Execution) (runs : List Round) : Prop where
  housed : x.IsHoused (Machine.Threads is behind)
  seals : x.machine.Seals names is
  caller : Machine.Threads is behind x.machine.layers.size behind
  fronts : ∀ i ∈ is, Machine.Within is behind x.machine.layers.size (i :: behind)
  runs : ∀ z ∈ runs, ∃ i ∈ is, z.layers = i :: behind

namespace Encloses

/-- Whatever happens, they do so. -/
theorem meet (h : x.Encloses names is behind runs)
    (hw : a.IsWrite → (x.meet a).machine.layers = x.machine.layers) : (x.meet a).Encloses names is behind runs where
  housed := h.housed.meet (Machine.widens_threads is behind) a
  seals := (h.housed.spreads (Machine.widens_threads is behind) hw).seals h.caller.ne_nil h.seals
  caller := (Machine.widens_threads is behind).mono (x.meet_grows a).2 h.caller
  fronts i hi := (Machine.widens_within is behind).mono (x.meet_grows a).2 (h.fronts i hi)
  runs := h.runs

theorem following (h : x.Encloses names is behind runs) {hs : List Happening} (hw : ∀ a ∈ hs, ¬ a.IsWrite) :
    (following hs x).Encloses names is behind runs := by
  induction hs generalizing x with
  | nil => exact h
  | cons a hs ih =>
    exact ih (h.meet fun ha => absurd ha (hw a List.mem_cons_self)) fun b hb => hw b (List.mem_cons_of_mem _ hb)

/-- A new layer that keeps the names to itself as well, for a run that begins in front of it. -/
theorem push {y : Execution} (h : x.Encloses names is behind runs) {l : Layer} (hl : l.IsSeal names)
    (hy : y.machine.layers = x.machine.layers.push l)
    (hh : y.IsHoused (Machine.Threads (x.machine.layers.size :: is) behind)) {made : List Round}
    (hmade : ∀ z ∈ made, z.layers = x.machine.layers.size :: behind) :
    y.Encloses names (x.machine.layers.size :: is) behind (runs ++ made) := by
  have hgrown : y.machine.layers.size = x.machine.layers.size + 1 := by rw [hy, Array.size_push]
  refine ⟨hh, fun j hj => ?_, hgrown ▸ h.caller.cons, fun j hj => ?_, fun z hz => ?_⟩
  · rw [hy]
    rcases List.mem_cons.mp hj with rfl | hj
    · exact ⟨l, Array.getElem?_push_size, hl⟩
    · obtain ⟨k, hk, hseal⟩ := h.seals j hj
      exact ⟨k, by rw [Array.getElem?_push_lt (h.caller.known j hj), ← Array.getElem?_eq_getElem, hk], hseal⟩
  · rw [hgrown]
    rcases List.mem_cons.mp hj with rfl | hj
    · exact h.caller.within
    · exact (h.fronts j hj).cons
  · rcases List.mem_append.mp hz with hz | hz
    · obtain ⟨j, hj, he⟩ := h.runs z hz
      exact ⟨j, List.mem_cons_of_mem _ hj, he⟩
    · exact ⟨_, List.mem_cons_self, hmade z hz⟩

end Encloses

/-- A step that goes on from another state than the run is in, with all at sites of some kind there. -/
theorem stepIn_isHoused {n : Machine} {s : Strand} {base : List Pending} (hx : x.active = some s)
    (h : n.IsHoused Q) (hQ : Widens Q) (hl : Machine.Lodges Q n base (x.machine.step env s.task s.control s.pending))
    (hb : ∀ k ∈ base, Lies (Q n.layers.size) k.site?) : (x.stepIn env).IsHoused Q := by
  rw [stepIn_eq hx]
  generalize x.machine.step env s.task s.control s.pending = r at hl ⊢
  obtain ⟨hm, hnext⟩ := Machine.turn_isHoused (t := s.task) (h.houses hQ hl.houses) hl.turn fun k hk q hq =>
    hQ.mono hl.houses.grows (hb k hk q hq)
  refine .put hm fun c p he => ?_
  rw [Machine.turn_layers]
  exact hnext c p he

theorem stepIn_tasks (env : Surroundings) (hx : x.active = some ⟨t, c, p⟩) :
    (x.stepIn env).machine.tasks.size = (x.machine.step env t c p).1.tasks.size := by
  rw [stepIn_eq hx]
  exact Descent.size_turn _ _ _

/-- When a node goes on with its loop, the layer for the next item keeps its names to itself. -/
theorem Encloses.enters (h : x.Encloses (item :: index.toList) is behind runs) (hx : x.active = some ⟨t, c, p⟩)
    (hl : loop.place.layers = behind) (hu : ∀ k ∈ u, Lies (Machine.Threads is behind x.machine.layers.size) k.site?)
    (he : Machine.Enters x.machine env loop item index u (x.machine.step env t c p)) :
    (x.stepIn env).machine.scope behind = x.machine.scope behind ∧
    (x.stepIn env).machine.tasks.size = x.machine.tasks.size ∧
    ∃ is', (x.stepIn env).Encloses (item :: index.toList) is' behind
        (runs ++ Rounds.begun u.length (x.machine.step env t c p)) ∧
      (∀ layers, Machine.Within is behind x.machine.layers.size layers →
        Machine.Within is' behind (x.stepIn env).machine.layers.size layers) ∧
      (Rounds.result? u.length (x.machine.step env t c p).2 = none →
        ∃ d q, (x.machine.step env t c p).2.post = .doing d q ∧
          Circles (Machine.Within is' behind (x.stepIn env).machine.layers.size) loop item index u d q) := by
  subst hl
  have hlayers := stepIn_layers env hx
  have htasks := stepIn_tasks env hx
  have hhoused : ∀ {Q : Nat → List Nat → Prop} {n : Machine} {base : List Pending}, n.IsHoused Q → Widens Q →
      Machine.Lodges Q n base (x.machine.step env t c p) → (∀ k ∈ base, Lies (Q n.layers.size) k.site?) →
      (x.stepIn env).IsHoused Q := fun hn hQ hl hb => stepIn_isHoused hx hn hQ hl hb
  have hmeet := h.meet (a := .step env) (fun hw => absurd hw id)
  change (x.stepIn env).Encloses _ _ _ _ at hmeet
  dsimp only at hlayers
  generalize x.machine.step env t c p = r at he hlayers htasks hhoused ⊢
  cases he with
  | @leaves n hl ht b =>
    have hsame : (x.stepIn env).machine.layers = x.machine.layers := hlayers.trans hl
    refine ⟨Machine.scope_congr hsame _, htasks.trans (congrArg Array.size ht), is, ?_, ?_, fun hn => ?_⟩
    · rwa [show Rounds.begun u.length (n, Turn.answer b u) = [] from rfl, List.append_nil]
    · rw [hsame]
      exact fun _ => id
    · cases hn.symm.trans (show Rounds.result? u.length (Turn.answer b u) = some b from if_pos rfl)
  | @calls n hl ht hr i v rest =>
    let o := (n.addLayer (Machine.itemLayer item index i v) loop.place.layers).1
    have ho : o.layers = x.machine.layers.push (Machine.itemLayer item index i v) := by
      rw [← hl]
      rfl
    have hsize : o.layers.size = x.machine.layers.size + 1 := by rw [ho, Array.size_push]
    have hpush : (x.stepIn env).machine.layers = x.machine.layers.push _ :=
      (hlayers.trans (Machine.call_layers _ _ _ _ _ _ _)).trans ho
    have hgrown : (x.stepIn env).machine.layers.size = x.machine.layers.size + 1 := by rw [hpush, Array.size_push]
    have hfront := h.caller.within
    have hold : ∀ place, Lies (Machine.Threads is loop.place.layers x.machine.layers.size) place →
        Lies (Machine.Threads (x.machine.layers.size :: is) loop.place.layers o.layers.size) place :=
      fun place hp q hq => hsize ▸ (hp q hq).cons
    have hpushed : o.IsHoused (Machine.Threads (x.machine.layers.size :: is) loop.place.layers) :=
      h.housed.machine.widen hr ht fun layers hl => hsize ▸ hl.cons
    refine ⟨?_, ?_, x.machine.layers.size :: is, ?_, ?_, ?_⟩
    · exact Machine.scope_push x.machine hpush h.caller.lt
    · exact htasks.trans ((congrArg Array.size (Machine.call_tasks ..)).trans (congrArg Array.size ht))
    · refine h.push (Machine.itemLayer_isSeal item index i v) hpush ?_ fun z => Rounds.layers_begun
      refine hhoused hpushed (Machine.widens_threads _ _) (Machine.call_lodges o env _ _ _ _ ?_) ?_
      · exact hsize ▸ hfront.toThreads
      · refine List.forall_mem_cons.mpr ⟨?_, fun k hk => hold _ (hu k hk)⟩
        exact hold _ (Machine.lies_some h.caller)
    · intro layers hw
      rw [hgrown]
      exact hw.cons
    · intro _
      obtain he | ⟨o', key, he, -⟩ := o.call_cases env (.foreach loop item index (i + 1) rest :: u) loop.body
        (x.machine.layers.size :: loop.place.layers) loop.node true
      · exact ⟨_, _, by rw [he]; rfl, .between _ _ _⟩
      · have entered : (Control.enter ⟨loop.body, x.machine.layers.size :: loop.place.layers, 0⟩ key).IsInner := trivial
        refine ⟨_, _, by rw [he]; rfl, .inside [] entered ?_ (List.forall_mem_nil _) key _ _ _ rest⟩
        rw [hgrown]
        exact Machine.lies_some hfront

variable {is us : List Nat} {v : Rounds} {e : Attempt} {s : Strand}

theorem Dwells.strand (h : x.Dwells (P x.machine.layers.size) s.task) (hx : x.active = some s) :
    s.control.IsInner ∧ Lies (P x.machine.layers.size) s.control.site? ∧
      ∀ b k q, s.control = .answer b → s.pending = k :: q → Lies (P x.machine.layers.size) k.site? := by
  obtain ⟨hc, hs, hp⟩ := h _ _ (post_self hx)
  exact ⟨hc, hs, fun _ k _ _ he => hp k (he ▸ List.mem_cons_self)⟩

/-- A task goes through the rounds of a loop, and so do those that it has made meanwhile. -/
structure IsLooping (x : Execution) (t : TaskId) (loop : Loop) (item : String) (index : Option String)
    (u : List Pending) (is us : List Nat) (v : Rounds) (c : Control) (p : List Pending) : Prop where
  encloses : x.Encloses (item :: index.toList) is loop.place.layers v.runs
  isAt : x.IsAt t c p
  circles : Circles (Machine.Within is loop.place.layers x.machine.layers.size) loop item index u c p
  kin : ∀ w ∈ us, w < x.machine.tasks.size ∧
    (w ≠ t → x.Dwells (Machine.Within is loop.place.layers x.machine.layers.size) w)
  manned : x.IsManned

/-- A step at such sites spares the names in what lies behind. -/
theorem Encloses.spares (h : x.Encloses names is behind runs) (hx : x.active = some s)
    (hs : Lies (Machine.Within is behind x.machine.layers.size) s.control.site?)
    (hp : ∀ b k q, s.control = .answer b → s.pending = k :: q →
      Lies (Machine.Within is behind x.machine.layers.size) k.site?) :
    Scope.Spares names (x.machine.scope behind) ((x.stepIn env).machine.scope behind) :=
  ((Machine.step_spreads x.machine env s.task s.pending (Machine.widens_within is behind) hs hp).trans
    (.same (stepIn_layers env hx))).spares h.caller.toIsChain h.seals

/-- The tasks that there are stay at their sites, and those that are made begin there. -/
theorem kin_dwell (a : Happening) (hP : Widens P) (hm : x.IsManned)
    (hold : ∀ w ∈ us, w < x.machine.tasks.size ∧ (w ≠ t → x.Dwells (P x.machine.layers.size) w))
    (hown : ∀ env s, a = .step env → x.active = some s → s.task = t → s.control.IsInner ∧
      Lies (P x.machine.layers.size) s.control.site? ∧
      ∀ b k q, s.control = .answer b → s.pending = k :: q → Lies (P x.machine.layers.size) k.site?) :
    ∀ w ∈ x.kin a us, w < (x.meet a).machine.tasks.size ∧
      (w ≠ t → (x.meet a).Dwells (P (x.meet a).machine.layers.size) w) := by
  intro w hw
  obtain hw | ⟨hby, hge, hlt⟩ := mem_kin hw
  · obtain ⟨hlt, hd⟩ := hold w hw
    exact ⟨Nat.lt_of_lt_of_le hlt (x.meet_grows a).1, fun hne => (hd hne).meet hP hm hlt a⟩
  · refine ⟨hlt, fun _ => ?_⟩
    obtain ⟨env, s, rfl, hx, hmem⟩ := isBy_iff.mp hby
    by_cases hst : s.task = t
    · obtain ⟨hc, hs, hp⟩ := hown env s rfl hx hst
      exact dwells_made hP hm hx hc hs hp hge
    · obtain ⟨hc, hs, hp⟩ := ((hold s.task hmem).2 hst).strand hx
      exact dwells_made hP hm hx hc hs hp hge

/-- When a step makes no tasks, there are only those that there were, and the others stay at their sites. -/
theorem kin_stays {Q Q' : List Nat → Prop} (hx : x.active = some ⟨t, c, p⟩)
    (htasks : (x.stepIn env).machine.tasks.size = x.machine.tasks.size) (hQ : ∀ layers, Q layers → Q' layers)
    (hold : ∀ w ∈ us, w < x.machine.tasks.size ∧ (w ≠ t → x.Dwells Q w)) :
    ∀ w ∈ x.kin (.step env) us, w < (x.stepIn env).machine.tasks.size ∧ (w ≠ t → (x.stepIn env).Dwells Q' w) := by
  intro w hw
  obtain hw | ⟨-, hge, hlt⟩ := mem_kin hw
  · obtain ⟨hlt, hd⟩ := hold w hw
    refine ⟨htasks ▸ hlt, fun hne => (hd hne).others (a := .step env) hlt ?_ hQ⟩
    simp [stride?, hx, hne.symm]
  · exact absurd (htasks ▸ hlt) (Nat.not_lt.mpr hge)

namespace IsLooping

theorem meet (h : x.IsLooping t loop item index u is us v c p)
    (hw : a.IsWrite → (x.meet a).machine.layers = x.machine.layers) :
    let w := x.noted t u.length e a v
    ∃ is', (x.meet a).Encloses (item :: index.toList) is' loop.place.layers w.runs ∧
      (w.ending = none → ∃ d q, (x.meet a).IsLooping t loop item index u is' (x.kin a us) w d q) ∧
      (x.isBy us a = true → Scope.Spares (item :: index.toList) (x.machine.scope loop.place.layers)
        ((x.meet a).machine.scope loop.place.layers)) := by
  have hwidens := Machine.widens_within is loop.place.layers
  have hmono : ∀ layers, Machine.Within is loop.place.layers x.machine.layers.size layers →
      Machine.Within is loop.place.layers (x.meet a).machine.layers.size layers :=
    fun _ => hwidens.mono (x.meet_grows a).2
  intro w
  obtain ⟨hnone, d, hd, hat⟩ | ⟨env, rfl, hx, hrun⟩ := h.isAt.stays a
  · have hnoted : w = v := noted_none hnone
    have hother : ∀ env s, a = .step env → x.active = some s → s.task ≠ t := by
      rintro env s rfl hx rfl
      simp [stride?, hx] at hnone
    rw [hnoted]
    refine ⟨is, h.encloses.meet hw, fun _ => ⟨d, p, h.encloses.meet hw, hat, h.circles.aim hd hmono, ?_,
      h.manned.meet a⟩, fun hby => ?_⟩
    · exact kin_dwell a hwidens h.manned h.kin fun env s ha hx hst => absurd hst (hother env s ha hx)
    · obtain ⟨env, s, rfl, hx, hmem⟩ := isBy_iff.mp hby
      obtain ⟨-, hs, hp⟩ := ((h.kin s.task hmem).2 (hother env s rfl hx)).strand hx
      exact h.encloses.spares hx hs hp
  · have hnoted : w = v.note e u.length x.machine ⟨t, c, p⟩ (x.machine.step env t c p) := noted_step hx
    have hcircles := h.circles
    have hkin := h.kin
    have hmeet := h.encloses.meet hw
    cases hcircles with
    | inside ks hc hs hk key flow node i rest =>
      have hp : ∀ b k q, c = .answer b → ks ++ .frame key flow node :: .foreach loop item index i rest :: u = k :: q →
          Lies (Machine.Within is loop.place.layers x.machine.layers.size) k.site? :=
        fun _ _ _ _ he => lies_handed hk he
      obtain ⟨hruns, hend, d, q, hpost, hgo⟩ := Circles.step hwidens hc hs hk key flow node i rest v e env t
      rw [hnoted]
      refine ⟨is, hruns ▸ hmeet, fun _ => ⟨d, q, hruns ▸ hmeet, .stepIn hx hrun hpost, ?_, ?_, h.manned.meet _⟩, ?_⟩
      · rw [← stepIn_size env hx] at hgo
        exact hgo
      · refine kin_dwell (.step env) hwidens h.manned hkin fun env' s ha hx' _ => ?_
        cases hx.symm.trans hx'
        exact ⟨hc, hs, hp⟩
      · exact fun _ => h.encloses.spares hx hs hp
    | between b i rest =>
      obtain ⟨-, hpending⟩ := h.encloses.housed.active _ hx
      obtain ⟨hscope, htasks, is', hencloses, hwiden, hgo⟩ := h.encloses.enters hx rfl
        (fun k hk => hpending k (List.mem_cons_of_mem _ hk)) (Machine.foreach_enters b i rest)
      rw [hnoted]
      refine ⟨is', hencloses, fun hend => ?_, fun _ => ?_⟩
      · obtain ⟨d, q, hpost, hgo⟩ := hgo hend
        exact ⟨d, q, hencloses, .stepIn hx hrun hpost, hgo, kin_stays hx htasks hwiden hkin, h.manned.meet _⟩
      · rw [show (x.meet (.step env)).machine.scope loop.place.layers = _ from hscope]
        exact .refl

end IsLooping

/-- As long as an attempt goes on, only some tasks and those that they make change variables. -/
def Sole (t : TaskId) (height : Nat) (a : Attempt) : List TaskId → List Happening → Execution → Rounds → Prop
  | _, [], _, _ => True
  | us, h :: hs, x, v => v.ending = none ∧
      (x.isBy us h = true ∨ (x.meet h).machine.layers = x.machine.layers) ∧
      Sole t height a (x.kin h us) hs (x.meet h) (x.noted t height a h v)

theorem Sole.spares {hs : List Happening} (h : Sole t u.length e us hs x v)
    (hl : v.ending = none → ∃ is c p, x.IsLooping t loop item index u is us v c p) :
    Scope.Spares (item :: index.toList) (x.machine.scope loop.place.layers)
      ((following hs x).machine.scope loop.place.layers) := by
  induction hs generalizing x v us with
  | nil => exact .refl
  | cons a hs ih =>
    obtain ⟨he, hby, hrest⟩ := h
    obtain ⟨is, c, p, hgo⟩ := hl he
    obtain ⟨is', -, hnext, hspares⟩ := hgo.meet (e := e) (a := a) fun hw => hby.resolve_left fun hb => by
      obtain ⟨env, s, rfl, -, -⟩ := isBy_iff.mp hb
      exact hw
    refine .trans ?_ (ih hrest fun he' => ⟨is', hnext he'⟩)
    rcases hby with hby | hsame
    · exact hspares hby
    · rw [Machine.scope_congr hsame]
      exact .refl

end Execution

end Workflow
