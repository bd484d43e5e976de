import Workflow.Proofs.Event.Numbering
/-!
Subscriptions that are taken back by the function each of them came with. The functions go by their
listener: one that is called once more, or after its run was forgotten, takes back another subscription of
the same listener to the same run if there is one. Where none is called so, listeners are called as often
as they are subscribed.
-/

namespace Workflow.Bus

variable {L : Type}

/-- A subscription with whether it is in force: neither was its function called nor its run forgotten
since. -/
structure Subscription (L : Type) where
  listener : L
  target : Option String
  live : Bool := true

/-- A bus with the subscriptions made on it; the functions that take them back go by their number. -/
structure Subscribers (L : Type) where
  bus : Bus L
  made : List (Subscription L) := []

inductive Request (L : Type) where
  | emit (time : Seconds) (run type : String) (payload : Entries Value)
  | subscribe (listener : L) (target : Option String)
  /-- Calls the function that the subscription with a number came with. -/
  | takeBack (number : Nat)
  | forget (run : String)

namespace Subscribers

/-- One subscription in a list is no longer in force. -/
theorem countP_lapse {made : List (Subscription L)} {number : Nat} {s : Subscription L}
    (hs : made[number]? = some s) (p : Subscription L → Bool) (hp : p { s with live := false } = false) :
    (made.set number { s with live := false }).countP p = made.countP p - if p s then 1 else 0 := by
  obtain ⟨hn, rfl⟩ := List.getElem?_eq_some_iff.1 hs
  rw [List.countP_set hn, hp, if_neg Bool.false_ne_true, Nat.add_zero]

section
variable [BEq L]

/-- Serves a request, and names the listeners that are called. -/
def serve (c : Subscribers L) : Request L → Subscribers L × List L
  | .emit time run type payload =>
    let (bus, _, told) := c.bus.emit time run type payload
    ({ c with bus }, told)
  | .subscribe listener target =>
    ({ bus := c.bus.subscribe listener target, made := c.made ++ [{ listener, target }] }, [])
  | .takeBack number => match c.made[number]? with
    | none => (c, [])
    | some s => ({
        bus := c.bus.unsubscribe s.listener s.target
        made := c.made.set number { s with live := false } }, [])
  | .forget run => ({
      bus := (c.bus.forget run).1
      made := c.made.map fun s => if s.target = some run then { s with live := false } else s }, [])

def serveAll (c : Subscribers L) (requests : List (Request L)) : Subscribers L :=
  requests.foldl (fun c request => (c.serve request).1) c

/-- How many subscriptions of a listener, to a run or to all runs, are in force. -/
def liveOf (c : Subscribers L) (listener : L) (target : Option String) : Nat :=
  c.made.countP fun s => s.live && s.listener == listener && s.target == target

/-- Whether a request calls the function of a subscription that is no longer in force, while the same
listener is subscribed to the same again. -/
def IsStray (c : Subscribers L) : Request L → Prop
  | .takeBack number => match c.made[number]? with
    | some s => s.live = false ∧ 0 < c.liveOf s.listener s.target
    | none => False
  | _ => False

instance (c : Subscribers L) : DecidablePred c.IsStray
  | .takeBack number => by unfold IsStray; dsimp only; split <;> infer_instance
  | .emit _ _ _ _ | .subscribe _ _ | .forget _ => inferInstanceAs (Decidable False)

/-- None of these requests calls a function astray. -/
def NoneStray (c : Subscribers L) : List (Request L) → Prop
  | [] => True
  | request :: requests => ¬c.IsStray request ∧ (c.serve request).1.NoneStray requests

instance : ∀ (c : Subscribers L) (requests : List (Request L)), Decidable (c.NoneStray requests)
  | _, [] => inferInstanceAs (Decidable True)
  | c, request :: requests =>
    have := instDecidableNoneStray (c.serve request).1 requests
    inferInstanceAs (Decidable (_ ∧ _))

variable {c : Subscribers L}

/-- Listeners are subscribed at most as often as their subscriptions are in force. -/
structure IsSound (c : Subscribers L) : Prop where
  nodup : (Entries.keys c.bus.ofRun).Nodup
  count_le (listener : L) (target : Option String) :
    (c.bus.subscribed target).count listener ≤ c.liveOf listener target

/-- Listeners are subscribed as often as their subscriptions are in force. -/
def IsExact (c : Subscribers L) : Prop :=
  ∀ listener target, (c.bus.subscribed target).count listener = c.liveOf listener target

theorem liveOf_subscribe (c : Subscribers L) (l listener : L) (t target : Option String) :
    (c.serve (.subscribe listener target)).1.liveOf l t =
      c.liveOf l t + if listener == l && target == t then 1 else 0 := by
  simp only [serve, liveOf, List.countP_append, List.countP_singleton, Bool.true_and]

theorem liveOf_takeBack {number : Nat} {s : Subscription L} (hs : c.made[number]? = some s)
    (l : L) (t : Option String) :
    (c.serve (.takeBack number)).1.liveOf l t =
      c.liveOf l t - if s.live && s.listener == l && s.target == t then 1 else 0 := by
  simp only [serve, hs, liveOf]
  exact countP_lapse hs _ rfl

theorem liveOf_forget (c : Subscribers L) (run : String) (l : L) (t : Option String) :
    (c.serve (.forget run)).1.liveOf l t = if t = some run then 0 else c.liveOf l t := by
  simp only [serve, liveOf, List.countP_map]
  split <;> rename_i h
  · refine List.countP_eq_zero.2 fun s _ => ?_
    by_cases hs : s.target = some run <;> simp [h, hs]
  · refine List.countP_congr fun s _ => ?_
    by_cases hs : s.target = some run
    · simp [hs, Ne.symm h]
    · simp [hs]

theorem count_subscribe (c : Subscribers L) (l listener : L) (t target : Option String) :
    ((c.serve (.subscribe listener target)).1.bus.subscribed t).count l =
      (c.bus.subscribed t).count l + if listener == l && target == t then 1 else 0 := by
  simp only [serve, subscribed_subscribe]
  by_cases h : t = target
  · subst h
    simp [List.count_append, List.count_singleton]
  · simp [h, Ne.symm h]

theorem count_forget (hn : (Entries.keys c.bus.ofRun).Nodup) (run : String) (l : L) (t : Option String) :
    ((c.serve (.forget run)).1.bus.subscribed t).count l =
      if t = some run then 0 else (c.bus.subscribed t).count l := by
  simp only [serve, subscribed_forget _ _ _ hn]
  split <;> simp

theorem nodup_serve (hn : (Entries.keys c.bus.ofRun).Nodup) (request : Request L) :
    (Entries.keys (c.serve request).1.bus.ofRun).Nodup := by
  cases request with
  | emit time run type payload => exact hn
  | subscribe listener target =>
    cases target with
    | none => exact hn
    | some run => exact Entries.nodup_keys_insert hn
  | takeBack number =>
    unfold serve
    dsimp only
    split
    · exact hn
    · rename_i s hs
      obtain ⟨ofRun, ofAll, he, hkeys⟩ := unsubscribe_shape c.bus s.listener s.target
      rw [he]
      exact hkeys hn
  | forget run => exact Entries.nodup_keys_erase hn

/-- A function that is called again takes nothing back if it is not called astray. -/
theorem count_eq_zero (h : c.IsSound) {number : Nat} {s : Subscription L}
    (hs : c.made[number]? = some s) (hl : s.live = false) (hstray : ¬c.IsStray (.takeBack number)) :
    (c.bus.subscribed s.target).count s.listener = 0 := by
  have hle := h.count_le s.listener s.target
  by_contra hpos
  refine hstray ?_
  simp only [IsStray, hs]
  exact ⟨hl, by omega⟩

end

variable [BEq L] [LawfulBEq L] {c : Subscribers L}

theorem count_takeBack (hn : (Entries.keys c.bus.ofRun).Nodup) {number : Nat} {s : Subscription L}
    (hs : c.made[number]? = some s) (l : L) (t : Option String) :
    ((c.serve (.takeBack number)).1.bus.subscribed t).count l =
      (c.bus.subscribed t).count l - if s.listener == l && s.target == t then 1 else 0 := by
  simp only [serve, hs, subscribed_unsubscribe _ _ _ _ hn]
  by_cases h : t = s.target
  · subst h
    rw [if_pos rfl, List.count_erase, beq_self_eq_true, Bool.and_true]
  · simp [h, Ne.symm h]

theorem serve_sound (h : c.IsSound) (request : Request L) : (c.serve request).1.IsSound where
  nodup := nodup_serve h.nodup request
  count_le l t := by
    have hle := h.count_le l t
    cases request with
    | emit time run type payload => cases t <;> exact hle
    | subscribe listener target =>
      rw [count_subscribe, liveOf_subscribe]
      exact Nat.add_le_add_right hle _
    | takeBack number =>
      cases hs : c.made[number]? with
      | none => simpa only [serve, hs] using hle
      | some s =>
        rw [count_takeBack h.nodup hs, liveOf_takeBack hs]
        by_cases hl : s.live = true
        · simp only [hl, Bool.true_and]
          omega
        · simp only [hl, Bool.false_and, Bool.false_eq_true, if_false]
          omega
    | forget run =>
      rw [count_forget h.nodup, liveOf_forget]
      split
      · exact Nat.le_refl 0
      · exact hle

theorem serve_exact (h : c.IsSound) (he : c.IsExact) {request : Request L}
    (hstray : ¬c.IsStray request) :
    (c.serve request).1.IsExact := by
  intro l t
  have heq := he l t
  cases request with
  | emit time run type payload => cases t <;> exact heq
  | subscribe listener target => rw [count_subscribe, liveOf_subscribe, heq]
  | takeBack number =>
    cases hs : c.made[number]? with
    | none => simpa only [serve, hs] using heq
    | some s =>
      rw [count_takeBack h.nodup hs, liveOf_takeBack hs, heq]
      by_cases hl : s.live = true
      · simp only [hl, Bool.true_and]
      · have hzero := count_eq_zero h hs (by simpa using hl) hstray
        simp only [hl, Bool.false_and, Bool.false_eq_true, if_false, Nat.sub_zero]
        split
        · rename_i hm
          simp only [Bool.and_eq_true, beq_iff_eq] at hm
          rw [hm.1, hm.2] at hzero
          omega
        · rfl
  | forget run => rw [count_forget h.nodup, liveOf_forget, heq]

theorem serveAll_sound (requests : List (Request L)) : ∀ {c : Subscribers L}, c.IsSound →
    (c.serveAll requests).IsSound := by
  induction requests with
  | nil => intro c h; exact h
  | cons request requests ih => intro c h; exact ih (serve_sound h request)

theorem serveAll_exact (requests : List (Request L)) : ∀ {c : Subscribers L}, c.IsSound → c.IsExact →
    c.NoneStray requests → (c.serveAll requests).IsExact := by
  induction requests with
  | nil => intro c _ he _; exact he
  | cons request requests ih =>
    intro c h he hstray
    exact ih (serve_sound h request) (serve_exact h he hstray.1) hstray.2

/-- However listeners are subscribed, subscriptions taken back, runs forgotten and events emitted: an
event is told to a listener at most as often as it has subscriptions in force to the run or to all runs,
and exactly so often if no function was called astray. A function that is called again and not astray
changes nobody's subscriptions. -/
theorem told_as_subscribed (limit : Nat) (requests : List (Request L)) :
    let c : Subscribers L := serveAll { bus := { historyLimit := limit } } requests
    (∀ time run type payload listener,
      let told := (c.serve (.emit time run type payload)).2
      let live := c.liveOf listener (some run) + c.liveOf listener none
      told.count listener ≤ live ∧
        (NoneStray { bus := { historyLimit := limit } } requests → told.count listener = live)) ∧
      ∀ number s, c.made[number]? = some s → s.live = false → ¬c.IsStray (.takeBack number) →
        ∀ target, (c.serve (.takeBack number)).1.bus.subscribed target = c.bus.subscribed target := by
  have start : IsSound ({ bus := { historyLimit := limit } } : Subscribers L) :=
    ⟨.nil, fun l t => by cases t <;> exact Nat.le_refl 0⟩
  have exact : IsExact ({ bus := { historyLimit := limit } } : Subscribers L) := by
    intro l t
    cases t <;> rfl
  have hs := serveAll_sound requests start
  refine ⟨fun time run type payload listener => ⟨?_, fun hstray => ?_⟩, ?_⟩
  · have hrun := hs.count_le listener (some run)
    have hall := hs.count_le listener none
    simp only [serve, emit, List.count_append]
    exact Nat.add_le_add hrun hall
  · have he := serveAll_exact requests start exact hstray
    simp only [serve, emit, List.count_append]
    exact congrArg₂ (· + ·) (he listener (some run)) (he listener none)
  · intro number s hn hl hstray target
    have hzero := count_eq_zero hs hn hl hstray
    have habsent : s.listener ∉ (serveAll { bus := { historyLimit := limit } } requests).bus.subscribed
        s.target := List.count_eq_zero.1 hzero
    simp only [serve, hn, subscribed_unsubscribe _ _ _ _ hs.nodup]
    split
    · rename_i ht
      rw [ht, List.erase_of_not_mem habsent]
    · rfl

/-- The same listener twice, one subscription taken back and its function not called again. -/
theorem told_as_subscribed_twice :
    let requests : List (Request String) := [
      .subscribe "f" (some "r"), .subscribe "f" (some "r"), .subscribe "f" none, .takeBack 0,
      .subscribe "g" (some "s"), .takeBack 3, .takeBack 3]
    let c : Subscribers String := serveAll { bus := {} } requests
    NoneStray { bus := {} } requests ∧ (c.serve (.emit 0 "r" "t" [])).2.count "f" = 2 := by
  refine ⟨by decide, ?_⟩
  have h := told_as_subscribed 1000 [
      .subscribe "f" (some "r"), .subscribe "f" (some "r"), .subscribe "f" none, .takeBack 0,
      .subscribe "g" (some "s"), .takeBack 3, .takeBack 3]
  exact ((h.1 0 "r" "t" [] "f").2 (by decide)).trans (by decide)

/-- A function that is called twice takes back two subscriptions of its listener: one is in force, and
nobody is told. -/
theorem taken_back_twice :
    let c : Subscribers String := serveAll { bus := {} } [
      .subscribe "f" (some "r"), .subscribe "f" (some "r"), .takeBack 0, .takeBack 0]
    c.liveOf "f" (some "r") = 1 ∧ (c.serve (.emit 0 "r" "t" [])).2.count "f" = 0 := by
  decide

end Subscribers

end Workflow.Bus
