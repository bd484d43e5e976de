import Workflow.Expr.Template
import Workflow.Proofs.Scope.Snapshot
import Workflow.Run.Condition
/-!
What expressions, conditions and templates make of a scope and of its snapshot. Both bind the same
names to the same values, so everything comes to the same for them; only where all variables are
asked for at once, the answer is the scope or the snapshot itself.
-/

namespace Workflow

/-- Two results that fail with the same fault or succeed with values in some relation. -/
inductive Results {ε α : Type} (R : α → α → Prop) : Except ε α → Except ε α → Prop
  | ok {a b : α} (h : R a b) : Results R (.ok a) (.ok b)
  | error (f : ε) : Results R (.error f) (.error f)

namespace Results

variable {ε α β : Type} {R : α → α → Prop} {S : β → β → Prop} {x y : Except ε α}

theorem bind (h : Results R x y) {f g : α → Except ε β} (hf : ∀ a b, R a b → Results S (f a) (g b)) :
    Results S (x >>= f) (y >>= g) := by
  cases h with
  | ok h => exact hf _ _ h
  | error f => exact .error f

theorem map (h : Results R x y) {f g : α → β} (hf : ∀ a b, R a b → S (f a) (g b)) :
    Results S (x.map f) (y.map g) := by
  cases h with
  | ok h => exact .ok (hf _ _ h)
  | error f => exact .error f

end Results

mutual

/-- A value in which another one stands in some of the places of `v`. -/
inductive Value.Swap (v w : Value) : Value → Value → Prop
  | same (a : Value) : Swap v w a a
  | swap : Swap v w v w
  | list {as bs : List Value} (h : SwapItems v w as bs) : Swap v w (.list as) (.list bs)
  | obj {fs gs : List (String × Value)} (h : SwapFields v w fs gs) : Swap v w (.obj fs) (.obj gs)

inductive Value.SwapItems (v w : Value) : List Value → List Value → Prop
  | nil : SwapItems v w [] []
  | cons {a b : Value} {as bs : List Value} (h : Swap v w a b) (t : SwapItems v w as bs) :
      SwapItems v w (a :: as) (b :: bs)

/-- The keys stay where they are. -/
inductive Value.SwapFields (v w : Value) :
    List (String × Value) → List (String × Value) → Prop
  | nil : SwapFields v w [] []
  | cons (key : String) {a b : Value} {fs gs : List (String × Value)} (h : Swap v w a b)
      (t : SwapFields v w fs gs) : SwapFields v w ((key, a) :: fs) ((key, b) :: gs)

end

namespace Variables

/-- Variables of the same names and values, in objects that may differ. -/
structure Alike (vars vars' : Variables) : Prop where
  find? : ∀ name, vars.find? name = vars'.find? name
  whole : ∃ fs gs, vars.whole = .obj fs ∧ vars'.whole = .obj gs

/-- The same value, or both times all variables at once. -/
def Matches (vars vars' : Variables) (a b : Value) : Prop :=
  a = b ∨ a = vars.whole ∧ b = vars'.whole

variable {vars vars' : Variables} (h : Alike vars vars') {a b : Value}

include h

theorem Alike.lookup_eq {path : List String} (hp : path ≠ []) :
    vars.lookup path = vars'.lookup path := by
  cases path with
  | nil => exact absurd rfl hp
  | cons name rest => rw [lookup, lookup, h.find? name]

theorem Alike.lookup_matches (path : List String) :
    Matches vars vars' (vars.lookup path) (vars'.lookup path) := by
  cases path with
  | nil => exact .inr ⟨rfl, rfl⟩
  | cons name rest => exact .inl (h.lookup_eq (by simp))

/-- What does not look into objects tells no difference. -/
theorem Alike.congr {α : Type} (hm : Matches vars vars' a b) {f : Value → α}
    (hf : ∀ fs gs, f (.obj fs) = f (.obj gs)) : f a = f b := by
  obtain rfl | ⟨rfl, rfl⟩ := hm
  · rfl
  · obtain ⟨fs, gs, hw, hw'⟩ := h.whole
    rw [hw, hw']
    exact hf fs gs

omit h in
theorem Matches.swap (hm : Matches vars vars' a b) : Value.Swap vars.whole vars'.whole a b := by
  obtain rfl | ⟨rfl, rfl⟩ := hm
  · exact .same a
  · exact .swap

end Variables

/-! Expressions. -/

namespace Expr

open Variables

variable {vars vars' : Variables} (h : Alike vars vars') {a b c d : Value}

include h

theorem isTruthy_eq (hm : Matches vars vars' a b) : a.isTruthy = b.isTruthy :=
  h.congr hm fun _ _ => rfl

theorem applyUnary_eq (hm : Matches vars vars' a b) (op : UnaryOp) :
    applyUnary op a = applyUnary op b :=
  h.congr hm fun _ _ => by cases op <;> rfl

theorem applyBinary_eq (hl : Matches vars vars' a b) (hr : Matches vars vars' c d) (op : BinaryOp) :
    applyBinary op a c = applyBinary op b d := by
  have hleft : applyBinary op a c = applyBinary op b c :=
    h.congr (f := fun v => applyBinary op v c) hl fun _ _ => by cases op <;> rfl
  have hright : applyBinary op b c = applyBinary op b d :=
    h.congr (f := fun v => applyBinary op b v) hr fun _ _ => by cases op <;> rfl
  rw [hleft, hright]

theorem eval_matches (t : Tree) : Results (Matches vars vars') (t.eval vars) (t.eval vars') := by
  induction t with
  | lit v => exact .ok (.inl rfl)
  | path parts => exact .ok (h.lookup_matches parts)
  | unary op t ih => exact ih.map fun a b hm => .inl (applyUnary_eq h hm op)
  | binary op l r ihl ihr =>
    refine ihl.bind fun a b hl => ?_
    have hright : Results (Matches vars vars') (r.eval vars >>= applyBinary op a)
        (r.eval vars' >>= applyBinary op b) := by
      refine ihr.bind fun c d hr => ?_
      rw [applyBinary_eq h hl hr]
      cases applyBinary op b d with
      | ok v => exact .ok (.inl rfl)
      | error f => exact .error f
    rw [isTruthy_eq h hl]
    split
    · exact .ok (.inl rfl)
    · exact .ok (.inl rfl)
    · exact hright

theorem evaluate_matches (expression : Value) :
    Matches vars vars' (evaluate expression vars) (evaluate expression vars') := by
  unfold evaluate
  cases parseValue expression with
  | error f => exact .inl rfl
  | ok t =>
    dsimp only
    have ht := eval_matches h t
    revert ht
    generalize t.eval vars = x, t.eval vars' = y
    intro ht
    cases ht with
    | error f => exact .inl rfl
    | ok hm =>
      obtain rfl | ⟨rfl, rfl⟩ := hm
      · exact .inl rfl
      · obtain ⟨fs, gs, hw, hw'⟩ := h.whole
        rw [Matches, hw, hw']
        exact .inr ⟨rfl, rfl⟩

theorem evaluateCondition_eq (expression : Value) :
    evaluateCondition expression vars = evaluateCondition expression vars' :=
  isTruthy_eq h (evaluate_matches h expression)

end Expr

/-! Conditions. -/

theorem namePath_ne_nil (name : String) : namePath name ≠ [] := by
  unfold namePath
  split
  · simp
  · exact Text.parts_ne_nil name

namespace Condition

open Variables

variable {vars vars' : Variables} (h : Alike vars vars')

include h

theorem variableHolds_eq (fields : Entries Value) (name : Value) :
    variableHolds vars fields name = variableHolds vars' fields name := by
  rw [variableHolds, variableHolds, h.lookup_eq (namePath_ne_nil _)]

theorem holds_eq (condition : Value) : holds vars condition = holds vars' condition := by
  cases condition with
  | str s => exact Expr.evaluateCondition_eq h _
  | obj fields =>
    rw [holds, holds]
    split
    · exact Expr.evaluateCondition_eq h _
    · exact variableHolds_eq h _ _
    · rfl
  | _ => rfl

end Condition

/-! Templates. -/

namespace Template

open Variables

variable {vars vars' : Variables}

section text

variable (h : Alike vars vars')

include h

theorem pathValue_matches (path : List Char) :
    Matches vars vars' (pathValue vars path) (pathValue vars' path) := by
  unfold pathValue
  split
  · exact h.lookup_matches _
  · exact .inl rfl

theorem substitute_eq (fuel : Nat) (cs : List Char) :
    substitute vars fuel cs = substitute vars' fuel cs := by
  induction fuel generalizing cs with
  | zero => rfl
  | succ fuel ih =>
    cases cs with
    | nil => rfl
    | cons c cs =>
      rw [substitute, substitute]
      split
      · rename_i path rest _
        rw [ih rest]
        obtain he | ⟨he, he'⟩ := pathValue_matches h path
        · rw [he]
        · obtain ⟨fs, gs, hw, hw'⟩ := h.whole
          rw [he, he', hw, hw']
          rfl
      · rw [ih cs]

theorem resolveText_swap (s : String) :
    Results (Value.Swap vars.whole vars'.whole) (resolveText vars s) (resolveText vars' s) := by
  unfold resolveText
  dsimp only
  split
  · rename_i path _
    refine .ok ?_
    obtain he | ⟨he, he'⟩ := pathValue_matches h path
    · rw [he]
      exact .same _
    · obtain ⟨fs, gs, hw, hw'⟩ := h.whole
      rw [he, he', hw, hw']
      exact .swap
  · rw [substitute_eq h]
    cases substitute vars' s.toList.length s.toList with
    | ok cs => exact .ok (.same _)
    | error f => exact .error f

end text

mutual

theorem resolve_swap (h : Alike vars vars') : (v : Value) →
    Results (Value.Swap vars.whole vars'.whole) (resolve vars v) (resolve vars' v)
  | .str s => resolveText_swap h s
  | .list items => (resolveItems_swap h items).map fun _ _ hs => .list hs
  | .obj fields => (resolveFields_swap h fields).map fun _ _ hs => .obj hs
  | .undefined => .ok (.same _)
  | .null => .ok (.same _)
  | .bool _ => .ok (.same _)
  | .num _ => .ok (.same _)

theorem resolveItems_swap (h : Alike vars vars') : (vs : List Value) →
    Results (Value.SwapItems vars.whole vars'.whole) (resolveItems vars vs) (resolveItems vars' vs)
  | [] => .ok .nil
  | v :: rest =>
    (resolve_swap h v).bind fun _ _ hv =>
      (resolveItems_swap h rest).bind fun _ _ hs => .ok (.cons hv hs)

theorem resolveFields_swap (h : Alike vars vars') : (fs : List (String × Value)) →
    Results (Value.SwapFields vars.whole vars'.whole) (resolveFields vars fs)
      (resolveFields vars' fs)
  | [] => .ok .nil
  | (key, v) :: rest =>
    (resolve_swap h v).bind fun _ _ hv =>
      (resolveFields_swap h rest).bind fun _ _ hs => .ok (.cons key hv hs)

end

end Template

namespace Scope

variable {s : Scope}

/-- The snapshot of a scope has the same variables as the scope. -/
theorem vars_alike (h : s.IsProper) : s.vars.Alike (.ofValue (.obj s.snapshot)) where
  find? := fun _ => (find?_snapshot h).symm
  whole := ⟨_, _, rfl, rfl⟩

/-- A map that shows all that can be seen in a scope. -/
structure IsShownBy (s : Scope) (es : Entries Value) : Prop where
  reads : ∀ key, s.find? key = Entries.find? key es
  contains : ∀ key, s.contains key = Entries.contains key es
  /-- Iterating comes across every name of the map, and once. -/
  names : s.keys.Nodup ∧ s.keys.Perm (Entries.keys es)
  size : s.size = es.length
  /-- As a map, the scope is this one. -/
  whole : s.visible.Perm es
  paths : ∀ path, path ≠ [] → s.vars.lookup path = (Variables.ofValue (.obj es)).lookup path
  evaluates : ∀ expression, Value.Swap (.obj s.visible) (.obj es) (Expr.evaluate expression s.vars)
    (Expr.evaluate expression (.ofValue (.obj es)))
  holds : ∀ condition,
    Condition.holds s.vars condition = Condition.holds (.ofValue (.obj es)) condition
  resolves : ∀ template, Results (Value.Swap (.obj s.visible) (.obj es))
    (Template.resolve s.vars template) (Template.resolve (.ofValue (.obj es)) template)

/-- Whatever layers a scope has, its snapshot shows all that can be seen in it: reads, names and their
number agree, and so do all expressions, conditions and templates, but that the scope itself stands in
their results where the snapshot stands. -/
theorem snapshot_faithful (s : Scope) (h : s.IsProper) : s.IsShownBy s.snapshot where
  reads := fun _ => (find?_snapshot h).symm
  contains := fun _ => (contains_snapshot h).symm
  names := ⟨nodup_keys h, keys_perm_snapshot h⟩
  size := size_eq_length_snapshot h
  whole := visible_perm_snapshot h
  paths := fun _ hp => (vars_alike h).lookup_eq hp
  evaluates := fun expression => (Expr.evaluate_matches (vars_alike h) expression).swap
  holds := Condition.holds_eq (vars_alike h)
  resolves := Template.resolve_swap (vars_alike h)

/-- A loop's body inside a call that is apart from its caller; each layer hides a name of the next. -/
def threeLayers : Scope := [
  { bindings := [("item", .int 3), ("x", .int 2)], shared := true },
  { bindings := [("x", .int 1), ("y", .null)] },
  { bindings := [("y", .bool true), ("item", .str "out")] }]

/-- A scope whose names are hidden and shared in turns. -/
theorem snapshot_faithful_threeLayers : threeLayers.IsProper ∧
    threeLayers.snapshot = [("y", .null), ("item", .int 3), ("x", .int 2)] ∧
    threeLayers.IsShownBy threeLayers.snapshot := by
  have hp : threeLayers.IsProper := by
    intro l hl
    simp only [threeLayers, List.mem_cons, List.not_mem_nil, or_false] at hl
    obtain rfl | rfl | rfl := hl <;> decide
  exact ⟨hp, rfl, snapshot_faithful threeLayers hp⟩

end Scope

end Workflow
