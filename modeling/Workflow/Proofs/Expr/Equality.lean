import Workflow.Proofs.Expr.Printing
import Workflow.Proofs.Value.Fallible
/-!
What `==` and `!=` make of two values. Texts, numbers and truth values are compared as they are, and any
other values by their texts; but a number or a truth value is never equal to a value of another kind,
whatever the text of that value is.
-/

namespace Workflow

namespace Value

/-- Texts, numbers and truth values. -/
def isPrimitive : Value → Bool
  | str _ | num _ | bool _ => true
  | _ => false

/-- Primitive values that are not texts. -/
def isNumeric : Value → Bool
  | num _ | bool _ => true
  | _ => false

/-- Whether one of two values is a number or a truth value and the other one is not primitive. -/
def isMixedWith (v w : Value) : Bool :=
  (v.isNumeric && !w.isPrimitive) || (w.isNumeric && !v.isPrimitive)

/-- Equality as a rule: two primitive values are equal if they are the same value, and any other two if
they have the same text. -/
inductive Equates : Value → Value → Bool → Prop
  | same {v w : Value} {e : Bool} (hv : v.isPrimitive) (hw : w.isPrimitive) (he : e = true ↔ v = w) :
      Equates v w e
  | texts {v w : Value} {a b : String} (h : ¬(v.isPrimitive ∧ w.isPrimitive)) (hv : v.text = .ok a)
      (hw : w.text = .ok b) : Equates v w (a == b)

/-- What an equation and an inequation of two values come to. -/
inductive Verdict (v w : Value) : Value → Value → Prop
  | ruled {e : Bool} (hm : v.isMixedWith w = false) (he : Equates v w e) :
      Verdict v w (.bool e) (.bool !e)
  | mixed (hm : v.isMixedWith w = true) (hv : v.isPrimitive ∨ v.IsWritable)
      (hw : w.isPrimitive ∨ w.IsWritable) : Verdict v w (.bool false) (.bool true)
  /-- There is no text to compare. -/
  | unwritable (h : ¬(v.isPrimitive ∨ v.IsWritable) ∨ ¬(w.isPrimitive ∨ w.IsWritable)) :
      Verdict v w (.bool false) (.bool false)

theorem isNumeric_of_not_primitive {v : Value} (h : v.isPrimitive = false) : v.isNumeric = false := by
  cases v <;> first | rfl | cases h

end Value

namespace Expr

open Value

variable {vars : Variables} {s t : Tree} {v w : Value}

theorem comparable_primitive (h : v.isPrimitive) : comparable v = .ok v := by
  cases v <;> first | rfl | cases h

theorem comparable_other (h : v.isPrimitive = false) : comparable v = v.text.map .str := by
  cases v <;> first | rfl | cases h

/-- Of primitive values without doubles only one and the same are equal. -/
theorem strictEqual_iff (hv : v.isPrimitive) (hw : w.isPrimitive) (dv : ∀ x, v ≠ .float x)
    (dw : ∀ x, w ≠ .float x) : strictEqual v w = true ↔ v = w := by
  have whole (a b : Int) : Number.same (.int a) (.int b) = true ↔ a = b := by
    simp [Number.same, Number.compare?]
  cases v with
  | bool a => cases w <;> simp [strictEqual]
  | str a => cases w <;> simp [strictEqual]
  | num m =>
    cases m with
    | float x => exact absurd rfl (dv x)
    | int a =>
      cases w with
      | num n =>
        cases n with
        | float y => exact absurd rfl (dw y)
        | int b => simpa [strictEqual] using whole a b
      | _ => simp [strictEqual]
  | undefined | null | list _ | obj _ => cases hv

/-- What is left to do once both operands have their values. -/
theorem eval_equality (hs : s.eval vars = .ok v) (ht : t.eval vars = .ok w) (op : BinaryOp)
    (ho : op = .eq ∨ op = .ne) : (Tree.binary op s t).eval vars = applyBinary op v w := by
  obtain rfl | rfl := ho <;> simp [Tree.eval, hs, ht, bind, Except.bind]

/-- What is evaluated to a truth value is that truth value. -/
theorem evaluate_bool {text : String} {tree : Tree} (hp : parse text = .ok tree) {b : Bool}
    (ht : tree.eval vars = .ok (.bool b)) : evaluate (.str text) vars = .bool b := by
  simp [evaluate, parseValue, hp, ht]

theorem evaluate_fault {text : String} {tree : Tree} (hp : parse text = .ok tree) {f : NumberFault}
    (ht : tree.eval vars = .error f) : evaluate (.str text) vars = .bool false := by
  simp [evaluate, parseValue, hp, ht]

/-- Where both operands can be compared, an equation and an inequation are opposites. -/
theorem answers_of_comparable {equation inequation : String}
    (he : parse equation = .ok (.binary .eq s t)) (hn : parse inequation = .ok (.binary .ne s t))
    (hs : s.eval vars = .ok v) (ht : t.eval vars = .ok w) {a b : Value}
    (ha : comparable v = .ok a) (hb : comparable w = .ok b) :
    evaluate (.str equation) vars = .bool (strictEqual a b) ∧
      evaluate (.str inequation) vars = .bool !strictEqual a b := by
  refine ⟨evaluate_bool he ?_, evaluate_bool hn ?_⟩
  · rw [eval_equality hs ht .eq (.inl rfl)]
    simp [applyBinary, ha, hb, bind, Except.bind, pure, Except.pure]
  · rw [eval_equality hs ht .ne (.inr rfl)]
    simp [applyBinary, ha, hb, bind, Except.bind, pure, Except.pure]

theorem answers_of_fault {equation inequation : String}
    (he : parse equation = .ok (.binary .eq s t)) (hn : parse inequation = .ok (.binary .ne s t))
    (hs : s.eval vars = .ok v) (ht : t.eval vars = .ok w)
    (h : (∀ a, comparable v ≠ .ok a) ∨ ∀ b, comparable w ≠ .ok b) :
    evaluate (.str equation) vars = .bool false ∧ evaluate (.str inequation) vars = .bool false := by
  have hfault : ∃ f, applyBinary .eq v w = .error f ∧ applyBinary .ne v w = .error f := by
    cases ha : comparable v with
    | error f => exact ⟨f, by simp [applyBinary, ha, bind, Except.bind]⟩
    | ok a =>
      cases hb : comparable w with
      | error f => exact ⟨f, by simp [applyBinary, ha, hb, bind, Except.bind]⟩
      | ok b => exact absurd h (by simp [ha, hb])
  obtain ⟨f, hfe, hfn⟩ := hfault
  exact ⟨evaluate_fault he ((eval_equality hs ht .eq (.inl rfl)).trans hfe),
    evaluate_fault hn ((eval_equality hs ht .ne (.inr rfl)).trans hfn)⟩

theorem exists_comparable_iff : (∃ a, comparable v = .ok a) ↔ v.isPrimitive ∨ v.IsWritable := by
  by_cases hv : v.isPrimitive
  · exact iff_of_true ⟨v, comparable_primitive hv⟩ (.inl hv)
  · rw [Bool.not_eq_true] at hv
    rw [comparable_other hv, exists_map_iff, exists_text_iff]
    simp [hv]

theorem text_of_comparable {a : Value} (hv : v.isPrimitive = false) (ha : comparable v = .ok a) :
    ∃ x, v.text = .ok x ∧ .str x = a :=
  map_ok ((comparable_other hv).symm.trans ha)

/-- Values that can be compared are equal by the rule, or they are mixed and not equal. -/
theorem strictEqual_comparable {a b : Value} (ha : comparable v = .ok a) (hb : comparable w = .ok b)
    (dv : ∀ x, v ≠ .float x) (dw : ∀ x, w ≠ .float x) :
    v.isMixedWith w = false ∧ Equates v w (strictEqual a b) ∨
      v.isMixedWith w = true ∧ strictEqual a b = false := by
  cases hv : v.isPrimitive <;> cases hw : w.isPrimitive
  · obtain ⟨x, hx, rfl⟩ := text_of_comparable hv ha
    obtain ⟨y, hy, rfl⟩ := text_of_comparable hw hb
    refine .inl ⟨?_, .texts (by simp [hv]) hx hy⟩
    simp [isMixedWith, isNumeric_of_not_primitive hv, isNumeric_of_not_primitive hw]
  · obtain ⟨x, hx, rfl⟩ := text_of_comparable hv ha
    rw [comparable_primitive hw] at hb
    cases hb
    cases w with
    | str y =>
      refine .inl ⟨?_, .texts (by simp [hv]) hx rfl⟩
      rw [isMixedWith, isNumeric_of_not_primitive hv]
      rfl
    | num n => exact .inr ⟨by simp [isMixedWith, isNumeric, hv], rfl⟩
    | bool c => exact .inr ⟨by simp [isMixedWith, isNumeric, hv], rfl⟩
    | undefined | null | list _ | obj _ => cases hw
  · obtain ⟨y, hy, rfl⟩ := text_of_comparable hw hb
    rw [comparable_primitive hv] at ha
    cases ha
    cases v with
    | str x =>
      refine .inl ⟨?_, .texts (by simp [hw]) rfl hy⟩
      rw [isMixedWith, isNumeric_of_not_primitive hw]
      rfl
    | num n => exact .inr ⟨by simp [isMixedWith, isNumeric, hw], rfl⟩
    | bool c => exact .inr ⟨by simp [isMixedWith, isNumeric, hw], rfl⟩
    | undefined | null | list _ | obj _ => cases hv
  · rw [comparable_primitive hv] at ha
    rw [comparable_primitive hw] at hb
    cases ha
    cases hb
    exact .inl ⟨by simp [isMixedWith, hv, hw], .same hv hw (strictEqual_iff hv hw dv dw)⟩

/-- For all values other than doubles an equation and an inequation come to what the rule of equality
says of their operands and to its opposite, unless a number or a truth value is compared with a value that
is not primitive: these are never equal. Where an operand that is compared by its text has none, both are
false. -/
theorem equality_decided {equation inequation : String}
    (he : parse equation = .ok (.binary .eq s t)) (hn : parse inequation = .ok (.binary .ne s t))
    (hs : s.eval vars = .ok v) (ht : t.eval vars = .ok w)
    (dv : ∀ x, v ≠ .float x) (dw : ∀ x, w ≠ .float x) :
    Verdict v w (evaluate (.str equation) vars) (evaluate (.str inequation) vars) := by
  by_cases hc : (∃ a, comparable v = .ok a) ∧ ∃ b, comparable w = .ok b
  · obtain ⟨⟨a, ha⟩, b, hb⟩ := hc
    obtain ⟨hequal, hunequal⟩ := answers_of_comparable he hn hs ht ha hb
    rw [hequal, hunequal]
    obtain ⟨hm, heq⟩ | ⟨hm, hne⟩ := strictEqual_comparable ha hb dv dw
    · exact .ruled hm heq
    · rw [hne]
      exact .mixed hm (exists_comparable_iff.mp ⟨a, ha⟩) (exists_comparable_iff.mp ⟨b, hb⟩)
  · rw [not_and_or, not_exists, not_exists] at hc
    obtain ⟨hequal, hunequal⟩ := answers_of_fault he hn hs ht hc
    rw [hequal, hunequal]
    refine .unwritable (hc.imp (fun h hv => ?_) fun h hw => ?_)
    · obtain ⟨a, ha⟩ := exists_comparable_iff.mpr hv
      exact h a ha
    · obtain ⟨b, hb⟩ := exists_comparable_iff.mpr hw
      exact h b hb

/-- A list and a text, which is the list's. -/
theorem equality_decided_list :
    let vars : Variables := .ofValue (.obj [("items", .list [.int 1, .null, .bool true])])
    let items := Tree.path ["items"]
    parse "vars.items == '1,,true'" = .ok (.binary .eq items (.lit (.str "1,,true"))) ∧
      parse "vars.items != '1,,true'" = .ok (.binary .ne items (.lit (.str "1,,true"))) ∧
      Verdict (.list [.int 1, .null, .bool true]) (.str "1,,true")
        (evaluate (.str "vars.items == '1,,true'") vars)
        (evaluate (.str "vars.items != '1,,true'") vars) := by
  intro vars items
  have hitems (r : Nat) : Prints r items "vars.items".toList 0 := .path (by decide)
  have htext (r : Nat) : Prints r (.lit (.str "1,,true")) "'1,,true'".toList 0 := .text _ (.inl rfl)
  have hequation : Prints 0 (.binary .eq items (.lit (.str "1,,true"))) "vars.items == '1,,true'".toList 0 :=
    .binary (Nat.zero_le _) (.wide _) (hitems _) (htext _)
  have hinequation : Prints 0 (.binary .ne items (.lit (.str "1,,true"))) "vars.items != '1,,true'".toList 0 :=
    .binary (Nat.zero_le _) (.wide _) (hitems _) (htext _)
  have he := hequation.parse_eq (by decide) (by decide)
  have hn := hinequation.parse_eq (by decide) (by decide)
  rw [String.ofList_toList] at he hn
  exact ⟨he, hn, equality_decided he hn rfl rfl (fun x h => by cases h) fun x h => by cases h⟩

/-- A list of one number has that number's text, and is not equal to the number. -/
theorem single_item_not_equal :
    let vars : Variables := .ofValue (.obj [("l", .list [.int 5]), ("r", .int 5)])
    Equates (.list [.int 5]) (.int 5) true ∧
      evaluate (.str "vars.l == vars.r") vars = .bool false := by
  intro vars
  have htext : (Value.int 5).text = .ok "5" := Numeral.writeInt_short (n := 5) (by decide)
  have hitems : (Value.list [.int 5]).text = .ok "5" := by
    have hpart : (Value.int 5).partText = .ok "5" := htext
    rw [text, itemTexts_cons, hpart]
    rfl
  have hprints : Prints 0 (.binary .eq (.path ["l"]) (.path ["r"])) "vars.l == vars.r".toList 0 :=
    .binary (Nat.zero_le _) (.wide _) (.path (by decide)) (.path (by decide))
  have hparse := hprints.parse_eq (by decide) (by decide)
  rw [String.ofList_toList] at hparse
  have heval : (Tree.binary .eq (.path ["l"]) (.path ["r"])).eval vars = .ok (.bool false) := by
    rw [eval_equality (v := .list [.int 5]) (w := .int 5) rfl rfl .eq (.inl rfl), applyBinary,
      comparable_other rfl, hitems]
    rfl
  exact ⟨.texts (a := "5") (b := "5") (by decide) hitems htext, evaluate_bool hparse heval⟩

end Expr

end Workflow
