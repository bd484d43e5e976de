import Mathlib.Data.List.TakeDrop
import Workflow.Expr.Template
import Workflow.Proofs.Expr.Lexing
import Workflow.Proofs.Value.Fallible
/-!
What references in texts come to. A text of literals with references between them is read as just these,
from the left to the right and once, whatever blanks stand in the references and whatever lone signs in
the literals. In lists and objects nothing but the texts changes.
-/

namespace Workflow

namespace Value

mutual

/-- A value with the texts in it replaced, each as `R` says, and all else as and where it was. -/
inductive Filled (R : String → Value → Prop) : Value → Value → Prop
  | text {s : String} {w : Value} (h : R s w) : Filled R (.str s) w
  | undefined : Filled R .undefined .undefined
  | null : Filled R .null .null
  | bool (b : Bool) : Filled R (.bool b) (.bool b)
  | num (n : Number) : Filled R (.num n) (.num n)
  | list {vs ws : List Value} (h : FilledItems R vs ws) : Filled R (.list vs) (.list ws)
  | obj {fs gs : List (String × Value)} (h : FilledFields R fs gs) : Filled R (.obj fs) (.obj gs)

inductive FilledItems (R : String → Value → Prop) : List Value → List Value → Prop
  | nil : FilledItems R [] []
  | cons {v w : Value} {vs ws : List Value} (h : Filled R v w) (t : FilledItems R vs ws) :
      FilledItems R (v :: vs) (w :: ws)

/-- The keys stay where they are. -/
inductive FilledFields (R : String → Value → Prop) :
    List (String × Value) → List (String × Value) → Prop
  | nil : FilledFields R [] []
  | cons (key : String) {v w : Value} {fs gs : List (String × Value)} (h : Filled R v w)
      (t : FilledFields R fs gs) : FilledFields R ((key, v) :: fs) ((key, w) :: gs)

end

mutual

/-- All texts in a value, but not the keys. -/
def texts : Value → List String
  | .str s => [s]
  | .list items => textsOfItems items
  | .obj fields => textsOfFields fields
  | _ => []

def textsOfItems : List Value → List String
  | [] => []
  | v :: rest => v.texts ++ textsOfItems rest

def textsOfFields : List (String × Value) → List String
  | [] => []
  | (_, v) :: rest => v.texts ++ textsOfFields rest

end

end Value

namespace Template

/-! Texts as literals and references. -/

/-- A name in a reference, without dots, braces and white space. -/
structure Key where
  chars : List Char
  plain : ∀ c ∈ chars, c ≠ '.' ∧ isBrace c = false ∧ Text.isBlank c = false

/-- The word `vars` and the names behind it, with white space on both sides. -/
structure Reference where
  lead : List Char
  keys : List Key
  trail : List Char
  lead_blank : ∀ c ∈ lead, Text.isBlank c = true
  trail_blank : ∀ c ∈ trail, Text.isBlank c = true

/-- A text in which no reference starts. -/
structure Literal where
  chars : List Char
  plain : ¬['$', '{'] <:+: chars

/-- A reference and the literal behind it. -/
structure Piece where
  reference : Reference
  literal : Literal

/-- A literal and then, as often as one likes, a reference and another literal. -/
structure Pattern where
  first : Literal
  pieces : List Piece

namespace Reference

def path (r : Reference) : List Char :=
  ['v', 'a', 'r', 's'] ++ r.keys.flatMap fun k => '.' :: k.chars

def chars (r : Reference) : List Char :=
  ['$', '{'] ++ (r.lead ++ (r.path ++ r.trail)) ++ ['}']

def names (r : Reference) : List String :=
  r.keys.map fun k => String.ofList k.chars

/-- The value a reference stands for, undefined if there is none. -/
def value (vars : Variables) (r : Reference) : Value :=
  vars.lookup r.names

/-- What comes of a text that is only the reference: the value itself, null if there is none. -/
def whole (vars : Variables) (r : Reference) : Value :=
  match r.value vars with
  | .undefined => .null
  | v => v

end Reference

namespace Piece

def chars (p : Piece) : List Char :=
  p.reference.chars ++ p.literal.chars

/-- The text of the value and the literal behind it. -/
def render (vars : Variables) (p : Piece) : Except NumberFault (List Char) :=
  (p.reference.value vars).partText.map fun shown => shown.toList ++ p.literal.chars

end Piece

namespace Pattern

def chars (p : Pattern) : List Char :=
  p.first.chars ++ p.pieces.flatMap Piece.chars

/-- The reference that a text consists of, perhaps with a line end behind it. -/
def sole? (p : Pattern) : Option Reference :=
  match p.first.chars, p.pieces with
  | [], [⟨r, l⟩] => if l.chars = [] ∨ l.chars = ['\n'] then some r else none
  | _, _ => none

/-- The literals as they are, with the texts of the values between them. -/
def render (vars : Variables) (p : Pattern) : Except NumberFault (List Char) :=
  (p.pieces.mapM (Piece.render vars)).map fun texts => p.first.chars ++ texts.flatten

/-- What comes of a text: the value of a sole reference, or else a text. -/
def filled (vars : Variables) (p : Pattern) : Except NumberFault Value :=
  match p.sole? with
  | some r => .ok (r.whole vars)
  | none => (p.render vars).map fun out => .str (String.ofList out)

end Pattern

/-! How a reference is read. -/

variable {vars : Variables} {cs rest : List Char} {out : Except NumberFault (List Char)}

theorem not_isBrace_of_isBlank {c : Char} (hc : Text.isBlank c = true) : isBrace c = false := by
  simpa using Text.of_isBlank (p := (! isBrace ·)) (by decide) hc

namespace Reference

theorem path_plain (r : Reference) : ∀ c ∈ r.path, isBrace c = false ∧ Text.isBlank c = false := by
  intro c hc
  obtain hc | hc := List.mem_append.mp hc
  · have hall : (['v', 'a', 'r', 's'].all fun c => !isBrace c && !Text.isBlank c) = true := by decide
    simpa using List.all_eq_true.mp hall c hc
  · obtain ⟨k, -, hc⟩ := List.mem_flatMap.mp hc
    obtain rfl | hc := List.mem_cons.mp hc
    · decide
    · exact (k.plain c hc).2

theorem innerPath_padded (r : Reference) : innerPath (r.lead ++ (r.path ++ r.trail)) = r.path := by
  have ht : Text.trim (r.lead ++ (r.path ++ r.trail)) = r.path :=
    Text.trim_padded r.lead_blank (fun c hc => (r.path_plain c hc).2) r.trail_blank (by simp [path])
  rw [innerPath, ht]
  rfl

theorem span_padded (r : Reference) (rest : List Char) :
    (r.lead ++ (r.path ++ r.trail) ++ '}' :: rest).span (fun c => !isBrace c) =
      (r.lead ++ (r.path ++ r.trail), '}' :: rest) := by
  have hbody : ∀ c ∈ r.lead ++ (r.path ++ r.trail), (!isBrace c) = true := by
    intro c hc
    rw [Bool.not_eq_true']
    simp only [List.mem_append] at hc
    obtain hc | hc | hc := hc
    · exact not_isBrace_of_isBlank (r.lead_blank c hc)
    · exact (r.path_plain c hc).1
    · exact not_isBrace_of_isBlank (r.trail_blank c hc)
  rw [List.span_eq_takeWhile_dropWhile, List.takeWhile_append_of_pos hbody,
    List.dropWhile_append_of_pos hbody]
  simp [isBrace]

/-- A reference is read as its path, whatever stands behind it. -/
theorem reference?_append (r : Reference) (rest : List Char) :
    reference? (r.chars ++ rest) = some (r.path, rest) := by
  have hchars : r.chars ++ rest = '$' :: '{' :: (r.lead ++ (r.path ++ r.trail) ++ '}' :: rest) := by
    simp [chars]
  have hne : (r.lead ++ (r.path ++ r.trail)).isEmpty = false := by
    simp [path]
  rw [hchars, reference?, r.span_padded rest]
  simp only [hne, if_neg Bool.false_ne_true, r.innerPath_padded]

theorem pathValue_path (r : Reference) : pathValue vars r.path = r.value vars := by
  have hpath : String.ofList r.path = ".".intercalate ("vars" :: r.names) := by
    rw [← String.toList_inj, Expr.Token.toList_dotted]
    simp [path, names, List.flatMap_map, Function.comp_def]
  have hparts : Text.parts (String.ofList r.path) = "vars" :: r.names := by
    rw [hpath]
    refine Text.parts_intercalate (List.cons_ne_nil _ _) fun p hp => ?_
    obtain rfl | hp := List.mem_cons.mp hp
    · decide
    · obtain ⟨k, -, rfl⟩ := List.mem_map.mp hp
      rw [String.toList_ofList]
      exact fun hd => (k.plain _ hd).1 rfl
  rw [pathValue, hparts]
  rfl

end Reference

theorem wholeReference?_of_reference? {path : List Char} (h : reference? cs = some (path, rest)) :
    wholeReference? cs = if rest = [] ∨ rest = ['\n'] then some path else none := by
  rw [wholeReference?, h]
  split
  · rename_i he
    cases he
    rfl
  · rename_i he
    cases he
    rfl
  · rename_i hnil hline
    rw [if_neg]
    rintro (rfl | rfl)
    · exact hnil path rfl
    · exact hline path rfl

theorem reference?_eq_none (h : ¬['$', '{'] <+: cs) : reference? cs = none := by
  unfold reference?
  split
  · exact absurd ⟨_, rfl⟩ h
  · rfl

/-! How a text is read, piece by piece. -/

/-- What comes of a text when its references are replaced, however much fuel is left. -/
def Substitutes (vars : Variables) (cs : List Char) (out : Except NumberFault (List Char)) : Prop :=
  ∀ fuel, cs.length ≤ fuel → substitute vars fuel cs = out

theorem substitutes_nil : Substitutes vars [] (.ok []) := by
  intro fuel _
  cases fuel <;> rfl

theorem Substitutes.char {c : Char} (hc : ¬['$', '{'] <+: c :: cs) (h : Substitutes vars cs out) :
    Substitutes vars (c :: cs) (out.map (c :: ·)) := by
  intro fuel hf
  cases fuel with
  | zero => simp at hf
  | succ fuel =>
    rw [substitute, reference?_eq_none hc]
    dsimp only
    rw [h fuel (by simpa using hf)]
    cases out <;> rfl

/-- No reference starts in a literal, whatever stands behind it, as long as that is no brace. -/
theorem not_prefix_append (hl : ¬['$', '{'] <:+: cs) (hne : cs ≠ []) (hr : rest.head? ≠ some '{') :
    ¬['$', '{'] <+: cs ++ rest := by
  rintro ⟨more, he⟩
  match cs with
  | [] => exact hne rfl
  | [c] =>
    cases he
    exact hr rfl
  | c :: d :: cs =>
    cases he
    exact hl ⟨[], cs, rfl⟩

theorem Substitutes.literal (hl : ¬['$', '{'] <:+: cs) (hr : rest.head? ≠ some '{')
    (h : Substitutes vars rest out) : Substitutes vars (cs ++ rest) (out.map (cs ++ ·)) := by
  induction cs with
  | nil => cases out <;> exact h
  | cons c cs ih =>
    have hs := (ih fun hi => hl (List.infix_cons hi)).char
      (not_prefix_append hl (List.cons_ne_nil c cs) hr)
    cases out <;> exact hs

theorem Substitutes.reference (r : Reference) (h : Substitutes vars rest out) :
    Substitutes vars (r.chars ++ rest) (do
      let shown ← (r.value vars).partText
      return shown.toList ++ (← out)) := by
  intro fuel hf
  obtain ⟨c, cs, hcs⟩ : ∃ c cs, r.chars ++ rest = c :: cs := ⟨_, _, rfl⟩
  have hlong : rest.length < (r.chars ++ rest).length := by
    simp only [Reference.chars, List.length_append, List.length_cons]
    omega
  cases fuel with
  | zero => omega
  | succ fuel =>
    have hread := r.reference?_append rest
    rw [hcs] at hread ⊢
    rw [substitute, hread]
    dsimp only
    rw [h fuel (by omega), r.pathValue_path]
    cases r.value vars <;> rfl

namespace Pattern

theorem head?_flatMap_chars (pieces : List Piece) : (pieces.flatMap Piece.chars).head? ≠ some '{' := by
  cases pieces with
  | nil => simp
  | cons p pieces => simp [Piece.chars, Reference.chars]

/-- Literals and references are read as such, one after another. -/
theorem substitutes_pieces (pieces : List Piece) :
    Substitutes vars (pieces.flatMap Piece.chars)
      ((pieces.mapM (Piece.render vars)).map List.flatten) := by
  induction pieces with
  | nil => exact substitutes_nil
  | cons p pieces ih =>
    have h := (ih.literal p.literal.plain (head?_flatMap_chars pieces)).reference p.reference
    rw [List.flatMap_cons, Piece.chars, List.append_assoc, List.mapM_cons, Piece.render]
    convert h using 1
    cases (p.reference.value vars).partText with
    | error f => rfl
    | ok shown =>
      cases pieces.mapM (Piece.render vars) with
      | error f => rfl
      | ok texts => simp [Except.map, bind, Except.bind, pure, Except.pure]

theorem substitutes_chars (p : Pattern) : Substitutes vars p.chars (p.render vars) := by
  have hpieces : Substitutes vars (p.pieces.flatMap Piece.chars)
      ((p.pieces.mapM (Piece.render vars)).map List.flatten) := substitutes_pieces p.pieces
  have h := hpieces.literal p.first.plain (head?_flatMap_chars p.pieces)
  rw [chars, render]
  convert h using 1
  cases p.pieces.mapM (Piece.render vars) <;> rfl

/-- A text is read as one reference just if it consists of one. -/
theorem wholeReference?_chars (p : Pattern) : wholeReference? p.chars = p.sole?.map Reference.path := by
  obtain ⟨⟨first, hfirst⟩, pieces⟩ := p
  cases first with
  | cons c first =>
    have hc : ¬['$', '{'] <+: c :: first ++ pieces.flatMap Piece.chars :=
      not_prefix_append hfirst (List.cons_ne_nil c first) (head?_flatMap_chars pieces)
    rw [wholeReference?, chars, reference?_eq_none hc]
    rfl
  | nil =>
    cases pieces with
    | nil => rfl
    | cons p more =>
      obtain ⟨r, l⟩ := p
      have hread : reference? (chars ⟨⟨[], hfirst⟩, ⟨r, l⟩ :: more⟩) =
          some (r.path, l.chars ++ more.flatMap Piece.chars) := by
        rw [← r.reference?_append]
        simp [chars, Piece.chars]
      rw [wholeReference?_of_reference? hread]
      cases more with
      | nil =>
        rw [List.flatMap_nil, List.append_nil]
        dsimp only [sole?]
        split <;> rfl
      | cons p more =>
        have hlong : 1 < (l.chars ++ (p :: more).flatMap Piece.chars).length := by
          simp only [List.flatMap_cons, Piece.chars, Reference.chars, List.length_append,
            List.length_cons]
          omega
        refine if_neg ?_
        rintro (h | h) <;>
        · rw [h] at hlong
          simp at hlong

theorem resolve_chars (p : Pattern) :
    resolve vars (.str (String.ofList p.chars)) = p.filled vars := by
  rw [resolve, resolveText, filled]
  simp only [String.toList_ofList, p.wholeReference?_chars]
  cases p.sole? with
  | none => simp only [Option.map_none, p.substitutes_chars _ (Nat.le_refl _)]
  | some r =>
    simp only [Option.map_some, r.pathValue_path]
    rfl

/-- A text is made unless a value it refers to cannot be written. -/
theorem exists_render_iff (p : Pattern) :
    (∃ out, p.render vars = .ok out) ↔ ∀ q ∈ p.pieces, (q.reference.value vars).IsWritable := by
  have hpiece (q : Piece) :
      (∃ text, q.render vars = .ok text) ↔ (q.reference.value vars).IsWritable := by
    rw [Piece.render, exists_map_iff, Value.exists_partText_iff]
  simp only [render, exists_map_iff, exists_mapM_iff, hpiece]

end Pattern

/-! What is done to values. -/

/-- What comes of a text on its own. -/
def Becomes (vars : Variables) (s : String) (w : Value) : Prop :=
  resolve vars (.str s) = .ok w

mutual

theorem resolve_eq_ok_iff : (v w : Value) → (resolve vars v = .ok w ↔ Value.Filled (Becomes vars) v w)
  | .str _, _ => ⟨fun h => .text h, fun | .text h => h⟩
  | .undefined, _ => ⟨fun | rfl => .undefined, fun | .undefined => rfl⟩
  | .null, _ => ⟨fun | rfl => .null, fun | .null => rfl⟩
  | .bool b, _ => ⟨fun | rfl => .bool b, fun | .bool _ => rfl⟩
  | .num n, _ => ⟨fun | rfl => .num n, fun | .num _ => rfl⟩
  | .list items, w => by
    rw [resolve]
    constructor
    · intro h
      obtain ⟨ws, hws, rfl⟩ := map_ok h
      exact .list ((resolveItems_eq_ok_iff items ws).mp hws)
    · rintro (_ | _)
      rw [(resolveItems_eq_ok_iff items _).mpr ‹_›]
      rfl
  | .obj fields, w => by
    rw [resolve]
    constructor
    · intro h
      obtain ⟨gs, hgs, rfl⟩ := map_ok h
      exact .obj ((resolveFields_eq_ok_iff fields gs).mp hgs)
    · rintro (_ | _)
      rw [(resolveFields_eq_ok_iff fields _).mpr ‹_›]
      rfl

theorem resolveItems_eq_ok_iff : (vs ws : List Value) →
    (resolveItems vars vs = .ok ws ↔ Value.FilledItems (Becomes vars) vs ws)
  | [], _ => ⟨fun | rfl => .nil, fun | .nil => rfl⟩
  | v :: rest, ws => by
    simp only [resolveItems, bind_eq_ok_iff]
    constructor
    · rintro ⟨w, hv, ws, hs, h⟩
      cases h
      exact .cons ((resolve_eq_ok_iff v w).mp hv) ((resolveItems_eq_ok_iff rest ws).mp hs)
    · intro h
      cases h with
      | cons h t => exact ⟨_, (resolve_eq_ok_iff v _).mpr h, _, (resolveItems_eq_ok_iff rest _).mpr t, rfl⟩

theorem resolveFields_eq_ok_iff : (fs gs : List (String × Value)) →
    (resolveFields vars fs = .ok gs ↔ Value.FilledFields (Becomes vars) fs gs)
  | [], _ => ⟨fun | rfl => .nil, fun | .nil => rfl⟩
  | (key, v) :: rest, gs => by
    simp only [resolveFields, bind_eq_ok_iff]
    constructor
    · rintro ⟨w, hv, gs, hs, h⟩
      cases h
      exact .cons key ((resolve_eq_ok_iff v w).mp hv) ((resolveFields_eq_ok_iff rest gs).mp hs)
    · intro h
      cases h with
      | cons _ h t => exact ⟨_, (resolve_eq_ok_iff v _).mpr h, _, (resolveFields_eq_ok_iff rest _).mpr t, rfl⟩

end

mutual

theorem exists_resolve_iff : (v : Value) →
    ((∃ w, resolve vars v = .ok w) ↔ ∀ s ∈ v.texts, ∃ w, Becomes vars s w)
  | .str s => by simp only [Value.texts, List.mem_singleton, forall_eq, Becomes]
  | .undefined | .null | .bool _ | .num _ => iff_of_true ⟨_, rfl⟩ fun _ h => by cases h
  | .list items => by rw [resolve, exists_map_iff, exists_resolveItems_iff items, Value.texts]
  | .obj fields => by rw [resolve, exists_map_iff, exists_resolveFields_iff fields, Value.texts]

theorem exists_resolveItems_iff : (vs : List Value) →
    ((∃ ws, resolveItems vars vs = .ok ws) ↔ ∀ s ∈ Value.textsOfItems vs, ∃ w, Becomes vars s w)
  | [] => iff_of_true ⟨[], rfl⟩ fun _ h => by cases h
  | v :: rest => by
    simp only [resolveItems, Value.textsOfItems, List.forall_mem_append, ← exists_resolve_iff v,
      ← exists_resolveItems_iff rest]
    exact exists_cons_iff

theorem exists_resolveFields_iff : (fs : List (String × Value)) →
    ((∃ gs, resolveFields vars fs = .ok gs) ↔ ∀ s ∈ Value.textsOfFields fs, ∃ w, Becomes vars s w)
  | [] => iff_of_true ⟨[], rfl⟩ fun _ h => by cases h
  | (key, v) :: rest => by
    simp only [resolveFields, Value.textsOfFields, List.forall_mem_append, ← exists_resolve_iff v,
      ← exists_resolveFields_iff rest]
    exact exists_cons_iff

end

/-- What replacing references comes to under some variables. -/
structure IsOnePass (vars : Variables) : Prop where
  /-- The values' texts stand where the references stood, and are not read again. -/
  pattern : ∀ p : Pattern, resolve vars (.str (String.ofList p.chars)) = p.filled vars
  rendered : ∀ p : Pattern,
    (∃ out, p.render vars = .ok out) ↔ ∀ q ∈ p.pieces, (q.reference.value vars).IsWritable
  plain : ∀ s : String, ¬['$', '{'] <:+: s.toList → resolve vars (.str s) = .ok (.str s)
  /-- In a value the texts are replaced each on its own, and nothing else is. -/
  values : ∀ v w, resolve vars v = .ok w ↔ Value.Filled (Becomes vars) v w
  total : ∀ v, (∃ w, resolve vars v = .ok w) ↔ ∀ s ∈ v.texts, ∃ w, Becomes vars s w

theorem resolve_plain {s : String} (h : ¬['$', '{'] <:+: s.toList) :
    resolve vars (.str s) = .ok (.str s) := by
  have hfilled : Pattern.filled vars ⟨⟨s.toList, h⟩, []⟩ = .ok (.str s) := by
    simp [Pattern.filled, Pattern.sole?, Pattern.render, pure, Except.pure, Except.map]
  rw [← hfilled, ← Pattern.resolve_chars]
  simp [Pattern.chars]

/-- Whatever the variables are, a text of literals with references between them becomes the value of its
sole reference or a text in which just the references are replaced, once, and a value keeps all but its
texts. -/
theorem resolve_one_pass (vars : Variables) : IsOnePass vars where
  pattern := Pattern.resolve_chars
  rendered := Pattern.exists_render_iff
  plain := fun _ => resolve_plain
  values := resolve_eq_ok_iff
  total := exists_resolve_iff

end Template

end Workflow
