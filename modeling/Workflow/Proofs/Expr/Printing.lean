import Workflow.Proofs.Expr.Grammar
import Workflow.Proofs.Expr.Lexing
/-!
Printing expression trees, with parentheses only where precedence or reading from the left requires
them, and that what is printed is read back.
-/

namespace Workflow.Expr

open Token

/-- How strongly an operator binds. -/
def BinaryOp.rank : BinaryOp → Nat
  | or => 0
  | and => 1
  | eq | ne => 2
  | gt | ge | lt | le => 3
  | add | sub => 4
  | mul | div => 5

/-- The operand of a sign binds more strongly than all binary operators. -/
def signRank : Nat := 6

/-- Trees of whole numbers, texts, truth values and paths of identifiers. -/
inductive Tree.IsPlain : Tree → Prop
  | number (n : Nat) : IsPlain (.lit (.nat n))
  | text (s : String) : IsPlain (.lit (.str s))
  | truth (b : Bool) : IsPlain (.lit (.bool b))
  | path {parts : List String} (h : ∀ p ∈ parts, IsIdentifier p.toList) : IsPlain (.path parts)
  | unary (op : UnaryOp) {t : Tree} : IsPlain t → IsPlain (.unary op t)
  | binary (op : BinaryOp) {a b : Tree} : IsPlain a → IsPlain b → IsPlain (.binary op a b)

/-- An operator's text, perhaps with blanks on its sides. -/
def Spaced (text : String) (cs : List Char) : Prop :=
  ∃ before after, cs = before ++ text.toList ++ after ∧
    (∀ c ∈ before, Text.isBlank c = true) ∧ ∀ c ∈ after, Text.isBlank c = true

/-- The texts of a tree where nothing that binds less than a rank may stand, and how many signs and
parentheses its leaves stand under at most. An operator that binds less stands in parentheses; the
operand to its right must bind more than it. -/
inductive Prints : Nat → Tree → List Char → Nat → Prop
  | number {r} (n : Nat) : Prints r (.lit (.nat n)) (Nat.toDigits 10 n) 0
  | text {r quote} (s : String) : quote = '\'' ∨ quote = '"' →
      Prints r (.lit (.str s)) (quote :: escaped quote s.toList ++ [quote]) 0
  | truth {r} (b : Bool) : Prints r (.lit (.bool b)) (toString b).toList 0
  | path {r parts} : (∀ p ∈ parts, IsIdentifier p.toList) →
      Prints r (.path parts) (".".intercalate ("vars" :: parts)).toList 0
  | unary {r op os t cs n} : Spaced op.text os → Prints signRank t cs n →
      Prints r (.unary op t) (os ++ cs) (n + 1)
  | binary {r op os a b cs n ds k} : r ≤ op.rank → Spaced op.text os → Prints op.rank a cs n →
      Prints (op.rank + 1) b ds k → Prints r (.binary op a b) (cs ++ os ++ ds) (max n k)
  | group {r op a b cs n} : op.rank < r → Prints 0 (.binary op a b) cs n →
      Prints r (.binary op a b) ('(' :: cs ++ [')']) (n + 1)

theorem Spaced.plain (text : String) : Spaced text text.toList :=
  ⟨[], [], by simp, by simp, by simp⟩

theorem Spaced.wide (text : String) : Spaced text ([' '] ++ text.toList ++ [' ']) :=
  ⟨[' '], [' '], rfl, List.all_eq_true.mp (by decide), List.all_eq_true.mp (by decide)⟩

def BinaryOp.mark : BinaryOp → Mark
  | or => .or
  | and => .and
  | eq => .eq
  | ne => .ne
  | gt => .gt
  | ge => .ge
  | lt => .lt
  | le => .le
  | add => .plus
  | sub => .minus
  | mul => .star
  | div => .slash

def UnaryOp.mark : UnaryOp → Mark
  | not => .bang
  | neg => .minus

theorem operators_drop_rank (op : BinaryOp) :
    ∃ l, operators.drop op.rank = l :: operators.drop (op.rank + 1) ∧ (op.mark, op) ∈ l := by
  cases op <;> exact ⟨_, rfl, by decide⟩

theorem Derives.above {ls : List Table} {ts : List Token} {t : Tree} {n : Nat}
    (h : Derives ls ts t n) (weaker : List Table) : Derives (weaker ++ ls) ts t n := by
  induction weaker with
  | nil => exact h
  | cons l weaker ih => exact ih.operand

/-- What stands where a rank is wanted may stand where a lower one is. -/
theorem Derives.lower {r k : Nat} (hr : r ≤ k) {ts : List Token} {t : Tree} {n : Nat}
    (h : Derives (operators.drop k) ts t n) : Derives (operators.drop r) ts t n := by
  have hd : operators.drop r = (operators.drop r).take (k - r) ++ operators.drop k := by
    rw [← Nat.add_sub_of_le hr, ← List.drop_drop, Nat.add_sub_cancel_left, List.take_append_drop]
  rw [hd]
  exact h.above _

theorem Derives.leaf {ts : List Token} {t : Tree} {n : Nat} (h : Derives [] ts t n) (r : Nat) :
    Derives (operators.drop r) ts t n := by
  simpa using h.above (operators.drop r)

/-- All token lists of some lexemes, wherever they stand, are derived. -/
def Makes (r : Nat) (us : List Lexeme) (t : Tree) (n : Nat) : Prop :=
  ∀ ts : List Token, ts.map (·.lexeme) = us → Derives (operators.drop r) ts t n

theorem makes_single {r n : Nat} {l : Lexeme} {t : Tree} (h : ∀ p, Derives [] [⟨l, p⟩] t n) :
    Makes r [l] t n := by
  intro ts hts
  obtain ⟨⟨l', p⟩, ts, rfl, hl, ht⟩ := List.map_eq_cons_iff.mp hts
  cases hl
  cases List.map_eq_nil_iff.mp ht
  exact (h p).leaf r

theorem Makes.unary {op : UnaryOp} {us : List Lexeme} {t : Tree} {n : Nat}
    (h : Makes signRank us t n) (r : Nat) : Makes r (.mark op.mark :: us) (.unary op t) (n + 1) := by
  intro ts hts
  obtain ⟨⟨l, p⟩, ts, rfl, hl, ht⟩ := List.map_eq_cons_iff.mp hts
  cases hl
  have hd : Derives [] ts t n := h ts ht
  cases op with
  | not => exact hd.not.leaf r
  | neg => exact hd.neg.leaf r

theorem Makes.binary {op : BinaryOp} {us vs : List Lexeme} {a b : Tree} {n k r : Nat}
    (hr : r ≤ op.rank) (ha : Makes op.rank us a n) (hb : Makes (op.rank + 1) vs b k) :
    Makes r (us ++ .mark op.mark :: vs) (.binary op a b) (max n k) := by
  intro ts hts
  obtain ⟨ts₁, ts₂, rfl, h₁, h₂⟩ := List.map_eq_append_iff.mp hts
  obtain ⟨⟨l, p⟩, ts₂, rfl, hl, h₃⟩ := List.map_eq_cons_iff.mp h₂
  cases hl
  obtain ⟨l, hl, hm⟩ := operators_drop_rank op
  have hda := ha ts₁ h₁
  have hdb := hb ts₂ h₃
  rw [hl] at hda
  refine Derives.lower hr ?_
  rw [hl]
  exact hda.joined hm hdb

theorem Makes.group {us : List Lexeme} {t : Tree} {n : Nat} (h : Makes 0 us t n) (r : Nat) :
    Makes r (.mark .opening :: us ++ [.mark .closing]) t (n + 1) := by
  intro ts hts
  obtain ⟨ts₁, ts₂, rfl, h₁, h₂⟩ := List.map_eq_append_iff.mp hts
  obtain ⟨⟨l, p⟩, ts₁, rfl, hl, h₃⟩ := List.map_eq_cons_iff.mp h₁
  obtain ⟨⟨l', q⟩, ts₂, rfl, hl', h₄⟩ := List.map_eq_cons_iff.mp h₂
  cases hl
  cases hl'
  cases List.map_eq_nil_iff.mp h₄
  exact (h ts₁ h₃).group.leaf r

/-! What is printed is read as its lexemes. -/

theorem ends_of_blanks {bs rest : List Char} (hb : ∀ c ∈ bs, Text.isBlank c = true)
    (h : Ends rest) : Ends (bs ++ rest) := by
  cases bs with
  | nil => exact h
  | cons b bs =>
    intro c hc
    cases hc
    have hb := hb b List.mem_cons_self
    refine ⟨not_isWordPart_of_isBlank hb, ?_⟩
    rintro rfl
    exact absurd hb (by decide)

theorem detached_of_blanks {bs rest : List Char} (hb : ∀ c ∈ bs, Text.isBlank c = true)
    (h : Detached rest) : Detached (bs ++ rest) := by
  cases bs with
  | nil => exact h
  | cons b bs =>
    intro he
    cases he
    exact absurd (hb '=' List.mem_cons_self) (by decide)

theorem Spaced.ends {op : BinaryOp} {os : List Char} (h : Spaced op.text os) (rest : List Char) :
    Ends (os ++ rest) := by
  obtain ⟨before, after, rfl, hb, -⟩ := h
  simp only [List.append_assoc]
  refine ends_of_blanks hb fun c hc => ?_
  cases op <;> cases hc <;> decide

theorem Spaced.reads_binary {op : BinaryOp} {os rest : List Char} {ls : List Lexeme}
    (h : Spaced op.text os) (hd : Detached rest) (hr : Reads rest ls) :
    Reads (os ++ rest) (.mark op.mark :: ls) := by
  obtain ⟨before, after, rfl, hb, ha⟩ := h
  have hr := hr.blanks ha
  have hd := detached_of_blanks ha hd
  simp only [List.append_assoc]
  refine Reads.blanks hb ?_
  cases op <;> first | exact hr.mark₂ rfl | exact hr.mark₁ rfl (hd.bind_mark₂? rfl)

theorem Spaced.reads_unary {op : UnaryOp} {os rest : List Char} {ls : List Lexeme}
    (h : Spaced op.text os) (hd : Detached rest) (hr : Reads rest ls) :
    Reads (os ++ rest) (.mark op.mark :: ls) := by
  obtain ⟨before, after, rfl, hb, ha⟩ := h
  have hr := hr.blanks ha
  have hd := detached_of_blanks ha hd
  simp only [List.append_assoc]
  refine Reads.blanks hb ?_
  cases op <;> exact hr.mark₁ rfl (hd.bind_mark₂? rfl)

/-- What is printed makes no longer mark with a mark before it. -/
theorem Prints.detached {r n : Nat} {t : Tree} {cs : List Char} (h : Prints r t cs n)
    (rest : List Char) : Detached (cs ++ rest) := by
  induction h generalizing rest with
  | number n =>
    obtain ⟨c, cs, hc⟩ := List.exists_cons_of_ne_nil
      (List.ne_nil_of_length_pos (Nat.length_toDigits_pos (b := 10) (n := n)))
    have hd : c.isDigit = true :=
      Nat.isDigit_of_mem_toDigits (by decide) (by decide) (hc ▸ List.mem_cons_self)
    rw [hc]
    intro he
    cases he
    exact absurd hd (by decide)
  | text s hq =>
    intro he
    rcases hq with rfl | rfl <;> cases he
  | truth b =>
    intro he
    cases b <;> cases he
  | path _ =>
    rw [toList_dotted]
    intro he
    cases he
  | @unary r op os t cs n ho _ ih =>
    obtain ⟨before, after, rfl, hb, -⟩ := ho
    simp only [List.append_assoc]
    refine detached_of_blanks hb fun he => ?_
    cases op <;> cases he
  | binary _ _ _ _ iha _ =>
    simp only [List.append_assoc]
    exact iha _
  | group _ _ _ =>
    intro he
    cases he

/-- The induction is on the printed text. A text that is read as lexemes stays so when more is
printed behind it that does not extend its last one. -/
theorem Prints.reads {r n : Nat} {t : Tree} {cs : List Char} (h : Prints r t cs n)
    (hl : cs.length ≤ Numeral.digitLimit) : ∃ us, Makes r us t n ∧
      ∀ {rest ls}, Ends rest → Reads rest ls → Reads (cs ++ rest) (us ++ ls) := by
  induction h with
  | number n =>
    exact ⟨_, makes_single fun _ => .number, fun he hr => hr.number hl he⟩
  | text s hq =>
    refine ⟨_, makes_single fun _ => .text, fun _ hr => ?_⟩
    simpa using hr.text hq s
  | truth b =>
    have word {c : Char} {cs rest : List Char} {ls : List Lexeme} (hc : isWordStart c = true)
        (hcs : ∀ c ∈ cs, isWordPart c = true) (he : Ends rest) (hr : Reads rest ls) :
        Reads (c :: cs ++ rest) (.word (String.ofList (c :: cs)) :: ls) :=
      hr.word hc (by rw [wordRun_append hcs, wordRun_ends he, List.append_nil])
    cases b with
    | true => exact ⟨_, makes_single fun _ => .word .true, word rfl (List.all_eq_true.mp (by decide))⟩
    | false => exact ⟨_, makes_single fun _ => .word .false, word rfl (List.all_eq_true.mp (by decide))⟩
  | path hp =>
    exact ⟨_, makes_single fun _ => .word (.path ⟨rfl, fun p h => (hp p h).dotless⟩),
      fun he hr => hr.path hp he⟩
  | unary ho h ih =>
    obtain ⟨us, hm, hr⟩ := ih (by rw [List.length_append] at hl; omega)
    refine ⟨_, hm.unary _, fun he hrest => ?_⟩
    rw [List.append_assoc]
    exact ho.reads_unary (h.detached _) (hr he hrest)
  | binary hle ho ha hb iha ihb =>
    simp only [List.length_append] at hl
    obtain ⟨us, hma, hra⟩ := iha (by omega)
    obtain ⟨vs, hmb, hrb⟩ := ihb (by omega)
    refine ⟨_, hma.binary hle hmb, fun he hrest => ?_⟩
    have hb := ho.reads_binary (hb.detached _) (hrb he hrest)
    simpa using hra (ho.ends _) hb
  | group hlt _ ih =>
    obtain ⟨us, hm, hr⟩ := ih (by simp only [List.length_append, List.length_cons] at hl; omega)
    refine ⟨_, hm.group _, fun he hrest => ?_⟩
    have hi := hr (by intro c hc; cases hc; decide) hrest.closing
    simpa using hi.opening

theorem Prints.parse_eq {t : Tree} {cs : List Char} {n : Nat} (h : Prints 0 t cs n)
    (hl : cs.length ≤ 4096) (hn : n ≤ 99) : parse (String.ofList cs) = .ok t := by
  obtain ⟨us, hm, hr⟩ := h.reads (Nat.le_trans hl (by decide))
  have hends : Ends [] := by simp [Ends]
  obtain ⟨ts, hts, hl'⟩ := (hr hends reads_nil).tokens
  rw [List.append_nil] at hts hl'
  have ho : ofTokens ts = .ok t := ofTokens_eq_ok_iff.mpr ⟨n, hn, hm ts hl'⟩
  have hlimit : ¬ cs.length > lengthLimit := Nat.not_lt.mpr hl
  simp only [parse, String.toList_ofList, if_neg hlimit, hts, ho]

end Workflow.Expr
