import Workflow.Expr.Eval
/-!
The grammar of expressions, as a relation between token lists and trees, and that reading accepts
exactly what it derives.
-/

namespace Workflow

/-- The fault lies in the form of an expression and not in a number that it gives. -/
def ExprFault.IsFormal (e : ExprFault) : Prop :=
  ∀ f, e ≠ .number f

namespace Expr

/-- The marks of a binary level with their operators. -/
abbrev Table := List (Mark × BinaryOp)

/-- The binary levels, weakest first. -/
def operators : List Table := [
  [(.or, .or)],
  [(.and, .and)],
  [(.eq, .eq), (.ne, .ne)],
  [(.gt, .gt), (.ge, .ge), (.lt, .lt), (.le, .le)],
  [(.plus, .add), (.minus, .sub)],
  [(.star, .mul), (.slash, .div)]]

/-- A word with the given parts behind `vars`. -/
def IsPath (s : String) (parts : List String) : Prop :=
  s = ".".intercalate ("vars" :: parts) ∧ ∀ p ∈ parts, '.' ∉ p.toList

/-- What a word stands for: a truth value, a path below `vars`, or nothing. -/
inductive Means : String → Tree → Prop
  | true : Means "true" (.lit (.bool true))
  | false : Means "false" (.lit (.bool false))
  | path {s : String} {parts : List String} : IsPath s parts → Means s (.path parts)
  | nothing {s : String} : s ≠ "true" → s ≠ "false" → (∀ parts, ¬ IsPath s parts) →
      Means s (.lit .undefined)

/-- The tokens that an expression of some binary levels is made of, its tree, and how many signs and
parentheses its operands stand under at most. Without levels left it is a single operand. A level
reads from the left: all that stands before its last operator is the left operand. -/
inductive Derives : List Table → List Token → Tree → Nat → Prop
  | operand {l ls ts t n} : Derives ls ts t n → Derives (l :: ls) ts t n
  | joined {l ls ts us a b n k m op p} : Derives (l :: ls) ts a n → (m, op) ∈ l →
      Derives ls us b k → Derives (l :: ls) (ts ++ ⟨.mark m, p⟩ :: us) (.binary op a b) (max n k)
  | not {ts t n p} : Derives [] ts t n → Derives [] (⟨.mark .bang, p⟩ :: ts) (.unary .not t) (n + 1)
  | neg {ts t n p} : Derives [] ts t n → Derives [] (⟨.mark .minus, p⟩ :: ts) (.unary .neg t) (n + 1)
  | number {x p} : Derives [] [⟨.num x, p⟩] (.lit (.num x)) 0
  | text {s p} : Derives [] [⟨.text s, p⟩] (.lit (.str s)) 0
  | word {s t p} : Means s t → Derives [] [⟨.word s, p⟩] t 0
  | group {ts t n p q} : Derives operators ts t n →
      Derives [] (⟨.mark .opening, p⟩ :: ts ++ [⟨.mark .closing, q⟩]) t (n + 1)

theorem Derives.ne_nil {ls : List Table} {ts : List Token} {t : Tree} {n : Nat}
    (h : Derives ls ts t n) : ts ≠ [] := by
  induction h with
  | operand _ ih => exact ih
  | _ => simp

/-- A token list that is an expression with a tree, no operand of it under more than 99 signs and
parentheses. -/
def IsExpression (ts : List Token) (t : Tree) : Prop :=
  ∃ n, n ≤ 99 ∧ Derives operators ts t n

theorem isPath_iff {s : String} {parts : List String} :
    IsPath s parts ↔ Text.parts s = "vars" :: parts := by
  rw [Text.parts_eq_iff, IsPath]
  simp [and_comm]

theorem means_wordTree (s : String) : Means s (wordTree s) := by
  unfold wordTree
  split
  · rename_i h
    rw [beq_iff_eq.mp h]
    exact .true
  · rename_i ht
    split
    · rename_i h
      rw [beq_iff_eq.mp h]
      exact .false
    · rename_i hf
      split
      · rename_i parts h
        exact .path (isPath_iff.mpr h)
      · rename_i h
        exact .nothing (by simpa using ht) (by simpa using hf) fun parts hp =>
          h parts (isPath_iff.mp hp)

theorem Means.eq {s : String} {t : Tree} (h : Means s t) : wordTree s = t := by
  cases h with
  | true => rfl
  | false => rfl
  | path h =>
    have h := isPath_iff.mp h
    have ht : s ≠ "true" := by
      rintro rfl
      simp [show Text.parts "true" = ["true"] from rfl] at h
    have hf : s ≠ "false" := by
      rintro rfl
      simp [show Text.parts "false" = ["false"] from rfl] at h
    simp [wordTree, ht, hf, h]
  | nothing ht hf hn =>
    simp only [wordTree, beq_iff_eq, if_neg ht, if_neg hf]
    split
    · rename_i parts h
      exact absurd (isPath_iff.mpr h) (hn parts)
    · rfl

def Table.level (l : Table) : Level :=
  fun m => List.lookup m l

theorem Table.mem_of_level {l : Table} {m : Mark} {op : BinaryOp} (h : l.level m = some op) :
    (m, op) ∈ l := by
  obtain ⟨l₁, l₂, rfl, -⟩ := List.lookup_eq_some_iff.mp h
  simp

/-- The readers of some binary levels above the given operands. -/
def reader (operand : List Token → Reading) : List Table → List Token → Reading
  | [] => operand
  | l :: ls => chain (reader operand ls) l.level

theorem expression_eq_reader (operand : List Token → Reading) :
    expression operand = reader operand operators := by
  have hd : disjunction = Table.level [(.or, .or)] := by funext m; cases m <;> rfl
  have hc : conjunction = Table.level [(.and, .and)] := by funext m; cases m <;> rfl
  have he : equality = Table.level [(.eq, .eq), (.ne, .ne)] := by funext m; cases m <;> rfl
  have hr : relation = Table.level [(.gt, .gt), (.ge, .ge), (.lt, .lt), (.le, .le)] := by
    funext m; cases m <;> rfl
  have hs : sum = Table.level [(.plus, .add), (.minus, .sub)] := by funext m; cases m <;> rfl
  have hp : product = Table.level [(.star, .mul), (.slash, .div)] := by funext m; cases m <;> rfl
  simp only [expression, List.foldl_cons, List.foldl_nil, hd, hc, he, hr, hs, hp]
  rfl

/-! What is read is derived. -/

/-- What a reader reads is derived by some levels, under fewer than `d` signs and parentheses. -/
def Sound (p : List Token → Reading) (ls : List Table) (d : Nat) : Prop :=
  ∀ {ts t rest}, p ts = .ok (t, rest) → ∃ us n, ts = us ++ rest ∧ n < d ∧ Derives ls us t n

section sound

variable {p : List Token → Reading} {l : Table}
  {ls : List Table} {d : Nat}

theorem chainRest_sound (hp : Sound p ls d) (fuel : Nat) {left t : Tree} {pre ts rest : List Token}
    {n : Nat} (hn : n < d) (hl : Derives (l :: ls) pre left n)
    (h : chainRest p l.level fuel left ts = .ok (t, rest)) :
    ∃ us k, ts = us ++ rest ∧ k < d ∧ Derives (l :: ls) (pre ++ us) t k := by
  have stop {left : Tree} {pre ts : List Token} {n : Nat} (hn : n < d)
      (hl : Derives (l :: ls) pre left n) (h : (Except.ok (left, ts) : Reading) = .ok (t, rest)) :
      ∃ us k, ts = us ++ rest ∧ k < d ∧ Derives (l :: ls) (pre ++ us) t k := by
    cases h
    exact ⟨[], n, rfl, hn, by rwa [List.append_nil]⟩
  induction fuel generalizing left pre ts n with
  | zero => exact stop hn hl h
  | succ fuel ih =>
    unfold chainRest at h
    split at h
    · rename_i m pos us
      split at h
      · rename_i op hop
        split at h
        · cases h
        · rename_i b vs hb
          obtain ⟨ws, k, rfl, hk, hw⟩ := hp hb
          have hm : (m, op) ∈ l := Table.mem_of_level hop
          obtain ⟨xs, j, hx, hj, ht⟩ := ih (Nat.max_lt.mpr ⟨hn, hk⟩) (hl.joined hm hw) h
          subst hx
          exact ⟨⟨.mark m, pos⟩ :: ws ++ xs, j, by simp, hj, by simpa using ht⟩
      · exact stop hn hl h
    · exact stop hn hl h

theorem chain_sound (hp : Sound p ls d) : Sound (chain p l.level) (l :: ls) d := by
  intro ts t rest h
  unfold chain at h
  split at h
  · cases h
  · rename_i left us hl
    obtain ⟨pre, n, rfl, hn, hd⟩ := hp hl
    obtain ⟨vs, k, rfl, hk, ht⟩ := chainRest_sound hp _ hn hd.operand h
    exact ⟨pre ++ vs, k, by simp, hk, ht⟩

theorem reader_sound (hp : Sound p [] d) (ls : List Table) :
    Sound (reader p ls) ls d := by
  induction ls with
  | nil => exact hp
  | cons l ls ih => exact chain_sound ih

end sound

theorem operand_sound (d : Nat) : Sound (operand d) [] d := by
  induction d with
  | zero => intro ts t rest h; cases h
  | succ d ih =>
    intro ts t rest h
    rcases ts with _ | ⟨⟨l, pos⟩, ts⟩
    · cases h
    cases l with
    | num x =>
      cases h
      exact ⟨_, 0, rfl, Nat.succ_pos d, .number⟩
    | text s =>
      cases h
      exact ⟨_, 0, rfl, Nat.succ_pos d, .text⟩
    | word s =>
      cases h
      exact ⟨_, 0, rfl, Nat.succ_pos d, .word (means_wordTree s)⟩
    | mark m =>
      cases hm : prefixOp? m with
      | some op =>
        simp only [operand, hm] at h
        cases ho : operand d ts with
        | error e =>
          rw [ho] at h
          cases h
        | ok r =>
          rw [ho] at h
          cases h
          obtain ⟨us, n, rfl, hn, hd⟩ := ih ho
          refine ⟨⟨.mark m, pos⟩ :: us, n + 1, rfl, Nat.succ_lt_succ hn, ?_⟩
          cases m <;> cases hm
          · exact hd.not
          · exact hd.neg
      | none =>
        simp only [operand, hm, expression_eq_reader] at h
        split at h
        · rename_i hopen
          cases beq_iff_eq.mp hopen
          split at h
          · cases h
          · rename_i inner close us hr
            cases h
            obtain ⟨vs, n, rfl, hn, hd⟩ := reader_sound ih operators hr
            exact ⟨⟨.mark .opening, pos⟩ :: vs ++ [⟨.mark .closing, close⟩], n + 1, by simp,
              Nat.succ_lt_succ hn, hd.group⟩
          · cases h
        · cases h

/-! What is derived is read. -/

/-- The marks of some binary levels. -/
def marks (ls : List Table) : List Mark :=
  ls.flatten.map Prod.fst

/-- Behind an expression of some levels stands no operator of them. -/
def Stops (ls : List Table) : List Token → Prop
  | ⟨.mark m, _⟩ :: _ => m ∉ marks ls
  | _ => True

theorem marks_cons (l : Table) (ls : List Table) : marks (l :: ls) = l.map Prod.fst ++ marks ls := by
  simp [marks]

theorem Table.level_eq_some {l : Table} (hl : (l.map Prod.fst).Nodup) {m : Mark} {op : BinaryOp}
    (h : (m, op) ∈ l) : l.level m = some op := by
  obtain ⟨l₁, l₂, rfl⟩ := List.append_of_mem h
  refine List.lookup_eq_some_iff.mpr ⟨l₁, l₂, rfl, fun e he => bne_iff_ne.mpr fun hm => ?_⟩
  rw [List.map_append, List.nodup_append] at hl
  exact hl.2.2 e.1 (List.mem_map_of_mem he) m (by simp) hm.symm

section complete

variable {p : List Token → Reading} {l : Table} {ls : List Table}

theorem chainRest_stops {ts : List Token} (h : Stops (l :: ls) ts) (fuel : Nat) (left : Tree) :
    chainRest p l.level fuel left ts = .ok (left, ts) := by
  cases fuel with
  | zero => rfl
  | succ fuel =>
    unfold chainRest
    split
    · rename_i m pos rest
      have hm : l.level m = none := by
        cases ho : l.level m with
        | none => rfl
        | some op =>
          have hm : m ∈ l.map Prod.fst := List.mem_map_of_mem (Table.mem_of_level ho)
          exact absurd (by rw [marks_cons]; exact List.mem_append_left _ hm) h
      rw [hm]
    · rfl

/-- As many rounds as there are tokens are enough. -/
theorem chainRest_enough (hp : ∀ {ts t rest}, p ts = .ok (t, rest) → rest.length ≤ ts.length)
    {level : Level} {fuel fuel' : Nat} {left : Tree} {ts : List Token} (h : ts.length ≤ fuel)
    (h' : ts.length ≤ fuel') :
    chainRest p level fuel left ts = chainRest p level fuel' left ts := by
  induction fuel generalizing fuel' left ts with
  | zero =>
    cases List.length_eq_zero_iff.mp (Nat.le_zero.mp h)
    cases fuel' <;> rfl
  | succ fuel ih =>
    cases ts with
    | nil => cases fuel' <;> rfl
    | cons t ts =>
      cases fuel' with
      | zero => simp at h'
      | succ fuel' =>
        unfold chainRest
        split
        · rename_i m pos us he
          cases he
          split
          · split
            · rfl
            · rename_i b vs hb
              have hv := hp hb
              rw [List.length_cons] at h h'
              exact ih (by omega) (by omega)
          · rfl
        · rfl

/-- How a reader goes on behind an expression of its levels: with operators of the weakest one. -/
def goOn (p : List Token → Reading) : List Table → Tree → List Token → Reading
  | [], t, rest => .ok (t, rest)
  | l :: ls, t, rest => chainRest (reader p ls) l.level rest.length t rest

theorem goOn_stops {rest : List Token} (h : Stops ls rest) (t : Tree) :
    goOn p ls t rest = .ok (t, rest) := by
  cases ls with
  | nil => rfl
  | cons l ls => exact chainRest_stops h _ _

end complete

theorem reader_shrinks (d : Nat) (ls : List Table) {ts rest : List Token} {t : Tree}
    (h : reader (operand d) ls ts = .ok (t, rest)) : rest.length ≤ ts.length := by
  obtain ⟨us, -, rfl, -⟩ := reader_sound (operand_sound d) ls h
  simp

theorem stops_operators_closing (q : Nat) (rest : List Token) :
    Stops operators (⟨.mark .closing, q⟩ :: rest) :=
  (by decide : Mark.closing ∉ marks operators)

theorem Stops.tail {ls : List Table} {ts : List Token} (h : Stops ls ts) : Stops ls.tail ts := by
  cases ls with
  | nil => exact h
  | cons l ls =>
    unfold Stops at *
    split
    · simp only [marks_cons, List.mem_append, not_or] at h
      exact h.2
    · trivial

theorem nodup_marks_tail {l : Table} {ls : List Table} (h : (marks (l :: ls)).Nodup) :
    (marks ls).Nodup := by
  rw [marks_cons] at h
  exact (List.nodup_append.mp h).2.1

/-- A mark of a level is none of the levels that bind tighter. -/
theorem stops_of_mem {l : Table} {ls : List Table} (h : (marks (l :: ls)).Nodup) {m : Mark}
    {op : BinaryOp} (hm : (m, op) ∈ l) (pos : Nat) (ts : List Token) :
    Stops ls (⟨.mark m, pos⟩ :: ts) := by
  rw [marks_cons, List.nodup_append] at h
  exact fun hn => h.2.2 m (List.mem_map_of_mem hm) m hn rfl

/-- The induction is on the derivation. A level's expression may have more operators of that level
behind it, which is why the reader goes on with them. -/
theorem reader_append {ls : List Table} {ts : List Token} {t : Tree} {n : Nat}
    (h : Derives ls ts t n) {d : Nat} {rest : List Token} (hd : n < d) (hls : (marks ls).Nodup)
    (hr : Stops ls.tail rest) : reader (operand d) ls (ts ++ rest) = goOn (operand d) ls t rest := by
  induction h generalizing d rest with
  | @operand l ls ts t n _ ih =>
    have hr : Stops ls rest := hr
    have hl : reader (operand d) ls (ts ++ rest) = .ok (t, rest) := by
      rw [ih hd (nodup_marks_tail hls) hr.tail, goOn_stops hr]
    simp only [reader, chain, hl]
    rfl
  | @joined l ls ts us a b n k m op pos _ hm _ iha ihb =>
    obtain ⟨hn, hk⟩ := Nat.max_lt.mp hd
    have hlevel : l.level m = some op := by
      rw [marks_cons] at hls
      exact Table.level_eq_some (List.nodup_append.mp hls).1 hm
    have hr : Stops ls rest := hr
    have hb : reader (operand d) ls (us ++ rest) = .ok (b, rest) := by
      rw [ihb hk (nodup_marks_tail hls) hr.tail, goOn_stops hr]
    rw [List.append_assoc, List.cons_append, iha hn hls (stops_of_mem hls hm pos (us ++ rest))]
    simp only [goOn, List.length_cons, chainRest, hlevel, hb]
    exact chainRest_enough (reader_shrinks d ls) (by simp) (Nat.le_refl _)
  | not _ ih =>
    obtain _ | d := d
    · cases hd
    have ho := ih (Nat.lt_of_succ_lt_succ hd) hls hr
    simp only [reader, goOn] at ho
    simp only [reader, goOn, List.cons_append, operand, prefixOp?, ho]
    rfl
  | neg _ ih =>
    obtain _ | d := d
    · cases hd
    have ho := ih (Nat.lt_of_succ_lt_succ hd) hls hr
    simp only [reader, goOn] at ho
    simp only [reader, goOn, List.cons_append, operand, prefixOp?, ho]
    rfl
  | @group ts t n p q _ ih =>
    obtain _ | d := d
    · cases hd
    have hs := stops_operators_closing q rest
    have hi := ih (Nat.lt_of_succ_lt_succ hd) (by decide) hs.tail
    rw [goOn_stops hs] at hi
    simp [reader, goOn, operand, prefixOp?, expression_eq_reader, hi]
  | word hw =>
    obtain _ | d := d
    · cases hd
    rw [← hw.eq]
    rfl
  | _ =>
    obtain _ | d := d
    · cases hd
    rfl

/-- A token list is read as a tree just if it is an expression with that tree. -/
theorem ofTokens_eq_ok_iff {ts : List Token} {t : Tree} :
    ofTokens ts = .ok t ↔ IsExpression ts t := by
  constructor
  · intro h
    unfold ofTokens at h
    split at h
    · cases h
    · split at h
      · cases h
      · rename_i hr
        cases h
        rw [expression_eq_reader] at hr
        obtain ⟨us, n, rfl, hn, hd⟩ := reader_sound (operand_sound depthLimit) operators hr
        exact ⟨n, Nat.le_of_lt_succ hn, by rwa [List.append_nil]⟩
      · cases h
  · rintro ⟨n, hn, hd⟩
    have hstops : Stops operators [] := trivial
    have hr := reader_append hd (Nat.lt_succ_of_le hn) (by decide) hstops.tail
    rw [goOn_stops hstops, List.append_nil] at hr
    have hne : ts.isEmpty = false := List.isEmpty_eq_false_iff.mpr hd.ne_nil
    have hr : reader (operand depthLimit) operators ts = .ok (t, []) := hr
    simp [ofTokens, hne, expression_eq_reader, hr]

/-! Why a token list is refused. -/

section formal

variable {p : List Token → Reading} {level : Level}

end formal

end Expr

end Workflow
