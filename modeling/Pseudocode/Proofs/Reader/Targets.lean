import Pseudocode.Proofs.Reader.Comparisons
import Pseudocode.Proofs.Reader.Lookahead
import Pseudocode.Render.Expr
set_option autoImplicit false

/-!
# Assignments as statements and as expressions

An assignment is read in two ways.  As an expression it is whatever stands before an assigning
operator, if that is a target.  As a statement the tokens behind its first name decide.  Where a
point follows the name, they decide for a chain of calls, which ends before the operator and is
refused there.  Everywhere else the two ways agree.
-/

namespace Pseudocode

theorem Expr.isTarget_of_isBinary {e : Expr} (h : e.isBinary = true) : e.isTarget = false := by
  cases e with
  | binary => rfl
  | _ => cases h

/-- A name, or a name with subscripts. -/
def Expr.isVariable : Expr → Bool
  | .name .. | .index _ (.name ..) _ => true
  | _ => false

/-- Only a target is a variable. -/
theorem Expr.isVariable_of_not_isTarget {e : Expr} (h : e.isTarget = false) :
    e.isVariable = false := by
  cases e with
  | name | index => cases h
  | _ => rfl

theorem Expr.isVariable_index {e : Expr} (h : e.isVariable = false) (p : Pos) (es : List Expr) :
    (Expr.index p e es).isVariable = false := by
  cases e with
  | name => cases h
  | _ => rfl

namespace Reading

variable {t u : Token} {ts us rest : List Token} {e : Expr}

/-! ## Repetition -/

/-- Either the first step reads nothing and the value stays, or the value comes from a step. -/
theorem iterateWithin_cases {α : Type} {step : α → Reading (Option α)} {I : α → Prop}
    (hstep : ∀ a us b rest, I a → step a us = .ok (some b, rest) → I b) (clock : List Token)
    {a b : α} {us : List Token} (hfirst : ∀ b rest, step a us = .ok (some b, rest) → I b)
    (h : iterateWithin step clock a us = .ok (b, rest)) :
    (b = a ∧ step a us = .ok (none, rest)) ∨ (I b ∧ ∃ c mid, step a us = .ok (some c, mid)) := by
  induction clock generalizing a us with
  | nil => cases h
  | cons _ clock ih =>
    rw [iterateWithin, bind_eq_ok_iff] at h
    obtain ⟨r, mid, hread, hothers⟩ := h
    cases r with
    | none =>
      cases hothers
      exact .inl ⟨rfl, hread⟩
    | some c =>
      have hc : I c := hfirst c mid hread
      refine .inr ⟨?_, c, mid, hread⟩
      rcases ih (fun b rest => hstep c mid b rest hc) hothers with ⟨rfl, -⟩ | ⟨hb, -⟩
      · exact hc
      · exact hb

/-! ## Where an expression begins -/

/-- One more operand is joined, or nothing is read. -/
theorem joinWith_cases {operator? : Token → Option BinaryOp} {operand : Reading Expr} {left : Expr}
    {r : Option Expr} (h : joinWith operator? operand left us = .ok (r, rest)) :
    (r = none ∧ rest = us) ∨ ∃ joined, r = some joined ∧ joined.isBinary = true := by
  cases us with
  | nil => cases h
  | cons u us =>
    rw [joinWith, bind_of_ok current_cons] at h
    cases hop : operator? u with
    | none =>
      simp only [hop] at h
      cases h
      exact .inl ⟨rfl, rfl⟩
    | some op =>
      simp only [hop, bind_eq_ok_iff] at h
      obtain ⟨_, _, -, right, _, -, hjoined⟩ := h
      cases hjoined
      exact .inr ⟨_, rfl, rfl⟩

/-- Operands of one level are joined, or there is just the one and nothing more is read. -/
theorem joined_cases {operator? : Token → Option BinaryOp} {operand : Reading Expr} {left : Expr}
    (h : iterate (joinWith operator? operand) left us = .ok (e, rest)) :
    (e = left ∧ rest = us) ∨ e.isBinary = true := by
  have hstep : ∀ a vs b rest, joinWith operator? operand a vs = .ok (some b, rest) →
      b.isBinary = true := by
    intro a vs b rest hjoin
    rcases joinWith_cases hjoin with ⟨hnone, -⟩ | ⟨_, ⟨⟩, hbinary⟩
    · cases hnone
    · exact hbinary
  rcases iterateWithin_cases (fun a vs b rest _ => hstep a vs b rest) us (hstep left us) h with
    ⟨rfl, hnone⟩ | ⟨hbinary, -⟩
  · rcases joinWith_cases hnone with ⟨-, hrest⟩ | ⟨_, hsome, -⟩
    · exact .inl ⟨rfl, hrest⟩
    · cases hsome
  · exact .inr hbinary

/-- An expression starts with its first operand.  If an operator follows the operand, the
expression is made of operands that are joined; otherwise it is the operand. -/
theorem levelWith_cases {n : Nat} (h : levelWith nested n ts = .ok (e, rest)) :
    ∃ first mid, unaryWith nested ts = .ok (first, mid) ∧
      (e = first ∧ rest = mid ∨ e.isBinary = true) := by
  induction n generalizing e rest with
  | zero => exact ⟨e, rest, h, .inl ⟨rfl, rfl⟩⟩
  | succ n ih =>
    rw [levelWith_succ, leftAssoc_eq, bind_eq_ok_iff] at h
    obtain ⟨left, mid, hleft, hothers⟩ := h
    obtain ⟨first, behind, hfirst, hcases⟩ := ih hleft
    refine ⟨first, behind, hfirst, ?_⟩
    rcases joined_cases hothers with ⟨rfl, rfl⟩ | hbinary
    · exact hcases
    · exact .inr hbinary

/-- What no operator follows is an expression by itself. -/
theorem expression_of_unaryWith (h : unaryWith nested ts = .ok (e, u :: us))
    (hbinary : u.binaryOp? = none) (hassign : u.assignOp? = none) :
    expression ts = .ok (e, u :: us) := by
  have hlevel : ∀ n, levelWith nested n ts = .ok (e, u :: us) := by
    intro n
    induction n with
    | zero => exact h
    | succ n ih =>
      have hnone : joinWith (levelOp? n) (levelWith nested n) e (u :: us) =
          .ok (none, u :: us) := by
        rw [joinWith, bind_of_ok current_cons, levelOp?, hbinary]
        rfl
      rw [levelWith_succ, leftAssoc_eq, bind_of_ok ih, iterate_of_none hnone]
  rw [expression_eq, assigningWith, bind_of_ok (hlevel loosest), bind_of_ok current_cons, hassign]
  rfl

/-! ## Behind a name -/

/-- The first operand of an expression that starts with a name. -/
theorem unaryWith_of_name (ht : t.kind = .identifier) :
    unaryWith nested (t :: us) = suffixesWith nested (.name t.pos t.text) us := by
  have hsign : t.unaryOp? = none := by
    simp [Token.unaryOp?, Token.operator?, ht]
  have hword : ∀ word, (Pattern.keyword word).fits t = false := by
    simp [Pattern.fits, Pattern.keyword, ht]
  rw [unaryWith_of_none hsign, primaryWith, bind_of_ok current_cons, if_neg (by simp [hword]),
    if_neg (by simp [hword, ht]), if_pos ht, bind_of_ok (advance_cons (by simp [ht]))]

/-- What one step behind an operand can be. -/
theorem extendWith_cases {node : Expr} {r : Option Expr}
    (h : extendWith nested node ts = .ok (r, rest)) :
    (r = none ∧ rest = ts) ∨
      ∃ u us e, ts = u :: us ∧ r = some e ∧ e.pos = node.pos ∧ e.isAssign = false ∧
        (e.isTarget = false ∧ (Pattern.openParen.fits u = true ∨ Pattern.dot.fits u = true) ∨
          Pattern.openBracket.fits u = true ∧
            ∃ es, subscripts ts = .ok (es, rest) ∧ e = .index node.pos node es) := by
  unfold extendWith at h
  obtain ⟨u, _, hcurrent, h⟩ := bind_eq_ok_iff.mp h
  obtain ⟨us, rfl⟩ : ∃ us, ts = u :: us := by
    cases ts with
    | nil => cases hcurrent
    | cons v vs =>
      cases hcurrent
      exact ⟨vs, rfl⟩
  cases hcurrent
  by_cases hparen : Pattern.openParen.fits u = true
  · rw [if_pos hparen] at h
    cases node with
    | name p name =>
      simp only [bind_eq_ok_iff] at h
      obtain ⟨_, _, -, args, _, -, hcall⟩ := h
      cases hcall
      exact .inr ⟨_, _, _, rfl, rfl, rfl, rfl, .inl ⟨rfl, .inl hparen⟩⟩
    | _ => cases h
  · rw [if_neg hparen] at h
    by_cases hdot : Pattern.dot.fits u = true
    · rw [if_pos hdot] at h
      simp only [bind_eq_ok_iff] at h
      obtain ⟨_, _, -, name, _, -, called, _, -, hlink⟩ := h
      split at hlink
      · simp only [bind_eq_ok_iff] at hlink
        obtain ⟨args, _, -, hcall⟩ := hlink
        cases hcall
        exact .inr ⟨_, _, _, rfl, rfl, rfl, rfl, .inl ⟨rfl, .inr hdot⟩⟩
      · split at hlink <;> cases hlink <;>
          exact .inr ⟨_, _, _, rfl, rfl, rfl, rfl, .inl ⟨rfl, .inr hdot⟩⟩
    · rw [if_neg hdot] at h
      by_cases hbracket : Pattern.openBracket.fits u = true
      · rw [if_pos hbracket] at h
        simp only [bind_eq_ok_iff] at h
        obtain ⟨es, mid, hes, hindex⟩ := h
        cases hindex
        rw [← subscripts_eq] at hes
        exact .inr ⟨_, _, _, rfl, rfl, rfl, rfl, .inr ⟨hbracket, es, hes, rfl⟩⟩
      · rw [if_neg hbracket] at h
        cases h
        exact .inl ⟨rfl, rfl⟩

/-- The last thing behind an operand may be a change by one. -/
theorem suffixesWith_inv {node : Expr} (h : suffixesWith nested node us = .ok (e, rest)) :
    ∃ last mid, iterate (extendWith nested) node us = .ok (last, mid) ∧
      (e = last ∧ rest = mid ∨ ∃ op, e = .update last.pos op last) := by
  obtain ⟨last, mid, hlast, hend⟩ := bind_eq_ok_iff.mp h
  refine ⟨last, mid, hlast, ?_⟩
  cases mid with
  | nil => cases hend
  | cons v vs =>
    rw [bind_of_ok current_cons] at hend
    cases hop : v.updateOp? with
    | none =>
      simp only [hop] at hend
      cases hend
      exact .inl ⟨rfl, rfl⟩
    | some op =>
      simp only [hop, bind_eq_ok_iff] at hend
      obtain ⟨_, _, -, hupdate⟩ := hend
      cases hupdate
      exact .inr ⟨op, rfl⟩

/-- Behind a target nothing more was read, or it was read step by step. -/
theorem suffixesWith_cases {node : Expr} (h : suffixesWith nested node us = .ok (e, rest))
    (htarget : e.isTarget = true) :
    (e = node ∧ extendWith nested node us = .ok (none, rest)) ∨
      ∃ c mid, extendWith nested node us = .ok (some c, mid) ∧
        suffixesWith nested c mid = .ok (e, rest) := by
  obtain ⟨last, mid, hlast, ⟨rfl, rfl⟩ | ⟨op, rfl⟩⟩ := suffixesWith_inv h
  · rcases iterateWithin_cases (I := fun _ => True) (fun _ _ _ _ _ _ => trivial) us
      (fun _ _ _ => trivial) hlast with hnone | ⟨-, c, mid, hsome⟩
    · exact .inl hnone
    · rw [suffixesWith_of_some hsome] at h
      exact .inr ⟨c, mid, hsome, h⟩
  · cases htarget

/-- What one more step keeps, and a change by one, holds of an operand with all its suffixes. -/
theorem suffixesWith_keeps {I : Expr → Prop}
    (hstep : ∀ a us b rest, I a → extendWith nested a us = .ok (some b, rest) → I b)
    (hupdate : ∀ a op, I a → I (.update a.pos op a)) {node : Expr} (hnode : I node)
    (h : suffixesWith nested node us = .ok (e, rest)) : I e := by
  obtain ⟨last, mid, hlast, hend⟩ := suffixesWith_inv h
  have hkept : I last := by
    rcases iterateWithin_cases hstep us (fun b rest => hstep node us b rest hnode) hlast with
      ⟨rfl, -⟩ | ⟨hkept, -⟩
    · exact hnode
    · exact hkept
  rcases hend with ⟨rfl, -⟩ | ⟨op, rfl⟩
  · exact hkept
  · exact hupdate last op hkept

/-- An operand with its suffixes starts where the operand does, and it is no assignment. -/
theorem suffixesWith_starts {node : Expr} (hnode : node.isAssign = false)
    (h : suffixesWith nested node us = .ok (e, rest)) :
    e.pos = node.pos ∧ e.isAssign = false := by
  refine suffixesWith_keeps (I := fun a => a.pos = node.pos ∧ a.isAssign = false) ?_ ?_
    ⟨rfl, hnode⟩ h
  · rintro a us b rest ⟨hpos, -⟩ hextend
    rcases extendWith_cases hextend with ⟨hnone, -⟩ | ⟨v, vs, c, -, hc, hcpos, hassign, -⟩
    · cases hnone
    · cases hc
      exact ⟨hcpos.trans hpos, hassign⟩
  · exact fun a op ha => ⟨ha.1, rfl⟩

/-- One step leads to no variable, except from a name to its subscripts. -/
theorem isVariable_of_extendWith {node : Expr} (hnode : node.isVariable = false)
    (h : extendWith nested node us = .ok (some e, rest)) : e.isVariable = false := by
  rcases extendWith_cases h with
    ⟨hnone, -⟩ | ⟨v, vs, c, -, hc, -, -, ⟨htarget, -⟩ | ⟨-, es, -, hindex⟩⟩
  · cases hnone
  · cases hc
    exact Expr.isVariable_of_not_isTarget htarget
  · cases hc
    subst hindex
    exact Expr.isVariable_index hnode _ _

theorem isVariable_of_suffixesWith {node : Expr} (hnode : node.isVariable = false)
    (h : suffixesWith nested node us = .ok (e, rest)) : e.isVariable = false :=
  suffixesWith_keeps (I := fun a => a.isVariable = false)
    (fun _ _ _ _ ha hextend => isVariable_of_extendWith ha hextend) (fun _ _ _ => rfl) hnode h

/-! ## Assignments that start with a name -/

variable {p : Pos} {target value : Expr} {op : AssignOp}

/-- The target of an assignment that starts with a name is the name with its suffixes, and the
operator follows it. -/
theorem exists_operator_of_assign (ht : t.kind = .identifier)
    (h : expression (t :: us) = .ok (.assign p target op value, rest)) :
    p = t.pos ∧ target.isTarget = true ∧
      ∃ o vs, suffixesWith nested (.name t.pos t.text) us = .ok (target, o :: vs) ∧
        o.assignOp? = some op ∧ expression vs = .ok (value, rest) := by
  rw [expression_eq, assigningWith] at h
  obtain ⟨left, mid, hleft, hassign⟩ := bind_eq_ok_iff.mp h
  obtain ⟨first, behind, hfirst, hcases⟩ := levelWith_cases hleft
  rw [unaryWith_of_name ht] at hfirst
  have hkept := suffixesWith_starts rfl hfirst
  cases mid with
  | nil => cases hassign
  | cons o vs =>
    rw [bind_of_ok current_cons] at hassign
    cases hop : o.assignOp? with
    | none =>
      -- The operands in front of an operator are no assignment.
      simp only [hop] at hassign
      cases hassign
      rcases hcases with ⟨rfl, -⟩ | hbinary
      · cases hkept.2
      · cases hbinary
    | some op' =>
      simp only [hop] at hassign
      split at hassign
      · rename_i htarget
        have hne : o.kind ≠ .eof := by simp [(Token.assignOp?_eq_some hop).1]
        rw [bind_of_ok (advance_cons hne)] at hassign
        obtain ⟨value, _, hvalue, hassign⟩ := bind_eq_ok_iff.mp hassign
        cases hassign
        rcases hcases with ⟨rfl, rfl⟩ | hbinary
        · exact ⟨hkept.1, htarget, o, vs, hfirst, hop, hvalue⟩
        · rw [Expr.isTarget_of_isBinary hbinary] at htarget
          cases htarget
      · cases hassign

/-! ## Looking ahead -/

/-- A token that goes on with no expression because it is a name, or because it only looks like an
opening bracket. -/
theorem endsAll_of_text {a : Token} (ha : a.kind = .identifier ∨ a.text = "[") :
    a.binaryOp? = none ∧ a.assignOp? = none ∧
      (Pattern.openBracket.fits a = false → a.ends 0 = true) := by
  have hbinary : a.binaryOp? = none := by
    rw [Option.eq_none_iff_forall_ne_some]
    intro op hop
    rcases ha with ha | ha
    · simp [(Token.binaryOp?_eq_some hop).1] at ha
    · have hall : ∀ op ∈ BinaryOp.all, "[" ≠ op.symbol := by decide
      exact hall op (Token.binaryOp?_eq_some hop).2 (ha ▸ Token.text_of_binaryOp? hop)
  have hassign : a.assignOp? = none := by
    rw [Option.eq_none_iff_forall_ne_some]
    intro op hop
    rcases ha with ha | ha
    · simp [(Token.assignOp?_eq_some hop).1] at ha
    · simpa [ha] using Token.text_of_assignOp? hop
  have hupdate : a.updateOp? = none := by
    rw [Option.eq_none_iff_forall_ne_some]
    intro op hop
    rcases ha with ha | ha
    · simp [(Token.updateOp?_eq_some hop).1] at ha
    · simpa [ha] using Token.text_of_updateOp? hop
  refine ⟨hbinary, hassign, fun hopen => ?_⟩
  have hmarks : Pattern.openParen.fits a = false ∧ Pattern.dot.fits a = false := by
    rcases ha with ha | ha <;> simp [Pattern.fits, Pattern.openParen, Pattern.dot, ha]
  simp [Token.ends, hmarks, hopen, hupdate, hbinary]

/-- The first operand of an expression is read, whatever the expression goes on with. -/
theorem exists_unaryWith (h : expression ts = .ok (e, rest)) :
    ∃ first mid, unaryWith nested ts = .ok (first, mid) := by
  rw [expression_eq, assigningWith] at h
  obtain ⟨left, mid, hleft, -⟩ := bind_eq_ok_iff.mp h
  obtain ⟨first, behind, hfirst, -⟩ := levelWith_cases hleft
  exact ⟨first, behind, hfirst⟩

theorem unaryWith_of_isConstant {b : Token} (hb : b.IsConstant) (us : List Token) :
    unaryWith nested (b :: us) = .ok (.literal b.pos b.text, us) := by
  have hkind := hb.kind_mem
  have hsign : b.unaryOp? = none := by
    simp only [List.mem_cons, List.not_mem_nil, or_false] at hkind
    rcases hkind with hkind | hkind | hkind <;> simp [Token.unaryOp?, Token.operator?, hkind]
  have hne : b.kind ≠ .eof := by
    rintro heof
    simp [heof] at hkind
  unfold Token.IsConstant at hb
  have hnew : (Pattern.keyword "new").fits b = false := by
    rcases hb with hb | hb | hb | hb
    · simp [Pattern.fits, Pattern.keyword, hb]
    · simp [Pattern.fits, Pattern.keyword, hb]
    · have htext : b.text = "true" := text_of_fits hb rfl
      simp [Pattern.fits, Pattern.keyword, htext]
    · have htext : b.text = "false" := text_of_fits hb rfl
      simp [Pattern.fits, Pattern.keyword, htext]
  rw [unaryWith_of_none hsign, primaryWith, bind_of_ok current_cons, if_neg (by simp [hnew]),
    if_pos hb, bind_of_ok (advance_cons hne)]
  rfl

/-- Behind a name or a literal, a token that goes on with neither ends the expression. -/
theorem rest_of_expression {b a c : Token} {vs : List Token}
    (hb : b.kind = .identifier ∨ b.IsConstant) (ha : a.kind = .identifier ∨ a.text = "[")
    (hopen : b.kind = .identifier → Pattern.openBracket.fits a = false)
    (h : expression (b :: a :: vs) = .ok (e, c :: rest)) : c = a := by
  obtain ⟨hbinary, hassign, hends⟩ := endsAll_of_text ha
  have hfirst : ∃ first, unaryWith nested (b :: a :: vs) = .ok (first, a :: vs) := by
    rcases hb with hb | hb
    · rw [unaryWith_of_name hb]
      exact ⟨_, suffixesWith_of_ends (hends (hopen hb)) _⟩
    · exact ⟨_, unaryWith_of_isConstant hb _⟩
  obtain ⟨first, hfirst⟩ := hfirst
  rw [expression_of_unaryWith hfirst hbinary hassign] at h
  cases h
  rfl

/-- Behind a name with a subscript there is an expression. -/
theorem subscript_of_expression {b a : Token} {vs : List Token} (hb : b.kind = .identifier)
    (ha : Pattern.openBracket.fits a = true) (h : expression (b :: a :: vs) = .ok (e, rest)) :
    ∃ index c behind, expression vs = .ok (index, c :: behind) ∧
      Pattern.closeBracket.fits c = true := by
  obtain ⟨first, mid, hfirst⟩ := exists_unaryWith h
  rw [unaryWith_of_name hb] at hfirst
  obtain ⟨last, mid, hlast, -⟩ := suffixesWith_inv hfirst
  have hextend : ∃ r mid, extendWith nested (.name b.pos b.text) (a :: vs) = .ok (r, mid) := by
    rcases iterateWithin_cases (I := fun _ => True) (fun _ _ _ _ _ _ => trivial) (a :: vs)
      (fun _ _ _ => trivial) hlast with ⟨-, hnone⟩ | ⟨-, c, mid, hsome⟩
    · exact ⟨_, _, hnone⟩
    · exact ⟨_, _, hsome⟩
  obtain ⟨r, mid, hextend⟩ := hextend
  have hmarks : Pattern.openParen.fits a = false ∧ Pattern.dot.fits a = false := by
    simp [Pattern.fits, Pattern.openParen, Pattern.dot, kind_of_fits ha, Pattern.openBracket]
  unfold extendWith at hextend
  rw [bind_of_ok current_cons, if_neg (by simp [hmarks]), if_neg (by simp [hmarks]), if_pos ha]
    at hextend
  obtain ⟨es, _, hes, -⟩ := bind_eq_ok_iff.mp hextend
  obtain ⟨⟨index, behind⟩, hitem⟩ := exists_item_of_many ha hes
  rw [bind_of_ok (advance_cons (ne_eof_of_fits ha (by decide)))] at hitem
  obtain ⟨index, mid, hindex, hclose⟩ := bind_eq_ok_iff.mp hitem
  obtain ⟨c, _, hclose, -⟩ := bind_eq_ok_iff.mp hclose
  cases mid with
  | nil => cases hclose
  | cons c behind =>
    refine ⟨index, c, behind, hindex, ?_⟩
    rw [← Bool.not_eq_false]
    intro hnot
    unfold expect at hclose
    rw [bind_of_ok (accept_of_not_fits hnot)] at hclose
    cases hclose

/-- An expression whose first token only looks like a closing bracket. -/
theorem operand_of_text {b : Token} (h : expression (b :: us) = .ok (e, rest))
    (htext : b.text = "]") : b.kind = .identifier ∨ b.IsConstant := by
  obtain ⟨first, mid, hfirst⟩ := exists_unaryWith h
  have hsign : b.unaryOp? = none := by
    rw [Option.eq_none_iff_forall_ne_some]
    intro op hop
    simpa [htext] using Token.text_of_unaryOp? hop
  have hmarks : (Pattern.keyword "new").fits b = false ∧ Pattern.openParen.fits b = false := by
    simp [Pattern.fits, Pattern.keyword, Pattern.openParen, htext]
  rw [unaryWith_of_none hsign, primaryWith, bind_of_ok current_cons, if_neg (by simp [hmarks])]
    at hfirst
  by_cases hconstant : b.IsConstant
  · exact .inr hconstant
  · by_cases hname : b.kind = .identifier
    · exact .inl hname
    · unfold Token.IsConstant at hconstant
      rw [if_neg hconstant, if_neg hname, if_neg (by simp [hmarks])] at hfirst
      cases hfirst

/-- No name follows the first operand of an expression, which would end there. -/
theorem head_of_expression {b c : Token} (hb : b.kind = .identifier ∨ b.IsConstant)
    (h : expression (b :: us) = .ok (e, c :: rest)) (hkind : c.kind ≠ .identifier) :
    ∀ n ∈ us.head?, n.kind ≠ .identifier := by
  intro n hn hname
  cases us with
  | nil => cases hn
  | cons a vs =>
    cases hn
    have hend := rest_of_expression hb (.inl hname)
      (fun _ => by simp [Pattern.fits, Pattern.openBracket, hname]) h
    exact hkind (hend ▸ hname)

/-- No name follows the empty pairs of brackets behind the first operand of an expression. -/
theorem skipEmptyPairs_of_expression {b c : Token} (hb : b.kind = .identifier ∨ b.IsConstant)
    (h : expression (b :: us) = .ok (e, c :: rest)) (hkind : c.kind ≠ .identifier)
    (htext : c.text ≠ "[") : ∀ n ∈ (Token.skipEmptyPairs us).head?, n.kind ≠ .identifier := by
  induction us using Token.skipEmptyPairs.induct generalizing b e c rest with
  | case1 a d vs hpair ih =>
    rw [Token.skipEmptyPairs, if_pos hpair]
    by_cases hopen : b.kind = .identifier ∧ Pattern.openBracket.fits a = true
    · obtain ⟨index, close, behind, hindex, hclose⟩ := subscript_of_expression hopen.1 hopen.2 h
      have hd := operand_of_text hindex hpair.2
      have hclosed : close.text = "]" := text_of_fits hclose rfl
      exact ih hd hindex (by simp [kind_of_fits hclose, Pattern.closeBracket]) (by simp [hclosed])
    · have hend := rest_of_expression hb (.inr hpair.1)
        (fun hkind => by simpa using not_and.mp hopen hkind) h
      exact absurd (hend ▸ hpair.1) htext
  | case2 a d vs hpair =>
    rw [Token.skipEmptyPairs, if_neg hpair]
    exact head_of_expression hb h hkind
  | case3 us hshort =>
    rw [Token.skipEmptyPairs.eq_2 us hshort]
    exact head_of_expression hb h hkind

theorem declares_of_expression {c : Token} (ht : t.kind = .identifier)
    (h : expression (t :: us) = .ok (e, c :: rest)) (hkind : c.kind ≠ .identifier)
    (htext : c.text ≠ "[") : Token.declares us = false := by
  have hhead := head_of_expression (.inl ht) h hkind
  have hpairs := skipEmptyPairs_of_expression (.inl ht) h hkind htext
  have hany : ∀ {vs : List Token}, (∀ n ∈ vs.head?, n.kind ≠ .identifier) →
      vs.head?.any (·.kind == .identifier) = false := by
    intro vs hvs
    rw [Option.any_eq_false]
    exact fun n hn => by simpa using hvs n hn
  rw [Token.declares, hany hhead, hany hpairs, Bool.and_false, Bool.or_false]

/-! ## Assignments as statements -/

/-- A sign that goes on with an operand is no operator. -/
theorem kind_of_suffix {m : Token}
    (h : (Pattern.openParen.fits m = true ∨ Pattern.dot.fits m = true) ∨
      Pattern.openBracket.fits m = true) : m.kind ≠ .operator := by
  rcases h with (h | h) | h <;> simp [kind_of_fits h, Pattern.openParen, Pattern.dot,
    Pattern.openBracket]

theorem target_of_name {o : Token} {vs : List Token} (ht : t.kind = .identifier)
    (ho : Pattern.openBracket.fits o = false) :
    Reading.target (t :: o :: vs) = .ok (.name t.pos t.text, o :: vs) := by
  unfold Reading.target
  rw [bind_of_ok here_cons, bind_of_ok (expect_of_fits _ (by simp [Pattern.fits, Pattern.name,
    Pattern.any, ht]) (by decide)), bind_of_ok (isAt_cons _), if_neg (by simp [ho])]
  rfl

theorem target_of_subscripts {es : List Expr} {vs : List Token} (ht : t.kind = .identifier)
    (hu : Pattern.openBracket.fits u = true) (h : subscripts (u :: us) = .ok (es, vs)) :
    Reading.target (t :: u :: us) = .ok (.index t.pos (.name t.pos t.text) es, vs) := by
  unfold Reading.target
  rw [bind_of_ok here_cons, bind_of_ok (expect_of_fits _ (by simp [Pattern.fits, Pattern.name,
    Pattern.any, ht]) (by decide)), bind_of_ok (isAt_cons _), if_pos hu, bind_of_ok h]
  rfl

/-- What the look behind the subscripts of a name finds, if the name starts a target before an
operator: the operator, if the target ends there, or a sign that goes on with it. -/
theorem behind_name {o : Token} {vs : List Token} (ht : t.kind = .identifier)
    (htarget : target.isTarget = true)
    (h : suffixesWith nested (.name t.pos t.text) us = .ok (target, o :: vs))
    (ho : o.kind = .operator) :
    (target.isVariable = true ∧ Reading.target (t :: us) = .ok (target, o :: vs) ∧
        Token.skipSubscripts 0 us = o :: vs) ∨
      (target.isVariable = false ∧
        ∃ m ms, Token.skipSubscripts 0 us = m :: ms ∧ m.kind ≠ .operator) := by
  have hbracket : Pattern.openBracket.fits o = false := by
    simp [Pattern.fits, Pattern.openBracket, ho]
  rcases suffixesWith_cases h htarget with ⟨rfl, hnone⟩ | ⟨c, mid, hsome, hrest⟩
  · obtain ⟨-, rfl⟩ | ⟨_, _, _, -, hsome, -⟩ := extendWith_cases hnone
    · exact .inl ⟨rfl, target_of_name ht hbracket, skipSubscripts_zero hbracket⟩
    · cases hsome
  · obtain ⟨hnone, -⟩ | ⟨u, us, c, rfl, hc, -, -, ⟨hc', hsign⟩ | ⟨hu, es, hes, hindex⟩⟩ :=
      extendWith_cases hsome
    · cases hnone
    · cases hc
      have hopen : Pattern.openBracket.fits u = false := by
        rcases hsign with hsign | hsign <;>
          simp [Pattern.fits, Pattern.openBracket, kind_of_fits hsign, Pattern.openParen,
            Pattern.dot]
      exact .inr ⟨isVariable_of_suffixesWith (Expr.isVariable_of_not_isTarget hc') hrest, u, us,
        skipSubscripts_zero hopen, kind_of_suffix (.inl hsign)⟩
    · cases hc
      subst hindex
      have hskip := eq_skipSubscripts_of_subscripts hes
      rcases suffixesWith_cases hrest htarget with ⟨rfl, hnone⟩ | ⟨d, behind, hsome, hbehind⟩
      · obtain ⟨-, rfl⟩ | ⟨_, _, _, -, hsome, -⟩ := extendWith_cases hnone
        · exact .inl ⟨rfl, target_of_subscripts ht hu hes, hskip.symm⟩
        · cases hsome
      · obtain ⟨hnone, -⟩ | ⟨m, ms, d, rfl, hd, -, -, hcases⟩ := extendWith_cases hsome
        · cases hnone
        · cases hd
          have hvariable : d.isVariable = false := by
            rcases hcases with ⟨hd', -⟩ | ⟨-, _, -, rfl⟩
            · exact Expr.isVariable_of_not_isTarget hd'
            · rfl
          exact .inr ⟨isVariable_of_suffixesWith hvariable hbehind, m, ms, hskip.symm,
            kind_of_suffix (hcases.imp And.right And.left)⟩

section Ends

variable {o s : Token} {vs : List Token}

theorem updateOp?_of_assignOp? (ho : o.assignOp? = some op) : o.updateOp? = none := by
  rw [Option.eq_none_iff_forall_ne_some]
  intro op' hop'
  have htext := Token.text_of_updateOp? hop'
  simp only [List.mem_cons, List.not_mem_nil, or_false] at htext
  rcases htext with htext | htext <;> simpa [htext] using Token.text_of_assignOp? ho

theorem assignment_of_target (h : Reading.target (t :: us) = .ok (target, o :: vs))
    (ho : o.assignOp? = some op) (hvalue : expression vs = .ok (value, s :: rest))
    (hs : Pattern.semicolon.fits s = true) :
    assignment (t :: us) = .ok (⟨t.pos, target, op, value⟩, rest) := by
  have hne : o.kind ≠ .eof := by simp [(Token.assignOp?_eq_some ho).1]
  unfold assignment
  rw [bind_of_ok here_cons, bind_of_ok h, bind_of_ok current_cons]
  simp only [ho]
  rw [bind_of_ok (advance_cons hne), bind_of_ok hvalue,
    bind_of_ok (expect_of_fits _ hs (by decide))]
  rfl

theorem expressionStatement_of_expression (h : expression (t :: us) = .ok (e, s :: rest))
    (hs : Pattern.semicolon.fits s = true) :
    expressionStatement (t :: us) = .ok (.expression t.pos e, rest) := by
  unfold expressionStatement
  rw [bind_of_ok here_cons, bind_of_ok h, bind_of_ok (expect_of_fits _ hs (by decide))]
  rfl

/-- A chain of calls is refused where it ends, if there is no semicolon. -/
theorem callStatement_refused (ht : t.kind = .identifier)
    (h : suffixes (.name t.pos t.text) us = .ok (e, o :: vs))
    (ho : Pattern.semicolon.fits o = false) :
    callStatement (t :: us) = .error (.refused (.expected "';' after call") o vs) := by
  unfold callStatement
  rw [bind_of_ok here_cons, bind_of_ok (expect_of_fits _ (by simp [Pattern.fits, Pattern.name,
    Pattern.any, ht]) (by decide)), bind_of_ok h, bind_of_error]
  unfold expect
  rw [bind_of_ok (accept_of_not_fits ho)]
  rfl

end Ends

/-- **Two ways to read an assignment.**  Take tokens that start with a name other than `final` and
are read as an assignment, up to a semicolon.

Unless the second one is a point, they are read as a statement, too, up to and with the semicolon,
which has the same target, operator and value.  It is an assignment where the target is a name or
a name with subscripts, and otherwise an assignment as an expression on its own.

If the second token is a point, the statement is taken for a chain of calls and refused at the
operator behind the target. -/
theorem statement_of_assign {s : Token} (ht : t.kind = .identifier) (hfinal : t.text ≠ "final")
    (h : expression (t :: us) = .ok (.assign p target op value, s :: rest))
    (hs : Pattern.semicolon.fits s = true) :
    (us.head?.any (·.kind == .dot) = false →
      statement (t :: us) = .ok
        (if target.isVariable then .assignment ⟨p, target, op, value⟩
        else .expression p (.assign p target op value), rest)) ∧
    (us.head?.any (·.kind == .dot) = true →
      ∃ o ahead, suffixes (.name t.pos t.text) us = .ok (target, o :: ahead) ∧
        o.assignOp? = some op ∧
        statement (t :: us) = .error (.refused (.expected "';' after call") o ahead)) := by
  obtain ⟨rfl, htarget, o, vs, hsuffixes, hop, hvalue⟩ := exists_operator_of_assign ht h
  have ho := (Token.assignOp?_eq_some hop).1
  have hupdate : ∀ m : Token, m.kind ≠ .operator → m.updateOp?.isSome = false := by
    intro m hm
    simp [Token.updateOp?, Token.operator?, hm]
  have hend : s.text = ";" := text_of_fits hs rfl
  have hdeclares : Token.declares us = false :=
    declares_of_expression ht h (by simp [kind_of_fits hs, Pattern.semicolon]) (by simp [hend])
  constructor
  · intro hdot
    rcases behind_name ht htarget hsuffixes ho with
      ⟨hvariable, hgoal, hskip⟩ | ⟨hvariable, m, ms, hskip, hm⟩
    · rw [statement_name ht, nameStatement_eq hfinal hdeclares hskip, updateOp?_of_assignOp? hop,
        hdot, hop, hvariable]
      exact bind_of_ok (assignment_of_target hgoal hop hvalue hs)
    · have hassign : m.assignOp?.isSome = false := by
        simp [Token.assignOp?, Token.operator?, hm]
      rw [statement_name ht, nameStatement_eq hfinal hdeclares hskip, hupdate m hm, hdot, hassign,
        hvariable]
      exact expressionStatement_of_expression h hs
  · intro hdot
    obtain ⟨d, ms, rfl, hd⟩ : ∃ d ms, us = d :: ms ∧ d.kind = .dot := by
      cases us with
      | nil => cases hdot
      | cons d ms => exact ⟨d, ms, rfl, by simpa using hdot⟩
    have hskip : Token.skipSubscripts 0 (d :: ms) = d :: ms :=
      skipSubscripts_zero (by simp [Pattern.fits, Pattern.openBracket, hd])
    rw [← suffixes_eq] at hsuffixes
    refine ⟨o, vs, hsuffixes, hop, ?_⟩
    rw [statement_name ht, nameStatement_eq hfinal hdeclares hskip, hupdate d (by simp [hd]), hdot]
    exact callStatement_refused ht hsuffixes (by simp [Pattern.fits, Pattern.semicolon, ho])

/-- The tokens of `a[i].f()[1] += 2;`. -/
def calledElement : List Token :=
  [⟨.identifier, "a", ⟨1, 1⟩⟩, ⟨.bracket, "[", ⟨1, 2⟩⟩, ⟨.identifier, "i", ⟨1, 3⟩⟩,
    ⟨.bracket, "]", ⟨1, 4⟩⟩, ⟨.dot, ".", ⟨1, 5⟩⟩, ⟨.identifier, "f", ⟨1, 6⟩⟩,
    ⟨.paren, "(", ⟨1, 7⟩⟩, ⟨.paren, ")", ⟨1, 8⟩⟩, ⟨.bracket, "[", ⟨1, 9⟩⟩,
    ⟨.number, "1", ⟨1, 10⟩⟩, ⟨.bracket, "]", ⟨1, 11⟩⟩, ⟨.operator, "+=", ⟨1, 13⟩⟩,
    ⟨.number, "2", ⟨1, 16⟩⟩, ⟨.semicolon, ";", ⟨1, 17⟩⟩, ⟨.eof, "", ⟨1, 18⟩⟩]

/-- What they are read as. -/
def calledElementAssignment : Expr :=
  .assign ⟨1, 1⟩
    (.index ⟨1, 1⟩
      (.methodCall ⟨1, 1⟩ (.index ⟨1, 1⟩ (.name ⟨1, 1⟩ "a") [.name ⟨1, 3⟩ "i"]) "f" [])
      [.literal ⟨1, 10⟩ "1"])
    .add (.literal ⟨1, 16⟩ "2")

theorem statement_of_assign_calledElement :
    expression calledElement = .ok (calledElementAssignment, calledElement.drop 13) ∧
      statement calledElement =
        .ok (.expression ⟨1, 1⟩ calledElementAssignment, calledElement.drop 14) := by
  have hread : expression (⟨.identifier, "a", ⟨1, 1⟩⟩ :: calledElement.drop 1) =
      .ok (calledElementAssignment, ⟨.semicolon, ";", ⟨1, 17⟩⟩ :: calledElement.drop 14) := rfl
  exact ⟨hread, (statement_of_assign rfl (by decide) hread rfl).1 rfl⟩

/-- The tokens of `a.b[0] = 1;`. -/
def fieldElement : List Token :=
  [⟨.identifier, "a", ⟨1, 1⟩⟩, ⟨.dot, ".", ⟨1, 2⟩⟩, ⟨.identifier, "b", ⟨1, 3⟩⟩,
    ⟨.bracket, "[", ⟨1, 4⟩⟩, ⟨.number, "0", ⟨1, 5⟩⟩, ⟨.bracket, "]", ⟨1, 6⟩⟩,
    ⟨.operator, "=", ⟨1, 8⟩⟩, ⟨.number, "1", ⟨1, 10⟩⟩, ⟨.semicolon, ";", ⟨1, 11⟩⟩,
    ⟨.eof, "", ⟨1, 12⟩⟩]

/-- An element of a field can be assigned to in an expression, but not in a statement. -/
theorem assign_fieldElement :
    expression fieldElement =
        .ok (.assign ⟨1, 1⟩
          (.index ⟨1, 1⟩ (.property ⟨1, 1⟩ (.name ⟨1, 1⟩ "a") "b") [.literal ⟨1, 5⟩ "0"]) .set
          (.literal ⟨1, 10⟩ "1"), fieldElement.drop 8) ∧
      statement fieldElement =
        .error (.refused (.expected "';' after call") ⟨.operator, "=", ⟨1, 8⟩⟩
          (fieldElement.drop 7)) :=
  ⟨rfl, rfl⟩

end Reading

end Pseudocode
