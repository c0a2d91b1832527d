import Pseudocode.Proofs.Program.Removal
import Pseudocode.Proofs.Reader.Comparisons
import Pseudocode.Proofs.Scope.Words
import Pseudocode.Proofs.Token.Coverage
set_option autoImplicit false

/-!
# What is read, among the tokens

The names and types in a program are texts of its tokens.  What the program says of variables, it
says in the order of its text: each declaration and each variable of an expression stands at a
token, and one behind the other.  The declarations before a variable are therefore those that start
before it in the text.
-/

namespace Pseudocode

/-! ## Expressions -/

/-- If the expression is a new array, its type is the text of a token right behind the word `new`,
which is a keyword or a name. -/
def Expr.TypedIn (w : List Token) (e : Expr) : Prop :=
  ∀ p type dims, e = .newArray p type dims →
    ∃ k t, [k, t] <:+: w ∧ (Pattern.keyword "new").fits k = true ∧ k.pos = p ∧ t.text = type ∧
      (t.kind = .keyword ∨ t.kind = .identifier)

/-- The word is among the tokens. -/
def Token.HasWord (ts : List Token) (n : String) : Prop :=
  ∃ t ∈ ts, t.IsWord ∧ t.text = n

/-- What an expression itself takes from the tokens: its type, if it is a new array, and the names
that it uses. -/
structure Expr.SpelledIn (w : List Token) (e : Expr) : Prop where
  typed : e.TypedIn w
  words : ∀ n ∈ e.ownWords, Token.HasWord w n

theorem Expr.SpelledIn.mono {e : Expr} {u w : List Token} (h : e.SpelledIn u) (huw : u <:+: w) :
    e.SpelledIn w := by
  refine ⟨fun p type dims hnew => ?_, fun n hn => ?_⟩
  · obtain ⟨k, t, hkt, hrest⟩ := h.typed p type dims hnew
    exact ⟨k, t, hkt.trans huw, hrest⟩
  · obtain ⟨t, ht, hword⟩ := h.words n hn
    exact ⟨t, huw.subset ht, hword⟩

/-- The expressions take their types and names from the tokens, and the variables among them stand
at tokens, in their order. -/
structure Traced (es : List Expr) (w : List Token) : Prop where
  spelled : ∀ e ∈ es, e.SpelledIn w
  ordered : ((es.filterMap Expr.mention?).map Mention.pos).Sublist (w.map Token.pos)

namespace Traced

variable {es es' : List Expr} {e : Expr} {u w : List Token}

theorem nil (w : List Token) : Traced [] w :=
  ⟨List.forall_mem_nil _, List.nil_sublist _⟩

theorem mono (h : Traced es u) (huw : u <:+: w) : Traced es w :=
  ⟨fun e he => (h.spelled e he).mono huw, h.ordered.trans (huw.sublist.map _)⟩

theorem cons (h : Traced es w) (t : Token) : Traced es (t :: w) :=
  h.mono (List.suffix_cons t w).isInfix

theorem extend (h : Traced es u) (w : List Token) : Traced es (u ++ w) :=
  h.mono (List.prefix_append u w).isInfix

theorem behind (h : Traced es w) (u : List Token) : Traced es (u ++ w) :=
  h.mono (List.suffix_append u w).isInfix

/-- Brackets or other signs round a part. -/
theorem between (h : Traced es u) (a b : Token) : Traced es (a :: u ++ [b]) :=
  (h.cons a).extend [b]

theorem append (h : Traced es u) (h' : Traced es' w) : Traced (es ++ es') (u ++ w) := by
  refine ⟨List.forall_mem_append.mpr ⟨(h.extend w).spelled, (h'.behind u).spelled⟩, ?_⟩
  rw [List.filterMap_append, List.map_append, List.map_append]
  exact h.ordered.append h'.ordered

/-- An expression that is no variable, and its parts. -/
theorem parts (hnone : e.mention? = none) (he : e.SpelledIn w)
    (h : Traced (e.children.flatMap Expr.parts) w) : Traced e.parts w := by
  rw [Expr.parts_eq]
  refine ⟨List.forall_mem_cons.mpr ⟨he, h.spelled⟩, ?_⟩
  rw [List.filterMap_cons_none hnone]
  exact h.ordered

/-- An expression that uses no name itself. -/
theorem unnamed (hown : e.ownWords = []) (h : Traced (e.children.flatMap Expr.parts) w) :
    Traced e.parts w := by
  refine h.parts ?_ ⟨?_, by simp [hown]⟩
  · cases e <;> first | rfl | cases hown
  · rintro p type dims rfl
    cases hown

theorem single {α : Type} {f : α → List Expr} {a : α} (h : Traced (f a) w) :
    Traced ([a].flatMap f) w := by
  rwa [List.flatMap_singleton]

end Traced

/-- An expression that uses a name and is no new array. -/
theorem Expr.SpelledIn.of_word {e : Expr} {n : String} {w : List Token}
    (hnew : ∀ p type dims, e ≠ .newArray p type dims) (hown : e.ownWords = [n])
    (hn : Token.HasWord w n) : e.SpelledIn w :=
  ⟨fun p type dims he => absurd he (hnew p type dims), by simpa [hown] using hn⟩

variable {w : List Token}

theorem Derives.traced {φ : Phrase} (h : Derives φ w) : Traced φ.parts w := by
  induction h with
  | name ht =>
    refine ⟨List.forall_mem_singleton.mpr ?_, .refl _⟩
    exact .of_word (by simp) rfl ⟨_, List.mem_cons_self, .inl ht, rfl⟩
  | literal ht => exact .unnamed rfl (.nil _)
  | paren ha he hb ih => exact ih.between _ _
  | call hf ha hes hb ihf ihes =>
    rw [List.append_assoc]
    obtain ⟨t, ht, hword⟩ := (ihf.spelled _ (Expr.mem_parts_self _)).words _ List.mem_cons_self
    exact .parts rfl (.of_word (by simp) rfl ⟨t, by simp [ht], hword⟩)
      ((ihes.between _ _).behind _)
  | methodCall he hd ht ha hes hb ihe ihes =>
    rw [List.append_assoc]
    exact .parts rfl (.of_word (by simp) rfl ⟨_, by simp, .inl ht, rfl⟩)
      (ihe.append (((ihes.between _ _).cons _).cons _))
  | length he hd ht htext ih => exact .unnamed rfl (ih.single.extend _)
  | property he hd ht htext ih =>
    exact .parts rfl (.of_word (by simp) rfl ⟨_, by simp, .inl ht, rfl⟩) (ih.single.extend _)
  | index he hes hne ihe ihes =>
    rw [Phrase.parts_brackets_map] at ihes
    exact .unnamed rfl (ihe.append ihes)
  | operand he ih => exact ih
  | update he ht ih => exact .unnamed rfl (ih.single.extend _)
  | newObject hk ht ha hes hb ih =>
    exact .parts rfl (.of_word (by simp) rfl ⟨_, by simp, .inl ht, rfl⟩)
      (((ih.between _ _).cons _).cons _)
  | @newArray k t es w hk ht hes hne ih =>
    rw [Phrase.parts_brackets_map] at ih
    refine .parts rfl ⟨?_, ?_⟩ ((ih.cons _).cons _)
    · rintro p type dims ⟨⟩
      exact ⟨k, t, (List.prefix_append [k, t] w).isInfix, hk, rfl, rfl, ht⟩
    · exact List.forall_mem_singleton.mpr ⟨t, by simp, ht.symm, rfl⟩
  | newElements hk ht hds hlast he ihds ihe =>
    -- What stands in the brackets of the type is read and dropped.
    exact ihe.behind _
  | unary ht he ih => exact .unnamed rfl (ih.single.cons _)
  | climb he ih | plain he ih | expressionItem he ih | elementsItem he ih => exact ih
  | binary hl ht hr ihl ihr => exact .unnamed rfl (ihl.append (ihr.single.cons _))
  | assign hl htarget ht hv ihl ihv => exact .unnamed rfl (ihl.append (ihv.single.cons _))
  | braces ha hes hb ih => exact .unnamed rfl (ih.between _ _)
  | noItem | noBrackets => exact .nil _
  | lastItem he ih => exact ih.single
  | moreItems he hc hes ihe ihes => exact ihe.append (ihes.cons _)
  | filled ha he hb hds ihe ihds => exact (ihe.cons _).append (ihds.cons _)
  | empty ha hb hds ih => exact (ih.cons _).cons _

/-! ## Parts of statements -/

theorem DerivesValue.traced {value : Option Expr} (h : DerivesValue value w) :
    Traced (value.toList.flatMap Expr.parts) w := by
  cases h with
  | none => exact .nil _
  | elements ht he | plain ht he => exact he.traced.single.cons _

theorem DerivesDeclaration.traced {t : Token} {d : Declaration}
    (h : DerivesDeclaration t d w) : Traced (d.value.toList.flatMap Expr.parts) w := by
  obtain ⟨hu, hn, hv, hw, hs⟩ := h
  exact (hw.traced.behind _).extend _

theorem DerivesAssignment.traced {a : Assignment} (h : DerivesAssignment a w) :
    Traced ([a.target, a.value].flatMap Expr.parts) w := by
  obtain ⟨hgoal, htarget, ht, hvalue, hs⟩ := h
  exact (hgoal.traced.append (hvalue.traced.single.cons _)).extend _

theorem DerivesUpdate.traced {x : Update} (h : DerivesUpdate x w) :
    Traced x.target.parts w := by
  cases h with
  | behind hgoal htarget ht => exact hgoal.traced.extend _
  | front ht hgoal htarget => exact hgoal.traced.cons _

theorem DerivesCondition.traced {e : Expr} (h : DerivesCondition e w) : Traced e.parts w := by
  obtain ⟨ha, he, hb⟩ := h
  exact he.traced.between _ _

theorem DerivesInit.traced {init : Option ForInit} (h : DerivesInit init w) :
    Traced ((init.toList.flatMap ForInit.operands).flatMap Expr.parts) w := by
  cases h with
  | none hs => exact .nil _
  | declaration ht hd =>
    rw [Option.toList_some, List.flatMap_singleton]
    exact hd.traced.cons _
  | assignment ha =>
    rw [Option.toList_some, List.flatMap_singleton]
    exact ha.traced

theorem DerivesTest.traced {test : Option Expr} (h : DerivesTest test w) :
    Traced (test.toList.flatMap Expr.parts) w := by
  cases h with
  | none hs => exact .nil _
  | some he hs => exact he.traced.single.extend _

theorem DerivesStep.traced {step : Option ForUpdate} (h : DerivesStep step w) :
    Traced ((step.toList.flatMap ForUpdate.operands).flatMap Expr.parts) w := by
  cases h with
  | none hb => exact .nil _
  | update hu hb =>
    rw [Option.toList_some, List.flatMap_singleton]
    exact hu.traced.single.extend _
  | expression he hb =>
    rw [Option.toList_some, List.flatMap_singleton]
    exact he.traced.single.extend _

/-! ## Mentions along tokens -/

/-- The type of the declaration is the text of the token at its place.  The token is a keyword
that names a type or a name, or it stands right behind the word `final`. -/
def Declaration.TypedIn (w : List Token) (d : Declaration) : Prop :=
  ∃ t ∈ w, t.pos = d.pos ∧ t.text = d.typeName ∧
    (t.isType = true ∨ t.kind = .identifier ∨
      ∃ f, [f, t] <:+: w ∧ f.kind = .identifier ∧ f.text = "final")

/-- The mentions stand at tokens of the list, in its order, and the declarations among them take
their types and names from the tokens. -/
structure Along (mentions : List Mention) (ts : List Token) : Prop where
  ordered : (mentions.map Mention.pos).Sublist (ts.map Token.pos)
  declared : ∀ d ∈ Mention.declarations mentions, d.TypedIn ts ∧ Token.HasWord ts d.name

namespace Along

variable {mentions more : List Mention} {u w : List Token}

theorem mono (h : Along mentions u) (huw : u <:+: w) : Along mentions w := by
  refine ⟨h.ordered.trans (huw.sublist.map _), fun d hd => ?_⟩
  obtain ⟨⟨t, ht, hpos, htext, hkind⟩, n, hn, hname⟩ := h.declared d hd
  refine ⟨⟨t, huw.subset ht, hpos, htext, hkind.imp_right (Or.imp_right ?_)⟩,
    n, huw.subset hn, hname⟩
  rintro ⟨f, hft, hf⟩
  exact ⟨f, hft.trans huw, hf⟩

theorem nil (w : List Token) : Along [] w :=
  ⟨List.nil_sublist _, List.forall_mem_nil _⟩

/-- A token at which nothing stands. -/
theorem cons (h : Along mentions w) (t : Token) : Along mentions (t :: w) :=
  h.mono (List.suffix_cons t w).isInfix

/-- Tokens behind, at which nothing stands. -/
theorem extend (h : Along mentions u) (w : List Token) : Along mentions (u ++ w) :=
  h.mono (List.prefix_append u w).isInfix

theorem append (h : Along mentions u) (h' : Along more w) : Along (mentions ++ more) (u ++ w) := by
  constructor
  · rw [List.map_append, List.map_append]
    exact h.ordered.append h'.ordered
  · rw [Mention.declarations_append]
    exact List.forall_mem_append.mpr
      ⟨(h.extend w).declared, (h'.mono (List.suffix_append u w).isInfix).declared⟩

end Along

/-- Expressions mention variables only. -/
theorem Traced.along {es : List Expr} (h : Traced es w) : Along (es.filterMap Expr.mention?) w :=
  ⟨h.ordered, by simp [Expr.declarations_filterMap]⟩

theorem Traced.along_flatMap {es : List Expr} (h : Traced (es.flatMap Expr.parts) w) :
    Along (es.flatMap Expr.mentions) w := by
  have halong := h.along
  rwa [List.filterMap_flatMap] at halong

/-- A declaration stands at the token of its type. -/
theorem DerivesDeclaration.along {t : Token} {d : Declaration} {v w : List Token}
    (h : DerivesDeclaration t d v) (hw : t :: v <:+: w)
    (ht : t.isType = true ∨ t.kind = .identifier ∨
      ∃ f, [f, t] <:+: w ∧ f.kind = .identifier ∧ f.text = "final") : Along d.mentions w := by
  have hordered := h.traced.along_flatMap.ordered
  obtain ⟨hu, hn, hv, hvalue, hs⟩ := h
  refine ⟨(hordered.cons_cons t.pos).trans (hw.sublist.map Token.pos), ?_⟩
  rw [Declaration.declarations_mentions]
  exact List.forall_mem_singleton.mpr
    ⟨⟨t, hw.subset List.mem_cons_self, rfl, rfl, ht⟩, _, hw.subset (by simp), .inl hn, rfl⟩

theorem DerivesAssignment.along {a : Assignment} (h : DerivesAssignment a w) :
    Along a.mentions w := by
  simpa [Assignment.mentions] using h.traced.along_flatMap

theorem DerivesInit.along {init : Option ForInit} (h : DerivesInit init w) :
    Along (init.toList.flatMap ForInit.mentions) w := by
  cases h with
  | none hs => exact .nil _
  | declaration ht hd =>
    rw [Option.toList_some, List.flatMap_singleton]
    exact hd.along (List.infix_refl _) (.inl ht)
  | assignment ha =>
    rw [Option.toList_some, List.flatMap_singleton]
    exact ha.along

theorem DerivesStep.along {step : Option ForUpdate} (h : DerivesStep step w) :
    Along (step.toList.flatMap ForUpdate.mentions) w := by
  have hoperands := h.traced.along_flatMap
  cases h with
  | none hb => exact .nil _
  | update hu hb | expression he hb =>
    simpa [ForUpdate.mentions, ForUpdate.operands] using hoperands

/-! ## Statements -/

/-- What statements say of variables. -/
def Clause.mentions : Clause → List Mention
  | .one s => s.mentions
  | .many ss => Stmt.allMentions ss

theorem Sentence.along {c : Clause} (h : Sentence c w) : Along c.mentions w := by
  induction h with
  | block ha hss hb ih => exact (ih.cons _).extend _
  | declaration ht hd => exact hd.along (List.infix_refl _) (ht.imp_right .inl)
  | @finalDeclaration f t d w hf hfinal hd =>
    exact hd.along (List.suffix_cons f _).isInfix
      (.inr (.inr ⟨f, (List.prefix_append [f, t] w).isInfix, hf, hfinal⟩))
  | assignment ha => exact ha.along
  | update hu hs => exact hu.traced.along.extend _
  | expression he hs | call he hs => exact he.traced.along.extend _
  | ifOnly hk he hs ih =>
    rw [Clause.mentions, Stmt.mentions, Stmt.elseMentions, List.append_nil]
    exact (he.traced.along.cons _).append ih
  | ifElse hk he hs hk' hs' ih ih' =>
    rw [List.append_assoc]
    exact (he.traced.along.cons _).append (ih.append (ih'.cons _))
  | whileLoop hk he hs ih => exact (he.traced.along.cons _).append ih
  | doWhileLoop hk hs hk' he hc ih =>
    exact ((ih.cons _).append (he.traced.along.cons _)).extend _
  | forLoop hk ha hinit htest hstep hs ih =>
    rw [List.append_assoc, List.append_assoc]
    exact ((hinit.along.cons _).cons _).append
      (htest.traced.along_flatMap.append (hstep.along.append ih))
  | nil => exact .nil _
  | cons hs hss ihs ihss => exact ihs.append ihss

/-! ## Programs -/

/-- What a program says of variables stands in the order of its text. -/
theorem Program.mentions_ordered {text : String} {tokens : List Token} {program : Program}
    (htokens : tokenize text = .ok tokens) (h : ofTokens tokens = .ok program) :
    ((Stmt.allMentions program.body).map Mention.pos).Pairwise Pos.Before := by
  obtain ⟨mods, front, w, back, e, rest, rfl, -, -, hbody, -⟩ :=
    exists_frame (Token.faithful_of_tokenize htokens) h
  have hw : w.Sublist (mods ++ front ++ w ++ back ++ e :: rest) := by
    simp only [List.append_assoc]
    exact ((List.sublist_append_left w _).trans (List.sublist_append_right front _)).trans
      (List.sublist_append_right mods _)
  have hordered := (Token.scan_covered htokens).ordered
  rw [← List.pairwise_map] at hordered
  exact hordered.sublist (hbody.along.ordered.trans (hw.map Token.pos))

theorem Mention.pos_of_declared? {m : Mention} {d : Declaration} (h : m.declared? = some d) :
    m.pos = d.pos := by
  cases m with
  | declares d' =>
    obtain rfl := Option.some.inj h
    rfl
  | uses q n => cases h

/-- The declarations of a program stand in the order of its text. -/
theorem Program.declarations_ordered {text : String} {tokens : List Token} {program : Program}
    (htokens : tokenize text = .ok tokens) (h : ofTokens tokens = .ok program) :
    program.declarations.Pairwise fun d d' => d.pos.Before d'.pos := by
  refine (List.pairwise_map.mp (mentions_ordered htokens h)).filterMap _ ?_
  intro m m' hbefore d hd d' hd'
  rwa [Mention.pos_of_declared? hd, Mention.pos_of_declared? hd'] at hbefore

/-- Where mentions stand in the order of the text, the declarations before a variable are those
that start before it. -/
theorem Mention.declarations_before {before after : List Mention} {q : Pos} {n : String}
    (h : ((before ++ .uses q n :: after).map pos).Pairwise Pos.Before) :
    (declarations (before ++ .uses q n :: after)).filter (fun d => d.pos.Before q) =
      declarations before := by
  obtain ⟨-, hafter, hbefore⟩ := List.pairwise_append.mp (List.pairwise_map.mp h)
  have hkept : (declarations before).filter (fun d => d.pos.Before q) = declarations before := by
    refine List.filter_eq_self.mpr fun d hd => decide_eq_true ?_
    obtain ⟨m, hm, hdeclared⟩ := List.mem_filterMap.mp hd
    rw [← pos_of_declared? hdeclared]
    exact hbefore m hm _ List.mem_cons_self
  have hleft : (declarations after).filter (fun d => d.pos.Before q) = [] := by
    refine List.filter_eq_nil_iff.mpr fun d hd => ?_
    obtain ⟨m, hm, hdeclared⟩ := List.mem_filterMap.mp hd
    rw [decide_eq_true_iff, ← pos_of_declared? hdeclared]
    exact (List.rel_of_pairwise_cons hafter hm).asymm
  have huses : declarations (.uses q n :: after) = declarations after := rfl
  rw [declarations_append, huses, List.filter_append, hkept, hleft, List.append_nil]

end Pseudocode
