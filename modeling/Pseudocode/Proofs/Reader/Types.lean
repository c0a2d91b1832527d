import Pseudocode.Proofs.Reader.Order
set_option autoImplicit false

/-!
# Types among the tokens

The type of a declaration and the type of a new array are texts of tokens.  Each way into a
declaration looks at the token it takes for the type, with one exception: behind the word `final`
it is enough that a name follows one token later, whatever the token between them is.  Behind
`new` any keyword will do.
-/

namespace Pseudocode

/-! ## Statements -/

/-- The expressions take their types and names from the tokens. -/
def AllSpelled (es : List Expr) (w : List Token) : Prop :=
  ∀ e ∈ es, e.SpelledIn w

namespace AllSpelled

variable {es es' : List Expr} {u w : List Token}

theorem nil (w : List Token) : AllSpelled [] w :=
  List.forall_mem_nil _

theorem mono (h : AllSpelled es u) (huw : u <:+: w) : AllSpelled es w :=
  fun e he => (h e he).mono huw

theorem cons (h : AllSpelled es w) (t : Token) : AllSpelled es (t :: w) :=
  h.mono (List.suffix_cons t w).isInfix

theorem extend (h : AllSpelled es u) (w : List Token) : AllSpelled es (u ++ w) :=
  h.mono (List.prefix_append u w).isInfix

theorem behind (h : AllSpelled es w) (u : List Token) : AllSpelled es (u ++ w) :=
  h.mono (List.suffix_append u w).isInfix

theorem append (h : AllSpelled es u) (h' : AllSpelled es' w) : AllSpelled (es ++ es') (u ++ w) :=
  List.forall_mem_append.mpr ⟨h.extend w, h'.behind u⟩

theorem single {s : Stmt} (h : AllSpelled s.exprs w) : AllSpelled ([s].flatMap Stmt.exprs) w := by
  rwa [List.flatMap_singleton]

/-- The expressions of a statement are its own and those of the statements inside it. -/
theorem statement {s : Stmt} (hown : AllSpelled (s.operands.flatMap Expr.parts) w)
    (hchildren : AllSpelled (s.children.flatMap Stmt.exprs) w) : AllSpelled s.exprs w := by
  rw [Stmt.exprs_eq]
  exact List.forall_mem_append.mpr ⟨hown, hchildren⟩

end AllSpelled

variable {w : List Token}

theorem Sentence.spelled {c : Clause} (h : Sentence c w) : AllSpelled c.exprs w := by
  induction h with
  | block ha hss hb ih => exact .statement (.nil _) ((ih.cons _).extend _)
  | declaration ht hd => exact .statement (hd.traced.cons _).spelled (.nil _)
  | finalDeclaration hf hfinal hd =>
    exact .statement ((hd.traced.cons _).cons _).spelled (.nil _)
  | assignment ha => exact .statement ha.traced.spelled (.nil _)
  | update hu hs => exact .statement (hu.traced.single.extend _).spelled (.nil _)
  | expression he hs | call he hs =>
    exact .statement (he.traced.single.extend _).spelled (.nil _)
  | ifOnly hk he hs ih | whileLoop hk he hs ih =>
    exact .statement ((he.traced.single.cons _).extend _).spelled (ih.single.behind _)
  | ifElse hk he hs hk' hs' ih ih' =>
    rw [List.append_assoc]
    exact .statement ((he.traced.single.cons _).extend _).spelled
      ((ih.append (ih'.single.cons _)).behind _)
  | doWhileLoop hk hs hk' he hc ih =>
    exact .statement (((he.traced.single.cons _).behind _).extend _).spelled
      (((ih.single.cons _).extend _).extend _)
  | forLoop hk ha hinit htest hstep hs ih =>
    refine .statement (AllSpelled.extend ?_ _) (ih.single.behind _)
    rw [Stmt.operands, List.flatMap_append, List.flatMap_append]
    exact ((((hinit.traced.cons _).cons _).append htest.traced).append hstep.traced).spelled
  | nil => exact .nil _
  | cons hs hss ihs ihss => exact ihs.append ihss

/-! ## Programs -/

/-- **Types are tokens.**  Take a text that is cut into tokens and read as a program.

The type of each declaration, those in the heads of loops included, is the text of the token at
its place.  The token is one of the keywords that name a type or a name, unless it stands right
behind the word `final`.

The type of each new array is the text of the token right behind its word `new`, and the token is
a keyword or a name. -/
theorem Program.types_among_tokens {text : String} {tokens : List Token} {program : Program}
    (htokens : tokenize text = .ok tokens) (h : ofTokens tokens = .ok program) :
    (∀ d ∈ program.declarations, d.TypedIn tokens) ∧ ∀ e ∈ program.exprs, e.TypedIn tokens := by
  obtain ⟨mods, front, w, back, e, rest, rfl, -, -, hbody, -⟩ :=
    exists_frame (Token.faithful_of_tokenize htokens) h
  have hw : w <:+: mods ++ front ++ w ++ back ++ e :: rest :=
    ⟨mods ++ front, back ++ e :: rest, by simp⟩
  exact ⟨fun d hd => ((hbody.along.mono hw).declared d hd).1,
    fun e he => (hbody.spelled.mono hw e he).typed⟩

/-- A keyword that names no type behind `new`, and an operator behind `final`. -/
def looseTypes : String :=
  "x = new if[3]; final + y;"

def looseTypesTokens : List Token :=
  [⟨.identifier, "x", ⟨1, 1⟩⟩, ⟨.operator, "=", ⟨1, 3⟩⟩, ⟨.keyword, "new", ⟨1, 5⟩⟩,
    ⟨.keyword, "if", ⟨1, 9⟩⟩, ⟨.bracket, "[", ⟨1, 11⟩⟩, ⟨.number, "3", ⟨1, 12⟩⟩,
    ⟨.bracket, "]", ⟨1, 13⟩⟩, ⟨.semicolon, ";", ⟨1, 14⟩⟩, ⟨.identifier, "final", ⟨1, 16⟩⟩,
    ⟨.operator, "+", ⟨1, 22⟩⟩, ⟨.identifier, "y", ⟨1, 24⟩⟩, ⟨.semicolon, ";", ⟨1, 25⟩⟩,
    ⟨.eof, "", ⟨1, 26⟩⟩]

def looseTypesProgram : Program :=
  ⟨⟨1, 1⟩, [.assignment ⟨⟨1, 1⟩, .name ⟨1, 1⟩ "x", .set,
      .newArray ⟨1, 5⟩ "if" [.literal ⟨1, 12⟩ "3"]⟩,
    .declaration ⟨⟨1, 22⟩, "y", "+", 0, none⟩]⟩

theorem tokenize_looseTypes : tokenize looseTypes = .ok looseTypesTokens :=
  tokenize_of_toOption (by decide +kernel)

/-- The types of what is declared and made there are `+` and `if`. -/
theorem Program.types_among_tokens_looseTypes :
    tokenize looseTypes = .ok looseTypesTokens ∧
      ofTokens looseTypesTokens = .ok looseTypesProgram ∧
      looseTypesProgram.declarations = [⟨⟨1, 22⟩, "y", "+", 0, none⟩] ∧
      .newArray ⟨1, 5⟩ "if" [.literal ⟨1, 12⟩ "3"] ∈ looseTypesProgram.exprs ∧
      (∀ d ∈ looseTypesProgram.declarations, d.TypedIn looseTypesTokens) ∧
      ∀ e ∈ looseTypesProgram.exprs, e.TypedIn looseTypesTokens :=
  ⟨tokenize_looseTypes, rfl, rfl, .tail _ (.head _), types_among_tokens tokenize_looseTypes rfl⟩

end Pseudocode
