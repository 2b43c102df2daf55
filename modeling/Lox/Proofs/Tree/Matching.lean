import Lox.Proofs.Tree.Forms

/-!
# Forms that are the same

Where two legible nodes have the same form, they are of one kind and agree part by part. Words tell
names, literals and `this` apart, and the first word of a list tells what the list is, but for the
two kinds of assignment and for operations, which differ in the rest of the list or in the operator.
-/
namespace Lox

open Scope (Part)

/-! ## Words -/

theorem Numeral.pointed_ne_word {v : Float} {p : Nat} {text : String}
    (finite : Numeral.classify v = .finite p) (word : Scan.Shaped .word text.toList) :
    Numeral.pointed v ≠ text := by
  rintro rfl
  obtain ⟨c, cs, starts, first⟩ := Numeral.pointed_cons finite
  rw [starts] at word
  cases word with
  | word letter _ =>
    rcases first with digit | rfl
    · have start := Scan.start_letter letter
      rw [Scan.start_digit ((Scan.digit_iff c).mpr digit)] at start
      cases start
    · exact absurd ((Scan.letter_iff _).mp letter) (by decide)

theorem Scan.shaped_word {text : List Char} (first : text.head?.any isWordStart = true)
    (inside : text.all isWordPart = true) : Shaped .word text := by
  cases text with
  | nil => cases first
  | cons c body =>
    refine .word ((letter_iff c).mpr first) fun d hd => (wordPart_iff d).mpr ?_
    exact List.all_eq_true.mp inside d (List.mem_cons_of_mem c hd)

theorem Keyword.shaped (k : Keyword) : Scan.Shaped .word k.text.toList := by
  cases k <;> exact Scan.shaped_word rfl rfl

/-- A legible literal is written as its keyword or as its number. -/
theorem Literal.Legible.cases {value : Literal} (h : value.Legible) :
    (∃ k, Grammar.literal? (.keyword k) = some value ∧ value.text = k.text) ∨
      ∃ v p, value = .number v ∧ Numeral.classify v = .finite p := by
  cases value with
  | nil => exact .inl ⟨.nilWord, rfl, rfl⟩
  | bool value =>
    cases value with
    | false => exact .inl ⟨.falseWord, rfl, rfl⟩
    | true => exact .inl ⟨.trueWord, rfl, rfl⟩
  | number v =>
    obtain ⟨p, finite⟩ := h
    exact .inr ⟨v, p, rfl, finite⟩
  | string text => exact absurd h not_false

theorem Literal.text_injective {value value' : Literal} (h : value.Legible) (h' : value'.Legible)
    (same : value.text = value'.text) : value = value' := by
  rcases h.cases with ⟨k, denotes, text⟩ | ⟨v, p, rfl, finite⟩
  · rcases h'.cases with ⟨k', denotes', text'⟩ | ⟨v', p', rfl, finite'⟩
    · obtain rfl := Keyword.text_injective (text.symm.trans (same.trans text'))
      exact Option.some.inj (denotes.symm.trans denotes')
    · exact absurd (same.symm.trans text) (Numeral.pointed_ne_word finite' k.shaped)
  · rcases h'.cases with ⟨k', denotes', text'⟩ | ⟨v', p', rfl, finite'⟩
    · exact absurd (same.trans text') (Numeral.pointed_ne_word finite k'.shaped)
    · exact congrArg Literal.number (Numeral.pointed_injective finite finite' same)

/-- No name is written as a literal. -/
theorem Literal.text_ne_name {value : Literal} {t : Token} (h : value.Legible) (legible : t.Legible)
    (kind : t.kind = .identifier) : value.text ≠ t.lexeme := by
  obtain ⟨word, plain⟩ := legible.cut.identifier kind
  rcases h.cases with ⟨k, _, text⟩ | ⟨v, p, rfl, finite⟩
  · rw [text]
    exact (plain k).symm
  · exact Numeral.pointed_ne_word finite word

theorem Literal.text_ne_this {value : Literal} (h : value.Legible) : value.text ≠ "this" := by
  rcases h.cases with ⟨k, denotes, text⟩ | ⟨v, p, rfl, finite⟩
  · rw [text]
    intro same
    obtain rfl : k = .thisWord := Keyword.text_injective same
    cases denotes
  · exact Numeral.pointed_ne_word finite (Keyword.shaped .thisWord)

/-! ## Expressions -/

/-- How an expression is written. -/
inductive Expr.Style where
  | word
  | operation
  | list (head : String)

def Expr.style : Expr → Expr.Style
  | .assign .. => .list "="
  | .binary .. => .operation
  | .call .. => .list "call"
  | .get .. => .list "."
  | .grouping _ => .list "group"
  | .literal _ => .word
  | .logical .. => .operation
  | .set .. => .list "="
  | .superRef .. => .list "super"
  | .thisRef .. => .word
  | .unary .. => .operation
  | .var .. => .word

/-- The style is seen from the form: no list that is an operation starts like another list. -/
def SExpr.style : SExpr → Expr.Style
  | .list (.word head :: _) => if head ∈ operatorWords then .operation else .list head
  | _ => .word

theorem Expr.style_form {e : Expr} (h : (Part.expr e).Legible) : e.form.style = e.style := by
  have operation {t : Token} (legible : t.Legible) (operates : t.IsOperator) (es : List SExpr) :
      (SExpr.list (.word t.lexeme :: es)).style = .operation :=
    if_pos (legible.cut.operator operates)
  have regular := h.regular
  have legible := h.tokens
  cases e with
  | binary => exact operation (legible _ (.head _)) (.inr (.inl regular)) _
  | logical => exact operation (legible _ (.head _)) (.inr (.inr regular)) _
  | unary => exact operation (legible _ (.head _)) (.inl regular) _
  | _ => simp [Expr.form, SExpr.style, Expr.style, operatorWords]

theorem not_binary_of_logical : ∀ kind ∈ logicalKinds, kind ∉ binaryKinds := by decide

/-- Expressions of one kind that are written alike part by part. -/
inductive Expr.Matches : Expr → Expr → Prop where
  | assign {id id' : Nat} {name name' : Token} {value value' : Expr}
      (names : name.lexeme = name'.lexeme) (values : value.form = value'.form) :
      Matches (.assign id name value) (.assign id' name' value')
  | binary {left right left' right' : Expr} {operator operator' : Token}
      (operators : operator.lexeme = operator'.lexeme) (before : left.form = left'.form)
      (after : right.form = right'.form) :
      Matches (.binary left operator right) (.binary left' operator' right')
  | call {callee callee' : Expr} {paren paren' : Token} {arguments arguments' : List Expr}
      (callees : callee.form = callee'.form)
      (lists : Expr.forms arguments = Expr.forms arguments') :
      Matches (.call callee paren arguments) (.call callee' paren' arguments')
  | get {object object' : Expr} {name name' : Token} (objects : object.form = object'.form)
      (names : name.lexeme = name'.lexeme) : Matches (.get object name) (.get object' name')
  | grouping {inner inner' : Expr} (contents : inner.form = inner'.form) :
      Matches (.grouping inner) (.grouping inner')
  | literal {value : Literal} : Matches (.literal value) (.literal value)
  | logical {left right left' right' : Expr} {operator operator' : Token}
      (operators : operator.lexeme = operator'.lexeme) (before : left.form = left'.form)
      (after : right.form = right'.form) :
      Matches (.logical left operator right) (.logical left' operator' right')
  | set {object value object' value' : Expr} {name name' : Token}
      (objects : object.form = object'.form) (names : name.lexeme = name'.lexeme)
      (values : value.form = value'.form) :
      Matches (.set object name value) (.set object' name' value')
  | superRef {id id' : Nat} {keyword keyword' method method' : Token}
      (names : method.lexeme = method'.lexeme) :
      Matches (.superRef id keyword method) (.superRef id' keyword' method')
  | thisRef {id id' : Nat} {keyword keyword' : Token} :
      Matches (.thisRef id keyword) (.thisRef id' keyword')
  | unary {right right' : Expr} {operator operator' : Token}
      (operators : operator.lexeme = operator'.lexeme) (operands : right.form = right'.form) :
      Matches (.unary operator right) (.unary operator' right')
  | var {id id' : Nat} {name name' : Token} (names : name.lexeme = name'.lexeme) :
      Matches (.var id name) (.var id' name')

/-- An operator of a logical operation is none of another operation. -/
theorem Expr.binary_ne_logical {left right left' right' : Expr} {operator operator' : Token}
    (h : (Part.expr (.binary left operator right)).Legible)
    (h' : (Part.expr (.logical left' operator' right')).Legible) :
    (Expr.binary left operator right).form ≠ (Expr.logical left' operator' right').form := by
  intro same
  simp only [Expr.form, SExpr.list.injEq, List.cons.injEq, SExpr.word.injEq] at same
  have kinds := (h.tokens _ (.head _)).cut.kind_eq (h'.tokens _ (.head _)).cut same.1
  have regular : operator.kind ∈ binaryKinds := h.regular
  rw [kinds] at regular
  exact not_binary_of_logical _ h'.regular regular

theorem Expr.matches_of_form {e e' : Expr} (h : (Part.expr e).Legible) (h' : (Part.expr e').Legible)
    (same : e.form = e'.form) : e.Matches e' := by
  have regular := h.regular
  have regular' := h'.regular
  have legible := h.tokens
  have legible' := h'.tokens
  have styles : e.style = e'.style := by rw [← style_form h, same, style_form h']
  -- The style leaves open only assignments, operations and words.
  cases e with
  | assign id name value =>
    cases e' with
    | assign =>
      simp only [Expr.form, SExpr.list.injEq, List.cons.injEq, SExpr.word.injEq, and_true,
        true_and] at same
      exact .assign same.1 same.2
    | set => simp [Expr.form] at same
    | _ => simp [Expr.style] at styles
  | binary left operator right =>
    cases e' with
    | binary =>
      simp only [Expr.form, SExpr.list.injEq, List.cons.injEq, SExpr.word.injEq, and_true] at same
      exact .binary same.1 same.2.1 same.2.2
    | logical => exact absurd same (Expr.binary_ne_logical h h')
    | unary => simp [Expr.form] at same
    | _ => simp [Expr.style] at styles
  | call callee paren arguments =>
    cases e' with
    | call =>
      simp only [Expr.form, SExpr.list.injEq, List.cons.injEq, true_and] at same
      exact .call same.1 same.2
    | _ => simp [Expr.style] at styles
  | get object name =>
    cases e' with
    | get =>
      simp only [Expr.form, SExpr.list.injEq, List.cons.injEq, SExpr.word.injEq, and_true,
        true_and] at same
      exact .get same.1 same.2
    | _ => simp [Expr.style] at styles
  | grouping inner =>
    cases e' with
    | grouping =>
      simp only [Expr.form, SExpr.list.injEq, List.cons.injEq, and_true, true_and] at same
      exact .grouping same
    | _ => simp [Expr.style] at styles
  | literal value =>
    have written := Literal.legible h
    cases e' with
    | literal =>
      obtain rfl := Literal.text_injective written (Literal.legible h') (SExpr.word.inj same)
      exact .literal
    | thisRef => exact absurd (SExpr.word.inj same) (Literal.text_ne_this written)
    | var =>
      exact absurd (SExpr.word.inj same)
        (Literal.text_ne_name written (legible' _ (.head _)) regular')
    | _ => simp [Expr.style] at styles
  | logical left operator right =>
    cases e' with
    | logical =>
      simp only [Expr.form, SExpr.list.injEq, List.cons.injEq, SExpr.word.injEq, and_true] at same
      exact .logical same.1 same.2.1 same.2.2
    | binary => exact absurd same.symm (Expr.binary_ne_logical h' h)
    | unary => simp [Expr.form] at same
    | _ => simp [Expr.style] at styles
  | set object name value =>
    cases e' with
    | set =>
      simp only [Expr.form, SExpr.list.injEq, List.cons.injEq, SExpr.word.injEq, and_true,
        true_and] at same
      exact .set same.1.1 same.1.2 same.2
    | assign => simp [Expr.form] at same
    | _ => simp [Expr.style] at styles
  | superRef id keyword method =>
    cases e' with
    | superRef =>
      simp only [Expr.form, SExpr.list.injEq, List.cons.injEq, SExpr.word.injEq, and_true,
        true_and] at same
      exact .superRef same
    | _ => simp [Expr.style] at styles
  | thisRef id keyword =>
    cases e' with
    | thisRef => exact .thisRef
    | literal =>
      exact absurd (SExpr.word.inj same.symm) (Literal.text_ne_this (Literal.legible h'))
    | var =>
      have plain := ((legible' _ (.head _)).cut.identifier regular').2
      exact absurd (SExpr.word.inj same.symm) (plain .thisWord)
    | _ => simp [Expr.style] at styles
  | unary operator right =>
    cases e' with
    | unary =>
      simp only [Expr.form, SExpr.list.injEq, List.cons.injEq, SExpr.word.injEq, and_true] at same
      exact .unary same.1 same.2
    | binary | logical => simp [Expr.form] at same
    | _ => simp [Expr.style] at styles
  | var id name =>
    cases e' with
    | var => exact .var (SExpr.word.inj same)
    | literal =>
      exact absurd (SExpr.word.inj same.symm)
        (Literal.text_ne_name (Literal.legible h') (legible _ (.head _)) regular)
    | thisRef =>
      have plain := ((legible _ (.head _)).cut.identifier regular).2
      exact absurd (SExpr.word.inj same) (plain .thisWord)
    | _ => simp [Expr.style] at styles

/-! ## Statements -/

/-- Lists that start with words have the same words and the same rests. -/
theorem SExpr.head_eq {a b : String} {es es' : List SExpr}
    (same : SExpr.list (.word a :: es) = .list (.word b :: es')) : a = b ∧ es = es' := by
  cases same
  exact ⟨rfl, rfl⟩

/-- The word with which a statement starts. -/
def Stmt.head : Stmt → String
  | .block _ => "block"
  | .classDecl .. => "class"
  | .expression _ => ";"
  | .functionDecl _ => "fun"
  | .ifElse _ _ none => "if"
  | .ifElse _ _ (some _) => "if-else"
  | .print _ => "print"
  | .returnWith .. => "return"
  | .varDecl .. => "var"
  | .whileLoop .. => "while"

theorem Stmt.form_head (s : Stmt) : ∃ es, s.form = .list (.word s.head :: es) := by
  cases s with
  | classDecl _ parent _ => cases parent <;> exact ⟨_, rfl⟩
  | ifElse _ _ other => cases other <;> exact ⟨_, rfl⟩
  | returnWith _ value | varDecl _ value => cases value <;> exact ⟨_, rfl⟩
  | functionDecl decl =>
    cases decl
    exact ⟨_, rfl⟩
  | _ => exact ⟨_, rfl⟩

theorem Stmt.head_eq {s s' : Stmt} (same : s.form = s'.form) : s.head = s'.head := by
  obtain ⟨es, whole⟩ := s.form_head
  obtain ⟨es', whole'⟩ := s'.form_head
  exact (SExpr.head_eq (whole.symm.trans (same.trans whole'))).1

/-- Methods are lists and no words. -/
theorem FunctionDecl.forms_ne_word (decls : List FunctionDecl) (a : String) (es : List SExpr) :
    FunctionDecl.forms decls ≠ .word a :: es := by
  cases decls with
  | nil => rintro ⟨⟩
  | cons decl decls =>
    cases decl
    rintro ⟨⟩

/-- Statements of one kind that are written alike part by part. -/
inductive Stmt.Matches : Stmt → Stmt → Prop where
  | block {body body' : List Stmt} (contents : Stmt.forms body = Stmt.forms body') :
      Matches (.block body) (.block body')
  | baseClass {name name' : Token} {methods methods' : List FunctionDecl}
      (names : name.lexeme = name'.lexeme)
      (lists : FunctionDecl.forms methods = FunctionDecl.forms methods') :
      Matches (.classDecl name none methods) (.classDecl name' none methods')
  | derivedClass {name name' : Token} {parent parent' : Expr} {methods methods' : List FunctionDecl}
      (names : name.lexeme = name'.lexeme) (parents : parent.form = parent'.form)
      (lists : FunctionDecl.forms methods = FunctionDecl.forms methods') :
      Matches (.classDecl name (some parent) methods) (.classDecl name' (some parent') methods')
  | expression {value value' : Expr} (values : value.form = value'.form) :
      Matches (.expression value) (.expression value')
  | functionDecl {decl decl' : FunctionDecl} (declared : decl.form = decl'.form) :
      Matches (.functionDecl decl) (.functionDecl decl')
  | ifThen {condition condition' : Expr} {branch branch' : Stmt}
      (conditions : condition.form = condition'.form) (branches : branch.form = branch'.form) :
      Matches (.ifElse condition branch none) (.ifElse condition' branch' none)
  | ifElse {condition condition' : Expr} {branch branch' other other' : Stmt}
      (conditions : condition.form = condition'.form) (branches : branch.form = branch'.form)
      (others : other.form = other'.form) :
      Matches (.ifElse condition branch (some other)) (.ifElse condition' branch' (some other'))
  | print {value value' : Expr} (values : value.form = value'.form) :
      Matches (.print value) (.print value')
  | bareReturn {keyword keyword' : Token} :
      Matches (.returnWith keyword none) (.returnWith keyword' none)
  | returnWith {keyword keyword' : Token} {value value' : Expr}
      (values : value.form = value'.form) :
      Matches (.returnWith keyword (some value)) (.returnWith keyword' (some value'))
  | bareVariable {name name' : Token} (names : name.lexeme = name'.lexeme) :
      Matches (.varDecl name none) (.varDecl name' none)
  | varDecl {name name' : Token} {value value' : Expr} (names : name.lexeme = name'.lexeme)
      (values : value.form = value'.form) :
      Matches (.varDecl name (some value)) (.varDecl name' (some value'))
  | whileLoop {condition condition' : Expr} {body body' : Stmt}
      (conditions : condition.form = condition'.form) (bodies : body.form = body'.form) :
      Matches (.whileLoop condition body) (.whileLoop condition' body')

theorem Stmt.matches_of_form {s s' : Stmt} (same : s.form = s'.form) : s.Matches s' := by
  have heads := Stmt.head_eq same
  cases s with
  | block body =>
    cases s' with
    | block => exact .block (SExpr.head_eq same).2
    | ifElse _ _ other => cases other <;> simp [Stmt.head] at heads
    | _ => simp [Stmt.head] at heads
  | classDecl name parent methods =>
    cases s' with
    | classDecl _ parent' =>
      cases parent with
      | none =>
        cases parent' with
        | none =>
          simp only [Stmt.form, SExpr.list.injEq, List.cons.injEq, SExpr.word.injEq,
            true_and] at same
          exact .baseClass same.1 same.2
        | some =>
          simp only [Stmt.form, SExpr.list.injEq, List.cons.injEq] at same
          exact absurd same.2.2 (FunctionDecl.forms_ne_word _ _ _)
      | some =>
        cases parent' with
        | none =>
          simp only [Stmt.form, SExpr.list.injEq, List.cons.injEq] at same
          exact absurd same.2.2.symm (FunctionDecl.forms_ne_word _ _ _)
        | some =>
          simp only [Stmt.form, SExpr.list.injEq, List.cons.injEq, SExpr.word.injEq,
            true_and] at same
          exact .derivedClass same.1 same.2.1 same.2.2
    | ifElse _ _ other => cases other <;> simp [Stmt.head] at heads
    | _ => simp [Stmt.head] at heads
  | expression value =>
    cases s' with
    | expression =>
      simp only [Stmt.form, SExpr.list.injEq, List.cons.injEq, and_true, true_and] at same
      exact .expression same
    | ifElse _ _ other => cases other <;> simp [Stmt.head] at heads
    | _ => simp [Stmt.head] at heads
  | functionDecl decl =>
    cases s' with
    | functionDecl => exact .functionDecl same
    | ifElse _ _ other => cases other <;> simp [Stmt.head] at heads
    | _ => simp [Stmt.head] at heads
  | ifElse condition branch other =>
    cases s' with
    | ifElse _ _ other' =>
      cases other with
      | none =>
        cases other' with
        | none =>
          simp only [Stmt.form, SExpr.list.injEq, List.cons.injEq, and_true, true_and] at same
          exact .ifThen same.1 same.2
        | some => simp [Stmt.head] at heads
      | some =>
        cases other' with
        | none => simp [Stmt.head] at heads
        | some =>
          simp only [Stmt.form, SExpr.list.injEq, List.cons.injEq, and_true, true_and] at same
          exact .ifElse same.1 same.2.1 same.2.2
    | _ => cases other <;> simp [Stmt.head] at heads
  | print value =>
    cases s' with
    | print =>
      simp only [Stmt.form, SExpr.list.injEq, List.cons.injEq, and_true, true_and] at same
      exact .print same
    | ifElse _ _ other => cases other <;> simp [Stmt.head] at heads
    | _ => simp [Stmt.head] at heads
  | returnWith keyword value =>
    cases s' with
    | returnWith _ value' =>
      cases value with
      | none =>
        cases value' with
        | none => exact .bareReturn
        | some => simp [Stmt.form] at same
      | some =>
        cases value' with
        | none => simp [Stmt.form] at same
        | some =>
          simp only [Stmt.form, SExpr.list.injEq, List.cons.injEq, and_true, true_and] at same
          exact .returnWith same
    | ifElse _ _ other => cases other <;> simp [Stmt.head] at heads
    | _ => simp [Stmt.head] at heads
  | varDecl name value =>
    cases s' with
    | varDecl _ value' =>
      cases value with
      | none =>
        cases value' with
        | none =>
          simp only [Stmt.form, SExpr.list.injEq, List.cons.injEq, SExpr.word.injEq, and_true,
            true_and] at same
          exact .bareVariable same
        | some => simp [Stmt.form] at same
      | some =>
        cases value' with
        | none => simp [Stmt.form] at same
        | some =>
          simp only [Stmt.form, SExpr.list.injEq, List.cons.injEq, SExpr.word.injEq, and_true,
            true_and] at same
          exact .varDecl same.1 same.2
    | ifElse _ _ other => cases other <;> simp [Stmt.head] at heads
    | _ => simp [Stmt.head] at heads
  | whileLoop condition body =>
    cases s' with
    | whileLoop =>
      simp only [Stmt.form, SExpr.list.injEq, List.cons.injEq, and_true, true_and] at same
      exact .whileLoop same.1 same.2
    | ifElse _ _ other => cases other <;> simp [Stmt.head] at heads
    | _ => simp [Stmt.head] at heads

end Lox
