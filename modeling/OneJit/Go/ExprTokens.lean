import OneJit.Go.Parser

/-!
# Expressions as tokens

Expressions of identifiers, literals, operators, calls, indexes and selectors, how they are written
as a list of tokens, and the syntax trees that stand for them. A scanner that delivers a list of
tokens.
-/

namespace OneJit.Go

/-! ## Expressions -/

/-- A token with its text. -/
abbrev Item := Token × Bytes

namespace Token

def isBasicLit : Token → Bool
  | int | float | imag | char | string => true
  | _ => false

end Token

/-- A token of a basic literal. -/
abbrev LitTok := { tok : Token // tok.isBasicLit }

/-- `+ - ^ ! * &`. -/
abbrev UnaryTok := { tok : Token // (Tok.of tok).isUnary ∧ tok ≠ .arrow }

/-- A binary operator of one of the five levels of precedence. -/
abbrev BinaryTok := { tok : Token // Tok.lowestPrec < (Tok.of tok).precedence }

/-- An expression; `paren` is an expression in parentheses that it need not have. -/
inductive Expr
  | ident (name : Bytes)
  | basicLit (tok : LitTok) (text : Bytes)
  | unary (op : UnaryTok) (x : Expr)
  | binary (op : BinaryTok) (x y : Expr)
  | call (fn : Expr) (args : List Expr)
  | index (x i : Expr) (is : List Expr)
  | selector (x : Expr) (name : Bytes)
  | paren (x : Expr)

/-- Induction over expressions and their lists. -/
theorem Expr.induct {P : Expr → Prop} (hident : ∀ name, P (ident name))
    (hlit : ∀ tok text, P (basicLit tok text)) (hunary : ∀ op x, P x → P (unary op x))
    (hbinary : ∀ op x y, P x → P y → P (binary op x y))
    (hcall : ∀ fn args, P fn → (∀ e ∈ args, P e) → P (call fn args))
    (hindex : ∀ x i is, P x → P i → (∀ e ∈ is, P e) → P (index x i is))
    (hselector : ∀ x name, P x → P (selector x name)) (hparen : ∀ x, P x → P (paren x))
    (e : Expr) : P e :=
  Expr.rec (motive_1 := P) (motive_2 := fun es => ∀ e ∈ es, P e)
    hident hlit hunary hbinary hcall hindex hselector hparen
    (by simp) (fun e es he hes => by simpa using ⟨he, hes⟩) e

/-- The level of precedence of a binary operator. -/
def BinaryTok.prec (op : BinaryTok) : Nat := (Tok.of op.val).precedence

theorem Tok.precedence_le (tok : Tok) : tok.precedence ≤ 5 := by
  unfold precedence
  split <;> simp [lowestPrec]

theorem BinaryTok.prec_pos (op : BinaryTok) : 0 < op.prec := op.property

theorem BinaryTok.prec_le (op : BinaryTok) : op.prec ≤ 5 := Tok.precedence_le _

/-- No token of the list is a comment. -/
def NoComments (items : List Item) : Prop := ∀ item ∈ items, item.1 ≠ .comment

@[simp] theorem noComments_nil : NoComments [] := by simp [NoComments]

@[simp] theorem noComments_cons {item : Item} {items : List Item} :
    NoComments (item :: items) ↔ item.1 ≠ .comment ∧ NoComments items :=
  List.forall_mem_cons

@[simp] theorem noComments_append {items rest : List Item} :
    NoComments (items ++ rest) ↔ NoComments items ∧ NoComments rest :=
  List.forall_mem_append

/-- Tokens in parentheses. -/
def parens (items : List Item) : List Item := (.lparen, []) :: items ++ [(.rparen, [])]

namespace Expr

mutual

/-- An expression as tokens, where an operator of a level up to `prec` is in parentheses. The left
operand of an operator may have operators of its level, the right one may not. At level 5 only
unary operators are without parentheses, above it none are. -/
def print (prec : Nat) : Expr → List Item
  | ident name => [(.ident, name)]
  | basicLit tok text => [(tok.val, text)]
  | unary op x =>
    let items := (op.val, []) :: print 5 x
    if prec ≤ 5 then items else parens items
  | binary op x y =>
    let items := print (op.prec - 1) x ++ (op.val, []) :: print op.prec y
    if prec < op.prec then items else parens items
  | call fn args => print 6 fn ++ (.lparen, []) :: printList args ++ [(.rparen, [])]
  | index x i is =>
    print 6 x ++ (.lbrack, []) :: (print 0 i ++ printTail is) ++ [(.rbrack, [])]
  | selector x name => print 6 x ++ [(.period, []), (.ident, name)]
  | paren x => parens (print 0 x)

/-- Expressions with commas between them. -/
def printList : List Expr → List Item
  | [] => []
  | e :: es => print 0 e ++ printTail es

/-- Expressions with a comma before each. -/
def printTail : List Expr → List Item
  | [] => []
  | e :: es => (.comma, []) :: print 0 e ++ printTail es

end

theorem printTail_cons (e : Expr) (es : List Expr) :
    printTail (e :: es) = (.comma, []) :: printList (e :: es) := rfl

theorem print_unary {prec : Nat} (h : prec ≤ 5) (op : UnaryTok) (x : Expr) :
    (unary op x).print prec = (op.val, []) :: x.print 5 := by
  rw [print]
  exact if_pos h

theorem print_unary_parens {prec : Nat} (h : 5 < prec) (op : UnaryTok) (x : Expr) :
    (unary op x).print prec = parens ((unary op x).print 0) := by
  rw [print, print_unary (Nat.zero_le 5)]
  exact if_neg (Nat.not_le.mpr h)

theorem print_binary {prec : Nat} {op : BinaryTok} (h : prec < op.prec) (x y : Expr) :
    (binary op x y).print prec =
      x.print (op.prec - 1) ++ (op.val, []) :: y.print op.prec := by
  rw [print]
  exact if_pos h

theorem print_binary_parens {prec : Nat} {op : BinaryTok} (h : op.prec ≤ prec) (x y : Expr) :
    (binary op x y).print prec = parens ((binary op x y).print 0) := by
  rw [print, print_binary op.prec_pos]
  exact if_neg (Nat.not_lt.mpr h)

mutual

/-- The syntax tree of an expression. Parentheses leave no node. -/
def ast : Expr → Ast
  | ident name => .atom { Atom.zero with tok := Token.ident, lit := name }
  | basicLit tok text => .atom { Atom.zero with tok := tok.val, lit := text }
  | unary op x => .unary (.new op.val 0) x.ast
  | binary op x y => .binary (.new op.val 0) x.ast y.ast
  | call fn args => .list (.new .call 0) (fn.ast :: astList args)
  | index x i is => .list (.new .index 0) (x.ast :: i.ast :: astList is)
  | selector x name =>
    .binary (.new Token.period 0) x.ast (.atom { Atom.zero with tok := Token.ident, lit := name })
  | paren x => x.ast

def astList : List Expr → List Ast
  | [] => []
  | e :: es => e.ast :: astList es

end

mutual

/-- The expression without the parentheses that it need not have. -/
def bare : Expr → Expr
  | ident name => ident name
  | basicLit tok text => basicLit tok text
  | unary op x => unary op x.bare
  | binary op x y => binary op x.bare y.bare
  | call fn args => call fn.bare (bareList args)
  | index x i is => index x.bare i.bare (bareList is)
  | selector x name => selector x.bare name
  | paren x => x.bare

def bareList : List Expr → List Expr
  | [] => []
  | e :: es => e.bare :: bareList es

end

mutual

theorem ast_bare : (e : Expr) → e.bare.ast = e.ast
  | ident _ | basicLit _ _ => by rw [bare]
  | unary op x => by simp only [bare, ast, ast_bare x]
  | binary op x y => by simp only [bare, ast, ast_bare x, ast_bare y]
  | call fn args => by simp only [bare, ast, ast_bare fn, astList_bare args]
  | index x i is => by simp only [bare, ast, ast_bare x, ast_bare i, astList_bare is]
  | selector x name => by simp only [bare, ast, ast_bare x]
  | paren x => by simp only [bare, ast, ast_bare x]

theorem astList_bare : (es : List Expr) → astList (bareList es) = astList es
  | [] => rfl
  | e :: es => by simp only [bareList, astList, ast_bare e, astList_bare es]

end

mutual

/-- No token that is written is a comment. -/
theorem print_noComments : (e : Expr) → (prec : Nat) → NoComments (e.print prec)
  | ident _, _ => by simp [print]
  | basicLit tok _, _ => by
    have htok : tok.val ≠ .comment := by
      intro heq
      simpa [heq, Token.isBasicLit] using tok.property
    simpa [print] using htok
  | unary op x, prec => by
    have hop : op.val ≠ .comment := by
      intro heq
      simpa [heq, Tok.isUnary] using op.property.1
    have hx := print_noComments x 5
    rw [print]
    split <;> simp [parens, hop, hx]
  | binary op x y, prec => by
    have hop : op.val ≠ .comment := by
      intro heq
      simpa [heq, Tok.precedence] using op.property
    have hx := print_noComments x (op.prec - 1)
    have hy := print_noComments y op.prec
    rw [print]
    split <;> simp [parens, hop, hx, hy]
  | call fn args, _ => by
    have hfn := print_noComments fn 6
    have hargs := printList_noComments args
    simp [print, hfn, hargs]
  | index x i is, _ => by
    have hx := print_noComments x 6
    have hi := print_noComments i 0
    have his := printTail_noComments is
    simp [print, hx, hi, his]
  | selector x name, _ => by
    have hx := print_noComments x 6
    simp [print, hx]
  | paren x, _ => by
    have hx := print_noComments x 0
    simp [print, parens, hx]

theorem printList_noComments : (es : List Expr) → NoComments (printList es)
  | [] => by simp [printList]
  | e :: es => by
    have he := print_noComments e 0
    have hes := printTail_noComments es
    simp [printList, he, hes]

theorem printTail_noComments : (es : List Expr) → NoComments (printTail es)
  | [] => by simp [printTail]
  | e :: es => by
    have he := print_noComments e 0
    have hes := printTail_noComments es
    simp [printTail, he, hes]

end

end Expr

namespace Ast

mutual

/-- The tree of an expression without positions and comments. Only leaves keep their texts. -/
def strip : Ast → Ast
  | atom a => .atom { Atom.zero with tok := a.tok, lit := a.lit }
  | unary a x => .unary (.new a.tok 0) x.strip
  | binary a x y => .binary (.new a.tok 0) x.strip y.strip
  | list a nodes => .list (.new a.tok 0) (stripList nodes)
  | node => node

def stripList : List Ast → List Ast
  | [] => []
  | node :: nodes => node.strip :: stripList nodes

end

theorem stripList_append (xs ys : List Ast) : stripList (xs ++ ys) = stripList xs ++ stripList ys := by
  induction xs with
  | nil => rfl
  | cons x xs ih =>
    simp only [List.cons_append, stripList]
    rw [ih]

end Ast

/-! ## A list of tokens as a scanner -/

/-- A scanner that delivers a list of tokens, then the end of the input. The place of a token is
given by the number of tokens after it. -/
structure TokenList where
  items : List Item
  place : Nat → Int × Int
  errors : List ScanError

instance : Source TokenList where
  scan s :=
    match s.items with
    | [] => some (.eof, [], s)
    | (tok, lit) :: items => some (tok, lit, { s with items := items })
  posEnd s := s.place s.items.length
  errors s := s.errors
  error s pos msg :=
    let err : ScanError := ⟨⟨"", pos, 0, 0⟩, msg⟩
    some (err, { s with errors := s.errors ++ [err] })
  rounds s := s.items.length + 1

end OneJit.Go
