import OneJit.Go.ExprTokens
import OneJit.Lib.Triple

/-!
# Expressions that are written are read back
-/

namespace OneJit.Go

namespace Parser

open StateStop

variable {α β : Type}

/-- The token that is seen; after the last one it is the end of the input. -/
def peek (items : List Item) : Item := items.headD (.eof, [])

@[simp] theorem peek_cons (item : Item) (items : List Item) : peek (item :: items) = item := rfl

/-- The tokens `items` are not parsed yet. Nothing went wrong so far. -/
structure At (items : List Item) (p : Parser TokenList) : Prop where
  tok : p.curr.tok = (peek items).1
  lit : p.curr.lit = (peek items).2
  scanner : p.scanner.items = items.tail
  comments : NoComments items
  unread : p.unread0.tok = Token.illegal
  errors : p.scanner.errors = []

/-- The computation takes the tokens `items` up to `rest`, and returns with `Q`. -/
def Reads (items : List Item) (m : ParseM TokenList α) (rest : List Item) (Q : α → Prop) : Prop :=
  Triple (At items) m (fun a p => At rest p ∧ Q a) fun _ => False

variable {items rest us : List Item} {item : Item} {m : ParseM TokenList α}
  {f : α → ParseM TokenList β} {Q : α → Prop} {R : β → Prop}

theorem Reads.pure {a : α} (h : Q a) : Reads items (Pure.pure a) items Q :=
  Triple.pure fun _ hat => ⟨hat, h⟩

theorem Reads.mono {Q' : α → Prop} (h : Reads items m rest Q) (hQ : ∀ a, Q a → Q' a) :
    Reads items m rest Q' :=
  Triple.conseq h (fun _ hat => hat) fun a _ ha => ⟨ha.1, hQ a ha.2⟩

theorem Reads.bind (hm : Reads items m rest Q) (hf : ∀ a, Q a → Reads rest (f a) us R) :
    Reads items (m >>= f) us R := by
  apply Triple.bind hm
  intro a p ⟨hat, ha⟩
  exact hf a ha p hat

/-! ## Computations that look at one token -/

theorem reads_tok {f : Tok → ParseM TokenList β} (h : Reads items (f (peek items).1) rest R) :
    Reads items (tok >>= f) rest R := by
  intro p hat
  have hp := h p hat
  rw [← hat.tok] at hp
  exact hp

theorem reads_pos {f : Int → ParseM TokenList β} (h : ∀ pos, Reads items (f pos) rest R) :
    Reads items (pos >>= f) rest R :=
  fun p hat => h p.curr.pos p hat

theorem reads_takeCurr :
    Reads items takeCurr items fun a => a.tok = (peek items).1 ∧ a.lit = (peek items).2 :=
  fun _ hat => ⟨{ hat with }, hat.tok, hat.lit⟩

theorem reads_consumeComment : Reads items consumeComment items fun _ => True :=
  fun _ hat => ⟨{ hat with }, trivial⟩

theorem scan_eq (s : TokenList) :
    Source.scan s =
      some ((peek s.items).1, (peek s.items).2, { s with items := s.items.tail }) := by
  obtain ⟨items, place, errors⟩ := s
  cases items with
  | nil => rfl
  | cons item items => rfl

theorem peek_ne_comment (h : NoComments items) : (peek items).1 ≠ .comment := by
  cases items with
  | nil => simp [peek]
  | cons item items => exact (noComments_cons.mp h).1

/-- `next` takes the next token of the list. -/
theorem next_items {p : Parser TokenList} (hunread : p.unread0.tok = Token.illegal)
    (hcomments : NoComments p.scanner.items) :
    next p = .ok (((peek p.scanner.items).1 : Tok), { p with
      scanner := { p.scanner with items := p.scanner.items.tail }
      curr := { p.curr with
        tok := (peek p.scanner.items).1, lit := (peek p.scanner.items).2, comment := []
        pos := (p.scanner.place p.scanner.items.tail.length).1
        endpos := (p.scanner.place p.scanner.items.tail.length).2 } }) := by
  rw [next_eq hunread]
  change (nextLoop (p.scanner.items.length + 1) _).map _ = _
  rw [nextLoop_succ, scan_eq]
  dsimp only
  rw [if_pos (peek_ne_comment hcomments)]
  rfl

theorem At.next {p : Parser TokenList} (hunread : p.unread0.tok = Token.illegal)
    (hcomments : NoComments p.scanner.items) (herrors : p.scanner.errors = []) :
    ∃ p', Parser.next p = .ok (((peek p.scanner.items).1 : Tok), p') ∧ At p.scanner.items p' :=
  ⟨_, next_items hunread hcomments, rfl, rfl, rfl, hcomments, hunread, herrors⟩

theorem reads_next : Reads (item :: items) next items fun tok => tok = (peek items).1 := by
  intro p hat
  have hitems : p.scanner.items = items := hat.scanner
  have hcomments : NoComments p.scanner.items := by
    rw [hitems]
    exact (noComments_cons.mp hat.comments).2
  obtain ⟨p', hrun, hat'⟩ := At.next hat.unread hcomments hat.errors
  rw [hitems] at hrun hat'
  rw [hrun]
  exact ⟨hat', rfl⟩

/-! ## Nodes of one token -/

theorem reads_thenNext (hm : Reads (item :: items) m (item :: items) Q) :
    Reads (item :: items) (thenNext m) items Q := by
  apply Reads.bind hm
  intro a ha
  apply Reads.bind reads_next
  intro _ _
  exact Reads.pure ha

theorem reads_makeAtom (tok : Tok) :
    Reads (item :: items) (makeAtom tok) (item :: items) fun node =>
      node.strip = .atom { Atom.zero with tok := tok, lit := item.2 } := by
  apply Reads.bind reads_takeCurr
  intro a ha
  apply Reads.pure
  simp [Ast.strip, ha.2, peek]

theorem reads_parseAtom (tok : Tok) :
    Reads (item :: items) (parseAtom tok) items fun node =>
      node.strip = .atom { Atom.zero with tok := tok, lit := item.2 } :=
  reads_thenNext (reads_makeAtom tok)

theorem reads_parseIdent {name : Bytes} :
    Reads ((.ident, name) :: items) parseIdent items fun node =>
      node.strip = (Expr.ident name).ast := by
  apply reads_thenNext
  apply reads_tok
  dsimp only [peek_cons]
  rw [if_pos rfl]
  apply Reads.bind (reads_makeAtom _)
  intro node hnode
  apply Reads.bind reads_consumeComment
  intro _ _
  exact Reads.pure hnode

/-- `parseBinary`, `parseUnary` and `parseList` take a token. -/
theorem reads_takeCurr_thenNext :
    Reads (item :: items) (thenNext takeCurr) items fun a => a.tok = item.1 := by
  apply reads_thenNext
  intro p hat
  exact ⟨(reads_takeCurr p hat).1, hat.tok⟩

/-! ## Brackets -/

theorem reads_leaveNode {n : Nat} {node : Ast} {want : Token} {text : Bytes} {Q : Ast → Prop}
    (hnode : Q node) : Reads ((want, text) :: items) (leaveNode (n + 1) node want) items Q := by
  apply reads_tok
  rw [peek_cons, if_pos rfl]
  apply Reads.bind reads_next
  intro _ _
  exact Reads.pure hnode

theorem reads_leave {n : Nat} {nodes : List Ast} {want : Token} {text : Bytes}
    {Q : List Ast → Prop} (hnodes : Q nodes) :
    Reads ((want, text) :: items) (leave want (n + 1) nodes) items Q := by
  apply reads_tok
  rw [peek_cons, if_pos rfl]
  apply Reads.bind reads_next
  intro _ _
  exact Reads.pure hnodes

/-! ## What stops an expression -/

/-- The token does not continue a primary expression. -/
def endsPrimary (tok : Token) : Prop :=
  tok ≠ .lparen ∧ tok ≠ .lbrack ∧ tok ≠ .lbrace ∧ tok ≠ .period

theorem endsPrimary_of_prec {tok : Token} (h : 0 < (Tok.of tok).precedence) : endsPrimary tok := by
  refine ⟨?_, ?_, ?_, ?_⟩ <;>
  · intro heq
    simp [heq, Tok.precedence, Tok.lowestPrec] at h

/-- The token ends an expression. -/
def endsExpr (tok : Token) : Prop := endsPrimary tok ∧ (Tok.of tok).precedence = 0

variable {flag : ExprFlag} {r : Rec TokenList} {n prec : Nat} {node : Ast}

theorem reads_primaryLoop_end {Q : Ast → Prop} (h : endsPrimary (peek rest).1) (hn : rest.length < n)
    (hnode : Q node) : Reads rest (primaryLoop r flag n node) rest Q := by
  obtain _ | n := n
  · exact absurd hn (Nat.not_lt_zero _)
  · apply reads_tok
    split
    · next heq => exact absurd (Tok.of.inj heq) h.1
    · next heq => exact absurd (Tok.of.inj heq) h.2.1
    · next heq => exact absurd (Tok.of.inj heq) h.2.2.1
    · next heq => exact absurd (Tok.of.inj heq) h.2.2.2
    · exact Reads.pure hnode

theorem reads_binaryLoop_end {Q : Ast → Prop} (h : (Tok.of (peek rest).1).precedence ≤ prec)
    (hn : rest.length < n) (hnode : Q node) :
    Reads rest (binaryLoop r prec flag n node) rest Q := by
  obtain _ | n := n
  · exact absurd hn (Nat.not_lt_zero _)
  · apply reads_tok
    dsimp only
    rw [if_pos h]
    exact Reads.pure hnode

/-! ## How expressions start -/

/-- The token may be the first one of an operand. -/
def startsOperand (tok : Token) : Prop := tok = .ident ∨ tok.isBasicLit ∨ tok = .lparen

/-- The token may be the first one of an expression. -/
def startsExpr (tok : Token) : Prop := startsOperand tok ∨ (Tok.of tok).isUnary ∧ tok ≠ .arrow

/-- The list has a first token, for which `start` holds. -/
def StartsWith (start : Token → Prop) (items : List Item) : Prop :=
  ∃ item rest, items = item :: rest ∧ start item.1

theorem StartsWith.append {start : Token → Prop} (h : StartsWith start items) :
    StartsWith start (items ++ rest) := by
  obtain ⟨item, tail, rfl, hitem⟩ := h
  exact ⟨item, tail ++ rest, rfl, hitem⟩

theorem StartsWith.mono {start start' : Token → Prop} (h : StartsWith start items)
    (hmono : ∀ tok, start tok → start' tok) : StartsWith start' items := by
  obtain ⟨item, tail, rfl, hitem⟩ := h
  exact ⟨item, tail, rfl, hmono _ hitem⟩

theorem StartsWith.peek {start : Token → Prop} (h : StartsWith start items) :
    start (peek items).1 := by
  obtain ⟨item, tail, rfl, hitem⟩ := h
  exact hitem

theorem startsWith_parens : StartsWith startsOperand (parens items) :=
  ⟨_, _, rfl, .inr (.inr rfl)⟩

theorem startsWith_print_six (e : Expr) : StartsWith startsOperand (e.print 6) := by
  induction e using Expr.induct with
  | hident name => exact ⟨_, _, by rw [Expr.print], .inl rfl⟩
  | hlit tok text => exact ⟨_, _, by rw [Expr.print], .inr (.inl tok.property)⟩
  | hunary op x _ =>
    rw [Expr.print_unary_parens (by decide)]
    exact startsWith_parens
  | hbinary op x y _ _ =>
    rw [Expr.print_binary_parens (Nat.le_succ_of_le op.prec_le)]
    exact startsWith_parens
  | hcall fn args ih _ =>
    rw [Expr.print, List.append_assoc]
    exact ih.append
  | hindex x i is ih _ _ =>
    rw [Expr.print, List.append_assoc]
    exact ih.append
  | hselector x name ih =>
    rw [Expr.print]
    exact ih.append
  | hparen x _ =>
    rw [Expr.print]
    exact startsWith_parens

/-- What is no operator is written in the same way for every level. -/
theorem startsWith_print_of_eq {e : Expr} (h : e.print prec = e.print 6) :
    StartsWith startsExpr (e.print prec) := by
  rw [h]
  exact (startsWith_print_six e).mono fun _ => .inl

theorem startsWith_print (e : Expr) (prec : Nat) : StartsWith startsExpr (e.print prec) := by
  induction e using Expr.induct generalizing prec with
  | hunary op x _ =>
    by_cases hprec : prec ≤ 5
    · rw [Expr.print_unary hprec]
      exact ⟨_, _, rfl, .inr op.property⟩
    · rw [Expr.print_unary_parens (Nat.not_le.mp hprec)]
      exact startsWith_parens.mono fun _ => .inl
  | hbinary op x y ihx _ =>
    by_cases hprec : prec < op.prec
    · rw [Expr.print_binary hprec]
      exact (ihx _).append
    · rw [Expr.print_binary_parens (Nat.not_lt.mp hprec)]
      exact startsWith_parens.mono fun _ => .inl
  | _ => exact startsWith_print_of_eq (by simp only [Expr.print])

/-- An expression does not start with a token that ends a list of expressions. -/
theorem print_not_end (e : Expr) (prec : Nat) (rest : List Item) :
    let tok := (peek (e.print prec ++ rest)).1
    tok ≠ .semicolon ∧ tok ≠ .colon ∧ (Tok.of tok).isAssign = false ∧
      (Tok.of tok).isLeave = false := by
  have hstart : StartsWith startsExpr (e.print prec ++ rest) := (startsWith_print e prec).append
  have hstart := hstart.peek
  dsimp only
  generalize (peek (e.print prec ++ rest)).1 = tok at hstart ⊢
  cases tok <;>
    simp_all [startsExpr, startsOperand, Token.isBasicLit, Tok.isUnary, Tok.isAssign, Tok.isLeave]

theorem startsOperand_not_unary {tok : Token} (h : startsOperand tok) :
    (Tok.of tok).isUnary = false := by
  cases tok <;> simp_all [startsOperand, Token.isBasicLit, Tok.isUnary]

/-! ## How tokens are read -/

/-- The tokens are a primary expression: what is done after it is done in the loop of
`parsePrimaryExpr`. -/
def ReadsPrimary (items : List Item) (e : Expr) : Prop :=
  ∀ ⦃n flag rest us⦄ ⦃Q : Ast → Prop⦄, (items ++ rest).length ≤ n →
    (∀ m node, node.strip = e.ast → rest.length < m →
      Reads rest (primaryLoop (productions n) flag m node) us Q) →
    Reads (items ++ rest) (parsePrimaryExpr (productions n) flag) us Q

/-- The tokens are a unary expression. -/
def ReadsUnary (items : List Item) (e : Expr) : Prop :=
  ∀ ⦃n flag rest⦄, (items ++ rest).length ≤ n → endsPrimary (peek rest).1 →
    Reads (items ++ rest) (parseUnaryExpr (productions n) flag) rest fun node => node.strip = e.ast

/-- The tokens are an expression with operators of a level above `prec` only: when it is parsed for
such a level or a lower one, what is done after it is done in the loop of `parseExprOrType`. -/
def ReadsBinary (prec : Nat) (items : List Item) (e : Expr) : Prop :=
  ∀ ⦃n flag prec' rest us⦄ ⦃Q : Ast → Prop⦄, prec' ≤ prec → (items ++ rest).length ≤ n →
    endsPrimary (peek rest).1 → (Tok.of (peek rest).1).precedence ≤ prec + 1 →
    (∀ m node, node.strip = e.ast → rest.length < m →
      Reads rest (binaryLoop (productions n) prec' flag m node) us Q) →
    Reads (items ++ rest) (parseExprOrType (productions n) prec' flag) us Q

variable {e : Expr}

/-- The loops have a round for every token that is left. -/
theorem lt_rounds (h : (items ++ rest).length ≤ n) :
    rest.length < (productions n : Rec TokenList).rounds + 1 := by
  rw [List.length_append] at h
  rw [productions_rounds]
  omega

theorem ReadsPrimary.toUnary (h : ReadsPrimary items e) (hstart : StartsWith startsOperand items) :
    ReadsUnary items e := by
  intro n flag rest hlen hend
  apply reads_tok
  rw [startsOperand_not_unary hstart.append.peek]
  apply h hlen
  intro m node hnode hm
  exact reads_primaryLoop_end hend hm hnode

theorem ReadsUnary.toBinary (h : ReadsUnary items e) (prec : Nat) : ReadsBinary prec items e := by
  intro n flag prec' rest us Q hprec hlen hend hrest hloop
  apply Reads.bind (h hlen hend)
  intro node hnode
  exact hloop _ node hnode (lt_rounds hlen)

/-- An expression inside another one, before a token that ends it. -/
theorem ReadsBinary.inside (h : ReadsBinary prec items e) (hlen : (items ++ rest).length < n)
    (hend : endsPrimary (peek rest).1) (hrest : (Tok.of (peek rest).1).precedence ≤ prec) :
    Reads (items ++ rest) ((productions n).parseExprOrType prec flag) rest fun node =>
      node.strip = e.ast := by
  obtain _ | n := n
  · exact absurd hlen (Nat.not_lt_zero _)
  · apply h (Nat.le_refl prec) (Nat.le_of_lt_succ hlen) hend (Nat.le_succ_of_le hrest)
    intro m node hnode hm
    exact reads_binaryLoop_end hrest hm hnode

theorem ReadsBinary.parens (h : ReadsBinary 0 items e) : ReadsPrimary (parens items) e := by
  intro n flag rest us Q hlen hloop
  have hitems : OneJit.Go.parens items ++ rest =
      (.lparen, []) :: (items ++ (.rparen, []) :: rest) := by
    simp [OneJit.Go.parens]
  have hinside : (items ++ (.rparen, []) :: rest).length < n := by rwa [hitems] at hlen
  have hoperand : Reads ((.lparen, []) :: (items ++ (.rparen, []) :: rest))
      (parseOperandExpr (productions n)) rest fun node => node.strip = e.ast := by
    apply reads_tok
    apply Reads.bind reads_next
    intro _ _
    apply Reads.bind (h.inside hinside (by simp [endsPrimary]) (Nat.le_refl 0))
    intro node hnode
    exact reads_leaveNode hnode
  rw [hitems]
  apply Reads.bind hoperand
  intro node hnode
  exact hloop _ node hnode (lt_rounds hlen)

/-! ## Constructors -/

/-- How an expression is read back. -/
structure Parses (e : Expr) : Prop where
  primary : ReadsPrimary (e.print 6) e
  unary : ReadsUnary (e.print 5) e
  binary : ∀ {prec}, prec ≤ 5 → ReadsBinary prec (e.print prec) e

/-- An expression that is no operator is written in the same way for every level. -/
theorem Parses.of_primary (hprint : ∀ prec, e.print prec = e.print 6)
    (h : ReadsPrimary (e.print 6) e) : Parses e := by
  have hunary := h.toUnary (startsWith_print_six e)
  constructor
  · exact h
  · rw [hprint]
    exact hunary
  · intro prec hprec
    rw [hprint]
    exact hunary.toBinary prec

theorem parses_ident (name : Bytes) : Parses (.ident name) := by
  apply Parses.of_primary
  · intro prec
    simp only [Expr.print]
  · intro n flag rest us Q hlen hloop
    rw [Expr.print] at hlen ⊢
    apply Reads.bind
    · apply reads_tok
      exact reads_parseIdent
    · intro node hnode
      exact hloop _ node hnode (lt_rounds hlen)

theorem parses_basicLit (tok : LitTok) (text : Bytes) : Parses (.basicLit tok text) := by
  apply Parses.of_primary
  · intro prec
    simp only [Expr.print]
  · intro n flag rest us Q hlen hloop
    rw [Expr.print] at hlen ⊢
    have hoperand : Reads ((tok.val, text) :: rest) (parseOperandExpr (productions n)) rest
        fun node => node.strip = (Expr.basicLit tok text).ast := by
      apply reads_tok
      rw [Expr.ast]
      obtain ⟨tok, htok⟩ := tok
      cases tok <;> simp [Token.isBasicLit] at htok
      · exact reads_parseAtom _
      · exact reads_parseAtom _
      · exact reads_parseAtom _
      · exact reads_parseAtom _
      · exact reads_parseAtom _
    apply Reads.bind hoperand
    intro node hnode
    exact hloop _ node hnode (lt_rounds hlen)

theorem Parses.paren {x : Expr} (h : Parses x) : Parses (.paren x) := by
  apply Parses.of_primary
  · intro prec
    simp only [Expr.print]
  · have hx := (h.binary (Nat.zero_le 5)).parens
    rw [Expr.print]
    unfold ReadsPrimary at hx ⊢
    simpa only [Expr.ast] using hx

/-- An expression that is another one with a suffix, which the loop of `parsePrimaryExpr` takes in
one round. -/
theorem Parses.suffix {x : Expr} (hx : Parses x) (item : Item) (items : List Item)
    (hprint : ∀ prec, e.print prec = x.print 6 ++ item :: items)
    (hround : ∀ ⦃n flag m node rest us⦄ ⦃Q : Ast → Prop⦄, (items ++ rest).length < n →
      node.strip = x.ast →
      (∀ node, node.strip = e.ast → Reads rest (primaryLoop (productions n) flag m node) us Q) →
      Reads (item :: (items ++ rest)) (primaryLoop (productions n) flag (m + 1) node) us Q) :
    Parses e := by
  apply Parses.of_primary
  · intro prec
    rw [hprint, hprint]
  · intro n flag rest us Q hlen hloop
    rw [hprint, List.append_assoc] at hlen ⊢
    apply hx.primary hlen
    intro m node hnode hm
    obtain _ | m := m
    · exact absurd hm (Nat.not_lt_zero _)
    · apply hround _ hnode
      · intro node hnode
        apply hloop m node hnode
        simp at hm
        omega
      · simp at hlen ⊢
        omega

theorem Parses.selector {x : Expr} (hx : Parses x) (name : Bytes) : Parses (.selector x name) := by
  apply hx.suffix (.period, []) [(.ident, name)]
  · intro prec
    rw [Expr.print]
  · intro n flag m node rest us Q hlen hnode hloop
    apply reads_tok
    apply reads_pos
    intro pos
    apply Reads.bind reads_next
    intro tok1 htok
    rw [List.singleton_append, peek_cons] at htok
    rw [if_pos htok]
    have hselector : Reads ((.ident, name) :: rest) (parseSelector node pos) rest
        fun node => node.strip = (Expr.selector x name).ast := by
      apply Reads.bind reads_parseIdent
      intro y hy
      apply Reads.pure
      rw [Ast.strip, hnode, hy]
      simp [Expr.ast, Atom.new, Atom.zero]
    apply Reads.bind hselector
    intro node hnode
    exact hloop node hnode

theorem Parses.unary_op {x : Expr} (hx : Parses x) (op : UnaryTok) : Parses (.unary op x) := by
  have hunary : ReadsUnary ((Expr.unary op x).print 5) (.unary op x) := by
    intro n flag rest hlen hend
    rw [Expr.print_unary (Nat.le_refl 5), List.cons_append] at hlen ⊢
    have hinside : (x.print 5 ++ rest).length < n := hlen
    apply reads_tok
    rw [peek_cons, op.property.1]
    apply Reads.bind reads_takeCurr_thenNext
    intro unary htok
    obtain _ | n := n
    · exact absurd hinside (Nat.not_lt_zero _)
    · apply Reads.bind (hx.unary (Nat.le_of_lt_succ hinside) hend)
      intro node hnode
      apply Reads.pure
      rw [Ast.strip, Expr.ast, htok, hnode]
  have hbinary : ∀ {prec}, prec ≤ 5 →
      ReadsBinary prec ((Expr.unary op x).print prec) (.unary op x) := by
    intro prec hprec
    rw [Expr.print_unary hprec, ← Expr.print_unary (Nat.le_refl 5)]
    exact hunary.toBinary prec
  constructor
  · rw [Expr.print_unary_parens (by decide)]
    exact ReadsBinary.parens (hbinary (Nat.zero_le 5))
  · exact hunary
  · exact hbinary

/-- An operator of a high level: its left operand has only operators of its level and above, its right
one only operators above. -/
theorem Parses.binary_op_bare {x y : Expr} (hx : Parses x) (hy : Parses y) {op : BinaryTok}
    (hprec : prec < op.prec) :
    ReadsBinary prec ((Expr.binary op x y).print prec) (.binary op x y) := by
  intro n flag prec' rest us Q hprec' hlen hend hrest hloop
  have hop := op.prec_le
  rw [Expr.print_binary hprec, List.append_assoc, List.cons_append] at hlen ⊢
  have hy_len : (y.print op.prec ++ rest).length < n := by
    simp at hlen ⊢
    omega
  apply hx.binary (Nat.le_trans (Nat.sub_le _ 1) hop) (by omega) hlen
  · exact endsPrimary_of_prec op.property
  · rw [peek_cons]
    change op.prec ≤ _
    omega
  · intro m node hnode hm
    obtain _ | m := m
    · exact absurd hm (Nat.not_lt_zero _)
    · apply reads_tok
      dsimp only
      rw [peek_cons]
      change Reads _ (if op.prec ≤ prec' then _ else _) _ _
      rw [if_neg (by omega)]
      apply Reads.bind reads_takeCurr_thenNext
      intro binary htok
      apply Reads.bind ((hy.binary hop).inside hy_len hend (by omega))
      intro node' hnode'
      apply hloop
      · rw [Ast.strip, Expr.ast, htok, hnode, hnode']
      · simp at hm
        omega

theorem Parses.binary_op {x y : Expr} (hx : Parses x) (hy : Parses y) (op : BinaryTok) :
    Parses (.binary op x y) := by
  have hparens : ∀ {prec}, op.prec ≤ prec →
      ReadsPrimary ((Expr.binary op x y).print prec) (.binary op x y) := by
    intro prec hprec
    rw [Expr.print_binary_parens hprec]
    exact (hx.binary_op_bare hy op.prec_pos).parens
  have hunary : ∀ {prec}, op.prec ≤ prec →
      ReadsUnary ((Expr.binary op x y).print prec) (.binary op x y) := by
    intro prec hprec
    apply (hparens hprec).toUnary
    rw [Expr.print_binary_parens hprec]
    exact startsWith_parens
  constructor
  · exact hparens (Nat.le_succ_of_le op.prec_le)
  · exact hunary op.prec_le
  · intro prec hprec
    by_cases h : prec < op.prec
    · exact hx.binary_op_bare hy h
    · exact (hunary (Nat.not_lt.mp h)).toBinary prec

/-! ## Lists of expressions -/

theorem ast_isNil (e : Expr) : e.ast.isNil = false := by
  induction e using Expr.induct with
  | hparen x ih =>
    rw [Expr.ast]
    exact ih
  | _ =>
    rw [Expr.ast]
    rfl

theorem isNil_of_strip (h : node.strip = e.ast) : node.isNil = false := by
  have hnil := ast_isNil e
  rw [← h] at hnil
  cases node with
  | nil => simp [Ast.strip, Ast.isNil] at hnil
  | _ => rfl

theorem length_stripList (nodes : List Ast) : (Ast.stripList nodes).length = nodes.length := by
  induction nodes with
  | nil => rfl
  | cons node nodes ih =>
    rw [Ast.stripList, List.length_cons, List.length_cons, ih]

/-- After an expression of a list comes a comma or the closing token. -/
theorem endsExpr_tail {es : List Expr} {close : Token} {text : Bytes} (hclose : (Tok.of close).isLeave) :
    endsExpr (peek (Expr.printTail es ++ (close, text) :: rest)).1 := by
  cases es with
  | nil =>
    rw [Expr.printTail, List.nil_append, peek_cons]
    cases close <;> simp_all [Tok.isLeave, endsExpr, endsPrimary, Tok.precedence, Tok.lowestPrec]
  | cons e es =>
    rw [Expr.printTail]
    simp [endsExpr, endsPrimary, Tok.precedence, Tok.lowestPrec]

theorem reads_exprListLoop {es : List Expr} (hes : ∀ e ∈ es, Parses e) {close : Token} {text : Bytes}
    (hclose : (Tok.of close).isLeave) {n m : Nat} {nodes : List Ast}
    (hn : (Expr.printList es ++ (close, text) :: rest).length < n)
    (hm : (Expr.printList es ++ (close, text) :: rest).length < m) :
    Reads (Expr.printList es ++ (close, text) :: rest)
      (exprListLoop ((productions n).parseExprOrType 0 flag) m nodes) ((close, text) :: rest)
      fun nodes' => Ast.stripList nodes' = Ast.stripList nodes ++ Expr.astList es := by
  induction es generalizing m nodes with
  | nil =>
    obtain _ | m := m
    · exact absurd hm (Nat.not_lt_zero _)
    · apply reads_tok
      rw [if_pos (.inr (.inr hclose))]
      apply Reads.pure
      rw [Expr.astList, List.append_nil]
  | cons e es ih =>
    obtain _ | m := m
    · exact absurd hm (Nat.not_lt_zero _)
    · rw [List.forall_mem_cons] at hes
      rw [Expr.printList, List.append_assoc] at hn hm ⊢
      have hend : endsExpr (peek (Expr.printTail es ++ (close, text) :: rest)).1 :=
        endsExpr_tail hclose
      have hstart := print_not_end e 0 (Expr.printTail es ++ (close, text) :: rest)
      apply reads_tok
      dsimp only
      rw [if_neg (by simp [hstart])]
      apply Reads.bind ((hes.1.binary (Nat.zero_le 5)).inside hn hend.1 (Nat.le_of_eq hend.2))
      intro node hnode
      apply reads_tok
      cases es with
      | nil =>
        have hcomma : close ≠ .comma := by
          rintro rfl
          simp [Tok.isLeave] at hclose
        rw [Expr.printTail, List.nil_append, peek_cons, if_neg (by simpa using hcomma)]
        apply Reads.pure
        simp only [Ast.stripList_append, Ast.stripList, Expr.astList, hnode]
      | cons e' es =>
        rw [Expr.printTail_cons, List.cons_append] at hn hm ⊢
        rw [peek_cons, if_pos rfl]
        apply Reads.bind reads_next
        intro _ _
        have hinside : (Expr.printList (e' :: es) ++ (close, text) :: rest).length < n := by
          simp only [List.length_append, List.length_cons] at hn ⊢
          omega
        apply (ih hes.2 hinside ?_).mono
        · intro nodes' hnodes
          simp only [hnodes, Ast.stripList_append, Ast.stripList, Expr.astList, hnode,
            List.append_assoc, List.cons_append, List.nil_append]
        · simp only [List.length_append, List.length_cons] at hm ⊢
          omega

theorem reads_parseExprList {es : List Expr} (hes : ∀ e ∈ es, Parses e) {close : Token}
    {text : Bytes} (hclose : (Tok.of close).isLeave) {n : Nat} {expr0 : Ast}
    (hexpr0 : expr0.strip = e.ast) (hn : (Expr.printList es ++ (close, text) :: rest).length < n) :
    Reads (Expr.printList es ++ (close, text) :: rest)
      (parseExprList (n + 1) ((productions n).parseExprOrType 0 flag) expr0 flag)
      ((close, text) :: rest) fun list => Ast.stripList list.2 = e.ast :: Expr.astList es := by
  have hne : Tok.of close ≠ Token.ellipsis := by
    intro heq
    simp [heq, Tok.isLeave] at hclose
  apply reads_pos
  intro pos
  rw [isNil_of_strip hexpr0]
  apply Reads.bind (reads_exprListLoop hes hclose hn (Nat.lt_succ_of_lt hn))
  intro nodes hnodes
  simp only [Bool.false_eq_true, if_false, Ast.stripList, hexpr0] at hnodes
  dsimp only
  split
  · apply reads_tok
    rw [peek_cons, if_neg (by simp [hne])]
    exact Reads.pure hnodes
  · exact Reads.pure hnodes

theorem reads_parseCallExpr {fn : Expr} {args : List Expr} (hargs : ∀ e ∈ args, Parses e)
    (hnode : node.strip = fn.ast)
    (hn : (Expr.printList args ++ (.rparen, []) :: rest).length < n) :
    Reads ((.lparen, []) :: (Expr.printList args ++ (.rparen, []) :: rest))
      (parseCallExpr (productions n) node) rest fun node => node.strip = (Expr.call fn args).ast := by
  apply Reads.bind reads_next
  intro _ _
  dsimp only
  rw [productions_rounds]
  apply Reads.bind (reads_parseExprList hargs rfl hnode hn)
  intro list hnodes
  have hleave : Reads ((.rparen, []) :: rest) (leave .rparen (n + 1) list.2) rest
      fun nodes => Ast.stripList nodes = fn.ast :: Expr.astList args := reads_leave hnodes
  apply Reads.bind hleave
  intro nodes hnodes
  apply Reads.pure
  simp only [Ast.strip, Expr.ast, hnodes]

theorem Parses.call {fn : Expr} {args : List Expr} (hfn : Parses fn) (hargs : ∀ e ∈ args, Parses e) :
    Parses (.call fn args) := by
  apply hfn.suffix (.lparen, []) (Expr.printList args ++ [(.rparen, [])])
  · intro prec
    rw [Expr.print, List.append_assoc, List.cons_append]
  · intro n flag m node rest us Q hlen hnode hloop
    rw [List.append_assoc, List.singleton_append] at hlen ⊢
    apply reads_tok
    apply Reads.bind (reads_parseCallExpr hargs hnode hlen)
    intro node hnode
    exact hloop node hnode

theorem reads_indexLoop {es : List Expr} (he : Parses e) (hes : ∀ e ∈ es, Parses e) {text : Bytes}
    {n m : Nat} {sep : Option Token} {nodes : List Ast} (hsep : sep = none ∨ sep = some .comma)
    (hn : (Expr.printList (e :: es) ++ (.rbrack, text) :: rest).length < n)
    (hm : (Expr.printList (e :: es) ++ (.rbrack, text) :: rest).length < m) :
    Reads (Expr.printList (e :: es) ++ (.rbrack, text) :: rest)
      (indexLoop (productions n) m sep nodes) ((.rbrack, text) :: rest)
      fun result => (result.1 = none ∨ result.1 = some .comma) ∧
        Ast.stripList result.2 = Ast.stripList nodes ++ Expr.astList (e :: es) := by
  induction m generalizing e es sep nodes with
  | zero => exact absurd hm (Nat.not_lt_zero _)
  | succ m ih =>
    rw [Expr.printList, List.append_assoc] at hn hm ⊢
    have hend : endsExpr (peek (Expr.printTail es ++ (.rbrack, text) :: rest)).1 := endsExpr_tail rfl
    have hstart := print_not_end e 0 (Expr.printTail es ++ (.rbrack, text) :: rest)
    apply reads_tok
    dsimp only
    rw [if_neg (by simp [hstart]), if_neg (by simp [hstart])]
    apply Reads.bind ((he.binary (Nat.zero_le 5)).inside hn hend.1 (Nat.le_of_eq hend.2))
    intro node hnode
    apply reads_tok
    cases es with
    | nil =>
      rw [Expr.printTail, List.nil_append, peek_cons, if_neg (by simp), if_neg (by simp)]
      apply Reads.pure
      simp only [Ast.stripList_append, Ast.stripList, Expr.astList, hnode, and_true]
      exact hsep
    | cons e' es =>
      rw [Expr.printTail_cons, List.cons_append] at hn hm ⊢
      rw [peek_cons, if_pos rfl]
      apply Reads.bind reads_next
      intro _ _
      rw [if_pos hsep]
      have hinside : (Expr.printList (e' :: es) ++ (.rbrack, text) :: rest).length < n := by
        simp only [List.length_append, List.length_cons] at hn ⊢
        omega
      rw [List.forall_mem_cons] at hes
      apply (ih hes.1 hes.2 (.inr rfl) hinside ?_).mono
      · intro result hresult
        constructor
        · exact hresult.1
        · simp only [hresult.2, Ast.stripList_append, Ast.stripList, Expr.astList, hnode,
            List.append_assoc, List.cons_append, List.nil_append]
      · simp only [List.length_append, List.length_cons] at hm ⊢
        omega

theorem reads_parseIndexOrSlice {x i : Expr} {is : List Expr} (hi : Parses i)
    (his : ∀ e ∈ is, Parses e) (hnode : node.strip = x.ast)
    (hn : (Expr.printList (i :: is) ++ (.rbrack, []) :: rest).length < n) :
    Reads ((.lbrack, []) :: (Expr.printList (i :: is) ++ (.rbrack, []) :: rest))
      (parseIndexOrSlice (productions n) node) rest
      fun node => node.strip = (Expr.index x i is).ast := by
  apply Reads.bind reads_takeCurr_thenNext
  intro list _
  rw [productions_rounds]
  apply Reads.bind (reads_indexLoop hi his (.inl rfl) hn (Nat.lt_succ_of_lt hn))
  intro ⟨sep, nodes⟩ ⟨hsep, hnodes⟩
  have hcolon : sep ≠ some .colon := by
    rintro rfl
    simp at hsep
  have hlen : nodes.length ≠ 1 := by
    rw [← length_stripList, hnodes]
    simp [Ast.stripList, Expr.astList]
  dsimp only
  rw [if_neg hcolon, if_neg hlen]
  have hleave : Reads ((.rbrack, []) :: rest) (leave .rbrack (n + 1) nodes) rest
      fun nodes => Ast.stripList nodes = x.ast :: i.ast :: Expr.astList is := by
    apply reads_leave
    simpa [Ast.stripList, Expr.astList, hnode] using hnodes
  apply Reads.bind (Reads.pure (Q := fun nodes' => nodes' = nodes) rfl)
  rintro _ rfl
  apply Reads.bind hleave
  intro nodes hnodes
  apply Reads.pure
  simp only [Ast.strip, Expr.ast, hnodes]

theorem Parses.index {x i : Expr} {is : List Expr} (hx : Parses x) (hi : Parses i)
    (his : ∀ e ∈ is, Parses e) : Parses (.index x i is) := by
  apply hx.suffix (.lbrack, []) (Expr.printList (i :: is) ++ [(.rbrack, [])])
  · intro prec
    rw [Expr.print, List.append_assoc, List.cons_append, Expr.printList]
  · intro n flag m node rest us Q hlen hnode hloop
    rw [List.append_assoc, List.singleton_append] at hlen ⊢
    apply reads_tok
    apply Reads.bind (reads_parseIndexOrSlice hi his hnode hlen)
    intro node hnode
    exact hloop node hnode

/-! ## Every expression -/

theorem parses (e : Expr) : Parses e := by
  induction e using Expr.induct with
  | hident name => exact parses_ident name
  | hlit tok text => exact parses_basicLit tok text
  | hunary op x ih => exact ih.unary_op op
  | hbinary op x y ihx ihy => exact ihx.binary_op ihy op
  | hcall fn args ih ihs => exact ih.call ihs
  | hindex x i is ihx ihi ihs => exact ihx.index ihi ihs
  | hselector x name ih => exact ih.selector name
  | hparen x ih => exact ih.paren

/-- `ParseExpr`, from the first token on, with more rounds than tokens, yields the tree. All tokens
are taken, and there is no error. -/
def ParsesTo (items : List Item) (tree : Ast) : Prop :=
  ∀ (place : Nat → Int × Int) (mode : Mode) (lang : Lang) (n : Nat),
    ∃ (node : Ast) (p : Parser TokenList),
      (next >>= fun _ => parseExpr (productions (items.length + n)) : ParseM TokenList Ast)
        (fresh mode lang ⟨items, place, []⟩) = .ok (node, p) ∧
      node.strip = tree ∧
      p.curr.tok = Token.eof ∧ p.unread0.tok = Token.illegal ∧
      p.scanner.items = [] ∧ p.scanner.errors = []

theorem parsesTo_print (e : Expr) : ParsesTo (e.print 0) e.ast := by
  intro place mode lang n
  have hfresh : ∃ p', next (fresh mode lang ⟨e.print 0, place, []⟩) =
      .ok (((peek (e.print 0)).1 : Tok), p') ∧ At (e.print 0) p' :=
    At.next rfl (e.print_noComments 0) rfl
  obtain ⟨p₁, hnext, hat₁⟩ := hfresh
  have hparse : Reads (e.print 0 ++ []) (parseExpr (productions ((e.print 0).length + n))) []
      fun node => node.strip = e.ast := by
    apply (parses e).binary (Nat.zero_le 5) (Nat.le_refl 0)
    · simp
    · simp [peek, endsPrimary]
    · simp [peek, Tok.precedence, Tok.lowestPrec]
    · intro m node hnode hm
      exact reads_binaryLoop_end (by simp [peek, Tok.precedence, Tok.lowestPrec]) hm hnode
  rw [List.append_nil] at hparse
  obtain ⟨node, p₂, hrun, hat₂, hnode⟩ := hparse.returns hat₁
  use node, p₂
  constructor
  · change (next _ >>= fun result => _) = _
    rw [hnext]
    exact hrun
  · exact ⟨hnode, hat₂.tok, hat₂.unread, hat₂.scanner, hat₂.errors⟩

/-- An expression that is written and parsed is the same expression, when its parentheses are where
they are needed only, and also when there are more of them. -/
theorem parseExpr_print (e : Expr) :
    ParsesTo (e.bare.print 0) e.bare.ast ∧ ParsesTo (e.print 0) e.bare.ast := by
  constructor
  · exact parsesTo_print e.bare
  · rw [e.ast_bare]
    exact parsesTo_print e

end Parser

end OneJit.Go
