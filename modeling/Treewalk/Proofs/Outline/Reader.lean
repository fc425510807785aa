import Treewalk.Proofs.Relabel
import Treewalk.Proofs.Scanning.Rejoined
import Treewalk.Proofs.WellFormed.Walks

/-!
# Reading outlines

An outline can be read back.  It is scanned like a source text, and its parentheses say which words belong together: the
first one between two parentheses tells what node it is, and the others are the parts of the node.  A variable may have
the name of a node, since its name never comes first, and a string is one word, whatever stands in it.  What is read is
the tree without the lines of its tokens, which an outline does not show.

The reader keeps what it has gathered between the parentheses that are still open.  A text is read on its own, whatever
has been gathered in front of it, if what follows does not add to its last word.

* `Part.node?`: a node from what stands between two parentheses.
* `Gathered.step`, `readOutline`: the reader.
* `Reads`: what a text adds to what has been gathered.
* `readOutline_outlineProgram`: the outline of a program is read as this program.
-/

namespace Treewalk

/-- The token without its line. -/
def Token.unplaced (t : Token) : Token := { t with line := 0 }

/-- The kind, the lexeme and the value of a token. -/
abbrev Content : Type := TokenKind × String × Value

/-- The token of this content, without a line. -/
def Content.token (c : Content) : Token := ⟨c.1, c.2.1, c.2.2, 0⟩

/-! ### The reader -/

/-- What stands between two parentheses of an outline: words, and nodes that are complete. -/
inductive Part where
  | word (content : Content)
  | expr (e : Expr)
  | stmt (s : Stmt)

namespace Part

/-- The expression that a part is.  A word may be the name of a variable or a literal. -/
def expr? : Part → Option Expr
  | .word (kind, lexeme, literal) =>
    match kind with
    | .identifier => some (.var ⟨kind, lexeme, literal, 0⟩)
    | .nil_ => some (.literal .nil)
    | .true_ => some (.literal (.bool true))
    | .false_ => some (.literal (.bool false))
    | .number | .string => some (.literal literal)
    | _ => none
  | .expr e => some e
  | .stmt _ => none

/-- The words of the slot of a statement that could not be read. -/
def skipped : List Part :=
  [.word (.less, "<", .nil), .word (.identifier, "error", .nil), .word (.greater, ">", .nil)]

/-- The statements that the parts are. -/
def statements? : List Part → Option (List Stmt)
  | [] => some []
  | .stmt s :: later => (s :: ·) <$> statements? later
  | .word (.less, _, _) :: .word _ :: .word _ :: later => (.skipped :: ·) <$> statements? later
  | _ => none

/-- A node that a name stands for. -/
def namedNode? (name : String) (parts : List Part) : Option Part :=
  match name, parts with
  | "group", [inner] => (fun e => .expr (.grouping e)) <$> inner.expr?
  | "assign", [.word target, value] => (fun e => .expr (.assign target.token e)) <$> value.expr?
  | "expr_stmt", [value] => (fun e => .stmt (.expression e)) <$> value.expr?
  | "block", body => (fun ss => .stmt (.block ss)) <$> statements? body
  | _, _ => none

/-- A node with an operator. -/
def operatorNode? (operator : Token) : List Part → Option Part
  | [operand] => (fun e => .expr (.unary operator e)) <$> operand.expr?
  | [left, right] => do return .expr (.binary (← left.expr?) operator (← right.expr?))
  | _ => none

/-- The value that is printed. -/
def printNode? : List Part → Option Part
  | [value] => (fun e => .stmt (.print e)) <$> value.expr?
  | _ => none

/-- The name that is declared, and perhaps its initial value. -/
def declareNode? : List Part → Option Part
  | [.word name] => some (.stmt (.declare name.token none))
  | [.word name, value] => (fun e => .stmt (.declare name.token (some e))) <$> value.expr?
  | _ => none

/-- The node with a given word in front of its parts. -/
def node? (head : Content) (parts : List Part) : Option Part :=
  if head.1 = .identifier then namedNode? head.2.1 parts
  else if head.1 = .print_ then printNode? parts
  else if head.1 = .var_ then declareNode? parts
  else operatorNode? head.token parts

end Part

/-- What has been gathered: the parts behind the innermost parenthesis that is open, and the parts in front of it, for
each parenthesis that is open. -/
structure Gathered where
  outer : List (List Part)
  parts : List Part

namespace Gathered

/-- Nothing. -/
def start : Gathered := ⟨[], []⟩

/-- Add parts behind the others. -/
def add (g : Gathered) (parts : List Part) : Gathered := { g with parts := g.parts ++ parts }

/-- Make a node of what is behind the innermost parenthesis. -/
def close? : Gathered → Option Gathered
  | ⟨before :: outer, .word head :: parts⟩ => (fun node => ⟨outer, before ++ [node]⟩) <$> Part.node? head parts
  | _ => none

/-- Take one more word. -/
def step (g : Gathered) (c : Content) : Option Gathered :=
  if c.1 = .leftParen then some ⟨g.parts :: g.outer, []⟩
  else if c.1 = .rightParen then g.close?
  else some (g.add [.word c])

/-- Take words up to the end. -/
def gather (g : Gathered) (contents : List Content) : Option Gathered := contents.foldlM step g

private theorem gather_cons (g : Gathered) (c : Content) (later : List Content) :
    g.gather (c :: later) = (g.step c).bind (gather · later) :=
  List.foldlM_cons

private theorem gather_word {c : Content} (h : c.1 ∉ [TokenKind.leftParen, .rightParen]) (g : Gathered)
    (later : List Content) : g.gather (c :: later) = (g.add [.word c]).gather later := by
  obtain ⟨hleft, hright⟩ : c.1 ≠ .leftParen ∧ c.1 ≠ .rightParen := by simpa using h
  rw [gather_cons, step, if_neg hleft, if_neg hright]
  rfl

end Gathered

/-- The contents of the tokens in a text. -/
def contentsOf (text : List Char) : List Content := (Segment.split text).filterMap Segment.token?

/-- Read the outline of a program. -/
def readOutline (text : String) : Option (List Stmt) := do
  let g ← Gathered.start.gather (contentsOf text.toList)
  if g.outer.isEmpty then Part.statements? g.parts else none

/-! ### Texts that are read on their own -/

section

open Segment

/-- The text adds the parts to what has been gathered, if the character behind it, if any, separates words. -/
def Reads (text : String) (parts : List Part) : Prop :=
  ∀ (g : Gathered) (rest : List Char), (∀ c ∈ rest.head?, Separates c) →
    g.gather (contentsOf (text.toList ++ rest)) = (g.add parts).gather (contentsOf rest)

private theorem contentsOf_lexeme {c : Content} (h : Lexeme c.2.1.toList c.1 c.2.2) {rest : List Char}
    (hrest : ∀ d ∈ rest.head?, Separates d) : contentsOf (c.2.1.toList ++ rest) = c :: contentsOf rest := by
  obtain ⟨kind, text, literal⟩ := c
  cases rest with
  | nil =>
    rw [List.append_nil, contentsOf, h.split_eq]
    simp [contentsOf, split, token?]
  | cons d rest =>
    rw [contentsOf, h.split_append (hrest d rfl)]
    simp [contentsOf, token?]

private theorem contentsOf_separator {separator : String} (h : IsSeparator separator) (rest : List Char) :
    contentsOf (separator.toList ++ rest) = contentsOf rest := by
  rw [contentsOf, split_blanks h.2, List.filterMap_append, List.filterMap_map]
  have hnone : token? ∘ (fun c => (⟨.blank, [c]⟩ : Segment)) = fun _ => none := rfl
  rw [hnone]
  simp [contentsOf]

private theorem separates_of_isSeparator {separator : String} (h : IsSeparator separator) (rest : List Char) :
    ∀ c ∈ (separator.toList ++ rest).head?, Separates c := by
  obtain ⟨d, blanks, hcons⟩ := List.exists_cons_of_ne_nil (mt String.toList_eq_nil_iff.1 h.1)
  rw [hcons]
  rintro c ⟨⟩
  exact separates_of_isBlank (isBlank_iff.2 (h.2 d (by rw [hcons]; exact List.mem_cons_self)))

private theorem reads_word {c : Content} (h : Lexeme c.2.1.toList c.1 c.2.2)
    (hkind : c.1 ∉ [TokenKind.leftParen, .rightParen]) : Reads c.2.1 [.word c] := by
  intro g rest hrest
  rw [contentsOf_lexeme h hrest, Gathered.gather_word hkind]

private theorem Reads.append {a b separator : String} {ps qs : List Part} (ha : Reads a ps) (hb : Reads b qs)
    (h : IsSeparator separator) : Reads (a ++ separator ++ b) (ps ++ qs) := by
  intro g rest hrest
  have htext : (a ++ separator ++ b).toList ++ rest = a.toList ++ (separator.toList ++ (b.toList ++ rest)) := by
    simp only [String.toList_append, List.append_assoc]
  rw [htext, ha g _ (separates_of_isSeparator h _), contentsOf_separator h, hb _ rest hrest]
  simp only [Gathered.add, List.append_assoc]

/-- What is read between two parentheses becomes a node. -/
private theorem Reads.enclosed {text : String} {head : Content} {parts : List Part} {node : Part}
    (h : Reads text (.word head :: parts)) (hnode : Part.node? head parts = some node) :
    Reads ("(" ++ text ++ ")") [node] := by
  intro g rest hrest
  have htext : ("(" ++ text ++ ")").toList ++ rest = '(' :: (text.toList ++ ')' :: rest) := by
    simp only [String.toList_append, List.append_assoc]
    rfl
  have hopening (cs : List Char) : contentsOf ('(' :: cs) = (.leftParen, "(", .nil) :: contentsOf cs := by
    rw [contentsOf, split.eq_2]
    rfl
  have hclosing (cs : List Char) : contentsOf (')' :: cs) = (.rightParen, ")", .nil) :: contentsOf cs := by
    rw [contentsOf, split.eq_2]
    rfl
  have hseparates : ∀ c ∈ (')' :: rest).head?, Separates c := by
    rintro c ⟨⟩
    constructor <;> decide
  have hclose : (Gathered.mk (g.parts :: g.outer) (.word head :: parts)).close? = some (g.add [node]) := by
    rw [Gathered.close?, hnode]
    rfl
  calc g.gather (contentsOf (("(" ++ text ++ ")").toList ++ rest))
      = (Gathered.mk (g.parts :: g.outer) []).gather (contentsOf (text.toList ++ ')' :: rest)) := by
        rw [htext, hopening, Gathered.gather_cons]
        rfl
    _ = (Gathered.mk (g.parts :: g.outer) (.word head :: parts)).gather (contentsOf (')' :: rest)) :=
        h _ _ hseparates
    _ = (g.add [node]).gather (contentsOf rest) := by
        rw [hclosing, Gathered.gather_cons, Gathered.step, if_neg (by decide), if_pos rfl, hclose]
        rfl

/-- The names of nodes. -/
private theorem lexeme_of_nodeName : ∀ name ∈ ["group", "assign", "expr_stmt", "block", "error"],
    Lexeme name.toList .identifier .nil := by
  intro name hname
  simp only [List.mem_cons, List.not_mem_nil, or_false] at hname
  rcases hname with rfl | rfl | rfl | rfl | rfl
  all_goals exact .name (by decide) (List.all_eq_true.1 (by decide)) (by decide)

/-- A node with a word in front of its parts. -/
private theorem Reads.node {name text : String} {head : Content} {parts : List Part} {node : Part}
    (hname : Reads name [.word head]) (htext : Reads text parts) (hnode : Part.node? head parts = some node) :
    Reads ("(" ++ name ++ " " ++ text ++ ")") [node] := by
  have hspace : IsSeparator " " := by decide
  have hreads := (hname.append htext hspace).enclosed hnode
  rwa [← String.append_assoc, ← String.append_assoc] at hreads

private theorem Reads.node_append {name a b : String} {head : Content} {ps qs : List Part} {node : Part}
    (hname : Reads name [.word head]) (ha : Reads a ps) (hb : Reads b qs)
    (hnode : Part.node? head (ps ++ qs) = some node) : Reads ("(" ++ name ++ " " ++ a ++ " " ++ b ++ ")") [node] := by
  have hspace : IsSeparator " " := by decide
  have hreads := hname.node (ha.append hb hspace) hnode
  rwa [← String.append_assoc, ← String.append_assoc] at hreads

/-- The slot of a statement is read as its three words. -/
private theorem reads_skipped : Reads "<error>" Part.skipped := by
  intro g rest hrest
  have hless (cs : List Char) : contentsOf ('<' :: 'e' :: cs) = (.less, "<", .nil) :: contentsOf ('e' :: cs) := by
    rw [contentsOf, split.eq_2]
    rfl
  have hseparates : ∀ c ∈ ('>' :: rest).head?, Separates c := by
    rintro c ⟨⟩
    constructor <;> decide
  have hword := contentsOf_lexeme (c := (.identifier, "error", .nil)) (lexeme_of_nodeName _ (by decide)) hseparates
  have hgreater := contentsOf_lexeme (c := (.greater, ">", .nil)) (.operator (by decide)) hrest
  have hcontents : contentsOf ("<error>".toList ++ rest) =
      (.less, "<", .nil) :: (.identifier, "error", .nil) :: (.greater, ">", .nil) :: contentsOf rest := by
    rw [← hgreater]
    exact (hless _).trans (congrArg _ hword)
  rw [hcontents, Gathered.gather_word (by decide), Gathered.gather_word (by decide), Gathered.gather_word (by decide)]
  simp only [Gathered.add, Part.skipped, List.append_assoc, List.cons_append, List.nil_append]

end

/-! ### Expressions -/

/-- The token is a lexeme. -/
def Token.IsLexeme (t : Token) : Prop := Lexeme t.lexeme.toList t.kind t.literal

/-- The token is a name. -/
def Token.IsName (t : Token) : Prop := t.kind = .identifier ∧ t.IsLexeme

/-- The content of the token that a literal is written as. -/
def Value.content : Value → Content
  | .nil => (.nil_, "nil", .nil)
  | .bool true => (.true_, "true", .nil)
  | .bool false => (.false_, "false", .nil)
  | .num x => (.number, numberText x, .num x)
  | .str s => (.string, "\"" ++ s ++ "\"", .str s)

private theorem Value.outline_eq (v : Value) : v.outline = v.content.2.1 := by
  cases v with
  | bool b => cases b <;> rfl
  | _ => rfl

namespace Expr

/-- The node shows a name, an operator of the grammar or a literal that is a lexeme, or none of these. -/
def Legible : Expr → Prop
  | .literal v => Lexeme v.content.2.1.toList v.content.1 v.content.2.2
  | .var name => name.IsName
  | .assign name _ => name.IsName
  | .unary operator _ => operator.kind ∈ unaryOperators ∧ operator.IsLexeme
  | .binary _ operator _ => operator.kind ∈ binaryOperators ∧ operator.IsLexeme
  | .grouping _ => True
  | .misplaced _ => False

/-- The part as which an expression is read. -/
def part : Expr → Part
  | .literal v => .word v.content
  | .var name => .word name.content
  | e => .expr (e.relabel Token.unplaced)

private theorem expr?_part {e : Expr} (h : e.Every Legible) : e.part.expr? = some (e.relabel Token.unplaced) := by
  cases e with
  | literal v =>
    cases v with
    | bool b => cases b <;> rfl
    | _ => rfl
  | var name =>
    have hkind : name.kind = .identifier := h.1
    simp [part, Part.expr?, Token.content, hkind, relabel, Token.unplaced]
  | _ => rfl

end Expr

private theorem Token.IsName.reads {name : Token} (h : name.IsName) : Reads name.lexeme [.word name.content] := by
  refine reads_word (c := name.content) h.2 ?_
  show name.kind ∉ _
  rw [h.1]
  decide

/-- The kinds of operators are neither those of parentheses nor those of words. -/
private theorem operator_kind {kind : TokenKind} (h : kind ∈ unaryOperators ∨ kind ∈ binaryOperators) :
    kind ∉ [TokenKind.leftParen, .rightParen] ∧ kind ≠ .identifier ∧ kind ≠ .print_ ∧ kind ≠ .var_ := by
  rw [← List.mem_append] at h
  revert kind
  decide

private theorem Part.node?_operator {operator : Token}
    (h : operator.kind ∈ unaryOperators ∨ operator.kind ∈ binaryOperators)
    (parts : List Part) : node? operator.content parts = operatorNode? operator.unplaced parts := by
  obtain ⟨-, hname, hprint, hvar⟩ := operator_kind h
  rw [node?, Token.content, if_neg hname, if_neg hprint, if_neg hvar]
  rfl

private theorem Token.IsLexeme.reads_operator {operator : Token} (h : operator.IsLexeme)
    (hkind : operator.kind ∈ unaryOperators ∨ operator.kind ∈ binaryOperators) :
    Reads operator.lexeme [.word operator.content] :=
  reads_word (c := operator.content) h (operator_kind hkind).1

private theorem reads_nodeName (name : String) (h : name ∈ ["group", "assign", "expr_stmt", "block", "error"]) :
    Reads name [.word (.identifier, name, .nil)] := by
  refine reads_word (c := (.identifier, name, .nil)) (lexeme_of_nodeName name h) ?_
  show TokenKind.identifier ∉ _
  decide

/-- An expression is read from its outline. -/
private theorem Expr.outline_reads {e : Expr} {room : Nat} {text : String} (htext : e.outline room = .ok text)
    (h : e.Every Legible) : Reads text [e.part] := by
  induction e generalizing room text with
  | literal v =>
    obtain ⟨_, -, htext⟩ := ok_of_bind htext
    obtain rfl := Except.ok.inj htext
    rw [v.outline_eq]
    refine reads_word h ?_
    cases v with
    | bool b => cases b <;> decide
    | _ => simp [Value.content]
  | var name =>
    obtain ⟨_, -, htext⟩ := ok_of_bind htext
    obtain rfl := Except.ok.inj htext
    exact Token.IsName.reads h
  | assign name value ih =>
    obtain ⟨shown, hshown, htext⟩ := ok_of_bind (ok_of_spend htext)
    obtain rfl := Except.ok.inj htext
    refine (reads_nodeName "assign" (by decide)).node_append h.1.reads (ih hshown h.2) ?_
    simp only [Part.node?, if_true, List.cons_append, List.nil_append, Part.namedNode?, expr?_part h.2]
    rfl
  | unary operator operand ih =>
    obtain ⟨shown, hshown, htext⟩ := ok_of_bind (ok_of_spend htext)
    obtain rfl := Except.ok.inj htext
    refine (h.1.2.reads_operator (.inl h.1.1)).node (ih hshown h.2) ?_
    rw [Part.node?_operator (.inl h.1.1), Part.operatorNode?, expr?_part h.2]
    rfl
  | binary left operator right ihleft ihright =>
    obtain ⟨shown, hshown, htext⟩ := ok_of_bind (ok_of_spend htext)
    obtain ⟨shown', hshown', htext⟩ := ok_of_bind htext
    obtain rfl := Except.ok.inj htext
    refine (h.1.2.reads_operator (.inr h.1.1)).node_append (ihleft hshown h.2.1) (ihright hshown' h.2.2) ?_
    rw [Part.node?_operator (.inr h.1.1), List.cons_append, List.nil_append, Part.operatorNode?, expr?_part h.2.1,
      expr?_part h.2.2]
    rfl
  | grouping inner ih =>
    obtain ⟨shown, hshown, htext⟩ := ok_of_bind (ok_of_spend htext)
    obtain rfl := Except.ok.inj htext
    refine (reads_nodeName "group" (by decide)).node (ih hshown h.2) ?_
    simp only [Part.node?, if_true, Part.namedNode?, expr?_part h.2]
    rfl
  | misplaced found => exact h.elim

/-! ### Statements -/

namespace Stmt

mutual

/-- The statement declares only names, and all nodes of its expressions are legible. -/
def Legible : Stmt → Prop
  | .expression e => e.Every Expr.Legible
  | .print e => e.Every Expr.Legible
  | .declare name none => name.IsName
  | .declare name (some e) => name.IsName ∧ e.Every Expr.Legible
  | .block body => LegibleIn body
  | .skipped => True
  | .misplaced _ => False

/-- All the statements of a list are legible. -/
def LegibleIn : List Stmt → Prop
  | [] => True
  | s :: later => s.Legible ∧ LegibleIn later

end

/-- The parts as which a statement is read. -/
def parts : Stmt → List Part
  | .skipped => Part.skipped
  | s => [.stmt (s.relabel Token.unplaced)]

end Stmt

private theorem Part.statements?_parts (ss : List Stmt) :
    statements? (ss.flatMap Stmt.parts) = some (ss.map (Stmt.relabel Token.unplaced)) := by
  induction ss with
  | nil => rfl
  | cons s later ih =>
    rw [List.flatMap_cons, List.map_cons]
    cases s with
    | skipped =>
      rw [Stmt.parts, skipped, List.cons_append, List.cons_append, List.cons_append, List.nil_append, statements?, ih]
      simp [Stmt.relabel]
    | _ =>
      rw [Stmt.parts, List.cons_append, List.nil_append, statements?, ih]
      · rfl
      · simp

private theorem reads_print : Reads "print" [.word (.print_, "print", .nil)] :=
  reads_word (c := (.print_, "print", .nil)) (.reserved (by decide)) (by decide)

private theorem reads_var : Reads "var" [.word (.var_, "var", .nil)] :=
  reads_word (c := (.var_, "var", .nil)) (.reserved (by decide)) (by decide)

private theorem Part.node?_print (parts : List Part) : node? (.print_, "print", .nil) parts = printNode? parts := by
  rw [node?, if_neg (by decide), if_pos rfl]

private theorem Part.node?_var (parts : List Part) : node? (.var_, "var", .nil) parts = declareNode? parts := by
  rw [node?, if_neg (by decide), if_neg (by decide), if_pos rfl]

namespace Stmt

mutual

/-- A statement is read from its outline. -/
private theorem outline_reads : ∀ {s : Stmt} {room : Nat} {text : String}, s.outline room = .ok text → s.Legible →
    Reads text s.parts
  | .expression e, room, text, htext, h => by
    rw [outline] at htext
    obtain ⟨shown, hshown, htext⟩ := ok_of_bind (ok_of_spend htext)
    obtain rfl := Except.ok.inj htext
    refine (reads_nodeName "expr_stmt" (by decide)).node (Expr.outline_reads hshown h) ?_
    simp only [Part.node?, if_true, Part.namedNode?, Expr.expr?_part h, relabel]
    rfl
  | .print e, room, text, htext, h => by
    rw [outline] at htext
    obtain ⟨shown, hshown, htext⟩ := ok_of_bind (ok_of_spend htext)
    obtain rfl := Except.ok.inj htext
    refine reads_print.node (Expr.outline_reads hshown h) ?_
    rw [Part.node?_print, Part.printNode?, Expr.expr?_part h, relabel]
    rfl
  | .declare name none, room, text, htext, h => by
    rw [outline] at htext
    obtain rfl := Except.ok.inj htext
    refine reads_var.node (Token.IsName.reads h) ?_
    rw [Part.node?_var, Part.declareNode?, relabel]
    rfl
  | .declare name (some e), room, text, htext, h => by
    rw [outline] at htext
    obtain ⟨shown, hshown, htext⟩ := ok_of_bind (ok_of_spend htext)
    obtain rfl := Except.ok.inj htext
    refine reads_var.node_append h.1.reads (Expr.outline_reads hshown h.2) ?_
    rw [Part.node?_var, List.cons_append, List.nil_append, Part.declareNode?, Expr.expr?_part h.2, relabel]
    rfl
  | .block body, room, text, htext, h => by
    rw [outline] at htext
    obtain ⟨shown, hshown, htext⟩ := ok_of_bind (ok_of_spend htext)
    obtain rfl := Except.ok.inj htext
    have hbody := outlineBody_reads hshown h (reads_nodeName "block" (by decide))
    have hnode : Part.node? (.identifier, "block", .nil) (body.flatMap parts) =
        some (.stmt ((Stmt.block body).relabel Token.unplaced)) := by
      rw [relabel]
      simp [Part.node?, Part.namedNode?, Part.statements?_parts]
    have hreads := hbody.enclosed hnode
    rw [← String.append_assoc] at hreads
    exact hreads
  | .skipped, room, text, htext, _ => by
    rw [outline] at htext
    obtain rfl := Except.ok.inj htext
    exact reads_skipped
  | .misplaced _, _, _, _, h => by
    rw [Legible] at h
    exact h.elim

private theorem outlineBody_reads : ∀ {ss : List Stmt} {room : Nat} {text : String}, outlineBody ss room = .ok text →
    LegibleIn ss → ∀ {a : String} {ps : List Part}, Reads a ps → Reads (a ++ text) (ps ++ ss.flatMap Stmt.parts)
  | [], room, text, htext, _, a, ps, ha => by
    rw [outlineBody] at htext
    obtain rfl := Except.ok.inj htext
    rwa [String.append_empty, List.flatMap_nil, List.append_nil]
  | s :: later, room, text, htext, h, a, ps, ha => by
    rw [outlineBody] at htext
    obtain ⟨shown, hshown, htext⟩ := ok_of_bind htext
    obtain ⟨others, hothers, htext⟩ := ok_of_bind htext
    obtain rfl := Except.ok.inj htext
    have hspace : IsSeparator " " := by decide
    have hreads := outlineBody_reads hothers h.2 (ha.append (outline_reads hshown h.1) hspace)
    rw [List.flatMap_cons, ← List.append_assoc, ← String.append_assoc, ← String.append_assoc]
    exact hreads

end

end Stmt

/-! ### Programs -/

/-- The lines of an outline are read one after another. -/
private theorem reads_lines {program : List Stmt} {room : Nat} {lines : List String}
    (hlines : program.mapM (·.outline room) = .ok lines) (h : Stmt.LegibleIn program) :
    Reads ("\n".intercalate lines) (program.flatMap Stmt.parts) := by
  have hnewline : IsSeparator "\n" := by decide
  induction program generalizing lines with
  | nil =>
    obtain rfl : [] = lines := Except.ok.inj hlines
    intro g rest hrest
    simp [Gathered.add]
  | cons s later ih =>
    rw [List.mapM_cons] at hlines
    obtain ⟨shown, hshown, hlines⟩ := ok_of_bind hlines
    obtain ⟨others, hothers, hlines⟩ := ok_of_bind hlines
    obtain rfl := Except.ok.inj hlines
    have hreads := Stmt.outline_reads hshown h.1
    have hlater := ih hothers h.2
    rw [List.flatMap_cons]
    cases later with
    | nil =>
      obtain rfl : [] = others := Except.ok.inj hothers
      rwa [String.intercalate_singleton, List.flatMap_nil, List.append_nil]
    | cons s' later =>
      rw [List.mapM_cons] at hothers
      obtain ⟨next, -, hothers⟩ := ok_of_bind hothers
      obtain ⟨more, -, hothers⟩ := ok_of_bind hothers
      obtain rfl := Except.ok.inj hothers
      rw [String.intercalate_cons_cons]
      exact hreads.append hlater hnewline

/-- The outline of a program whose words are lexemes is read as this program, without the lines of its tokens. -/
theorem readOutline_outlineProgram {program : List Stmt} {text : String} (htext : outlineProgram program = .ok text)
    (h : Stmt.LegibleIn program) : readOutline text = some (program.map (Stmt.relabel Token.unplaced)) := by
  obtain ⟨lines, hlines, htext⟩ := ok_of_bind htext
  obtain rfl := Except.ok.inj htext
  have hreads := reads_lines hlines h Gathered.start [] (by simp)
  rw [List.append_nil] at hreads
  have hempty : contentsOf [] = [] := by simp [contentsOf, Segment.split]
  rw [readOutline, hreads, hempty]
  exact Part.statements?_parts program

end Treewalk
