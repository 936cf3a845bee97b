import Stepwise.Proofs.Source.Derivation
import Stepwise.Text.Quoted

/-! Trees as texts. A block is indented by four blanks, and parentheses stand only around a form
that is looser than its place. A tree that is read from a text has spans, which printing does not
show. -/

namespace Stepwise.Source

mutual

def Expr.bare : Expr → Expr
  | .literal v _ => .literal v default
  | .name w _ => .name w default
  | .unary op e _ => .unary op e.bare default
  | .binary op l r _ => .binary op l.bare r.bare default
  | .call f args _ => .call f.bare (Expr.allBare args) default

def Expr.allBare : List Expr → List Expr
  | [] => []
  | e :: es => e.bare :: Expr.allBare es

end

mutual

def Stmt.bare : Stmt → Stmt
  | .assign w e _ => .assign w e.bare default
  | .expr e => .expr e.bare
  | .choose test _ body rest => .choose test.bare default (Stmt.allBare body) rest.bare
  | .loop test _ body => .loop test.bare default (Stmt.allBare body)
  | .define name params _ body => .define name params default (Stmt.allBare body)
  | .ret e _ => .ret (e.map Expr.bare) default
  | .pass _ => .pass default

def Choice.bare : Choice → Choice
  | .branch test _ body rest => .branch test.bare default (Stmt.allBare body) rest.bare
  | .otherwise body => .otherwise (Stmt.allBare body)

def Stmt.allBare : List Stmt → List Stmt
  | [] => []
  | st :: sts => st.bare :: Stmt.allBare sts

end

@[simp] theorem Expr.bare_withSpan (s : Span) (e : Expr) : (e.withSpan s).bare = e.bare := by
  cases e <;> rfl

def isIdentifier (w : String) : Bool :=
  match w.toList with
  | [] => false
  | c :: cs => (c.isAlpha || c == '_') && cs.all (fun d => d.isAlphanum || d == '_') &&
      (Keyword.ofWord? w).isNone

def Literal.isPrintable : Literal → Bool
  | .int n => 0 ≤ n
  | .float _ => false
  | .none | .bool _ | .str _ => true

mutual

def Expr.isPrintable : Expr → Bool
  | .literal v _ => v.isPrintable
  | .name w _ => isIdentifier w
  | .unary _ e _ => e.isPrintable
  | .binary _ l r _ => l.isPrintable && r.isPrintable
  | .call f args _ => f.isPrintable && Expr.allPrintable args

def Expr.allPrintable : List Expr → Bool
  | [] => true
  | e :: es => e.isPrintable && Expr.allPrintable es

end

mutual

def Stmt.isPrintable : Stmt → Bool
  | .assign w e _ => isIdentifier w && e.isPrintable
  | .expr e => e.isPrintable
  | .choose test _ body rest =>
    test.isPrintable && !body.isEmpty && Stmt.allPrintable body && rest.isPrintable
  | .loop test _ body => test.isPrintable && !body.isEmpty && Stmt.allPrintable body
  | .define name params _ body =>
    isIdentifier name && params.all isIdentifier && decide params.Nodup &&
      !body.isEmpty && Stmt.allPrintable body
  | .ret e _ => e.all Expr.isPrintable
  | .pass _ => true

def Choice.isPrintable : Choice → Bool
  | .branch test _ body rest =>
    test.isPrintable && !body.isEmpty && Stmt.allPrintable body && rest.isPrintable
  | .otherwise body => Stmt.allPrintable body

def Stmt.allPrintable : List Stmt → Bool
  | [] => true
  | st :: sts => st.isPrintable && Stmt.allPrintable sts

end

inductive Word
  | blank
  | token (kind : Token.Kind)

def Token.Kind.chars : Token.Kind → List Char
  | .name w => w.toList
  | .int n => Nat.toDigits 10 n.toNatClampNeg
  | .str s => Text.quoted s.toList
  | .keyword k => k.spelling.toList
  | .mark m => m.spelling
  | .float _ | .newline | .indent | .dedent | .eof => []

def Word.chars : Word → List Char
  | .blank => [' ']
  | .token k => k.chars

def Word.kind? : Word → Option Token.Kind
  | .blank => none
  | .token k => some k

namespace Printer

def text (ws : List Word) : List Char :=
  ws.flatMap Word.chars

def kinds (ws : List Word) : List Token.Kind :=
  ws.filterMap Word.kind?

@[simp] theorem kinds_nil : kinds [] = [] := rfl

@[simp] theorem kinds_blank (ws : List Word) : kinds (.blank :: ws) = kinds ws := rfl

@[simp] theorem kinds_token (k : Token.Kind) (ws : List Word) :
    kinds (.token k :: ws) = k :: kinds ws := rfl

@[simp] theorem kinds_append (ws us : List Word) : kinds (ws ++ us) = kinds ws ++ kinds us :=
  List.filterMap_append

@[simp] theorem text_append (ws us : List Word) : text (ws ++ us) = text ws ++ text us :=
  List.flatMap_append

end Printer

def Expr.rank : Expr → Rank
  | .literal _ _ | .name _ _ | .call _ _ _ => .application
  | .unary .neg _ _ => .sign
  | .unary .not _ _ => .negation
  | .binary op _ _ _ => op.rank

def Expr.within (r : Rank) (e : Expr) (ws : List Word) : List Word :=
  if e.rank.depth < r.depth then
    .token (.mark .openParen) :: (ws ++ [.token (.mark .closeParen)])
  else ws

mutual

def Expr.words : Expr → List Word
  | .literal v _ => [.token v.kind]
  | .name w _ => [.token (.name w)]
  | .unary .neg e _ => .token (.mark .minus) :: e.within .sign e.words
  | .unary .not e _ => .token (.keyword .not) :: .blank :: e.within .negation e.words
  | .binary op l r _ =>
    l.within op.rank l.words ++
      .blank :: .token op.kind :: .blank :: r.within op.rank.next r.words
  | .call f args _ =>
    f.within .application f.words ++
      .token (.mark .openParen) :: (Expr.listWords args ++ [.token (.mark .closeParen)])

def Expr.listWords : List Expr → List Word
  | [] => []
  | e :: es => e.words ++ Expr.moreWords es

def Expr.moreWords : List Expr → List Word
  | [] => []
  | e :: es => .token (.mark .comma) :: .blank :: (e.words ++ Expr.moreWords es)

end

namespace Printer

def header (k : Keyword) (test : Expr) : List Word :=
  .token (.keyword k) :: .blank :: (test.words ++ [.token (.mark .colon)])

def names : List String → List Word
  | [] => []
  | [p] => [.token (.name p)]
  | p :: ps => .token (.name p) :: .token (.mark .comma) :: .blank :: names ps

def signature (name : String) (params : List String) : List Word :=
  .token (.keyword .define) :: .blank :: .token (.name name) :: .token (.mark .openParen) ::
    (names params ++ [.token (.mark .closeParen), .token (.mark .colon)])

def assigned (w : String) (e : Expr) : List Word :=
  .token (.name w) :: .blank :: .token (.mark .assign) :: .blank :: e.words

def answer : Option Expr → List Word
  | none => [.token (.keyword .return)]
  | some e => .token (.keyword .return) :: .blank :: e.words

def line (depth : Nat) (ws : List Word) : List Char :=
  List.replicate (4 * depth) ' ' ++ (text ws ++ ['\n'])

end Printer

open Printer in
mutual

def Stmt.text (depth : Nat) : Stmt → List Char
  | .assign w e _ => line depth (assigned w e)
  | .expr e => line depth e.words
  | .choose test _ body rest =>
    line depth (header .if test) ++ (Stmt.allText (depth + 1) body ++ rest.text depth)
  | .loop test _ body => line depth (header .while test) ++ Stmt.allText (depth + 1) body
  | .define name params _ body =>
    line depth (signature name params) ++ Stmt.allText (depth + 1) body
  | .ret e _ => line depth (answer e)
  | .pass _ => line depth [.token (.keyword .pass)]

def Choice.text (depth : Nat) : Choice → List Char
  | .branch test _ body rest =>
    line depth (header .elif test) ++ (Stmt.allText (depth + 1) body ++ rest.text depth)
  | .otherwise body =>
    if body.isEmpty then []
    else line depth [.token (.keyword .else), .token (.mark .colon)] ++
      Stmt.allText (depth + 1) body

def Stmt.allText (depth : Nat) : List Stmt → List Char
  | [] => []
  | st :: sts => st.text depth ++ Stmt.allText depth sts

end

def render (body : List Stmt) : String :=
  String.ofList (Stmt.allText 0 body)

example : render [.choose (.unary .not (.name "x" default) default) default
      [.assign "y" (.binary (.arith .mul) (.binary (.arith .add) (.name "x" default)
        (.literal (.int 1) default) default) (.name "z" default) default) default]
      (.otherwise [.pass default])] =
    "if not x:\n    y = (x + 1) * z\nelse:\n    pass\n" := by
  decide +kernel

end Stepwise.Source
