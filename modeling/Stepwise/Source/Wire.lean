import Stepwise.Json.Basic
import Stepwise.Source.SyntaxError
import Stepwise.Source.Token
import Stepwise.Source.Tree

/-! The forms in which tokens, trees and faults of a text are told. A token is a word for its kind,
its text and its span, a tree a word for its shape, its parts and its span. Floating-point numbers
are told by their bits. -/

namespace Stepwise.Source

def Span.toJson (s : Span) : Json :=
  .arr ([s.line, s.col, s.endLine, s.endCol].map Json.nat)

def bitsText (x : Float) : String :=
  let digits := Nat.toDigits 16 x.toBits.toNat
  String.ofList (List.replicate (16 - digits.length) '0' ++ digits)

def Keyword.label : Keyword → String
  | .define => "KwDef"
  | .return => "KwReturn"
  | .if => "KwIf"
  | .elif => "KwElif"
  | .else => "KwElse"
  | .while => "KwWhile"
  | .pass => "KwPass"
  | .and => "KwAnd"
  | .or => "KwOr"
  | .not => "KwNot"
  | .true => "KwTrue"
  | .false => "KwFalse"
  | .none => "KwNone"

def Mark.label : Mark → String
  | .openParen => "LParen"
  | .closeParen => "RParen"
  | .comma => "Comma"
  | .colon => "Colon"
  | .assign => "Assign"
  | .plus => "Plus"
  | .minus => "Minus"
  | .star => "Star"
  | .slash => "Slash"
  | .doubleSlash => "SlashSlash"
  | .percent => "Percent"
  | .equal => "EqEq"
  | .unequal => "NotEq"
  | .less => "Lt"
  | .lessEqual => "LtEq"
  | .greater => "Gt"
  | .greaterEqual => "GtEq"

namespace Token

def Kind.label : Kind → String
  | .name _ => "Name"
  | .int _ => "Int"
  | .float _ => "Float"
  | .str _ => "Str"
  | .newline => "Newline"
  | .indent => "Indent"
  | .dedent => "Dedent"
  | .eof => "Eof"
  | .keyword k => k.label
  | .mark m => m.label

def Kind.text? : Kind → Option String
  | .name w => some w
  | .int n => some (toString n.toInt)
  | .float x => some (bitsText x)
  | .str s => some s
  | _ => none

def toJson (t : Token) : Json :=
  .arr [.str t.kind.label, Json.optional Json.str t.kind.text?, t.span.toJson]

end Token

def node (word : String) (parts : List Json) (s : Span) : Json :=
  .arr (.str word :: parts ++ [s.toJson])

def Literal.toJson (s : Span) : Literal → Json
  | .none => node "none" [] s
  | .bool b => node "bool" [.bool b] s
  | .int n => node "int" [.str (toString n.toInt)] s
  | .float x => node "float" [.str (bitsText x)] s
  | .str t => node "str" [.str t] s

def UnaryOp.label : UnaryOp → String
  | .neg => "Neg"
  | .not => "Not"

def BinaryOp.label : BinaryOp → String
  | .arith op => op.symbol
  | .compare op => op.symbol
  | .logic .and => "And"
  | .logic .or => "Or"

mutual

def Expr.toJson : Expr → Json
  | .literal v s => v.toJson s
  | .name w s => node "name" [.str w] s
  | .unary op e s => node op.label [e.toJson] s
  | .binary op l r s => node op.label [l.toJson, r.toJson] s
  | .call f args s => node "call" [f.toJson, .arr (Expr.listToJson args)] s

def Expr.listToJson : List Expr → List Json
  | [] => []
  | e :: rest => e.toJson :: Expr.listToJson rest

end

mutual

def Stmt.toJson : Stmt → Json
  | .assign t v s => node "assign" [.str t, v.toJson] s
  | .expr e => node "expr" [e.toJson] e.span
  | .choose t h b rest =>
    let (branches, others) := rest.toJson
    node "if" [.arr (.arr [t.toJson, h.toJson, .arr (Stmt.listToJson b)] :: branches), .arr others] h
  | .loop t h b => node "while" [t.toJson, .arr (Stmt.listToJson b)] h
  | .define n ps h b =>
    node "def" [.str n, .arr (ps.map Json.str), .arr (Stmt.listToJson b)] h
  | .ret v s => node "return" [Json.optional Expr.toJson v] s
  | .pass s => node "pass" [] s

def Stmt.listToJson : List Stmt → List Json
  | [] => []
  | s :: rest => s.toJson :: Stmt.listToJson rest

def Choice.toJson : Choice → List Json × List Json
  | .branch t h b rest =>
    let (branches, others) := rest.toJson
    (.arr [t.toJson, h.toJson, .arr (Stmt.listToJson b)] :: branches, others)
  | .otherwise b => ([], Stmt.listToJson b)

end

def SyntaxError.toFields (e : SyntaxError) : List (String × Json) :=
  let column : Option Nat → Json := Json.optional Json.nat
  [("error", .str e.kind.name), ("message", .str e.message), ("line", Json.nat e.line),
    ("column", column e.column), ("endLine", Json.nat e.endLine),
    ("endColumn", column e.endColumn), ("display", .str e.text)]

end Stepwise.Source
