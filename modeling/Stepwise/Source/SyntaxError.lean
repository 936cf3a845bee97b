import Stepwise.Source.Span

/-! Faults of a text that is not a program. A fault is a cause at a place; the wording of
every cause is here. Columns of a place count from one, and are missing where only the
line is known. -/

namespace Stepwise.Source

inductive SyntaxError.Kind
  | form
  | layout
deriving DecidableEq, Repr

def SyntaxError.Kind.name : SyntaxError.Kind → String
  | .form => "SyntaxError"
  | .layout => "IndentationError"

inductive SyntaxError.Cause
  | invalidDecimal
  | integerTooLarge
  | unterminatedString
  | invalidCharacter (c : Char)
  | unmatchedParen
  | unclosedParen
  | unmatchedUnindent
  | unexpectedIndent
  | expectedBlock
  | expected (mark : String)
  | cannotAssign
  | duplicateParameter (name : String)
  | returnOutside
  | invalid
  | worded (kind : SyntaxError.Kind) (message : String)
deriving DecidableEq, Repr

namespace SyntaxError.Cause

def kind : SyntaxError.Cause → SyntaxError.Kind
  | unmatchedUnindent | unexpectedIndent | expectedBlock => .layout
  | worded kind _ => kind
  | _ => .form

def codePoint (c : Char) : String :=
  let digits := (Nat.toDigits 16 c.toNat).map Char.toUpper
  String.ofList (List.replicate (4 - digits.length) '0' ++ digits)

def message : SyntaxError.Cause → String
  | invalidDecimal => "invalid decimal literal"
  | integerTooLarge => "integer literal is too large"
  | unterminatedString => "unterminated string literal"
  | invalidCharacter c => "invalid character '" ++ c.toString ++ "' (U+" ++ codePoint c ++ ")"
  | unmatchedParen => "unmatched ')'"
  | unclosedParen => "'(' was never closed"
  | unmatchedUnindent => "unindent does not match any outer indentation level"
  | unexpectedIndent => "unexpected indent"
  | expectedBlock => "expected an indented block"
  | expected mark => "expected '" ++ mark ++ "'"
  | cannotAssign => "cannot assign to expression here"
  | duplicateParameter name => "duplicate argument '" ++ name ++ "' in function definition"
  | returnOutside => "'return' outside function"
  | invalid => "invalid syntax"
  | worded _ message => message

end SyntaxError.Cause

structure SyntaxError where
  cause : SyntaxError.Cause
  line : Nat
  column : Option Nat
  endLine : Nat
  endColumn : Option Nat
deriving DecidableEq, Repr

namespace SyntaxError

def spanning (cause : Cause) (span : Span) : SyntaxError :=
  ⟨cause, span.line, some (span.col + 1), span.endLine, some (span.endCol + 1)⟩

def onLine (cause : Cause) (line : Nat) : SyntaxError :=
  ⟨cause, line, none, line, none⟩

def kind (e : SyntaxError) : Kind :=
  e.cause.kind

def message (e : SyntaxError) : String :=
  e.cause.message

def summary (e : SyntaxError) : String :=
  e.kind.name ++ ": " ++ e.message

def text (e : SyntaxError) : String :=
  e.summary ++ " (line " ++ toString e.line ++ ")"

end SyntaxError

end Stepwise.Source
