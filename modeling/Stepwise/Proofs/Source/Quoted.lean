import Stepwise.Code.Assembly
import Stepwise.Machine.Step
import Stepwise.Proofs.Evaluator.Basic
import Stepwise.Proofs.Source.Complete
import Stepwise.Proofs.Source.Printed
import Stepwise.Value.Text

/-! A string that is shown is its own literal. What is shown stands on one line, since line feeds
are escaped, and the whole line is one token; read as a program it is an expression with the
string as its value. -/

namespace Stepwise

namespace Text

theorem lineFeed_notMem_escape {mark : Char} (hm : mark ≠ '\n') (c : Char) :
    '\n' ∉ escape mark c := by
  unfold escape
  split_ifs with hslash hline hreturn htab hmark
  · decide
  · decide
  · decide
  · decide
  · rw [hmark]
    simpa using hm.symm
  · simpa using Ne.symm hline

theorem lineFeed_notMem_quoted (cs : List Char) : '\n' ∉ quoted cs := by
  have hm : quoteMark cs ≠ '\n' := by
    rcases Source.Lexer.quoteMark_cases cs with h | h <;> rw [h] <;> decide
  simp only [quoted, List.mem_cons, List.mem_append, List.mem_flatMap, List.not_mem_nil, or_false]
  rintro (h | ⟨c, -, hc⟩ | h)
  · exact hm h.symm
  · exact lineFeed_notMem_escape hm c hc
  · exact hm h.symm

end Text

namespace Source

theorem Point.past_of_notMem {cs : List Char} (h : '\n' ∉ cs) (p : Point) :
    p.past cs = ⟨p.line, p.col + cs.length⟩ := by
  induction cs generalizing p with
  | nil => rfl
  | cons c cs ih =>
    obtain ⟨hc, hcs⟩ := List.ne_and_not_mem_of_not_mem_cons h
    rw [past_cons, ih hcs, advance, if_neg (Ne.symm hc), List.length_cons, Nat.add_assoc,
      Nat.add_comm 1]

namespace Lexer

theorem tokenize_token {c : Char} {cs : List Char} {k : Token.Kind}
    (h : pieceAt c cs = (.token k, cs)) (hopen : k ≠ .mark .openParen)
    (hclose : k ≠ .mark .closeParen) (hline : '\n' ∉ c :: cs) :
    tokenize (String.ofList (c :: cs)) = .ok
      [⟨k, .between ⟨1, 0⟩ ⟨1, cs.length + 1⟩⟩, ⟨.newline, .point ⟨1, cs.length + 1⟩⟩,
        ⟨.eof, .point ⟨1, cs.length + 1⟩⟩] := by
  have hplace : Point.past ⟨1, 0⟩ (c :: cs) = ⟨1, cs.length + 1⟩ := by
    rw [Point.past_of_notMem hline, Nat.zero_add, List.length_cons]
  have hlayout : k.isLayout = false := by
    have hshape := isShape_of_pieceAt h
    cases hk : k.isLayout
    · rfl
    · rw [isShape_of_isLayout hk] at hshape
      cases hshape
  obtain ⟨hindent, hcode⟩ := beginsCode_of_pieceAt h
  have hmargin : (c :: cs).takeWhile isIndentation = [] :=
    List.takeWhile_cons_of_neg (by rw [hindent]; decide)
  have hopens : (State.start (c :: cs)).openLine =
      .ok { State.start (c :: cs) with lineStart := false } := by
    rw [State.openLine_cons (show State.rest _ = c :: cs by rw [State.start, hmargin]; rfl), hcode]
    simp [State.start, hmargin, State.skip, State.indentTo, indentWidth]
  have htakes := State.takePiece_token (s := { State.start (c :: cs) with lineStart := false })
    h hopen hclose
  rw [tokenize, String.toList_ofList, State.run_openLine rfl hopens,
    State.run_takePiece rfl rfl htakes, State.run_finish rfl (by simp [State.start])]
  simp [State.finish, State.newline, State.push, State.skip, State.start, hplace, hlayout]

theorem pieceAt_quoted (cs : List Char) :
    pieceAt (Text.quoteMark cs)
        (cs.flatMap (Text.escape (Text.quoteMark cs)) ++ [Text.quoteMark cs]) =
      (.token (.str (String.ofList cs)),
        cs.flatMap (Text.escape (Text.quoteMark cs)) ++ [Text.quoteMark cs]) := by
  have hm := quoteMark_cases cs
  rw [pieceAt_quote hm, scanString_escape hm cs []]
  rfl

end Lexer

theorem parse_str {text s : String} {span : Span} {n e : Token} (hn : n.kind = .newline)
    (he : e.kind = .eof) (h : Lexer.tokenize text = .ok [⟨.str s, span⟩, n, e]) :
    parse text = .ok [.expr (.literal (.str s) span)] :=
  have hstatement : Grammar.Statement [⟨.str s, span⟩, n] (.expr (.literal (.str s) span)) :=
    .simple (.expr (Grammar.Expression.literal (v := .str s) rfl).loosest) hn
  parse_of_program h (.intro (.cons hstatement .nil) he)

/-- A string as an expression on its own is code that first puts the string on the stack. -/
theorem ofModule_str (file s : String) (span : Span) :
    ∃ chunk i, Code.ofModule file [.expr (.literal (.str s) span)] = .ok chunk ∧
      chunk.code[0]? = some i ∧
      ∀ r : Run, r.current.chunk = chunk → r.execute i = r.push (.str s) := by
  have hfirst : Code.Tables.empty.constant (.str s) = (0, ⟨#[.str s], #[]⟩) := by
    simp [Code.Tables.constant, Code.Tables.empty]
  have hsecond : Code.Tables.constant ⟨#[.str s], #[]⟩ .none = (1, ⟨#[.str s, .none], #[]⟩) := by
    simp [Code.Tables.constant, Code.Tables.sameConstant, Value.typeName]
  have hmodule : Code.ofModule file [.expr (.literal (.str s) span)] =
      .ok (Code.assemble file Code.moduleName 1 []
        [Code.line .loadConst 0 span, Code.line .popTop 0 span, Code.line .loadConst 1 span,
          Code.line .returnValue 0 span] ⟨#[.str s, .none], #[]⟩) := by
    simp only [Code.ofModule, Code.stmts, Code.stmt, Code.expr, Code.close, Value.ofLiteral, hfirst,
      bind, Except.bind, hsecond]
    rfl
  refine ⟨_, ⟨.loadConst, 0⟩, hmodule, rfl, fun r hr => ?_⟩
  rw [Run.execute, hr]
  rfl

/-- What is shown of a string is the token of that string and nothing else, and as a program it
is an expression whose value is the string and whose code puts it on the stack. -/
theorem tokenize_repr (s : String) :
    let shown := (Value.str s).repr
    let ending : Point := ⟨1, shown.length⟩
    Lexer.tokenize shown = .ok
        [⟨.str s, .between ⟨1, 0⟩ ending⟩, ⟨.newline, .point ending⟩, ⟨.eof, .point ending⟩] ∧
      (∃ e, parse shown = .ok [.expr e] ∧
        ∀ {σ : Type} (call : Evaluator.Caller σ) (store : Evaluator.Store σ),
          Evaluator.expr call e store = .value (.plain (.str s)) store) ∧
      ∀ file, ∃ chunk i, Code.compile file shown = .ok chunk ∧ chunk.code[0]? = some i ∧
        ∀ r : Run, r.current.chunk = chunk → r.execute i = r.push (.str s) := by
  intro shown ending
  have hlength : ending = ⟨1, (s.toList.flatMap (Text.escape (Text.quoteMark s.toList)) ++
      [Text.quoteMark s.toList]).length + 1⟩ :=
    congrArg (Point.mk 1) String.length_ofList
  have htokens := Lexer.tokenize_token (Lexer.pieceAt_quoted s.toList) nofun nofun
    (Text.lineFeed_notMem_quoted s.toList)
  rw [← hlength, String.ofList_toList] at htokens
  have hparse := parse_str rfl rfl htokens
  refine ⟨htokens, ⟨_, hparse, fun call store => rfl⟩, fun file => ?_⟩
  obtain ⟨chunk, i, hmodule, hi, hrun⟩ := ofModule_str file s (.between ⟨1, 0⟩ ending)
  refine ⟨chunk, i, ?_, hi, hrun⟩
  rw [← hmodule]
  exact congrArg (· >>= Code.ofModule file) hparse

end Source

end Stepwise
