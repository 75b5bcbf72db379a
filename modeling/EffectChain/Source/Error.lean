import EffectChain.Token.Basic

/-!
# EffectChain.Source.Error

Why a source text is not a program.  A `SyntaxError` is a cause at a place; its
message ends with the line of the source it is on and a caret below the column
when the source is known.
-/

namespace EffectChain

/-- What is wrong with a source text. -/
inductive SyntaxCause where
  | emptyClosure
  | unexpectedChar (c : Char)
  | unterminatedString
  | unterminatedComment
  | invalidSurface (word : String)
  | unexpectedToken (token : Token) (wanted : String)
  | nestingTooDeep
  | searchNotFirst
  | notAChain
  | invalidNumber (lexeme : Bytes)
  | duplicateArgument (name : Bytes)
  | renderNested
  | missingSearch
  | outMidChain
  | duplicateRender
  | flowOutsideLoop (word : String)
  | mixedArguments
  | unaryOperand (op : String)
  | operatorOperands (op : String)
  | divisionByZero
  deriving DecidableEq, Repr, Inhabited

namespace SyntaxCause

/-- The code of a cause: `L` for the lexical ones, `P` for the grammatical ones. -/
def code : SyntaxCause → String
  | .emptyClosure | .unexpectedChar _ => "L001"
  | .unterminatedString => "L002"
  | .unterminatedComment => "L003"
  | .invalidSurface _ => "L004"
  | .unexpectedToken .. | .nestingTooDeep | .searchNotFirst | .notAChain | .invalidNumber _
  | .duplicateArgument _ | .renderNested => "P001"
  | .missingSearch => "P002"
  | .outMidChain => "P003"
  | .duplicateRender => "P004"
  | .flowOutsideLoop _ => "P005"
  | .mixedArguments => "P006"
  | .unaryOperand _ | .operatorOperands _ | .divisionByZero => "P007"

/-- The sentence that states a cause. -/
def message : SyntaxCause → String
  | .emptyClosure => "empty closure body"
  | .unexpectedChar c => "unexpected character " ++ Text.quoteChar c
  | .unterminatedString => "unterminated string"
  | .unterminatedComment => "unterminated block comment"
  | .invalidSurface w => "invalid surface index " ++ w
  | .unexpectedToken t wanted =>
    "unexpected " ++ t.kind.text ++
      (if t.kind = .endOfInput then "" else " " ++ Text.quoteBytes t.shown) ++
      (if wanted = "" then "" else ", expected " ++ wanted)
  | .nestingTooDeep => "maximum nesting depth exceeded"
  | .searchNotFirst => "search directive must be the first statement"
  | .notAChain => "expected a chain statement"
  | .invalidNumber l => "invalid number " ++ Text.quoteBytes l
  | .duplicateArgument n => "duplicate argument " ++ Text.quoteBytes n
  | .renderNested => "render directive must be at top level"
  | .missingSearch =>
    "missing search directive: a program must begin with \"search <namespace>\" or a namespace block"
  | .outMidChain => "out() must terminate the chain"
  | .duplicateRender => "duplicate render directive"
  | .flowOutsideLoop w => w ++ " outside loop"
  | .mixedArguments => "cannot mix positional and keyword arguments"
  | .unaryOperand op => "unary " ++ op ++ " requires a numeric literal"
  | .operatorOperands op => "operator " ++ op ++ " requires numeric literals"
  | .divisionByZero => "division by zero"

end SyntaxCause

/-- A cause at a place.  An empty source means that the source is not known. -/
structure SyntaxError where
  cause : SyntaxCause
  pos : Pos
  source : Bytes := []
  deriving DecidableEq, Repr, Inhabited

namespace SyntaxError

/-- Splits a text at its newlines; there is always at least one line. -/
def linesOf (bs : Bytes) : List Bytes :=
  bs.foldr (fun b ls =>
    if b = 10 then [] :: ls
    else match ls with
      | l :: more => (b :: l) :: more
      | [] => [[b]]) [[]]

/-- The line the error is on and a caret below its column; empty when the source
is unknown or has no such line. -/
def snippet (e : SyntaxError) : String :=
  if e.source.isEmpty || e.pos.line = 0 then ""
  else match (linesOf e.source)[e.pos.line - 1]? with
    | none => ""
    | some line =>
      let number := toString e.pos.line
      let padding := number.length + 5 + (e.pos.col - 1)
      "  " ++ number ++ " | " ++ Bytes.toString line ++ "\n" ++
        String.ofList (List.replicate padding ' ') ++ "^\n"

/-- The cause and the place in one line. -/
def headline (e : SyntaxError) : String :=
  e.cause.code ++ ": " ++ e.cause.message ++
    (if e.pos.isKnown then s!" at line {e.pos.line}, column {e.pos.col}" else "")

/-- The complete text of the error. -/
def message (e : SyntaxError) : String :=
  e.headline ++ (if e.snippet = "" then "" else ":\n" ++ e.snippet)

/-- The error with the source it was found in, unless it has one already. -/
def withSource (e : SyntaxError) (source : Bytes) : SyntaxError :=
  if e.source.isEmpty then { e with source } else e

end SyntaxError

end EffectChain
