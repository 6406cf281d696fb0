/-!
# Parse errors

The causes of failure, with their wording.
-/

namespace LiveSheet

/-- What is wrong with a text that is no style sheet.  The last case is for
grammars that say it in their own words. -/
inductive SyntaxFault where
  | unexpectedBrace
  | unclosedBlock
  | unclosedParenthesis
  | unterminatedString
  | unterminatedComment
  | unterminatedInterpolation
  | nestingTooDeep
  | other (message : String)
  deriving DecidableEq

def SyntaxFault.message : SyntaxFault → String
  | unexpectedBrace => "unexpected `\x7d`"
  | unclosedBlock => "unclosed block"
  | unclosedParenthesis => "unclosed parenthesis"
  | unterminatedString => "unterminated string"
  | unterminatedComment => "unterminated comment"
  | unterminatedInterpolation => "unterminated interpolation"
  | nestingTooDeep => "nesting too deep"
  | other message => message

/-- A fault and the offset of the character at which it shows. -/
structure SyntaxError where
  fault : SyntaxFault
  offset : Nat
  deriving DecidableEq

/-- Why a parse has no tree to give: it gave up because it was no longer wanted,
the text is malformed, or the parser itself broke. -/
inductive ParseError where
  | cancelled (version : Nat)
  | malformed (error : SyntaxError)
  | internal (message : String)
  deriving DecidableEq

namespace ParseError

def message : ParseError → String
  | cancelled version => "parse of version " ++ toString version ++ " cancelled"
  | malformed e => "syntax error at " ++ toString e.offset ++ ": " ++ e.fault.message
  | internal m => "parser failure: " ++ m

def isCancelled : ParseError → Bool
  | cancelled _ => true
  | _ => false

end ParseError
end LiveSheet
