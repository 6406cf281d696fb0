import LiveSheet.Grammar.Prelude
import LiveSheet.ParseError

/-!
# Statements

One declaration, at-rule or rule, up to its semicolon or to the brace that opens
its block.  Every function here returns the tokens that it leaves, and the lemmas
at the end say that a statement takes at least one.
-/

namespace LiveSheet
namespace Grammar

/-- The children that a value gives and the tokens after it. -/
structure Value where
  children : List Item
  rest : List Token

/-- The children at the end of a value: the value itself, if there is any, and
the semicolon after it. -/
def Value.finish (parts : List Item) (covered : Option Span) : List Token → Value
  | t :: rest =>
    if t.kind = .semicolon then
      ⟨parts.reverse ++ (covered.map (Item.leaf .value)).toList ++ [t.leaf .punctuation], rest⟩
    else ⟨parts.reverse ++ (covered.map (Item.leaf .value)).toList, t :: rest⟩
  | [] => ⟨parts.reverse ++ (covered.map (Item.leaf .value)).toList, []⟩

/-- Takes the rest of a value.  Comments, and flags outside parentheses, are
children of their own; all else is covered by one span. -/
def valueFrom (depth : Nat) (parts : List Item) (covered : Option Span) :
    List Token → Except SyntaxError Value
  | [] =>
    if 0 < depth then .error ⟨.unclosedParenthesis, (covered.map Span.start).getD 0⟩
    else .ok (Value.finish parts covered [])
  | t :: rest =>
    match Terminator.of? depth t.kind with
    | some _ => .ok (Value.finish parts covered (t :: rest))
    | none =>
      match t.comment? with
      | some comment => valueFrom depth (comment :: parts) covered rest
      | none =>
        if t.kind = .flag ∧ depth = 0 then valueFrom depth (t.leaf .flag :: parts) covered rest
        else valueFrom (depthAfter depth t.kind) parts (extend covered t) rest

/-- Takes a value and the semicolon after it. -/
def value (ts : List Token) : Except SyntaxError Value := valueFrom 0 [] none ts

/-- Takes tokens up to the parenthesis that closes the one at `opened`, when
`depth` further ones are open and `covered` spans what was taken. -/
def parenthesesFrom (opened depth : Nat) (covered : Span) :
    List Token → Except SyntaxError (Span × List Token)
  | [] => .error ⟨.unclosedParenthesis, opened⟩
  | t :: rest =>
    match t.kind, depth with
    | .openParen, _ => parenthesesFrom opened (depth + 1) (covered.cover t.span) rest
    | .closeParen, 0 => .ok (covered.cover t.span, rest)
    | .closeParen, outer + 1 => parenthesesFrom opened outer (covered.cover t.span) rest
    | _, _ => parenthesesFrom opened depth (covered.cover t.span) rest

/-- A statement is an item, or the head of one whose block begins with `brace`. -/
inductive Statement where
  | item (item : Item) (rest : List Token)
  | header (kind : ItemKind) (head : List Item) (brace : Token) (rest : List Token)

def Statement.rest : Statement → List Token
  | item _ rest => rest
  | header _ _ _ rest => rest

/-- The at-rules that define or use something by name. -/
def namesCallable (keyword : Text) : Bool :=
  keyword == "@mixin".toList || keyword == "@function".toList || keyword == "@include".toList

/-- The name after the keyword of a named at-rule, and the argument list right
after the name. -/
def signature (ts : List Token) : Except SyntaxError (List Item × List Token) :=
  match ts with
  | name :: rest =>
    if name.kind = .identifier then
      match rest with
      | paren :: inner =>
        if paren.kind = .openParen then do
          let (arguments, rest) ← parenthesesFrom paren.start 0 paren.span inner
          return ([name.leaf .identifier, .leaf .arguments arguments], rest)
        else return ([name.leaf .identifier], rest)
      | [] => return ([name.leaf .identifier], rest)
    else return ([], ts)
  | [] => return ([], ts)

/-- What follows the head of an at-rule: a prelude, then a block, a semicolon or
nothing. -/
def atRuleTail (head : List Item) (ts : List Token) : Statement :=
  let p := prelude ts
  let head := head ++ p.comments ++ (p.covered.map (Item.leaf .value)).toList
  match p.terminator, p.rest with
  | .block, brace :: rest => .header .atRule head brace rest
  | .semicolon, mark :: rest => .item (.gather .atRule (head ++ [mark.leaf .punctuation])) rest
  | _, rest => .item (.gather .atRule head) rest

def atRule (keyword : Token) (ts : List Token) : Except SyntaxError Statement :=
  if namesCallable keyword.lexeme then do
    let (named, rest) ← signature ts
    return atRuleTail (keyword.leaf .atKeyword :: named) rest
  else return atRuleTail [keyword.leaf .atKeyword] ts

/-- The comments among some tokens, and the span of all else. -/
def separate (ts : List Token) : List Item × Option Span :=
  (ts.filterMap Token.comment?,
    Span.coverAll ((ts.filter fun t => t.comment?.isNone).map Token.span))

/-- A declaration whose name is what stands before the colon. -/
def propertyDeclaration (name rest : List Token) : Except SyntaxError Statement :=
  let (comments, covered) := separate name
  let named := comments ++ (covered.map (Item.leaf .propertyName)).toList
  match rest with
  | colon :: after => do
    let v ← value after
    return .item (.gather .propertyDeclaration
      (named ++ [colon.leaf .punctuation] ++ v.children)) v.rest
  | [] => return .item (.gather .propertyDeclaration named) []

/-- Tokens of which nothing better can be made, and the semicolon after them. -/
def unknown (p : Prelude) : Statement :=
  let (covered, rest) :=
    match p.terminator, p.rest with
    | .semicolon, mark :: rest => (extend p.covered mark, rest)
    | _, rest => (p.covered, rest)
  let all := Item.leaf .unknown (covered.getD (Span.point 0))
  match p.comments with
  | [] => .item all rest
  | comments => .item (.gather .unknown (comments ++ [all])) rest

/-- A rule, or tokens that are neither a rule nor a declaration. -/
def rule (ts : List Token) : Statement :=
  let p := prelude ts
  match p.terminator, p.rest with
  | .block, brace :: rest =>
    .header .ruleBlock (p.comments ++ (p.covered.map (Item.leaf .selector)).toList) brace rest
  | _, _ => unknown p

/-- A colon before the next semicolon or closing brace makes a declaration, if
anything stands before it; a block makes a rule, colon or not. -/
def ruleOrDeclaration (ts : List Token) : Except SyntaxError Statement :=
  let found := lookahead ts
  match found.colon with
  | some (n + 1) =>
    if found.terminator = .block then return rule ts
    else propertyDeclaration (ts.take (n + 1)) (ts.drop (n + 1))
  | _ => return rule ts

def variableDeclaration (name colon : Token) (ts : List Token) :
    Except SyntaxError Statement := do
  let v ← value ts
  return .item (.gather .variableDeclaration
    (name.leaf .variableName :: colon.leaf .punctuation :: v.children)) v.rest

/-- The statement that begins with a token that is neither a comment, a closing
brace nor a semicolon. -/
def statement (t : Token) (rest : List Token) : Except SyntaxError Statement :=
  match t.kind, rest with
  | .atKeyword, _ => atRule t rest
  | .variable, next :: after =>
    if next.kind = .colon then variableDeclaration t next after
    else ruleOrDeclaration (t :: rest)
  | _, _ => ruleOrDeclaration (t :: rest)

theorem Value.finish_rest_length_le (parts : List Item) (covered : Option Span)
    (ts : List Token) : (Value.finish parts covered ts).rest.length ≤ ts.length := by
  cases ts with
  | nil => exact Nat.le_refl _
  | cons t rest =>
    simp only [Value.finish]
    split
    · exact Nat.le_succ _
    · exact Nat.le_refl _

theorem valueFrom_rest_length_le {depth : Nat} {parts : List Item} {covered : Option Span}
    {ts : List Token} {v : Value} (h : valueFrom depth parts covered ts = .ok v) :
    v.rest.length ≤ ts.length := by
  fun_induction valueFrom depth parts covered ts with
  | case1 => exact nomatch h
  | case2 =>
    cases h
    exact Value.finish_rest_length_le _ _ _
  | case3 =>
    cases h
    exact Value.finish_rest_length_le _ _ _
  | case4 _ _ _ _ _ _ _ _ ih => exact Nat.le_succ_of_le (ih h)
  | case5 _ _ _ _ _ _ _ _ ih => exact Nat.le_succ_of_le (ih h)
  | case6 _ _ _ _ _ _ _ _ ih => exact Nat.le_succ_of_le (ih h)

theorem parenthesesFrom_rest_length_le {opened depth : Nat} {covered : Span}
    {ts : List Token} {result : Span × List Token}
    (h : parenthesesFrom opened depth covered ts = .ok result) :
    result.2.length ≤ ts.length := by
  fun_induction parenthesesFrom opened depth covered ts with
  | case1 => exact nomatch h
  | case2 _ _ _ _ _ ih => exact Nat.le_succ_of_le (ih h)
  | case3 =>
    cases h
    exact Nat.le_succ _
  | case4 _ _ _ _ _ ih => exact Nat.le_succ_of_le (ih h)
  | case5 _ _ _ _ _ _ _ ih => exact Nat.le_succ_of_le (ih h)

theorem prelude_rest_length_le (ts : List Token) :
    (prelude ts).rest.length ≤ ts.length :=
  preludeFrom_rest_length_le 0 [] none ts

theorem signature_rest_length_le {ts : List Token} {result : List Item × List Token}
    (h : signature ts = .ok result) : result.2.length ≤ ts.length := by
  unfold signature at h
  split at h
  · split at h
    · split at h
      · split at h
        · rename_i inner _
          cases hp : parenthesesFrom _ 0 _ inner with
          | error e => rw [hp] at h; exact nomatch h
          | ok taken =>
            rw [hp] at h
            cases h
            have := parenthesesFrom_rest_length_le hp
            simp only [List.length_cons]
            omega
        · cases h
          exact Nat.le_succ _
      · cases h
        exact Nat.le_succ _
    · cases h
      exact Nat.le_refl _
  · cases h
    exact Nat.le_refl _

theorem atRuleTail_rest_length_le (head : List Item) (ts : List Token) :
    (atRuleTail head ts).rest.length ≤ ts.length := by
  have hp := prelude_rest_length_le ts
  unfold atRuleTail
  dsimp only
  split
  · rename_i heq
    rw [heq] at hp
    exact Nat.le_of_succ_le hp
  · rename_i heq
    rw [heq] at hp
    exact Nat.le_of_succ_le hp
  · exact hp

theorem atRule_rest_length_le {keyword : Token} {ts : List Token} {s : Statement}
    (h : atRule keyword ts = .ok s) : s.rest.length ≤ ts.length := by
  unfold atRule at h
  split at h
  · cases hs : signature ts with
    | error e => rw [hs] at h; exact nomatch h
    | ok named =>
      rw [hs] at h
      cases h
      exact Nat.le_trans (atRuleTail_rest_length_le _ _) (signature_rest_length_le hs)
  · cases h
    exact atRuleTail_rest_length_le _ _

/-- A prelude takes its first token, unless that token ends it. -/
theorem prelude_rest_length_lt {t : Token} (h : Terminator.of? 0 t.kind = none)
    (rest : List Token) : (prelude (t :: rest)).rest.length < (t :: rest).length := by
  simp only [prelude, preludeFrom, h]
  split <;> exact Nat.lt_succ_of_le (preludeFrom_rest_length_le _ _ _ _)

theorem unknown_rest_length_le (p : Prelude) :
    (unknown p).rest.length ≤ p.rest.length := by
  unfold unknown
  split
  rename_i covered rest heq
  have hr : rest.length ≤ p.rest.length := by
    split at heq
    · rename_i hp
      cases heq
      rw [hp]
      exact Nat.le_succ _
    · cases heq
      exact Nat.le_refl _
  dsimp only
  split <;> exact hr

theorem rule_rest_length_lt {t : Token} (hclose : t.kind ≠ .closeBrace)
    (hmark : t.kind ≠ .semicolon) (rest : List Token) :
    (rule (t :: rest)).rest.length < (t :: rest).length := by
  have hp := prelude_rest_length_le (t :: rest)
  unfold rule
  dsimp only
  split
  · rename_i heq
    rw [heq] at hp
    exact hp
  · rename_i hno
    refine Nat.lt_of_le_of_lt (unknown_rest_length_le _) ?_
    by_cases hopen : t.kind = .openBrace
    · exact absurd (by simp [prelude, preludeFrom, Terminator.of?, hopen]) (hno t rest (by
        simp [prelude, preludeFrom, Terminator.of?, hopen]))
    · refine prelude_rest_length_lt ?_ rest
      cases hk : t.kind <;> simp_all [Terminator.of?]

theorem propertyDeclaration_rest_length_lt {name rest : List Token} {s : Statement}
    (h : propertyDeclaration name rest = .ok s) : s.rest.length ≤ rest.length - 1 := by
  unfold propertyDeclaration at h
  dsimp only at h
  split at h
  · rename_i after
    cases hv : value after with
    | error e => rw [hv] at h; exact nomatch h
    | ok v =>
      rw [hv] at h
      cases h
      exact valueFrom_rest_length_le hv
  · cases h
    exact Nat.le_refl _

theorem ruleOrDeclaration_rest_length_lt {t : Token} (hclose : t.kind ≠ .closeBrace)
    (hmark : t.kind ≠ .semicolon) {rest : List Token} {s : Statement}
    (h : ruleOrDeclaration (t :: rest) = .ok s) : s.rest.length < (t :: rest).length := by
  unfold ruleOrDeclaration at h
  dsimp only at h
  split at h
  · split at h
    · cases h
      exact rule_rest_length_lt hclose hmark rest
    · have := propertyDeclaration_rest_length_lt h
      simp only [List.length_drop, List.length_cons] at this ⊢
      omega
  · cases h
    exact rule_rest_length_lt hclose hmark rest

/-- A statement takes at least its first token. -/
theorem statement_rest_length_lt {t : Token} (hclose : t.kind ≠ .closeBrace)
    (hmark : t.kind ≠ .semicolon) {rest : List Token} {s : Statement}
    (h : statement t rest = .ok s) : s.rest.length < (t :: rest).length := by
  unfold statement at h
  split at h
  · exact Nat.lt_succ_of_le (atRule_rest_length_le h)
  · rename_i after _
    split at h
    · unfold variableDeclaration at h
      cases hv : value after with
      | error e => rw [hv] at h; exact nomatch h
      | ok v =>
        rw [hv] at h
        cases h
        have := valueFrom_rest_length_le hv
        simp only [Statement.rest, List.length_cons]
        omega
    · exact ruleOrDeclaration_rest_length_lt hclose hmark h
  · exact ruleOrDeclaration_rest_length_lt hclose hmark h

end Grammar
end LiveSheet
