import MiniC.Syntax.Constant
import MiniC.Syntax.Parser.Basic
/-!
The grammar. Each function reads one construct; its first argument bounds how deep the calls may
nest. The nesting limit is met first, so the bound, a constant, is never the reason for a refusal.
-/
namespace MiniC.Syntax.Parser

/-! Declaration specifiers. -/

structure Specifiers where
  words : List Keyword := []
  qualifiers : Qualifiers := {}
  signed : Option Bool := none
  struct : Option StructSpec := none

/-- What type words mean; their order counts. -/
def intKind? (words : List Keyword) (signed : Option Bool) : Option TypeKind :=
  let sign := signed.getD true
  match words with
  | [] | [.int] => some (.int .int sign)
  | [.void] => if signed.isSome then none else some .void
  | [.char] => some (.int .char sign)
  | [.short] | [.short, .int] => some (.int .short sign)
  | [.long] | [.long, .int] => some (.int .long sign)
  | [.long, .long] | [.long, .long, .int] => some (.int .longLong sign)
  | _ => none

def Specifiers.addWord (sp : Specifiers) (k : Keyword) : Parser Specifiers := do
  if sp.struct.isSome then fail .mixedStruct
  let _ ← advance
  return { sp with words := sp.words ++ [k] }

/-- Reads one specifier that is no struct, or reports that there is none. -/
def Specifiers.add (sp : Specifiers) : Parser (Specifiers × Bool) := do
  match ← kind with
  | .keyword .const =>
    let _ ← advance
    return ({ sp with qualifiers := { sp.qualifiers with isConst := true } }, true)
  | .keyword .volatile =>
    let _ ← advance
    return ({ sp with qualifiers := { sp.qualifiers with isVolatile := true } }, true)
  | .keyword .signed =>
    let _ ← advance
    return ({ sp with signed := some true }, true)
  | .keyword .unsigned =>
    let _ ← advance
    return ({ sp with signed := some false }, true)
  | .keyword k =>
    if k.isTypeSpecifier then return (← sp.addWord k, true) else return (sp, false)
  | .reserved word => unsupported s!"'{word}'"
  | _ => return (sp, false)

def Specifiers.finish (sp : Specifiers) (start : Span) : Parser TypeExpr := do
  let span ← spanFrom start
  match sp.struct with
  | some spec => return ⟨.struct spec, sp.qualifiers, span⟩
  | none =>
    match intKind? sp.words sp.signed with
    | some kind => return ⟨kind, sp.qualifiers, span⟩
    | none => failAt (.specifiers sp.words) span

/-! Declarators. -/

/-- A name with the type that its declarator builds around the base type. -/
structure Declarator where
  name : String
  span : Span
  ty : TypeExpr

def qualifiers : Parser Qualifiers :=
  iterate (fun q => do
    match ← kind with
    | .keyword .const =>
      let _ ← advance
      return ({ q with isConst := true }, true)
    | .keyword .volatile =>
      let _ ← advance
      return ({ q with isVolatile := true }, true)
    | _ => return (q, false)) {}

def pointers (base : TypeExpr) : Parser TypeExpr :=
  iterate (fun ty => do
    if ← atPunct .star then
      link
      let star ← advance
      let q ← qualifiers
      return (.pointerTo ty q (ty.span.cover star.span), true)
    else return (ty, false)) base

def arraySizeOf (e : Expr) : Parser Nat :=
  match e.constant? with
  | some n => if n < 0 then failAt .negativeSize e.span else pure n.toNatClampNeg
  | none => failAt .variableSize e.span

/-- The leftmost dimension is the outermost array. -/
def wrapArrays (element : TypeExpr) (dimensions : List (Option Nat × Span)) : TypeExpr :=
  dimensions.foldr (fun (size, span) inner => .arrayOf inner size span) element

/-! Operators. -/

def assignmentOp? : TokenKind → Option (Option BinaryOp)
  | .punct .eq => some none
  | .punct .plusEq => some (some .add)
  | .punct .minusEq => some (some .sub)
  | .punct .starEq => some (some .mul)
  | .punct .slashEq => some (some .div)
  | .punct .percentEq => some (some .mod)
  | .punct .ampEq => some (some .bitAnd)
  | .punct .pipeEq => some (some .bitOr)
  | .punct .caretEq => some (some .bitXor)
  | .punct .ltLtEq => some (some .shl)
  | .punct .gtGtEq => some (some .shr)
  | _ => none

def binaryOp? : TokenKind → Option BinaryOp
  | .punct .pipePipe => some .logOr
  | .punct .ampAmp => some .logAnd
  | .punct .pipe => some .bitOr
  | .punct .caret => some .bitXor
  | .punct .amp => some .bitAnd
  | .punct .eqEq => some .eq
  | .punct .notEq => some .ne
  | .punct .lt => some .lt
  | .punct .gt => some .gt
  | .punct .ltEq => some .le
  | .punct .gtEq => some .ge
  | .punct .ltLt => some .shl
  | .punct .gtGt => some .shr
  | .punct .plus => some .add
  | .punct .minus => some .sub
  | .punct .star => some .mul
  | .punct .slash => some .div
  | .punct .percent => some .mod
  | _ => none

/-- A binary operator that binds at least as tightly as asked, and how tightly. -/
def binaryAt? (k : TokenKind) (least : Nat) : Option (BinaryOp × Nat) :=
  match binaryOp? k, k.precedence? with
  | some op, some p => if least ≤ p then some (op, p) else none
  | _, _ => none

/-- The operators in front of their operand. -/
def leadingOp? : TokenKind → Option (Expr → ExprKind)
  | .punct .plusPlus => some (.step · false false)
  | .punct .minusMinus => some (.step · true false)
  | .punct .amp => some .addressOf
  | .punct .star => some .deref
  | .punct .minus => some (.unary .neg)
  | .punct .bang => some (.unary .not)
  | .punct .tilde => some (.unary .bitNot)
  | _ => none

/-- Adjacent string literals are one. -/
def stringLiteral : Parser Expr := do
  let start ← span
  let text ← iterate (fun text => do
    match ← kind with
    | .string part =>
      let _ ← advance
      return (text ++ part, true)
    | _ => return (text, false)) ""
  return .untyped (.string text) (← spanFrom start)

/-- The current token is a parenthesis before something that satisfies a test. -/
def atParenBefore (test : TokenKind → Bool) : Parser Bool := do
  if ← atPunct .lParen then return test (← peekKind) else return false

/-- The expressions of one token. -/
def leafKind? : TokenKind → Option ExprKind
  | .integer value => some (.integer value)
  | .character value => some (.character value)
  | .identifier name => some (.name name)
  | _ => none

def leaf (kind : ExprKind) : Parser Expr := do
  let t ← advance
  return .untyped kind t.span

/-- `break` and `continue`. -/
def jumpStatement (kind : StmtKind) : Parser Stmt := do
  let start ← span
  let _ ← advance
  let _ ← expect .semi
  return ⟨kind, ← spanFrom start⟩

mutual

def specifiers : Nat → Parser TypeExpr
  | 0 => exhausted
  | n + 1 => do
    let start ← span
    let sp ← iterate (fun sp => do
      if ← atKind (.keyword .struct) then
        if sp.struct.isSome || !sp.words.isEmpty || sp.signed.isSome then fail .mixedStruct
        else return ({ sp with struct := some (← structSpecifier n) }, true)
      else sp.add) ({} : Specifiers)
    sp.finish start

def structSpecifier : Nat → Parser StructSpec
  | 0 => exhausted
  | n + 1 => do
    let start ← expectKeyword .struct
    let name ← (do
      match ← kind with
      | .identifier name =>
        let _ ← advance
        return some name
      | _ => return none)
    let members ← (do
      if ← atPunct .lBrace then return some (← nested (structBody n))
      else if name.isNone then fail (.expected "struct name or '\x7b'" (← kind))
      else return none)
    let id ← freshStruct
    return ⟨id, name, members, ← spanFrom start.span⟩

def structBody : Nat → Parser (List StructMember)
  | 0 => exhausted
  | n + 1 => do
    let _ ← expect .lBrace
    let groups ← untilBrace (do
      let base ← specifiers n
      let members ← separated (do
        let d ← declarator n base
        if ← atPunct .colon then unsupported "a bit-field"
        return StructMember.mk d.name d.ty d.span)
      let _ ← expect .semi
      return members)
    let _ ← expect .rBrace
    return groups.flatten

def declarator : Nat → TypeExpr → Parser Declarator
  | 0, _ => exhausted
  | n + 1, base => chain do
    let ty ← pointers base
    if ← atPunct .lParen then unsupported "a parenthesized declarator"
    let (name, span) ← expectName "identifier in declarator"
    return ⟨name, span, ← arraySuffix n ty⟩

def arraySuffix : Nat → TypeExpr → Parser TypeExpr
  | 0, _ => exhausted
  | n + 1, element => do
    let dimensions ← iterate (fun acc => do
      if ← atPunct .lBracket then
        link
        let start ← advance
        let size ← (do
          if ← atPunct .rBracket then return none
          else return some (← arraySizeOf (← conditional n)))
        let _ ← expect .rBracket
        return (acc.push (size, ← spanFrom start.span), true)
      else return (acc, false)) #[]
    return wrapArrays element dimensions.toList

/-- A type without a name, as in a cast. -/
def typeName : Nat → Parser TypeExpr
  | 0 => exhausted
  | n + 1 => do
    let base ← specifiers n
    chain do arraySuffix n (← pointers base)

/-- `= initializer`, if there is one, and further declarators. -/
def varDecls : Nat → Declarator → TypeExpr → Span → Parser Declaration
  | 0, _, _, _ => exhausted
  | n + 1, first, base, start => do
    let (vars, _) ← iterate (fun (vars, d) => do
      let init ← (do
        if ← accept .eq then return some (← initializer n) else return none)
      let vars := vars.push (VarDecl.mk d.name d.ty init d.span none)
      if ← accept .comma then return ((vars, ← declarator n base), true)
      else return ((vars, d), false)) (#[], first)
    let _ ← expect .semi
    return ⟨.vars vars.toList, ← spanFrom start⟩

/-- A declaration inside a block. -/
def declaration : Nat → Parser Declaration
  | 0 => exhausted
  | n + 1 => do
    let start ← span
    let base ← specifiers n
    if ← accept .semi then
      let span ← spanFrom start
      match base.kind with
      | .struct spec => return ⟨.struct spec, span⟩
      | _ => failAt .emptyDeclaration span
    else
      let d ← declarator n base
      if ← atPunct .lParen then unsupported "a function declaration inside a block"
      varDecls n d base start

def initializer : Nat → Parser Initializer
  | 0 => exhausted
  | n + 1 => do
    if ← atPunct .lBrace then nested (initializerList n)
    else return .expr (← assignment n)

def initializerList : Nat → Parser Initializer
  | 0 => exhausted
  | n + 1 => do
    let start ← expect .lBrace
    let items ← iterate (fun acc => do
      if ← atPunct .rBrace then return (acc, false)
      if (← atPunct .dot) || (← atPunct .lBracket) then unsupported "a designated initializer"
      let i ← initializer n
      return (acc.push i, ← accept .comma)) #[]
    let _ ← expect .rBrace
    return .list items.toList (← spanFrom start.span)

def statement : Nat → Parser Stmt
  | 0 => exhausted
  | n + 1 => nested (statementInner n)

def statementInner : Nat → Parser Stmt
  | 0 => exhausted
  | n + 1 => do
    let start ← span
    let k ← kind
    match k with
    | .punct .lBrace =>
      let b ← block n
      return ⟨.block b, b.span⟩
    | .keyword .if_ => ifStatement n
    | .keyword .while_ | .keyword .do_ | .keyword .for_ => loopStatement n
    | .keyword .break_ => jumpStatement .break_
    | .keyword .continue_ => jumpStatement .continue_
    | .keyword .return_ =>
      let _ ← advance
      let value ← expressionUnless n .semi
      let _ ← expect .semi
      return ⟨.return_ value, ← spanFrom start⟩
    | .punct .semi =>
      let _ ← advance
      return ⟨.empty, start⟩
    | .reserved word => unsupported s!"'{word}'"
    | _ =>
      if k.startsDeclaration then failAt .misplacedDeclaration start
      else
        let e ← expression n
        let _ ← expect .semi
        return ⟨.expr e, ← spanFrom start⟩

def block : Nat → Parser Block
  | 0 => exhausted
  | n + 1 => do
    let start ← span
    let _ ← expect .lBrace
    let items ← untilBrace (do
      if (← kind).startsDeclaration then return .declaration (← declaration n)
      else return .statement (← statement n))
    let _ ← expect .rBrace
    return ⟨items, ← spanFrom start⟩

def parenthesized : Nat → Parser Expr
  | 0 => exhausted
  | n + 1 => do
    let _ ← expect .lParen
    let e ← expression n
    let _ ← expect .rParen
    return e

def ifStatement : Nat → Parser Stmt
  | 0 => exhausted
  | n + 1 => do
    let start ← expectKeyword .if_
    let condition ← parenthesized n
    let yes ← statement n
    let no ← (do
      if ← acceptKeyword .else_ then return some (← statement n) else return none)
    return ⟨.if_ condition yes no, ← spanFrom start.span⟩

def loopStatement : Nat → Parser Stmt
  | 0 => exhausted
  | n + 1 => do
    let start ← advance
    let kind ← (do
      match start.kind with
      | .keyword .while_ =>
        let condition ← parenthesized n
        return .loop .while_ none (some condition) none (← statement n)
      | .keyword .do_ =>
        let body ← statement n
        let _ ← expectKeyword .while_
        let condition ← parenthesized n
        let _ ← expect .semi
        return .loop .doWhile none (some condition) none body
      | _ => forClauses n)
    return ⟨kind, ← spanFrom start.span⟩

/-- What follows the keyword `for`. -/
def forClauses : Nat → Parser StmtKind
  | 0 => exhausted
  | n + 1 => do
    let _ ← expect .lParen
    let init ← (do
      if ← accept .semi then return none
      else if (← kind).startsDeclaration then return some (.declaration (← declaration n))
      else
        let e ← expression n
        let _ ← expect .semi
        return some (.expr e))
    let condition ← expressionUnless n .semi
    let _ ← expect .semi
    let update ← expressionUnless n .rParen
    let _ ← expect .rParen
    return .loop .for_ init condition update (← statement n)

def expressionUnless : Nat → Punct → Parser (Option Expr)
  | 0, _ => exhausted
  | n + 1, stop => do
    if ← atPunct stop then return none else return some (← expression n)

def expression : Nat → Parser Expr
  | 0 => exhausted
  | n + 1 => do
    let first ← assignment n
    if ← accept .comma then
      let more ← separated (assignment n)
      return .untyped (.comma (first :: more)) (← spanFrom first.span)
    else return first

def assignment : Nat → Parser Expr
  | 0 => exhausted
  | n + 1 => do
    let left ← conditional n
    match assignmentOp? (← kind) with
    | some op =>
      let _ ← advance
      let right ← nested (assignment n)
      return .untyped (.assign op left right) (left.span.cover right.span)
    | none => return left

def conditional : Nat → Parser Expr
  | 0 => exhausted
  | n + 1 => do
    let condition ← binary n 1
    if ← accept .question then
      let yes ← nested (expression n)
      let _ ← expect .colon
      let no ← nested (conditional n)
      return .untyped (.conditional condition yes no) (condition.span.cover no.span)
    else return condition

/-- Operators that bind at least as tightly as `least`, all of them to the left. -/
def binary : Nat → Nat → Parser Expr
  | 0, _ => exhausted
  | n + 1, least => chain do
    let first ← unary n
    iterate (fun left => do
      match binaryAt? (← kind) least with
      | some (op, precedence) =>
        link
        let _ ← advance
        let right ← binary n (precedence + 1)
        return (.untyped (.binary op left right) (left.span.cover right.span), true)
      | none => return (left, false)) first

def unary : Nat → Parser Expr
  | 0 => exhausted
  | n + 1 => nested (unaryInner n)

def unaryInner : Nat → Parser Expr
  | 0 => exhausted
  | n + 1 => do
    let start ← span
    let isCast ← atParenBefore TokenKind.startsDeclaration
    match ← kind with
    | .punct .plus =>
      let _ ← advance
      unary n
    | .keyword .sizeof => sizeQuery n .size start
    | .keyword .alignof => sizeQuery n .align start
    | k =>
      if isCast then
        let _ ← advance
        let ty ← typeName n
        let _ ← expect .rParen
        let operand ← unary n
        return .untyped (.cast ty operand) (start.cover operand.span)
      else
        match leadingOp? k with
        | some wrap =>
          let _ ← advance
          let operand ← unary n
          return .untyped (wrap operand) (start.cover operand.span)
        | none => suffixed n

/-- `sizeof` or `_Alignof`, of a type in parentheses or of an expression. -/
def sizeQuery : Nat → SizeQuery → Span → Parser Expr
  | 0, _, _ => exhausted
  | n + 1, query, start => do
    let _ ← advance
    if ← atParenBefore TokenKind.startsDeclaration then
      let _ ← advance
      let ty ← typeName n
      let _ ← expect .rParen
      return .untyped (.typeQuery query ty) (← spanFrom start)
    else
      let operand ← unary n
      return .untyped (.query query operand) (← spanFrom start)

/-- A primary expression with its subscripts, calls, members and steps. -/
def suffixed : Nat → Parser Expr
  | 0 => exhausted
  | n + 1 => chain do
    let first ← primary n
    iterate (fun e => do
      match ← suffix n e with
      | some kind =>
        link
        return (.untyped kind (← spanFrom e.span), true)
      | none => return (e, false)) first

def suffix : Nat → Expr → Parser (Option ExprKind)
  | 0, _ => exhausted
  | n + 1, e => do
    match ← kind with
    | .punct .lBracket =>
      let _ ← advance
      let index ← expression n
      let _ ← expect .rBracket
      return some (.index e index)
    | .punct .lParen =>
      let _ ← advance
      let args ← (do
        if ← atPunct .rParen then return [] else separated (assignment n))
      let _ ← expect .rParen
      return some (.call e args)
    | .punct .dot =>
      let _ ← advance
      let (field, _) ← expectName "member name"
      return some (.member e field none)
    | .punct .arrow =>
      let _ ← advance
      let (field, _) ← expectName "member name"
      return some (.pointerMember e field none)
    | .punct .plusPlus =>
      let _ ← advance
      return some (.step e false true)
    | .punct .minusMinus =>
      let _ ← advance
      return some (.step e true true)
    | _ => return none

def primary : Nat → Parser Expr
  | 0 => exhausted
  | n + 1 => do
    let start ← span
    let isBlock ← atParenBefore (· == .punct .lBrace)
    match ← kind with
    | .string _ => stringLiteral
    | .punct .lParen =>
      if isBlock then
        let _ ← advance
        let b ← block n
        let _ ← expect .rParen
        return .untyped (.block b) (← spanFrom start)
      else
        let e ← parenthesized n
        return { e with span := ← spanFrom start }
    | .real _ => unsupported "floating point"
    | .reserved word => unsupported s!"'{word}'"
    | found =>
      match leafKind? found with
      | some kind => leaf kind
      | none => failAt (.unexpected found) start

end

/-! File scope. -/

/-- More than the calls between two levels of nesting, for every level. -/
def allowance : Nat := 32 * (maxNesting + 1)

def parameter : Parser ParamDecl := do
  let start ← span
  let base ← specifiers allowance
  let (name, ty) ← chain do
    let ty ← pointers base
    let name ← (do
      match ← kind with
      | .identifier name =>
        let _ ← advance
        return some name
      | _ => return none)
    return (name, ← arraySuffix allowance ty)
  return ⟨name, ty, ← spanFrom start, none⟩

/-- The parameters, and whether more arguments may follow. -/
def parameters : Parser (List ParamDecl × Bool) := do
  if ← atPunct .rParen then return ([], false)
  if ← atKind (.keyword .void) then
    if (← peekKind) == .punct .rParen then
      let _ ← advance
      return ([], false)
  let (params, variadic) ← iterate (fun (params, _) => do
    if ← accept .ellipsis then return ((params, true), false)
    let p ← parameter
    return ((params.push p, false), ← accept .comma)) (#[], false)
  return (params.toList, variadic)

def functionRest (d : Declarator) (start : Span) : Parser TopDecl := do
  let _ ← expect .lParen
  let (params, variadic) ← parameters
  let _ ← expect .rParen
  let body ← (do
    if ← atPunct .lBrace then return some (← block allowance)
    else
      let _ ← expect .semi
      return none)
  return .function ⟨d.name, d.ty, params, variadic, body, ← spanFrom start, none⟩

def topDecl : Parser TopDecl := do
  let start ← span
  let base ← specifiers allowance
  if ← accept .semi then
    let span ← spanFrom start
    match base.kind with
    | .struct spec => return .declaration ⟨.struct spec, span⟩
    | _ => failAt .emptyDeclaration span
  else
    let d ← declarator allowance base
    if ← atPunct .lParen then functionRest d start
    else return .declaration (← varDecls allowance d base start)

def compilationUnit : Parser CompilationUnit := do
  let decls ← iterate (fun acc => do
    if ← atEnd then return (acc, false)
    return (acc.push (← topDecl), true)) #[]
  return ⟨decls.toList⟩

end Parser

/-- Reads the first token; the parser always holds one. -/
def ParseState.start (source : String) : Except ParseError ParseState :=
  match (Lexer.Cursor.ofSource source).next with
  | (.error e, _) => .error (.lexical e)
  | (.ok t, cursor) => .ok ⟨cursor, t, Span.nowhere, 0, 0, Nat.zero_le _⟩

def CompilationUnit.parse (source : String) : Except ParseError CompilationUnit :=
  match ParseState.start source with
  | .error e => .error e
  | .ok s =>
    match Parser.compilationUnit s with
    | .ok u _ => .ok u
    | .error e _ => .error e

end MiniC.Syntax
