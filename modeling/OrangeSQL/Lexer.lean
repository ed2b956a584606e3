import Mathlib.Data.List.TakeWhile
import OrangeSQL.Types

/-! The lexer. A `std::string` is the list of its characters; a lexer is the part of its
input that is still to be read with the line and the column the next character has. The
classes of characters are those of the "C" locale, so no character above 127 is in one. -/
namespace OrangeSQL

abbrev Text := List Char

def isspace (c : Char) : Bool :=
  c = ' ' ∨ c = '\t' ∨ c = '\n' ∨ c = '\x0b' ∨ c = '\x0c' ∨ c = '\r'

/-- The kinds of tokens, spelt and ordered as the source's enumeration. -/
inductive TokenType
  | SELECT | INSERT | UPDATE | DELETE | CREATE | DROP | ALTER
  | TABLE | INDEX | VIEW | TRIGGER | FUNCTION | PROCEDURE
  | FROM | WHERE | JOIN | INNER | LEFT | RIGHT | OUTER | FULL | CROSS
  | ON | USING | AND | OR | NOT | NULL | IS | IN | BETWEEN | LIKE
  | ORDER | BY | GROUP | HAVING | LIMIT | OFFSET
  | UNION | INTERSECT | EXCEPT | ALL | DISTINCT
  | AS | ASC | DESC
  | INTO | VALUES | SET
  | PRIMARY | FOREIGN | KEY | REFERENCES | CONSTRAINT
  | DEFAULT | AUTO_INCREMENT | UNIQUE | CHECK
  | BEGIN | COMMIT | ROLLBACK | TRANSACTION | SAVEPOINT
  | CASE | WHEN | THEN | ELSE | END
  | EXISTS | ANY | SOME
  | IDENTIFIER | STRING | INTEGER | FLOAT | BOOLEAN
  | PLUS | MINUS | STAR | SLASH | PERCENT
  | EQ | NE | LT | LE | GT | GE | ASSIGN | CONCAT
  | LPAREN | RPAREN | COMMA | DOT | SEMICOLON
  | END_OF_FILE | UNKNOWN
  deriving DecidableEq, Repr

structure Token where
  type : TokenType
  text : Text
  line : ℕ
  column : ℕ
  deriving DecidableEq, Repr

/-- What the parser reads of a token. -/
structure Lexeme where
  type : TokenType
  text : Text
  deriving DecidableEq, Repr

def Token.lexeme (t : Token) : Lexeme := ⟨t.type,t.text⟩

def keywords : List (Text × TokenType) :=
  [("SELECT".toList,.SELECT),("INSERT".toList,.INSERT),("UPDATE".toList,.UPDATE),
   ("DELETE".toList,.DELETE),("FROM".toList,.FROM),("WHERE".toList,.WHERE),
   ("JOIN".toList,.JOIN),("INNER".toList,.INNER),("LEFT".toList,.LEFT),
   ("RIGHT".toList,.RIGHT),("OUTER".toList,.OUTER),("FULL".toList,.FULL),
   ("CROSS".toList,.CROSS),("ON".toList,.ON),("USING".toList,.USING),("AND".toList,.AND),
   ("OR".toList,.OR),("NOT".toList,.NOT),("NULL".toList,.NULL),("IS".toList,.IS),
   ("IN".toList,.IN),("BETWEEN".toList,.BETWEEN),("LIKE".toList,.LIKE),
   ("ORDER".toList,.ORDER),("BY".toList,.BY),("GROUP".toList,.GROUP),
   ("HAVING".toList,.HAVING),("LIMIT".toList,.LIMIT),("OFFSET".toList,.OFFSET),
   ("UNION".toList,.UNION),("INTERSECT".toList,.INTERSECT),("EXCEPT".toList,.EXCEPT),
   ("ALL".toList,.ALL),("DISTINCT".toList,.DISTINCT),("AS".toList,.AS),("ASC".toList,.ASC),
   ("DESC".toList,.DESC),("INTO".toList,.INTO),("VALUES".toList,.VALUES),("SET".toList,.SET),
   ("CREATE".toList,.CREATE),("DROP".toList,.DROP),("ALTER".toList,.ALTER),
   ("TABLE".toList,.TABLE),("INDEX".toList,.INDEX),("VIEW".toList,.VIEW),
   ("PRIMARY".toList,.PRIMARY),("FOREIGN".toList,.FOREIGN),("KEY".toList,.KEY),
   ("REFERENCES".toList,.REFERENCES),("CONSTRAINT".toList,.CONSTRAINT),
   ("DEFAULT".toList,.DEFAULT),("AUTO_INCREMENT".toList,.AUTO_INCREMENT),
   ("UNIQUE".toList,.UNIQUE),("CHECK".toList,.CHECK),("BEGIN".toList,.BEGIN),
   ("COMMIT".toList,.COMMIT),("ROLLBACK".toList,.ROLLBACK),
   ("TRANSACTION".toList,.TRANSACTION),("SAVEPOINT".toList,.SAVEPOINT),
   ("CASE".toList,.CASE),("WHEN".toList,.WHEN),("THEN".toList,.THEN),("ELSE".toList,.ELSE),
   ("END".toList,.END),("EXISTS".toList,.EXISTS),("ANY".toList,.ANY),("SOME".toList,.SOME),
   ("TRUE".toList,.BOOLEAN),("FALSE".toList,.BOOLEAN)]

/-- `input_` from `pos_` on, with the position of its first character. -/
structure Lexer where
  rest : Text
  line : ℕ
  column : ℕ
  deriving DecidableEq, Repr

/-- How far `skipComment` reads behind the opening of a block comment: through the first
closing mark, or up to the last character where there is none. -/
def blockLength : Text → ℕ
  | c :: d :: text => if c = '*' ∧ d = '/' then 2 else blockLength (d::text)+1
  | _ => 0

/-- How many characters `skipComment` skips. -/
def commentLength : Text → ℕ
  | c :: d :: text =>
    if c = '-' ∧ d = '-' ∨ c = '/' ∧ d = '/' then
      ((c::d::text).takeWhile (· ≠ '\n')).length
    else if c = '/' ∧ d = '*' then blockLength text+2
    else 0
  | _ => 0

def isIdentifierStart (c : Char) : Bool := c.isAlpha ∨ c = '_'
def isIdentifierPart (c : Char) : Bool := c.isAlphanum ∨ c = '_' ∨ c = '$'

def identifierAt (text : Text) : Lexeme :=
  let word := text.takeWhile isIdentifierPart
  ⟨(keywords.lookup word).getD .IDENTIFIER,word⟩

def fractionAt : Text → Text
  | c :: text => if c = '.' then c :: text.takeWhile Char.isDigit else []
  | [] => []

def signAt : Text → Text
  | c :: _ => if c = '+' ∨ c = '-' then [c] else []
  | [] => []

section Digits

/-- A digit is no blank and no sign, so the digits of a number are all that is read of it. -/
theorem plain_of_isDigit {c : Char} (h : c.isDigit) : isspace c = false ∧ c ≠ '+' ∧ c ≠ '-' := by
  refine ⟨?_,?_,?_⟩
  · by_contra hs
    simp only [isspace,Bool.not_eq_false,decide_eq_true_eq] at hs
    rcases hs with rfl | rfl | rfl | rfl | rfl | rfl <;> revert h <;> decide
  · rintro rfl
    revert h
    decide
  · rintro rfl
    revert h
    decide

theorem isDigit_of_mem_toDigits {n : ℕ} {c : Char} (h : c ∈ Nat.toDigits 10 n) : c.isDigit :=
  Nat.isDigit_of_mem_toDigits (by decide) (by decide) h

theorem exists_toDigits_cons (n : ℕ) :
    ∃ c text, Nat.toDigits 10 n = c::text ∧ c.isDigit := by
  obtain ⟨c,text,htext⟩ := List.exists_cons_of_ne_nil (@Nat.toDigits_ne_nil n 10)
  exact ⟨c,text,htext,isDigit_of_mem_toDigits (by rw [htext]; exact List.mem_cons_self)⟩

theorem dropWhile_isspace_toDigits (n : ℕ) :
    (Nat.toDigits 10 n).dropWhile isspace = Nat.toDigits 10 n := by
  obtain ⟨c,text,htext,hc⟩ := exists_toDigits_cons n
  rw [htext,List.dropWhile_cons_of_neg (by simp [(plain_of_isDigit hc).1])]

theorem signAt_toDigits (n : ℕ) : signAt (Nat.toDigits 10 n) = [] := by
  obtain ⟨c,text,htext,hc⟩ := exists_toDigits_cons n
  obtain ⟨_,hplus,hminus⟩ := plain_of_isDigit hc
  rw [htext,signAt,if_neg (not_or.mpr ⟨hplus,hminus⟩)]

theorem takeWhile_isDigit_toDigits (n : ℕ) :
    (Nat.toDigits 10 n).takeWhile Char.isDigit = Nat.toDigits 10 n :=
  List.takeWhile_eq_self_iff.mpr fun _ hc => isDigit_of_mem_toDigits hc

end Digits

def exponentAt : Text → Text
  | c :: text =>
    if c = 'e' ∨ c = 'E' then
      c :: (signAt text ++ (text.drop (signAt text).length).takeWhile Char.isDigit)
    else []
  | [] => []

def numberAt (text : Text) : Lexeme :=
  let whole := text.takeWhile Char.isDigit
  let fraction := fractionAt (text.drop whole.length)
  let exponent := exponentAt (text.drop (whole.length+fraction.length))
  ⟨if fraction = [] ∧ exponent = [] then .INTEGER else .FLOAT,whole++fraction++exponent⟩

/-- The loop of `readString` behind the opening quote: the text it collects and the number of
characters it reads. A backslash is dropped and what follows it is taken as it is. -/
def stringBody (quote : Char) : Text → Text × ℕ
  | c :: d :: text =>
    if c = quote then ([],1)
    else if c = '\\' then
      (d :: (stringBody quote text).1,(stringBody quote text).2+2)
    else (c :: (stringBody quote (d::text)).1,(stringBody quote (d::text)).2+1)
  | [c] => if c = quote ∨ c = '\\' then ([],1) else ([c],1)
  | [] => ([],0)

def twoCharacterOperators : List (Char × Char × TokenType) :=
  [('=','=',.EQ),('!','=',.NE),('<','=',.LE),('>','=',.GE),('|','|',.CONCAT),
   (':','=',.ASSIGN)]

def oneCharacterOperators : List (Char × TokenType) :=
  [('+',.PLUS),('-',.MINUS),('*',.STAR),('/',.SLASH),('%',.PERCENT),('=',.ASSIGN),
   ('<',.LT),('>',.GT),('(',.LPAREN),(')',.RPAREN),(',',.COMMA),('.',.DOT),
   (';',.SEMICOLON)]

/-- The operator that begins with `c`, the character `d` behind it. -/
def operatorOf (c : Char) (d : Option Char) : Lexeme :=
  match twoCharacterOperators.find? fun op => op.1 = c ∧ d = some op.2.1 with
  | some op => ⟨op.2.2,[op.1,op.2.1]⟩
  | none => ⟨(oneCharacterOperators.lookup c).getD .UNKNOWN,[c]⟩

namespace Lexer

/-- The constructor; it turns the whole input into upper case. -/
def new (input : Text) : Lexer := ⟨input.map Char.toUpper,1,1⟩

def advance (lx : Lexer) : Lexer :=
  match lx.rest with
  | [] => lx
  | c :: rest => if c = '\n' then ⟨rest,lx.line+1,1⟩ else ⟨rest,lx.line,lx.column+1⟩

def skipWhitespace (lx : Lexer) : Lexer := advance^[(lx.rest.takeWhile isspace).length] lx
def skipComment (lx : Lexer) : Lexer := advance^[commentLength lx.rest] lx

/-- A token that starts where the lexer `start` stands. -/
def tokenAt (start : Lexer) (l : Lexeme) : Token := ⟨l.type,l.text,start.line,start.column⟩

def readIdentifier (lx : Lexer) : Token × Lexer :=
  let l := identifierAt lx.rest
  (lx.tokenAt l,advance^[l.text.length] lx)

def readNumber (lx : Lexer) : Token × Lexer :=
  let l := numberAt lx.rest
  (lx.tokenAt l,advance^[l.text.length] lx)

/-- The position of a string or of an operator is taken behind its first character. -/
def readString (lx : Lexer) (quote : Char) : Token × Lexer :=
  let body := stringBody quote lx.advance.rest
  (lx.advance.tokenAt ⟨.STRING,body.1⟩,advance^[body.2] lx.advance)

def readOperator (lx : Lexer) (c : Char) : Token × Lexer :=
  let l := operatorOf c lx.advance.rest.head?
  (lx.advance.tokenAt l,advance^[l.text.length] lx)

def nextToken (lexer : Lexer) : Token × Lexer :=
  let lx := lexer.skipWhitespace.skipComment
  match lx.rest with
  | [] => (lx.tokenAt ⟨.END_OF_FILE,[]⟩,lx)
  | c :: _ =>
    if isIdentifierStart c then lx.readIdentifier
    else if c.isDigit then lx.readNumber
    else if c = '\'' ∨ c = '"' then lx.readString c
    else lx.readOperator c

/-- `getPosition`, the place that error messages name. -/
def getPosition (lx : Lexer) : String := s!"line {lx.line}, column {lx.column}"

/-- The tokens of at most `n` calls of `nextToken`, up to the first END_OF_FILE. -/
def tokens : ℕ → Lexer → List Token
  | 0, _ => []
  | n+1, lx =>
    if lx.nextToken.1.type = .END_OF_FILE then []
    else lx.nextToken.1 :: tokens n lx.nextToken.2

end Lexer

/-- The sequence of types and texts that repeated calls of `nextToken` return on an input;
END_OF_FILE follows for ever. -/
def lexemes (input : Text) : List Lexeme :=
  ((Lexer.new input).tokens (input.length+1)).map Token.lexeme

end OrangeSQL
