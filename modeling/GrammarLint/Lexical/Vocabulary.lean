import GrammarLint.Lexical.Kind
import GrammarLint.Lexical.Pattern

namespace GrammarLint.Lexical

/-- What the text between tokens is read as: the plain rules of a grammar, the inside of an
argument block, or the inside of a character set. -/
inductive Mode where
  | default
  | argument
  | charSet
deriving DecidableEq, Repr

inductive Channel where
  | main
  | blank
  | comment
deriving DecidableEq, Repr

/-- What happens when a piece of text has been recognised. -/
inductive Effect where
  | token (kind : Kind)
  /-- A token outside the main channel. -/
  | aside (kind : Kind) (channel : Channel)
  /-- A name: a token or a rule reference by the case of its first letter. -/
  | name
  /-- A bracket that opens a character set in a lexer rule and an argument block elsewhere. -/
  | openBracket
  /-- A bracket inside an argument block. -/
  | openNested
  /-- The end of an argument block or of a bracket inside one. -/
  | closeBracket
  /-- The token goes on with the next piece. -/
  | more
  /-- A token that ends the current mode. -/
  | close (kind : Kind)
deriving DecidableEq, Repr

structure LexicalRule where
  shape : Shape
  effect : Effect
deriving DecidableEq, Repr

namespace Vocabulary

open Pattern

def hexDigit : Pattern := oneOf [('0', '9'), ('a', 'f'), ('A', 'F')]

def unicodeEscape : Pattern :=
  seq (one 'u') (opt (seq hexDigit (opt (seq hexDigit (opt (seq hexDigit (opt hexDigit)))))))

def escape : Pattern :=
  seq (one '\\')
    (choice (oneOf [('b', 'b'), ('t', 't'), ('n', 'n'), ('f', 'f'), ('r', 'r'), ('"', '"'),
      ('\'', '\''), ('\\', '\\')]) [unicodeEscape, any, atEnd])

def openLiteral : Pattern :=
  seq (one '\'') (star (alt escape (noneOf ['\'', '\r', '\n', '\\'])))

def closedLiteral : Pattern := seq openLiteral (one '\'')

def doubleQuoted : Pattern :=
  sequence [one '"', lazyStar (alt escape (noneOf ['"', '\r', '\n', '\\'])), one '"']

def tripleQuoted : Pattern :=
  sequence [literal "\"\"\"", lazyStar (alt escape any), literal "\"\"\""]

def backtickQuoted : Pattern :=
  sequence [one '`', lazyStar (alt escape (noneOf ['"', '\r', '\n', '\\'])), one '`']

def lineComment : Pattern := seq (literal "//") (star (noneOf ['\r', '\n']))

def commentFrom (opening : String) : Pattern :=
  sequence [literal opening, lazyStar any, alt (literal "*/") atEnd]

/-- A block in braces. Quoted texts, comments and escapes inside it are taken as a whole. -/
def bracedAction : Shape :=
  .block ⟨false, [('{', '{')]⟩
    (choice closedLiteral [doubleQuoted, tripleQuoted, backtickQuoted,
      sequence [literal "/*", lazyStar any, literal "*/"], lineComment, seq (one '\\') any,
      noneOf ['\\', '"', '\'', '`', '{']])
    ⟨false, [('}', '}')]⟩

def blanks : Pattern :=
  plus (oneOf [(' ', ' '), ('\t', '\t'), ('\r', '\r'), ('\n', '\n'), ('\x0c', '\x0c')])

def blockOpener (word : String) : Pattern :=
  sequence [literal word, star blanks, one '{']

def nameStartRanges : List (Char × Char) :=
  [('A', 'Z'), ('a', 'z'), ('\u00c0', '\u00d6'), ('\u00d8', '\u00f6'), ('\u00f8', '\u02ff'),
    ('\u0370', '\u037d'), ('\u037f', '\u1fff'), ('\u200c', '\u200d'), ('\u2070', '\u218f'),
    ('\u2c00', '\u2fef'), ('\u3001', '\ud7ff'), ('\uf900', '\ufdcf'), ('\ufdf0', '\ufffd')]

def nameRanges : List (Char × Char) :=
  nameStartRanges ++ [('0', '9'), ('_', '_'), ('\u00b7', '\u00b7'), ('\u0300', '\u036f'),
    ('\u203f', '\u2040')]

def word (spelling : String) (kind : Kind) : LexicalRule :=
  ⟨.plain (literal spelling), .token kind⟩

/-- The kinds of text outside argument blocks and character sets. Of two that match the same
text the earlier one counts. -/
def defaultRules : List LexicalRule := [
  ⟨.plain (commentFrom "/**"), .aside .docComment .comment⟩,
  ⟨.plain (commentFrom "/*"), .aside .blockComment .comment⟩,
  ⟨.plain lineComment, .aside .lineComment .comment⟩,
  ⟨.plain (alt (one '0') (seq (oneOf [('1', '9')]) (star (oneOf [('0', '9')])))), .token .integer⟩,
  ⟨.plain closedLiteral, .token .stringLiteral⟩,
  ⟨.plain openLiteral, .token .unterminatedStringLiteral⟩,
  ⟨.plain (one '['), .openBracket⟩,
  ⟨bracedAction, .token .action⟩,
  ⟨.plain (blockOpener "options"), .token .optionsOpen⟩,
  ⟨.plain (blockOpener "tokens"), .token .tokensOpen⟩,
  ⟨.plain (blockOpener "channels"), .token .channelsOpen⟩,
  word "import" .importKeyword,
  word "fragment" .fragmentKeyword,
  word "lexer" .lexerKeyword,
  word "parser" .parserKeyword,
  word "grammar" .grammarKeyword,
  word "protected" .protectedKeyword,
  word "public" .publicKeyword,
  word "private" .privateKeyword,
  word "returns" .returnsKeyword,
  word "locals" .localsKeyword,
  word "throws" .throwsKeyword,
  word "catch" .catchKeyword,
  word "finally" .finallyKeyword,
  word "mode" .modeKeyword,
  word ":" .colon,
  word "::" .doubleColon,
  word "," .comma,
  word ";" .semicolon,
  word "(" .leftParen,
  word ")" .rightParen,
  word "\x7d" .rightBrace,
  word "->" .arrow,
  word "<" .less,
  word ">" .greater,
  word "=" .assign,
  word "?" .question,
  word "*" .star,
  word "+=" .plusAssign,
  word "+" .plus,
  word "|" .bar,
  word "$" .dollar,
  word ".." .doubleDot,
  word "." .dot,
  word "@" .atSign,
  word "#" .pound,
  word "~" .tilde,
  ⟨.plain (seq (oneOf nameStartRanges) (star (oneOf nameRanges))), .name⟩,
  ⟨.plain blanks, .aside .whitespace .blank⟩]

def argumentRules : List LexicalRule := [
  ⟨.plain (one '['), .openNested⟩,
  ⟨.plain (seq (one '\\') any), .token .argumentContent⟩,
  ⟨.plain doubleQuoted, .token .argumentContent⟩,
  ⟨.plain closedLiteral, .token .argumentContent⟩,
  ⟨.plain (one ']'), .closeBracket⟩,
  ⟨.plain atEnd, .close .unterminatedArgument⟩,
  ⟨.plain any, .token .argumentContent⟩]

def charSetRules : List LexicalRule := [
  ⟨.plain (plus (alt (noneOf [']', '\\']) (seq (one '\\') any))), .more⟩,
  ⟨.plain (one ']'), .close .lexerCharSet⟩,
  ⟨.plain atEnd, .close .unterminatedCharSet⟩]

def rules : Mode → List LexicalRule
  | .default => defaultRules
  | .argument => argumentRules
  | .charSet => charSetRules

end Vocabulary

end GrammarLint.Lexical
