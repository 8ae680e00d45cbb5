namespace GrammarLint.Lexical

/-- What a token of a grammar file is. A keyword block opener such as `options {` is one token. -/
inductive Kind where
  | endOfFile
  | action
  | assign
  | lexerCharSet
  | ruleRef
  | stringLiteral
  | tokenRef
  | whitespace
  | docComment
  | blockComment
  | lineComment
  | integer
  | unterminatedStringLiteral
  | beginArgument
  | optionsOpen
  | tokensOpen
  | channelsOpen
  | importKeyword
  | fragmentKeyword
  | lexerKeyword
  | parserKeyword
  | grammarKeyword
  | protectedKeyword
  | publicKeyword
  | privateKeyword
  | returnsKeyword
  | localsKeyword
  | throwsKeyword
  | catchKeyword
  | finallyKeyword
  | modeKeyword
  | colon
  | doubleColon
  | comma
  | semicolon
  | leftParen
  | rightParen
  | rightBrace
  | arrow
  | less
  | greater
  | question
  | star
  | plusAssign
  | plus
  | bar
  | dollar
  | doubleDot
  | dot
  | atSign
  | pound
  | tilde
  | endArgument
  | unterminatedArgument
  | argumentContent
  | unterminatedCharSet
deriving DecidableEq, Repr

namespace Kind

def name : Kind → String
  | .endOfFile => "EOF"
  | .action => "ACTION"
  | .assign => "ASSIGN"
  | .lexerCharSet => "LEXER_CHAR_SET"
  | .ruleRef => "RULE_REF"
  | .stringLiteral => "STRING_LITERAL"
  | .tokenRef => "TOKEN_REF"
  | .whitespace => "WS"
  | .docComment => "DOC_COMMENT"
  | .blockComment => "BLOCK_COMMENT"
  | .lineComment => "LINE_COMMENT"
  | .integer => "INT"
  | .unterminatedStringLiteral => "UNTERMINATED_STRING_LITERAL"
  | .beginArgument => "BEGIN_ARGUMENT"
  | .optionsOpen => "OPTIONS"
  | .tokensOpen => "TOKENS"
  | .channelsOpen => "CHANNELS"
  | .importKeyword => "IMPORT"
  | .fragmentKeyword => "FRAGMENT"
  | .lexerKeyword => "LEXER"
  | .parserKeyword => "PARSER"
  | .grammarKeyword => "GRAMMAR"
  | .protectedKeyword => "PROTECTED"
  | .publicKeyword => "PUBLIC"
  | .privateKeyword => "PRIVATE"
  | .returnsKeyword => "RETURNS"
  | .localsKeyword => "LOCALS"
  | .throwsKeyword => "THROWS"
  | .catchKeyword => "CATCH"
  | .finallyKeyword => "FINALLY"
  | .modeKeyword => "MODE"
  | .colon => "COLON"
  | .doubleColon => "COLONCOLON"
  | .comma => "COMMA"
  | .semicolon => "SEMI"
  | .leftParen => "LPAREN"
  | .rightParen => "RPAREN"
  | .rightBrace => "RBRACE"
  | .arrow => "RARROW"
  | .less => "LT"
  | .greater => "GT"
  | .question => "QUESTION"
  | .star => "STAR"
  | .plusAssign => "PLUS_ASSIGN"
  | .plus => "PLUS"
  | .bar => "OR"
  | .dollar => "DOLLAR"
  | .doubleDot => "RANGE"
  | .dot => "DOT"
  | .atSign => "AT"
  | .pound => "POUND"
  | .tilde => "NOT"
  | .endArgument => "END_ARGUMENT"
  | .unterminatedArgument => "UNTERMINATED_ARGUMENT"
  | .argumentContent => "ARGUMENT_CONTENT"
  | .unterminatedCharSet => "UNTERMINATED_CHAR_SET"

/-- The quoted spelling of a kind that has only one, and a placeholder for the others. -/
def spelling : Kind → String
  | .endOfFile => "EOF"
  | .assign => "'='"
  | .beginArgument => "'['"
  | .importKeyword => "'import'"
  | .fragmentKeyword => "'fragment'"
  | .lexerKeyword => "'lexer'"
  | .parserKeyword => "'parser'"
  | .grammarKeyword => "'grammar'"
  | .protectedKeyword => "'protected'"
  | .publicKeyword => "'public'"
  | .privateKeyword => "'private'"
  | .returnsKeyword => "'returns'"
  | .localsKeyword => "'locals'"
  | .throwsKeyword => "'throws'"
  | .catchKeyword => "'catch'"
  | .finallyKeyword => "'finally'"
  | .modeKeyword => "'mode'"
  | .colon => "':'"
  | .doubleColon => "'::'"
  | .comma => "','"
  | .semicolon => "';'"
  | .leftParen => "'('"
  | .rightParen => "')'"
  | .rightBrace => "'\x7d'"
  | .arrow => "'->'"
  | .less => "'<'"
  | .greater => "'>'"
  | .question => "'?'"
  | .star => "'*'"
  | .plusAssign => "'+='"
  | .plus => "'+'"
  | .bar => "'|'"
  | .dollar => "'$'"
  | .doubleDot => "'..'"
  | .dot => "'.'"
  | .atSign => "'@'"
  | .pound => "'#'"
  | .tilde => "'~'"
  | _ => "<INVALID>"

/-- The place of a kind in the order of declaration. -/
def code (kind : Kind) : Nat := kind.ctorIdx

end Kind

end GrammarLint.Lexical
