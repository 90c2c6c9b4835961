/-! The fixed words and operators of the language family. -/

namespace Retouch.Syntax

/-- Words that are keywords wherever they stand (`RESERVED`). -/
def reserved : List String :=
  ["await", "break", "case", "catch", "class", "const", "continue", "debugger", "default",
   "delete", "do", "else", "enum", "export", "extends", "false", "finally", "for", "function",
   "if", "implements", "import", "in", "instanceof", "interface", "let", "new", "null", "package",
   "private", "protected", "public", "return", "static", "super", "switch", "this", "throw",
   "true", "try", "typeof", "var", "void", "while", "with", "yield"]

/-- Words that are keywords only where a keyword can stand (`CONTEXTUAL`). -/
def contextual : List String := ["as", "async", "from", "get", "of", "set"]

/-- Further such words of the typed dialects (`TYPED_CONTEXTUAL`). -/
def typedContextual : List String :=
  ["abstract", "asserts", "declare", "infer", "is", "keyof", "module", "namespace", "override",
   "readonly", "satisfies", "type", "unique"]

/-- Operators of more than one character (`PUNCTUATORS`). A longer one stands before every
operator it begins with, so the first that fits is the longest that fits. -/
def operators : List String :=
  [">>>=", "...", "===", "!==", "**=", "<<=", ">>=", ">>>", "&&=", "||=", "??=", "=>", "==",
   "!=", "<=", ">=", "&&", "||", "??", "?.", "++", "--", "+=", "-=", "*=", "/=", "%=", "&=",
   "|=", "^=", "<<", ">>", "**"]

/-- Keywords that are values: what follows them continues an expression. -/
def valueWords : List String := ["this", "super", "null", "true", "false"]

end Retouch.Syntax
