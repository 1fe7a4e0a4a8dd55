import PineTools.Text.Basic

namespace PineTools

/-- Words that are never the name of a function or a value. -/
def keywords : List String :=
  ["and", "or", "not", "if", "else", "for", "to", "by", "in", "while", "switch", "var", "varip",
    "let", "const",
   "method", "function", "return", "import", "export", "type", "true", "false"]

def typeKeywords : List String :=
  ["int", "float", "bool", "string", "color", "void", "line", "label", "box", "table",
    "linefill", "polyline",
   "series", "simple", "const", "input", "array", "matrix", "map"]

def typeQualifiers : List String := ["series", "simple", "const", "input"]

/-- Types written as a single word. -/
def plainTypes : List String :=
  ["int", "float", "bool", "string", "color", "void", "line", "label", "box", "table",
    "linefill", "polyline"]

/-- Types that take element types in angle brackets. -/
def genericTypes : List String := ["array", "matrix", "map"]

/-- Words that begin a control structure or an operation and so never name a definition. -/
def controlWords : List String := ["if", "for", "while", "switch", "and", "or", "not"]

def isKeyword (t : Text) : Bool := keywords.any fun w => w.toList == t

def isTypeKeyword (t : Text) : Bool := typeKeywords.any fun w => w.toList == t

end PineTools
