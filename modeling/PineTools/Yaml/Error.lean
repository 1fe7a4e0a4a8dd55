import PineTools.Calendar.Moment

namespace PineTools.Yaml

/-- Why a document cannot be read. Most are malformed; the other causes are about what a scalar
stands for, about characters that do not exist, and about collections inside too many others. -/
inductive ReadError where
  | malformed
  | tooDeep
  | numeral (error : Decimal.NumeralError)
  | noFloat (text : Text)
  | stamp (error : Calendar.StampError)
  | noStamp
  | noTruthValue (word : Text)
  | emptyNumber
  | noCharacter (code : Nat)
  deriving DecidableEq, Repr, Inhabited

def ReadError.message : ReadError → String
  | .malformed => "the document is malformed"
  | .tooDeep => "the document nests too deeply"
  | .numeral e => e.message
  | .noFloat t => "could not convert string to float: " ++ String.ofList (Text.quoted t)
  | .stamp e => e.message
  | .noStamp => "the text is no time stamp"
  | .noTruthValue word => String.ofList (Text.quoted word)
  | .emptyNumber => "the number has no digits"
  | .noCharacter _ => "chr() arg not in range(0x110000)"

end PineTools.Yaml
