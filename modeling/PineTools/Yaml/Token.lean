import PineTools.Yaml.Error

namespace PineTools.Yaml

/-- An instruction before a document. Of the version only the first number matters; instructions of
other names are kept without a meaning. -/
inductive Directive where
  | version (major : Int)
  | handle (name : Text) (stem : Text)
  | other
  deriving DecidableEq, Repr, Inhabited

inductive Token where
  | directive (d : Directive)
  | documentStart
  | documentEnd
  | streamEnd
  | blockSequenceStart
  | blockMappingStart
  | blockEnd
  | flowSequenceStart
  | flowSequenceEnd
  | flowMappingStart
  | flowMappingEnd
  | blockEntry
  | flowEntry
  | key
  | value
  | reference (name : Text)
  | anchor (name : Text)
  | tag (handle : Option Text) (suffix : Text)
  | scalar (text : Text) (plain : Bool)
  deriving DecidableEq, Repr, Inhabited

end PineTools.Yaml
