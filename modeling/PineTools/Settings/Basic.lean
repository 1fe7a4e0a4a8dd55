import PineTools.Layout.Options
import PineTools.Settings.Checked
import PineTools.Validate.Basic

namespace PineTools

namespace ValidationSettings

def standard : ValidationSettings Float := ⟨120, 180.0, 0.5, 10000, false, []⟩

def ofFields (r : Reading) (fields : List (Text × Json)) : Checked (ValidationSettings Float) :=
  let d := standard
  ValidationSettings.mk <$> Read.field fields "max_line_length" d.maxLineLength (r.natIn 1 none)
    <*> Read.field fields "max_validation_time" d.maxTime r.positive
    <*> Read.field fields "progress_interval" d.progressInterval r.positive
    <*> Read.field fields "size_warning_threshold" d.sizeThreshold (r.natIn 1 none)
    <*> Read.field fields "warnings_as_errors" d.warningsAsErrors r.bool
    <*> Read.field fields "ignored_rules" d.ignoredRules r.texts

end ValidationSettings

namespace FormatOptions

def ofFields (r : Reading) (fields : List (Text × Json)) : Checked FormatOptions :=
  let d := standard
  FormatOptions.mk <$> Read.field fields "indent_size" d.indentSize (r.natIn 1 (some 16))
    <*> Read.field fields "use_spaces" d.useSpaces r.bool
    <*> Read.field fields "spaces_around_operators" d.spacesAroundOperators r.bool
    <*> Read.field fields "space_after_commas" d.spaceAfterCommas r.bool
    <*> Read.field fields "max_line_length" d.maxLineLength (r.natIn 1 none)
    <*> Read.field fields "collapse_blank_lines" d.collapseBlankLines r.bool
    <*> Read.field fields "braces_on_new_line" d.bracesOnNewLine r.bool
    <*> Read.field fields "align_comments" d.alignComments r.bool
    <*> Read.field fields "update_version_comment" d.updateVersionComment r.bool

end FormatOptions

/-- Where scripts are kept. -/
structure HistorySettings where
  directory : Text
  cacheEnabled : Bool
  deriving DecidableEq, Repr, Inhabited

namespace HistorySettings

def standard : HistorySettings := ⟨".pinescript_history".toList, true⟩

def ofFields (r : Reading) (fields : List (Text × Json)) : Checked HistorySettings :=
  let d := standard
  HistorySettings.mk <$> Read.field fields "storage_directory" d.directory r.text
    <*> Read.field fields "cache_enabled" d.cacheEnabled r.bool

end HistorySettings

structure Settings where
  defaultVersion : ScriptVersion
  validation : ValidationSettings Float
  formatting : FormatOptions
  history : HistorySettings

namespace Settings

def standard : Settings := ⟨.standard, .standard, .standard, .standard⟩

def ofFields (r : Reading) (fields : List (Text × Json)) : Checked Settings :=
  let d := standard
  Settings.mk <$> Read.field fields "default_version" d.defaultVersion r.version
    <*> Read.field fields "validation" d.validation
      (Read.record .recordType (ValidationSettings.ofFields r))
    <*> Read.field fields "formatting" d.formatting
      (Read.record .recordType (FormatOptions.ofFields r))
    <*> Read.field fields "history" d.history (Read.record .recordType (HistorySettings.ofFields r))

/-- The settings as a value. The argument says how durations are written. -/
def toJson (duration : Float → Json) (s : Settings) : Json :=
  let object := fun fields : List (String × Json) =>
    Json.obj (fields.map fun f => (f.1.toList, f.2))
  object
    [("default_version", .ofString s.defaultVersion.name),
     ("validation", object
       [("max_line_length", .ofNat s.validation.maxLineLength),
        ("max_validation_time", duration s.validation.maxTime),
        ("progress_interval", duration s.validation.progressInterval),
        ("size_warning_threshold", .ofNat s.validation.sizeThreshold),
        ("warnings_as_errors", .bool s.validation.warningsAsErrors),
        ("ignored_rules", .arr (s.validation.ignoredRules.map .str))]),
     ("formatting", object
       [("indent_size", .ofNat s.formatting.indentSize),
        ("use_spaces", .bool s.formatting.useSpaces),
        ("spaces_around_operators", .bool s.formatting.spacesAroundOperators),
        ("space_after_commas", .bool s.formatting.spaceAfterCommas),
        ("max_line_length", .ofNat s.formatting.maxLineLength),
        ("collapse_blank_lines", .bool s.formatting.collapseBlankLines),
        ("braces_on_new_line", .bool s.formatting.bracesOnNewLine),
        ("align_comments", .bool s.formatting.alignComments),
        ("update_version_comment", .bool s.formatting.updateVersionComment)]),
     ("history", object
       [("storage_directory", .str s.history.directory),
         ("cache_enabled", .bool s.history.cacheEnabled)])]

end Settings
end PineTools
