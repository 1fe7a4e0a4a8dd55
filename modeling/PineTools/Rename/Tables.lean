import PineTools.Text.Basic

/-! Tables of names that changed between versions of the language. The repairs and the converter
read the same tables, so that they agree on what a built-in function is called. -/
namespace PineTools

/-- Pairs of old and new names, and the import that newer scripts get. The names are of type `ν`,
since a file may hold values that are no texts. -/
structure RenameTables (ν : Type) where
  namespacedFunctions : List (ν × ν)
  declarationRenames : List (ν × ν)
  remoteDataRenames : List (ν × ν)
  defaultImport : Text
  schemaVersion : Text
  deriving Inhabited

namespace RenameTables

variable {ν : Type}

/-- Adds a pair. The last value of a key wins, and its first position stays. -/
def setPair [BEq ν] (key value : ν) : List (ν × ν) → List (ν × ν)
  | [] => [(key, value)]
  | (k, v) :: rest => if k == key then (k, value) :: rest else (k, v) :: setPair key value rest

def merge [BEq ν] (pairs : List (ν × ν)) :
    List (ν × ν) := pairs.foldl (fun merged p => setPair p.1 p.2 merged) []

def empty : RenameTables ν := ⟨[], [], [], "import ta".toList, "1.0".toList⟩

/-- The functions that moved into a namespace of the same name. -/
def technicalFunctions : List String :=
  ["atr", "bb", "cci", "cross", "crossover", "crossunder", "ema", "highest", "lowest", "macd",
    "rsi", "sma", "stoch"]

/-- The tables that are used unless others are given. -/
def shipped : RenameTables Text :=
  { namespacedFunctions := technicalFunctions.map fun name => (name.toList, ("ta." ++ name).toList)
    declarationRenames := [("study".toList, "indicator".toList)]
    remoteDataRenames := [("security".toList, "request.security".toList)]
    defaultImport := "import ta".toList
    schemaVersion := "1.0".toList }

def renames [BEq ν] (tables : RenameTables ν) : List (ν × ν) :=
  tables.remoteDataRenames.foldl (fun merged p => setPair p.1 p.2 merged) tables.declarationRenames

end RenameTables
end PineTools
