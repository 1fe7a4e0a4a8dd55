import PineTools.Files.Tree
import PineTools.Settings.Checked

namespace PineTools

structure Host where
  bars : Files.Bars
  nesting : Nat
  reading : Reading

namespace Host

/-- A host on which files are a mere map from paths. -/
def plain : Host := ⟨.never, 989, .standard⟩

@[simp] theorem plain_bars : plain.bars = .never := rfl

@[simp] theorem plain_nesting : plain.nesting = 989 := rfl

@[simp] theorem plain_reading : plain.reading = .standard := rfl

/-- A host with the usual limits of names and paths. -/
def usual : Host := ⟨.lengths, 989, .standard⟩

end Host
end PineTools
