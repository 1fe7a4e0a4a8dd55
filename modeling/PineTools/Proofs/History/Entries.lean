import PineTools.Proofs.History.Caching

/-! The entries of a directory, whatever bytes its files hold. An entry is intact, is left out or
makes the history unreadable; a history that can be given shows the intact entries, and no others,
in the order of their file names. -/
namespace PineTools

namespace Files.Tree

/-- The tree is a map, and what lies in the directory lies in a directory. -/
structure Regular (t : Tree) (dir : Path) : Prop where
  distinct : t.Distinct dir
  directory : ∀ name, t.hasEntry (dir.child name) = true → t.isDirectory dir = true

theorem hasEntry_of_read {bars : Bars} {t : Tree} {p : Path} {data : ByteArray}
    (h : t.read bars p = .ok data) : t.hasEntry p = true :=
  hasEntry_iff.mpr ⟨_, (look_eq_ok_iff.mp (read_eq_ok_iff.mp h)).2⟩

end Files.Tree

namespace History

open Files

section Entries

variable (host : Host) (tree : Tree) (dir : Path) (stem : Text)

/-- Both files of the entry hold texts, that of the metadata is JSON, and together they make up the
record. -/
def Intact (r : Record) : Prop :=
  ∃ metadataText fields,
    tree.read host.bars (dir.child (stem ++ sourceEnding)) = .ok (Text.encodeUtf8 r.content) ∧
    tree.read host.bars (dir.child (stem ++ metadataEnding)) =
      .ok (Text.encodeUtf8 metadataText) ∧
    Json.parse host.nesting metadataText = .ok (.obj fields) ∧
    r.Described host.reading fields r.content

/-- The entry makes the whole history unreadable: its metadata are no text, hold a whole number that
is too long or nest too deeply, or they are JSON and its source is no text. -/
inductive Breaks : LoadError → Prop
  | metadata {data : ByteArray} {fault : Utf8Fault}
      (hsource : tree.hasEntry (dir.child (stem ++ sourceEnding)) = true)
      (hfile : tree.read host.bars (dir.child (stem ++ metadataEnding)) = .ok data)
      (hfault : Text.decodeUtf8 data = .error fault) : Breaks (.notText fault)
  | numeral {text : Text} {e : Decimal.NumeralError}
      (hsource : tree.hasEntry (dir.child (stem ++ sourceEnding)) = true)
      (hfile : tree.read host.bars (dir.child (stem ++ metadataEnding)) =
        .ok (Text.encodeUtf8 text))
      (hparse : Json.parse host.nesting text = .error (.numeral e)) : Breaks (.numeral e)
  | tooDeep {text : Text} (hsource : tree.hasEntry (dir.child (stem ++ sourceEnding)) = true)
      (hfile : tree.read host.bars (dir.child (stem ++ metadataEnding)) =
        .ok (Text.encodeUtf8 text))
      (hparse : Json.parse host.nesting text = .error .tooDeep) : Breaks .tooDeep
  | source {text : Text} {metadata : Json} {data : ByteArray} {fault : Utf8Fault}
      (hfile : tree.read host.bars (dir.child (stem ++ metadataEnding)) =
        .ok (Text.encodeUtf8 text))
      (hparse : Json.parse host.nesting text = .ok metadata)
      (hsource : tree.read host.bars (dir.child (stem ++ sourceEnding)) = .ok data)
      (hfault : Text.decodeUtf8 data = .error fault) : Breaks (.notText fault)

end Entries

section Loading

variable {host : Host} {tree : Tree} {dir : Path} {stem : Text}

theorem stem_of_sourceName (stem : Text) :
    (stem ++ sourceEnding).take ((stem ++ sourceEnding).length - sourceEnding.length) = stem := by
  rw [List.length_append, Nat.add_sub_cancel, List.take_left]

theorem Intact.loadEntry (hreading : host.reading.Sound) {r : Record}
    (h : Intact host tree dir stem r) :
    loadEntry host tree dir (stem ++ sourceEnding) = .ok (some r) := by
  obtain ⟨metadataText, fields, hsource, hmetadata, hparse, hdescribed⟩ := h
  rw [History.loadEntry, stem_of_sourceName, hmetadata, hsource]
  simp only [Text.decodeUtf8_encodeUtf8, hparse,
    (ofMetadata?_eq_some_iff hreading).mpr ⟨fields, rfl, hdescribed⟩]

theorem Breaks.loadEntry {e : LoadError} (h : Breaks host tree dir stem e) :
    loadEntry host tree dir (stem ++ sourceEnding) = .error e := by
  rw [History.loadEntry, stem_of_sourceName]
  cases h with
  | metadata hsource hfile hfault => rw [hfile]; simp only [hfault]
  | numeral hsource hfile hparse => rw [hfile]; simp only [Text.decodeUtf8_encodeUtf8, hparse]
  | tooDeep hsource hfile hparse => rw [hfile]; simp only [Text.decodeUtf8_encodeUtf8, hparse]
  | source hfile hparse hsource hfault =>
    rw [hfile, hsource]
    simp only [Text.decodeUtf8_encodeUtf8, hparse, hfault]

/-- A record comes from an intact entry, and an error from one that makes the history unreadable. -/
theorem loadEntry_outcome (hreading : host.reading.Sound)
    (hentry : tree.hasEntry (dir.child (stem ++ sourceEnding)) = true) :
    match loadEntry host tree dir (stem ++ sourceEnding) with
    | .error e => Breaks host tree dir stem e
    | .ok (some r) => Intact host tree dir stem r
    | .ok none => True := by
  rw [loadEntry, stem_of_sourceName]
  cases hmetadata : tree.read host.bars (dir.child (stem ++ metadataEnding)) with
  | error e => exact trivial
  | ok metadataBytes =>
    dsimp only
    cases htext : Text.decodeUtf8 metadataBytes with
    | error fault => exact .metadata hentry hmetadata htext
    | ok metadataText =>
      obtain rfl := Text.decodeUtf8_eq_ok_iff.mp htext
      dsimp only
      cases hparse : Json.parse host.nesting metadataText with
      | error e =>
        cases e with
        | malformed => exact trivial
        | numeral e => exact .numeral hentry hmetadata hparse
        | tooDeep => exact .tooDeep hentry hmetadata hparse
      | ok metadata =>
        dsimp only
        cases hsource : tree.read host.bars (dir.child (stem ++ sourceEnding)) with
        | error e => exact trivial
        | ok bytes =>
          dsimp only
          cases hcontent : Text.decodeUtf8 bytes with
          | error fault => exact .source hmetadata hparse hsource hcontent
          | ok content =>
            obtain rfl := Text.decodeUtf8_eq_ok_iff.mp hcontent
            dsimp only
            cases hrecord : Record.ofMetadata? host.reading metadata content with
            | none => exact trivial
            | some r =>
              obtain ⟨fields, rfl, hdescribed⟩ := (ofMetadata?_eq_some_iff hreading).mp hrecord
              obtain rfl := hdescribed.content
              exact ⟨metadataText, fields, hsource, hmetadata, hparse, hdescribed⟩

theorem Breaks.entry {e : LoadError} (h : Breaks host tree dir stem e) :
    tree.hasEntry (dir.child (stem ++ sourceEnding)) = true := by
  cases h with
  | metadata hsource | numeral hsource | tooDeep hsource => exact hsource
  | source _ _ hsource => exact Tree.hasEntry_of_read hsource

theorem Intact.entry {r : Record} (h : Intact host tree dir stem r) :
    tree.hasEntry (dir.child (stem ++ sourceEnding)) = true := by
  obtain ⟨-, -, hsource, -⟩ := h
  exact Tree.hasEntry_of_read hsource

theorem intact_of_loadEntry (hreading : host.reading.Sound) {r : Record}
    (hentry : tree.hasEntry (dir.child (stem ++ sourceEnding)) = true)
    (h : loadEntry host tree dir (stem ++ sourceEnding) = .ok (some r)) :
    Intact host tree dir stem r := by
  have houtcome := loadEntry_outcome hreading hentry
  rwa [h] at houtcome

/-- The first entry that makes the history unreadable says why. Without one all intact entries are
loaded. -/
theorem loadEntries_outcome (hreading : host.reading.Sound) {stems : List Text}
    (hentries : ∀ stem ∈ stems, tree.hasEntry (dir.child (stem ++ sourceEnding)) = true) :
    match loadEntries host tree dir (stems.map (· ++ sourceEnding)) with
    | .error e => ∃ before stem after, stems = before ++ stem :: after ∧
    Breaks host tree dir stem e ∧
        ∀ other ∈ before, ∀ e', ¬ Breaks host tree dir other e'
    | .ok records => (∀ stem ∈ stems, ∀ e, ¬ Breaks host tree dir stem e) ∧
    ∃ found : List (Text × Record),
        records = found.map Prod.snd ∧ (found.map Prod.fst).Sublist stems ∧
          ∀ stem r, (stem, r) ∈ found ↔ stem ∈ stems ∧ Intact host tree dir stem r := by
  induction stems with
  | nil => exact ⟨List.forall_mem_nil _, [], rfl, .slnil, fun stem r => by simp⟩
  | cons stem stems ih =>
    obtain ⟨hentry, hentries⟩ := List.forall_mem_cons.mp hentries
    have hfirst := loadEntry_outcome hreading hentry
    have hbreaks {e : LoadError} (h : Breaks host tree dir stem e) := h.loadEntry
    have hintact {r : Record} (h : Intact host tree dir stem r) := h.loadEntry hreading
    rw [List.map_cons, loadEntries]
    cases hload : loadEntry host tree dir (stem ++ sourceEnding) with
    | error e =>
      rw [hload] at hfirst
      exact ⟨[], stem, stems, rfl, hfirst, List.forall_mem_nil _⟩
    | ok loaded =>
      have hwhole : ∀ e, ¬ Breaks host tree dir stem e :=
        fun e h => by cases hload.symm.trans (hbreaks h)
      have hloaded {r : Record} : loaded = some r ↔ Intact host tree dir stem r := by
        refine ⟨fun e => ?_, fun h => Except.ok.inj (hload.symm.trans (hintact h))⟩
        rwa [hload, e] at hfirst
      have hrest := ih hentries
      dsimp only
      cases hrecords : loadEntries host tree dir (stems.map (· ++ sourceEnding)) with
      | error e =>
        rw [hrecords] at hrest
        obtain ⟨before, other, after, rfl, hother, hnone⟩ := hrest
        exact ⟨stem :: before, other, after, rfl, hother, List.forall_mem_cons.mpr ⟨hwhole, hnone⟩⟩
      | ok records =>
        rw [hrecords] at hrest
        obtain ⟨hnone, found, rfl, hsublist, hfound⟩ := hrest
        refine ⟨List.forall_mem_cons.mpr ⟨hwhole, hnone⟩, (loaded.map (stem, ·)).toList ++ found,
          ?_, ?_, fun stem' r => ?_⟩
        · cases loaded <;> rfl
        · cases loaded with
          | none => exact hsublist.cons stem
          | some r => exact hsublist.cons_cons stem
        · rw [List.mem_append, Option.mem_toList, Option.map_eq_some_iff, hfound, List.mem_cons]
          constructor
          · rintro (⟨r', hr', e⟩ | ⟨hstem, hr⟩)
            · cases e
              exact ⟨.inl rfl, hloaded.mp hr'⟩
            · exact ⟨.inr hstem, hr⟩
          · rintro ⟨rfl | hstem, hr⟩
            · exact .inl ⟨r, hloaded.mpr hr, rfl⟩
            · exact .inr ⟨hstem, hr⟩

/-- The source files that are listed in a directory, without their ending and in order. -/
theorem listed_stems (h : tree.Distinct dir) : ∃ stems : List Text,
    ((tree.entries dir).filter fun n => sourceEnding.isSuffixOf n) = stems.map (· ++ sourceEnding) ∧
      (stems.map (· ++ sourceEnding)).Pairwise (· < ·) ∧
      ∀ stem, stem ∈ stems ↔ tree.hasEntry (dir.child (stem ++ sourceEnding)) = true := by
  have hsorted : ((tree.entries dir).filter fun n => sourceEnding.isSuffixOf n).Pairwise (· < ·) :=
    (Tree.entries_sorted h).sublist List.filter_sublist
  have hnames (stem : Text) : stem ++ sourceEnding ∈ (tree.entries dir).filter
    (fun n => sourceEnding.isSuffixOf n) ↔
      tree.hasEntry (dir.child (stem ++ sourceEnding)) = true := by
    rw [List.mem_filter, Tree.mem_entries]
    exact and_iff_left (isSuffixOf_sourceEnding.mpr ⟨stem, rfl⟩)
  obtain ⟨stems, hstems⟩ : ∃ stems : List Text,
      (tree.entries dir).filter (fun n => sourceEnding.isSuffixOf n) =
        stems.map (· ++ sourceEnding) := by
    refine ⟨((tree.entries dir).filter fun n => sourceEnding.isSuffixOf n).map
      fun n => n.take (n.length - sourceEnding.length), ?_⟩
    rw [List.map_map]
    refine (List.map_congr_left fun name hname => ?_).trans (List.map_id _) |>.symm
    obtain ⟨stem, rfl⟩ := isSuffixOf_sourceEnding.mp (List.mem_filter.mp hname).2
    exact congrArg (· ++ sourceEnding) (stem_of_sourceName stem)
  rw [hstems] at hsorted hnames
  refine ⟨stems, hstems, hsorted, fun stem => ?_⟩
  rw [← hnames, List.mem_map]
  exact ⟨fun hstem => ⟨stem, hstem, rfl⟩, fun ⟨stem', hstem, e⟩ =>
    List.append_cancel_right e ▸ hstem⟩

/-- An entry makes the history unreadable, and none before it does. -/
def FirstBreaks (host : Host) (tree : Tree) (dir : Path) (stem : Text) (e : LoadError) : Prop :=
  Breaks host tree dir stem e ∧
    ∀ other e', Breaks host tree dir other e' → ¬ other ++ sourceEnding < stem ++ sourceEnding

/-- Why the records of a directory cannot be given: a lookup of the directory is barred, or else an
entry makes them unreadable. -/
inductive Withheld (host : Host) (tree : Tree) (dir : Path) : LoadError → Prop
  | directory {e : FileError} (hbarred : tree.look host.bars dir = .error e) :
    Withheld host tree dir (.file e)
  | entry {found : Option Node} {stem : Text} {e : LoadError}
      (hfound : tree.look host.bars dir = .ok found) (hfirst : FirstBreaks host tree dir stem e) :
      Withheld host tree dir e

/-- The records are those of the intact entries, in the order of the names of their source files. -/
def ShowsIntact (host : Host) (tree : Tree) (dir : Path) (records : List Record) : Prop :=
  ∃ found : List (Text × Record), records = found.map Prod.snd ∧
    (found.map fun f => f.1 ++ sourceEnding).Pairwise (· < ·) ∧
    ∀ stem r, (stem, r) ∈ found ↔ Intact host tree dir stem r

theorem loadListed_outcome (hreading : host.reading.Sound) (h : tree.Distinct dir) :
    match loadEntries host tree dir
      ((tree.entries dir).filter fun n => sourceEnding.isSuffixOf n) with
    | .error e => ∃ stem, FirstBreaks host tree dir stem e
    | .ok records => (∀ stem e, ¬ Breaks host tree dir stem e) ∧
    ShowsIntact host tree dir records := by
  obtain ⟨stems, hstems, hsorted, hmem⟩ := listed_stems h
  have houtcome := loadEntries_outcome hreading fun stem hstem => (hmem stem).mp hstem
  rw [hstems]
  cases hload : loadEntries host tree dir (stems.map (· ++ sourceEnding)) with
  | error e =>
    rw [hload] at houtcome
    obtain ⟨before, stem, after, rfl, hbreaks, hnone⟩ := houtcome
    refine ⟨stem, hbreaks, fun other e' hother hlt => ?_⟩
    have hafter := (List.pairwise_append.mp (List.pairwise_map.mp hsorted)).2.1
    rcases List.mem_append.mp ((hmem other).mpr hother.entry) with hbefore | hbehind
    · exact hnone other hbefore e' hother
    · rcases List.mem_cons.mp hbehind with rfl | hbehind
      · exact List.lt_irrefl _ hlt
      · exact List.lt_irrefl _ (List.lt_trans hlt (List.rel_of_pairwise_cons hafter hbehind))
  | ok records =>
    rw [hload] at houtcome
    obtain ⟨hnone, found, rfl, hsublist, hfound⟩ := houtcome
    refine ⟨fun stem e hbreaks => hnone stem ((hmem stem).mpr hbreaks.entry) e hbreaks,
      found, rfl, ?_, fun stem r => ?_⟩
    · have := hsorted.sublist (hsublist.map (· ++ sourceEnding))
      rwa [List.map_map] at this
    · rw [hfound, hmem, and_iff_right_iff_imp]
      exact Intact.entry

theorem loadDirectory_outcome (hreading : host.reading.Sound) (h : tree.Regular dir) :
    match loadDirectory host tree dir with
    | .error e => Withheld host tree dir e
    | .ok records => (∃ found, tree.look host.bars dir = .ok found) ∧
        (∀ stem e, ¬ Breaks host tree dir stem e) ∧ ShowsIntact host tree dir records := by
  rw [loadDirectory]
  cases hlook : tree.look host.bars dir with
  | error e => exact .directory hlook
  | ok found =>
    have habsent (h' : found ≠ some .directory) (name : Text) :
        tree.hasEntry (dir.child name) ≠ true := fun hentry =>
      h' ((Tree.look_eq_ok_iff.mp hlook).2.symm.trans
        (Tree.isDirectory_iff.mp (h.directory name hentry)))
    have hempty (h' : found ≠ some .directory) :
        (∃ found', (.ok found : Except FileError _) = .ok found') ∧
          (∀ stem e, ¬ Breaks host tree dir stem e) ∧ ShowsIntact host tree dir [] :=
      ⟨⟨found, rfl⟩, fun stem e hbreaks => habsent h' _ hbreaks.entry, [], rfl, .nil,
        fun stem r => ⟨fun hmem => absurd hmem List.not_mem_nil,
          fun hintact => absurd hintact.entry (habsent h' _)⟩⟩
    have houtcome := loadListed_outcome hreading h.distinct
    rcases found with _ | data | _
    · exact hempty fun k => by cases k
    · exact hempty fun k => by cases k
    · dsimp only
      split at houtcome
      · obtain ⟨stem, hfirst⟩ := houtcome
        exact .entry hlook hfirst
      · exact ⟨⟨_, rfl⟩, houtcome⟩

theorem FirstBreaks.unique {stem stem' : Text} {e e' : LoadError}
    (h : FirstBreaks host tree dir stem e) (h' : FirstBreaks host tree dir stem' e') : e = e' := by
  have hsame : stem ++ sourceEnding = stem' ++ sourceEnding :=
    List.le_antisymm (List.not_lt.mp (h.2 stem' e' h'.1)) (List.not_lt.mp (h'.2 stem e h.1))
  obtain rfl := List.append_cancel_right hsame
  exact Except.error.inj (h.1.loadEntry.symm.trans h'.1.loadEntry)

theorem Withheld.unique {e e' : LoadError} (h : Withheld host tree dir e)
    (h' : Withheld host tree dir e') : e = e' := by
  cases h with
  | directory hbarred =>
    cases h' with
    | directory hbarred' => rw [Except.error.inj (hbarred.symm.trans hbarred')]
    | entry hfound => cases hbarred.symm.trans hfound
  | entry hfound hfirst =>
    cases h' with
    | directory hbarred => cases hbarred.symm.trans hfound
    | entry hfound' hfirst' => exact hfirst.unique hfirst'

end Loading

/-- A fresh store gives a history exactly if its directory can be looked up and no entry makes it
unreadable. It then shows the intact entries, and no others, in the order of their file names;
otherwise the barred lookup, or the first entry that makes it unreadable, says why. -/
theorem history_shows_intact {κ : Type} {directory : Path} {id : Text} {tree : Tree} {host : Host}
    (hid : isId id = true) (htree : tree.Regular (directory.child id))
    (hreading : host.reading.Sound) (cacheEnabled : Bool) (clock : κ) :
    let dir := directory.child id
    let answer := (((Store.new directory cacheEnabled tree clock).on host).history id).1
    ((∃ records, answer = .ok records) ↔
        (∃ found, tree.look host.bars dir = .ok found) ∧ ∀ stem e, ¬ Breaks host tree dir stem e) ∧
      (∀ records, answer = .ok records → ShowsIntact host tree dir records) ∧
      ∀ e, answer = .error e ↔ Withheld host tree dir e := by
  intro dir answer
  have hnew : (Store.new directory cacheEnabled tree clock).cached? id = none :=
    cached?_new cacheEnabled clock id
  have hcached : ((Store.new directory cacheEnabled tree clock).on host).cached? id = none := hnew
  have hanswer : answer = loadDirectory host tree dir := history_of_uncached hid hcached
  have houtcome := loadDirectory_outcome hreading htree
  rw [hanswer]
  cases hload : loadDirectory host tree dir with
  | error e =>
    rw [hload] at houtcome
    refine ⟨⟨nofun, fun ⟨⟨found, hfound⟩, hnone⟩ => ?_⟩, nofun, fun e' =>
      ⟨fun heq => ?_, fun h => ?_⟩⟩
    · cases houtcome with
      | directory hbarred => cases hbarred.symm.trans hfound
      | entry _ hfirst => exact absurd hfirst.1 (hnone _ _)
    · cases heq
      exact houtcome
    · rw [houtcome.unique h]
  | ok records =>
    rw [hload] at houtcome
    obtain ⟨hfound, hnone, hshows⟩ := houtcome
    refine ⟨⟨fun _ => ⟨hfound, hnone⟩, fun _ => ⟨records, rfl⟩⟩, fun records' heq => ?_,
      fun e => ⟨nofun, fun h => ?_⟩⟩
    · cases heq
      exact hshows
    · cases h with
      | directory hbarred =>
        obtain ⟨found, hfound⟩ := hfound
        cases hbarred.symm.trans hfound
      | entry _ hfirst => exact absurd hfirst.1 (hnone _ _)

/-- An entry with malformed metadata before an intact one, which has one field more than a record.
-/
theorem history_shows_intact_malformed :
    let dir := (Path.ofText "history".toList).child "a0".toList
    let file (name text : String) : Path × Node :=
      (dir.child name.toList, .file (Text.encodeUtf8 text.toList))
    let tree : Tree := ⟨[(Path.ofText "history".toList, .directory), (dir, .directory),
      file "a.src" "f(", file "a.meta.json" "\x7bnot", file "b.src" "f()", file "b.meta.json"
        "\x7b\"id\":\"a0\",\"timestamp\":\"t\",\"version\":\"v6\",\"valid\":\"yes\",\"by\":1\x7d"],
      fun _ => false⟩
    let records : List Record := [⟨"a0".toList, "t".toList, "f()".toList, .v6, true, none⟩]
    let store := (Store.new (Path.ofText "history".toList) true tree ()).on .usual
    isId "a0".toList = true ∧ tree.Regular dir ∧ Host.usual.reading.Sound ∧
      (store.history "a0".toList).1 = .ok records ∧ ShowsIntact .usual tree dir records ∧
      ∀ stem e, ¬ Breaks .usual tree dir stem e := by
  intro dir file tree records store
  have hid : isId "a0".toList = true := by decide
  have htree : tree.Regular dir := ⟨by unfold Tree.Distinct; decide, fun _ _ => by decide⟩
  have hentries : tree.entries dir =
      ["a.meta.json".toList, "a.src".toList, "b.meta.json".toList, "b.src".toList] :=
    Tree.entries_eq_of_perm htree.distinct (by decide) (by decide +kernel)
  have hlook : tree.look Host.usual.bars dir = .ok (some .directory) :=
    Tree.look_eq_ok_iff.mpr ⟨by decide +kernel, rfl⟩
  have hload : loadDirectory .usual tree dir = .ok records := by
    rw [loadDirectory, hlook, hentries]
    decide +kernel
  have hrecords : (store.history "a0".toList).1 = .ok records :=
    (history_of_uncached hid rfl).trans hload
  have hreading : Host.usual.reading.Sound := Reading.standard_sound
  obtain ⟨hgiven, hshown, -⟩ := history_shows_intact hid htree hreading true ()
  exact ⟨hid, htree, hreading, hrecords, hshown records hrecords,
    (hgiven.mp ⟨records, hrecords⟩).2⟩

/-- A single byte that is no text, in the metadata of another entry, hides an intact one. -/
theorem history_hides_intact :
    let dir := (Path.ofText "history".toList).child "a0".toList
    let file (name text : String) : Path × Node :=
      (dir.child name.toList, .file (Text.encodeUtf8 text.toList))
    let tree : Tree := ⟨[(Path.ofText "history".toList, .directory), (dir, .directory),
      file "a.src" "f()", (dir.child "a.meta.json".toList, .file ⟨#[0xff]⟩), file "b.src" "f()",
      file "b.meta.json"
        "\x7b\"id\":\"a0\",\"timestamp\":\"t\",\"version\":\"v6\",\"valid\":true\x7d"],
      fun _ => false⟩
    let store := (Store.new (Path.ofText "history".toList) true tree ()).on .usual
    Intact .usual tree dir "b".toList ⟨"a0".toList, "t".toList, "f()".toList, .v6, true, none⟩ ∧
      (store.history "a0".toList).1 = .error (.notText ⟨0, [0xff], .start⟩) := by
  intro dir file tree store
  have hdistinct : tree.Distinct dir := by unfold Tree.Distinct; decide
  have hentries : tree.entries dir =
      ["a.meta.json".toList, "a.src".toList, "b.meta.json".toList, "b.src".toList] :=
    Tree.entries_eq_of_perm hdistinct (by decide) (by decide +kernel)
  have hlook : tree.look Host.usual.bars dir = .ok (some .directory) :=
    Tree.look_eq_ok_iff.mpr ⟨by decide +kernel, rfl⟩
  have hbreaks : loadDirectory .usual tree dir = .error (.notText ⟨0, [0xff], .start⟩) := by
    rw [loadDirectory, hlook, hentries]
    decide +kernel
  have hload : loadEntry .usual tree dir ("b".toList ++ sourceEnding) =
      .ok (some ⟨"a0".toList, "t".toList, "f()".toList, .v6, true, none⟩) := by decide +kernel
  have hentry : tree.hasEntry (dir.child ("b".toList ++ sourceEnding)) = true := by decide +kernel
  have hid : isId "a0".toList = true := by decide
  have hanswer : (store.history "a0".toList).1 = loadDirectory .usual tree dir :=
    history_of_uncached hid rfl
  exact ⟨intact_of_loadEntry Reading.standard_sound hentry hload, hanswer.trans hbreaks⟩

end History
end PineTools
