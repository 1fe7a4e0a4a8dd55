import Mathlib.Data.Option.Basic
import PineTools.Json.Parser
import PineTools.Json.Printer

namespace PineTools

namespace Text

theorem isHalf_toNat (c : Char) : isHalf c.toNat = false := by
  have hvalid : c.toNat < 0xd800 ∨ 0xdfff < c.toNat ∧ c.toNat < 0x110000 := c.valid
  rw [Bool.eq_false_iff, isHalf, Ne, Bool.and_eq_true, decide_eq_true_iff, decide_eq_true_iff]
  omega

theorem joinUnits_codes (t : Text) : joinUnits (t.map Char.toNat) = t.map Char.toNat := by
  induction t with
  | nil => rfl
  | cons c t ih =>
    cases t with
    | nil => rfl
    | cons d t =>
      have hhalf := isHalf_toNat c
      rw [isHalf, Bool.and_eq_false_iff, decide_eq_false_iff_not, decide_eq_false_iff_not] at hhalf
      rw [List.map_cons, List.map_cons, joinUnits, if_neg (by omega), ← List.map_cons, ih]

end Text

namespace Json

section Units

variable {more rest : Text} {units : List Nat} (h : stringUnits more = some (units, rest))
include h

theorem stringUnits_escape {c e : Char} (hc : c ≠ 'u') (he : shortEscape? c = some e) :
    stringUnits ('\\' :: c :: more) = some (e.toNat :: units, rest) := by
  rw [stringUnits, he, h]
  · rfl
  · exact fun _ _ _ _ _ hunit _ => hc hunit

theorem stringUnits_plain {c : Char} (hquote : c ≠ '"') (hslash : c ≠ '\\')
    (hlow : 0x20 ≤ c.toNat) :
    stringUnits (c :: more) = some (c.toNat :: units, rest) := by
  have hguard {p : Prop} [Decidable p] (hp : p) : (guard p : Option Unit) = some () := if_pos hp
  rw [stringUnits, h]
  · rw [hguard hlow, hguard (bne_iff_ne.mpr hslash)]
    rfl
  · exact hquote
  · exact fun _ _ _ _ _ hc => absurd hc hslash
  · exact fun _ _ hc => absurd hc hslash

theorem stringUnits_unitEscape {n : Nat} (hn : n < 0x20) :
    stringUnits (unitEscape n ++ more) = some (n :: units, rest) := by
  have hdigits : ∀ n < 0x20, Text.hexPadded 4 n =
    ['0', '0', (n / 16).digitChar, (n % 16).digitChar] ∧
      hexUnit? '0' '0' (n / 16).digitChar (n % 16).digitChar = some n := by
    decide
  obtain ⟨htext, hvalue⟩ := hdigits n hn
  rw [unitEscape, htext]
  simp only [List.cons_append, List.nil_append]
  rw [stringUnits, hvalue, h]
  rfl

end Units

theorem charText_cases {style : Style} (hstyle : style.escapeAll = false) (c : Char) :
    (∃ letter, charText style c = ['\\', letter] ∧ letter ≠ 'u' ∧ shortEscape? letter = some c) ∨
      charText style c = unitEscape c.toNat ∧ c.toNat < 0x20 ∨
      charText style c = [c] ∧ c ≠ '"' ∧ c ≠ '\\' ∧ 0x20 ≤ c.toNat := by
  by_cases hletter : c ∈ ['"', '\\', '\n', '\r', '\t', Char.ofNat 8, Char.ofNat 12]
  · simp only [List.mem_cons, List.not_mem_nil, or_false] at hletter
    rcases hletter with rfl | rfl | rfl | rfl | rfl | rfl | rfl
    · exact .inl ⟨'"', rfl, by decide, rfl⟩
    · exact .inl ⟨'\\', rfl, by decide, rfl⟩
    · exact .inl ⟨'n', rfl, by decide, rfl⟩
    · exact .inl ⟨'r', rfl, by decide, rfl⟩
    · exact .inl ⟨'t', rfl, by decide, rfl⟩
    · exact .inl ⟨'b', rfl, by decide, rfl⟩
    · exact .inl ⟨'f', rfl, by decide, rfl⟩
  · simp only [List.mem_cons, List.not_mem_nil, or_false, not_or] at hletter
    obtain ⟨hquote, hslash, hnewline, hreturn, htab, hback, hfeed⟩ := hletter
    have hcode {n : Nat} (hne : c ≠ Char.ofNat n) : c.toNat ≠ n :=
      fun hn => hne (by rw [← hn, Char.ofNat_toNat])
    rw [charText, if_neg (by simpa using hquote), if_neg (by simpa using hslash),
      if_neg (by simpa using hnewline), if_neg (by simpa using hreturn),
      if_neg (by simpa using htab), if_neg (hcode hback), if_neg (hcode hfeed), hstyle,
      Bool.false_and, Bool.or_false]
    by_cases hlow : c.toNat < 0x20
    · rw [if_pos (decide_eq_true hlow), codeEscape, if_pos (Nat.lt_trans hlow (by decide))]
      exact .inr (.inl ⟨rfl, hlow⟩)
    · rw [if_neg (by simpa using hlow)]
      exact .inr (.inr ⟨rfl, hquote, hslash, Nat.le_of_not_lt hlow⟩)

/-- A character is read back from the way it is written. -/
theorem stringUnits_charText {style : Style} (hstyle : style.escapeAll = false) (c : Char)
    {more rest : Text} {units : List Nat} (h : stringUnits more = some (units, rest)) :
    stringUnits (charText style c ++ more) = some (c.toNat :: units, rest) := by
  rcases charText_cases hstyle c with ⟨letter, htext, hletter, hshort⟩ | ⟨htext, hlow⟩ | ⟨htext,
    hquote, hslash, hlow⟩
  · rw [htext]
    exact stringUnits_escape h hletter hshort
  · rw [htext]
    exact stringUnits_unitEscape h hlow
  · rw [htext]
    exact stringUnits_plain h hquote hslash hlow

theorem stringUnits_flatMap {style : Style} (hstyle : style.escapeAll = false) (t rest : Text) :
    stringUnits (t.flatMap (charText style) ++ '"' :: rest) = some (t.map Char.toNat, rest) := by
  induction t with
  | nil => rfl
  | cons c t ih =>
    rw [List.flatMap_cons, List.append_assoc]
    exact stringUnits_charText hstyle c ih

theorem readString_flatMap {style : Style} (hstyle : style.escapeAll = false) (t rest : Text) :
    readString (t.flatMap (charText style) ++ '"' :: rest) = .ok (t.map Char.toNat, rest) := by
  rw [readString, stringUnits_flatMap hstyle]
  exact congrArg (fun codes => Except.ok (codes, rest)) (Text.joinUnits_codes t)

theorem ofCodes_codes (t : Text) : ofCodes (t.map Char.toNat) = .str t := by
  have hhalves : (t.map Char.toNat).any Text.isHalf = false := by
    rw [List.any_eq_false]
    intro n hn
    obtain ⟨c, -, rfl⟩ := List.mem_map.mp hn
    rw [Text.isHalf_toNat]
    exact Bool.false_ne_true
  rw [ofCodes, hhalves, if_neg Bool.false_ne_true, List.map_map]
  exact congrArg str (List.map_id'' (fun c => Char.ofNat_toNat c) t)

/-- A text, a truth value or nothing. -/
def isPlain : Json → Bool
  | null | bool _ | str _ => true
  | _ => false

theorem readValue_write {style : Style} (hstyle : style.escapeAll = false) {v : Json}
    (hv : v.isPlain = true) (fuel depth room : Nat) (rest : Text) :
    readValue (fuel + 1) room (write style depth v ++ rest) = .ok (v, rest) := by
  cases v with
  | null => rfl
  | bool b => cases b <;> rfl
  | str t =>
    rw [write, stringText, List.cons_append, List.append_assoc, readValue, List.singleton_append,
      readString_flatMap hstyle]
    exact congrArg (fun v => Except.ok (v, rest)) (ofCodes_codes t)
  | int _ | float _ | halves _ | arr _ | obj _ => cases hv

theorem isGap_lineBreak (style : Style) (depth : Nat) :
    ∀ c ∈ lineBreak style depth, isGap c = true := by
  intro c hc
  rw [lineBreak] at hc
  split at hc
  · cases hc
  · rcases List.mem_cons.mp hc with rfl | hc
    · rfl
    · rw [List.eq_of_mem_replicate hc]
      rfl

theorem skipGap_lineBreak (style : Style) (depth : Nat) {c : Char} (hc : isGap c = false)
    (t : Text) :
    skipGap (lineBreak style depth ++ c :: t) = c :: t := by
  rw [skipGap, List.dropWhile_append_of_pos (isGap_lineBreak style depth), List.dropWhile_cons, hc]
  rfl

theorem skipGap_write (style : Style) (depth : Nat) {v : Json} (hv : v.isPlain = true) (t : Text) :
    skipGap (write style depth v ++ t) = write style depth v ++ t := by
  cases v with
  | null => rfl
  | bool b => cases b <;> rfl
  | str s => rw [write, stringText]; rfl
  | int _ | float _ | halves _ | arr _ | obj _ => cases hv

/-- What is read behind the first field of an object: its end, or a comma and the other fields. -/
def fieldsBehind (fuel depth : Nat) (f : Text × Json) (more : Text) :
    Except ParseError (List (Text × Json) × Text) :=
  match skipGap more with
  | '\x7d' :: after => return ([f], after)
  | ',' :: more => do
    let (fs, after) ← readFields fuel depth (skipGap more)
    return (f :: fs, after)
  | _ => throw .malformed

section Field

variable {style : Style} (hstyle : style.escapeAll = false) (k : Text) {v : Json}
    (hv : v.isPlain = true)
  (depth room fuel : Nat) {more : Text}
include hstyle hv

theorem readFields_field :
    readFields (fuel + 2) room (stringText style k ++ ':' :: ' ' :: (write style depth v ++ more)) =
    fieldsBehind (fuel + 1) room (k, v) more := by
  have hkey : (k.map Char.toNat).map Text.charOfCode = k := by
    rw [List.map_map]
    refine List.map_id'' (fun c => ?_) k
    rw [Function.comp, Text.charOfCode, Text.isHalf_toNat, if_neg Bool.false_ne_true,
      Char.ofNat_toNat]
  have hcolon : skipGap (':' :: ' ' :: (write style depth v ++ more)) =
      ':' :: ' ' :: (write style depth v ++ more) := rfl
  have hvalue : skipGap (' ' :: (write style depth v ++ more)) = write style depth v ++ more :=
    skipGap_write style depth hv more
  rw [stringText, List.cons_append, List.append_assoc, List.singleton_append, readFields,
    readString_flatMap hstyle]
  simp only [bind, Except.bind, hkey, hcolon, hvalue, readValue_write hstyle hv]
  rfl

theorem readFields_last {after : Text} (h : skipGap more = '\x7d' :: after) :
    readFields (fuel + 2) room (stringText style k ++ ':' :: ' ' :: (write style depth v ++ more)) =
      .ok ([(k, v)], after) := by
  rw [readFields_field hstyle k hv, fieldsBehind, h]
  rfl

theorem readFields_next {next after : Text} {fields : List (Text × Json)}
    (h : skipGap more = ',' :: next) (hnext : readFields (fuel + 1) room (skipGap next) =
      .ok (fields, after)) :
    readFields (fuel + 2) room (stringText style k ++ ':' :: ' ' :: (write style depth v ++ more)) =
      .ok ((k, v) :: fields, after) := by
  rw [readFields_field hstyle k hv, fieldsBehind, h]
  simp only [hnext]
  rfl

end Field

theorem readFields_write (k : Text) (v : Json) (fields : List (Text × Json)) (hv : v.isPlain = true)
    (hfields : ∀ f ∈ fields, f.2.isPlain = true) (depth outer room extra : Nat) (after : Text) :
    readFields (fields.length + extra + 2) room
      (stringText .readable k ++ ':' :: ' ' :: (write .readable depth v ++
      (writeFields .readable depth fields ++ (lineBreak .readable outer ++ '\x7d' :: after)))) =
        .ok ((k, v) :: fields, after) := by
  induction fields generalizing k v with
  | nil => exact readFields_last rfl k hv depth room _ (skipGap_lineBreak .readable outer rfl after)
  | cons f fields ih =>
    rw [List.length_cons, Nat.add_right_comm fields.length 1]
    have hnext := ih f.1 f.2 (hfields f List.mem_cons_self) fun g hg =>
      hfields g (List.mem_cons_of_mem f hg)
    have hseparated :
      skipGap (writeFields .readable depth (f :: fields) ++
      (lineBreak .readable outer ++ '\x7d' :: after)) =
        ',' :: (lineBreak .readable depth ++
          (stringText .readable f.1 ++ ':' :: ' ' :: (write .readable depth f.2 ++
          (writeFields .readable depth fields ++
            (lineBreak .readable outer ++ '\x7d' :: after))))) := by
      rw [writeFields, itemSeparator]
      simp only [Style.readable, List.cons_append, List.append_assoc]
      rfl
    refine readFields_next rfl k hv depth room _ hseparated ?_
    rw [stringText, List.cons_append, skipGap_lineBreak .readable depth rfl]
    exact hnext

theorem setField_new {key : Text} {fields : List (Text × Json)} (h : key ∉ fields.map Prod.fst)
    (v : Json) :
    setField key v fields = fields ++ [(key, v)] := by
  induction fields with
  | nil => rfl
  | cons f fields ih =>
    rw [List.map_cons, List.mem_cons, not_or] at h
    rw [setField, if_neg fun hf => h.1 hf.symm, ih h.2, List.cons_append]

theorem mergeFields_eq {fields : List (Text × Json)} (h : (fields.map Prod.fst).Nodup) :
    mergeFields fields = fields := by
  suffices hfrom : ∀ merged : List (Text × Json), ((merged ++ fields).map Prod.fst).Nodup →
      fields.foldl (fun merged f => setField f.1 f.2 merged) merged = merged ++
        fields from hfrom [] h
  clear h
  induction fields with
  | nil => exact fun merged _ => (List.append_nil merged).symm
  | cons f fields ih =>
    intro merged h
    have hnew : f.1 ∉ merged.map Prod.fst := by
      rw [List.map_append, List.nodup_append] at h
      exact fun hmem => h.2.2 _ hmem _ List.mem_cons_self rfl
    rw [List.foldl_cons, setField_new hnew, ih, List.append_assoc, List.singleton_append]
    rwa [List.append_assoc, List.singleton_append]

theorem length_writeFields (style : Style) (depth : Nat) (fields : List (Text × Json)) :
    fields.length ≤ (writeFields style depth fields).length := by
  induction fields with
  | nil => exact Nat.zero_le _
  | cons f fields ih =>
    rw [writeFields]
    simp only [List.length_cons, List.length_append]
    omega

/-- What is between the braces of an object that is written at depth 0. -/
def bodyText (k : Text) (v : Json) (rest : List (Text × Json)) : Text :=
  stringText .readable k ++ ':' :: ' ' :: (write .readable 1 v ++
    (writeFields .readable 1 rest ++ (lineBreak .readable 0 ++ ['\x7d'])))

theorem render_obj (k : Text) (v : Json) (rest : List (Text × Json)) :
    render .readable (obj ((k, v) :: rest)) =
      '\x7b' :: (lineBreak .readable 1 ++ bodyText k v rest) := by
  simp only [render, write, bodyText, List.append_assoc, Nat.zero_add]

/-- An object of plain values with different names is read back from the way it is written. -/
theorem parse_render {nesting : Nat} (hnesting : nesting ≠ 0) {fields : List (Text × Json)}
    (hne : fields ≠ []) (hplain : ∀ f ∈ fields, f.2.isPlain = true)
    (hnames : (fields.map Prod.fst).Nodup) :
    parse nesting (render .readable (obj fields)) = .ok (obj fields) := by
  obtain ⟨⟨k, v⟩, rest, rfl⟩ := List.exists_cons_of_ne_nil hne
  have hv := hplain (k, v) List.mem_cons_self
  have hrest : ∀ f ∈ rest, f.2.isPlain = true := fun f hf => hplain f (List.mem_cons_of_mem _ hf)
  obtain ⟨extra, hfuel⟩ : ∃ extra, 2 * (render .readable (obj ((k, v) :: rest))).length + 1 =
      rest.length + extra + 2 := by
    have hlength := length_writeFields .readable 1 rest
    refine ⟨2 * (render .readable (obj ((k, v) :: rest))).length + 1 - (rest.length + 2), ?_⟩
    rw [render_obj, bodyText]
    simp only [List.length_cons, List.length_append]
    omega
  have hfields : readFields (rest.length + extra + 2) (nesting - 1) (bodyText k v rest) =
      .ok ((k, v) :: rest, []) :=
    readFields_write k v rest hv hrest 1 0 (nesting - 1) extra []
  have hbody : skipGap (lineBreak .readable 1 ++ bodyText k v rest) = bodyText k v rest :=
    skipGap_lineBreak .readable 1 rfl _
  have hvalue : readValue (2 * (render .readable (obj ((k, v) :: rest))).length + 2) nesting
      (render .readable (obj ((k, v) :: rest))) = .ok (obj ((k, v) :: rest), []) := by
    obtain ⟨tail, htail⟩ : ∃ tail, bodyText k v rest = '"' :: tail := ⟨_, rfl⟩
    rw [Nat.add_succ, hfuel, render_obj, readValue, hbody, if_neg hnesting, htail]
    rw [htail] at hfields
    change (readFields _ (nesting - 1) ('"' :: tail)).map _ = _
    rw [hfields]
    exact congrArg (fun fields => Except.ok (obj fields, [])) (mergeFields_eq hnames)
  have hopen : skipGap (render .readable (obj ((k, v) :: rest))) =
      render .readable (obj ((k, v) :: rest)) := by
    rw [render_obj]
    rfl
  rw [parse, hopen, hvalue]
  rfl

end Json
end PineTools
