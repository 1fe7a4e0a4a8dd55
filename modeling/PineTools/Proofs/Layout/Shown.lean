import PineTools.Proofs.Construct.Respaced
import PineTools.Proofs.Layout.Tidy

/-! What a line shows after it was laid out. The signs of its mask are those it showed before;
between two words there are blanks if there were some, and none come behind a dot. So the line shows
no new export and no new word that stands alone, and a declaration exactly if its indentation is
gone. -/
namespace PineTools.Layout

open Reader

def shown (m : Mode) (t : Text) : Text := (cellsFrom m t).map Cell.masked

theorem shown_code_white (b : Bool) {white : Text} (h : ∀ c ∈ white, Text.isSpace c = true)
    (t : Text) :
    shown (.code b) (white ++ t) = white ++ shown (.code (b && white.isEmpty)) t := by
  induction white generalizing b with
  | nil => rw [List.isEmpty_nil, Bool.and_true]; rfl
  | cons c white ih =>
    obtain ⟨hc, hwhite⟩ := List.forall_mem_cons.mp h
    have hrest := ih false hwhite
    rw [shown, Bool.false_and] at hrest
    rw [List.cons_append, shown, cellsFrom_code_white b hc, List.map_cons, hrest,
      Cell.masked_of_code rfl, List.isEmpty_cons, Bool.and_false]
    rfl

theorem shown_append (m : Mode) (a b : Text) :
    shown m (a ++ b) = (cellsUpTo m b.head? a).map Cell.masked ++ shown (m.after b.head? a) b := by
  rw [shown, cellsFrom_append, List.map_append]
  rfl

theorem shown_step {m m' : Mode} {c : Char} (h : ∀ ahead, m.step c ahead = m'.step c ahead)
    (t : Text) :
    shown m (c :: t) = shown m' (c :: t) := by
  rw [shown, shown, cellsFrom, cellsFrom, h]

theorem shown_separator (options : FormatOptions) {m : Mode} {p : Token} {gap : Text}
    {c : Char} {cs : Text} (hw : Written m p gap (c :: cs)) {kind : TokenKind}
    (start : TokenStart (afterGap m gap) kind c) {t : Token} (hgap : t.gap = gap)
    (hkind : t.kind = kind) (hrole : kind ≠ .operator → t.role = .plain) (rest : Text) :
    shown m (separator options p t ++ c :: rest) = separator options p t ++ shown (afterGap m gap)
    (c :: rest) := by
  by_cases hcomment : kind = .comment
  · rw [separator_comment options p (hkind.trans hcomment), hgap]
    rcases hw.mode with ⟨rfl, rfl⟩ | ⟨b, rfl, -⟩
    · rfl
    · rw [shown_code_white b (Text.white_of_blanks hw.blank), afterGap_code]
  have hblank := blank_of_separator options p (t := t) (by rw [hgap]; exact hw.blank)
  obtain ⟨b, e, hstep⟩ := step_separator options hw start hcomment hgap hkind hrole
  refine (congrArg (shown · (separator options p t ++ c :: rest)) e).trans ?_
  rw [shown_code_white b (Text.white_of_blanks hblank), shown_step hstep]

theorem Shows.sub {kind : TokenKind} {t : Text} (h : Shows kind t) {c : Char} (hc : c ∈ t) :
    Shows kind [c] :=
  ⟨fun e => List.forall_mem_singleton.mpr (h.comment e c hc), fun e => List.forall_mem_singleton.mpr
    (h.solid e c hc), fun e => List.forall_mem_singleton.mpr (h.sign e c hc), fun e hne hdot =>
      h.dot e hne (List.mem_singleton.mp hdot ▸ hc)⟩

/-- What the mask shows, after the last sign, of the comments and gaps that are still to be passed,
in the new and the old text. -/
inductive Pending (p : Token) (gap t : Text) : Option Char → Text → Text → Prop
  | front : p.kind = .opener → gap = [] → t.head?.any Text.isBlank = false →
  Pending p gap t none [] []
  | sign {c : Char} : p.kind ≠ .comment → (p.kind ≠ .operator → p.role = .plain) →
  Shows p.kind [c] →
      Pending p gap t (some c) [] gap
  | comment {q : Option Char} {g g' : Text} : p.kind = .comment → (∀ c ∈ g, Text.isBlank c = true) →
      (∀ c ∈ g', Text.isBlank c = true) → g ≠ [] → g' ≠ [] → Pending p gap t q g g'

namespace Pending

variable {p : Token} {gap t : Text} {q : Option Char} {g g' : Text}

theorem blank (h : Pending p gap t q g g') (hgap : ∀ c ∈ gap, Text.isBlank c = true) :
    (∀ c ∈ g, Text.isBlank c = true) ∧ ∀ c ∈ g', Text.isBlank c = true := by
  have nothing : ∀ c ∈ ([] : Text), Text.isBlank c = true := List.forall_mem_nil _
  cases h with
  | front => exact ⟨nothing, nothing⟩
  | sign => exact ⟨nothing, hgap⟩
  | comment _ hg hg' => exact ⟨hg, hg'⟩

theorem push {c : Char} {cs : Text} (h : Pending p gap (c :: cs) q g g')
    (hc : Text.isBlank c = true) :
    Pending p (gap ++ [c]) cs q g (g' ++ [c]) := by
  cases h with
  | front _ _ hfirst =>
    rw [List.head?_cons, Option.any_some, hc] at hfirst
    cases hfirst
  | sign hp hrole hshows => exact .sign hp hrole hshows
  | comment hp hg hg' hne _ =>
    exact .comment hp hg (List.forall_mem_append.mpr ⟨hg', List.forall_mem_singleton.mpr hc⟩) hne
      (by simp)

/-- The separator before a token that is no comment keeps words apart and together, and puts nothing
behind a dot. -/
theorem seam (options : FormatOptions) (h : Pending p gap t q g g') {u : Token} (hgap : u.gap = gap)
    (hcomment : u.kind ≠ .comment) (hrole : u.kind ≠ .operator → u.role = .plain) {c : Char}
    (hshows : Shows u.kind [c]) :
    Seam True q c (g ++ separator options p u) g' := by
  have hword (hc : Text.isWord c = true) : u.kind.isSign = false ∧ u.kind ≠ .comment ∧
      u.role = .plain := by
    have hsign : u.kind.isSign = false := Bool.eq_false_iff.mpr fun k => by
      rw [hshows.sign k c (List.mem_singleton_self c)] at hc
      cases hc
    exact ⟨hsign, hcomment, hrole fun e => by rw [e] at hsign; cases hsign⟩
  cases h with
  | front hp hnil =>
    rw [separator_opener options hp (hgap.trans hnil)]
    exact ⟨fun _ _ => Iff.rfl, fun _ _ _ _ => rfl⟩
  | @sign d hp hrole' hshows' =>
    have hwords (hd : p.kind.isSign = false) (hc : Text.isWord c = true) : separator options p u =
        [] ↔ gap = [] := by
      have hrole' := hrole' fun e => by rw [e] at hd; cases hd
      rw [separator_words options ⟨hd, hp, hrole'⟩ (hword hc), ← List.isEmpty_iff,
        isEmpty_keptBlank, hgap, List.isEmpty_iff]
    refine ⟨fun hc hd => hwords ?_ hc, fun _ hc hd hnil => ?_⟩
    · refine Bool.eq_false_iff.mpr fun k => ?_
      have := hshows'.sign k d (List.mem_singleton_self d)
      rw [Option.all_some, this] at hd
      cases hd
    · obtain rfl := Option.some.inj hd
      by_cases hdot : p.kind = .dot
      · exact separator_dot options hdot (hword hc).1 hcomment
      · refine (hwords (Bool.eq_false_iff.mpr fun k => ?_) hc).mpr hnil
        exact hshows'.dot k hdot (List.mem_singleton_self '.')
  | comment _ _ _ hne hne' =>
    have hne := List.append_ne_nil_of_left_ne_nil hne (separator options p u)
    exact ⟨fun _ _ => iff_of_false hne hne', fun _ _ _ e => absurd e hne'⟩

theorem token {options : FormatOptions} (h : Pending p gap t q g g')
    (hgap : ∀ c ∈ gap, Text.isBlank c = true) {u : Token} (hu : u.gap = gap)
    (hrole : u.kind ≠ .operator → u.role = .plain) {mask : Text} (hne : mask ≠ [])
    (hshows : Shows u.kind mask) {rest a b : Text} (hbehind : ∀ {q : Option Char} {g g' : Text},
      Pending u [] rest q g g' → Respaced True q (g ++ a) (g' ++ b)) :
    Respaced True q (g ++ (separator options p u ++ (mask ++ a))) (g' ++ (mask ++ b)) := by
  have hblank := blank_of_separator options p (t := u) (by rw [hu]; exact hgap)
  obtain ⟨hg, hg'⟩ := h.blank hgap
  have hg := List.forall_mem_append.mpr ⟨hg, hblank⟩
  by_cases hcomment : u.kind = .comment
  · have hall : ∀ y ∈ mask, Text.isBlank y = true := fun y hy => hshows.comment hcomment y hy ▸ rfl
    rw [← List.append_assoc, ← List.append_assoc, ← List.append_assoc]
    refine hbehind (.comment hcomment ?_ ?_ (by simp [hne]) (by simp [hne]))
    · exact List.forall_mem_append.mpr ⟨hg, hall⟩
    · exact List.forall_mem_append.mpr ⟨hg', hall⟩
  · obtain ⟨x, xs, rfl⟩ := List.exists_cons_of_ne_nil hne
    obtain ⟨hx, hxs⟩ := List.forall_mem_cons.mp (hshows.solid hcomment)
    have hseam := h.seam options hu hcomment hrole (hshows.sub List.mem_cons_self)
    rw [← List.append_assoc]
    refine .sign hg hg' hx hseam (.run hxs ?_)
    have hlast : xs.getLast?.or (some x) = some ((x :: xs).getLast (List.cons_ne_nil x xs)) := by
      rw [← List.getLast?_eq_some_getLast, List.getLast?_cons]
      cases xs.getLast? <;> rfl
    rw [hlast]
    exact hbehind (.sign hcomment hrole (hshows.sub (List.getLast_mem (List.cons_ne_nil x xs))))

end Pending

/-- A token behind its separator shows what it showed in the old text, before whatever is read
alike. -/
theorem shown_joinAfter (options : FormatOptions) {m k : Mode} {p : Token} {gap : Text}
    {c : Char} {cs : Text} (hw : Written m p gap (c :: cs)) (hk : k = afterGap m gap)
    {kind : TokenKind} (start : TokenStart k kind c) {text : Text} {t : Token}
    (roled : Roled { kind, text := c :: text, gap } t) {ts : List Token} {ahead : Option Char}
    (alike : ReadsAlike k (c :: text) (joinAfter options t ts).head? ahead) :
    shown m (joinAfter options p (t :: ts)) = separator options p t ++
      ((cellsUpTo k ahead (c :: text)).map Cell.masked ++ shown (k.after ahead (c :: text))
        (joinAfter options t ts)) := by
  rw [joinAfter, roled.text, List.append_assoc, List.cons_append,
    shown_separator options hw (hk ▸ start) roled.gap roled.kind fun e => roled.plain e, ← hk,
    ← List.cons_append, shown_append, alike.1, alike.2]

/-- Writing tokens with canonical spaces respaces what the line shows. The invariant along the line
is that the scanner stands where it stood, with the comments and gaps behind the last sign still to
be passed. -/
theorem respaced_joinAfter {options : FormatOptions} (ho : options.spacesAroundOperators = true)
    {m k : Mode} {p : Token} {gap t : Text} {ts ts' : List Token} {q : Option Char} {g g' : Text}
    (tokenized : Tokenized k gap t ts) (hk : k = afterGap m gap) (hw : Written m p gap t)
    (roled : AllRoled ts ts') (pending : Pending p gap t q g g') :
    Respaced True q (g ++ shown m (joinAfter options p ts')) (g' ++ shown k t) := by
  have hdone {t : Text} (h : ∀ c ∈ t, Text.isBlank c = true) :
      ∀ c ∈ t ++ [], Text.isSpace c = true := by
    rw [List.append_nil]
    exact Text.white_of_blanks h
  induction tokenized generalizing m p ts' q g g' with
  | nil k gap =>
    cases roled
    obtain ⟨hg, hg'⟩ := pending.blank hw.blank
    exact .done (hdone hg) (hdone hg')
  | @blank b gap c cs ts hc _ ih =>
    obtain ⟨hgap, hpushed⟩ := hw.push hk hc
    have hold : shown (.code b) (c :: cs) = [c] ++ shown (.code false) cs := by
      have := shown_code_white b (List.forall_mem_singleton.mpr (Text.isSpace_of_isBlank hc)) cs
      rwa [List.isEmpty_cons, Bool.and_false] at this
    rw [hold, ← List.append_assoc]
    exact ih hgap hpushed roled (pending.push hc)
  | @token k gap c cs kind n ts start hshows _ hcut hnext ih =>
    obtain _ | ⟨hroled, hrest⟩ := roled
    rename_i t' ts'
    -- The token is read as before, and what follows it is respaced whatever is pending behind it.
    obtain ⟨alike, hbehind⟩ : ReadsAlike k (c :: cs.take n) (joinAfter options t' ts').head?
      (cs.drop n).head? ∧
        ∀ {q : Option Char} {g g' : Text}, Pending t' [] (cs.drop n) q g g' → Respaced True q
          (g ++ shown (k.after (cs.drop n).head? (c :: cs.take n)) (joinAfter options t' ts'))
          (g' ++ shown (k.after (cs.drop n).head? (c :: cs.take n)) (cs.drop n)) := by
      rcases hcut with hnil | cut
      · rw [hnil] at hnext ⊢
        rw [hnext.eq_nil] at hrest
        cases hrest
        refine ⟨⟨rfl, rfl⟩, fun pending => ?_⟩
        obtain ⟨hg, hg'⟩ := pending.blank (List.forall_mem_nil _)
        exact .done (hdone hg) (hdone hg')
      · refine ⟨cut.alike _ fun hkind ht => ?_, ih rfl (cut.written hroled) hrest⟩
        exact (substance_joinAfter ho hnext rfl (cut.written hroled) hrest).2
          (hroled.kind.trans hkind) (hroled.text.trans ht)
    have hold : shown k (c :: cs) =
      (cellsUpTo k (cs.drop n).head? (c :: cs.take n)).map Cell.masked ++
        shown (k.after (cs.drop n).head? (c :: cs.take n)) (cs.drop n) := by
      rw [← shown_append, List.cons_append, List.take_append_drop]
    have hkind : t'.kind = kind := hroled.kind
    rw [hold, shown_joinAfter options hw hk start hroled alike]
    refine pending.token hw.blank hroled.gap (fun e => hroled.plain fun h => e (hkind.trans h)) ?_
      (hkind ▸ hshows) hbehind
    exact List.cons_ne_nil _ _

theorem respaced_spaceLine {options : FormatOptions} (ho : options.spacesAroundOperators = true)
    (opened : List Char) {t : Text} (ht : Text.OneLine t)
    (hfirst : t.head?.any Text.isBlank = false) :
    Respaced True none (shown (.code false) (spaceLine options opened (cellsFrom (.code false) t)))
    (shown (.code false) t) := by
  obtain ⟨ts, roled, e⟩ := spaceLine_eq options opened hfirst
  rw [e]
  exact respaced_joinAfter ho (tokenized_tokensAfter (.inr ⟨false, rfl⟩) [] ht) rfl
    (written_front t) roled (.front rfl rfl hfirst)

section Lines

variable {options : FormatOptions} {l : Text}

theorem shown_white {m : Mode} (hm : m.settled = true) (hliteral : m.inLiteral = false)
    {white : Text} (h : ∀ c ∈ white, Text.isSpace c = true ∧ c ≠ '\n') : ∀ c ∈ shown m white,
      Text.isSpace c = true := by
  cases m with
  | code b =>
    have := shown_code_white b (fun c hc => (h c hc).1) []
    rw [List.append_nil] at this
    rw [this, shown, cellsFrom, List.map_nil, List.append_nil]
    exact fun c hc => (h c hc).1
  | line =>
    induction white with
    | nil => exact List.forall_mem_nil _
    | cons c white ih =>
      obtain ⟨⟨-, hc⟩, hwhite⟩ := List.forall_mem_cons.mp h
      have hstep : Mode.line.step c white.head? = (⟨c, .lineComment, false⟩, .line) := if_neg hc
      rw [shown, cellsFrom, hstep, List.map_cons, Cell.masked, if_neg hc]
      exact List.forall_mem_cons.mpr ⟨rfl, ih hwhite⟩
  | block =>
    induction white with
    | nil => exact List.forall_mem_nil _
    | cons c white ih =>
      obtain ⟨⟨hspace, hc⟩, hwhite⟩ := List.forall_mem_cons.mp h
      have hstep : Mode.block.step c white.head? = (⟨c, .blockComment, false⟩, .block) :=
        if_neg fun e => ne_of_white hspace (by decide) e.1
      rw [shown, cellsFrom, hstep, List.map_cons, Cell.masked, if_neg hc]
      exact List.forall_mem_cons.mpr ⟨rfl, ih hwhite⟩
  | literal q => cases hliteral
  | lineSecond | blockSecond | blockLast | escaped q => cases hm

/-- A line that is trimmed shows the same up to white space at its end, unless a literal is still
open. -/
theorem shown_trimRight {m : Mode} (hm : m.settled = true) (hl : Text.OneLine l)
    (hclosed : (substance m [l]).openLiterals = 0) :
    ∃ white, (∀ c ∈ white, Text.isSpace c = true) ∧ shown m l =
      shown m (Text.trimRight Text.isSpace l) ++ white := by
  rw [← substance_trimRight hm hl, substance_singleton] at hclosed
  obtain ⟨white, e, hwhite⟩ := Text.trimRight_append_white Text.isSpace l
  generalize Text.trimRight Text.isSpace l = t at e hclosed ⊢
  subst e
  have hliteral : (m.after none t).inLiteral = false := by
    cases h : (m.after none t).inLiteral with
    | false => rfl
    | true =>
      simp only [h, if_true] at hclosed
      cases hclosed
  cases white with
  | nil => exact ⟨[], hwhite, by simp⟩
  | cons c white =>
    have hquiet := Mode.quiet_of_white (hwhite c List.mem_cons_self)
    have hafter : m.after (some c) t = m.after none t := by
      rcases Mode.after_quiet_ahead m hquiet t with e | ⟨q, -, e⟩
      · exact e
      · rw [e] at hliteral
        cases hliteral
    rw [shown_append, List.head?_cons, cellsUpTo_quiet_ahead m hquiet, hafter]
    exact ⟨_, shown_white (Mode.settled_after hm t) hliteral fun x hx =>
      ⟨hwhite x hx, fun e => hl (List.mem_append_right t (e ▸ hx))⟩, rfl⟩

theorem declaration_block (hl : Text.OneLine l) : declaration.readAt? (shown .block l) = none :=
  Classical.byContradiction fun h => by
    obtain ⟨⟨c, rest, e, hc⟩, -⟩ := declaration_head h
    cases l with
    | nil => cases e
    | cons x xs =>
      have hx : x ≠ '\n' := hl.head
      have hregion : (Mode.block.step x xs.head?).1.region = .blockComment :=
        amidComment_region (t := []) (.inr (.inl rfl)) (by decide) x _
      rw [shown, cellsFrom, List.map_cons, Cell.masked, Mode.step_char, if_neg hx, hregion] at e
      rw [← (List.cons.inj e).1] at hc
      exact absurd (show Text.isWord ' ' = true from hc) (by decide)

theorem shown_behind_blanks (inComment : Bool) (l : Text) :
    (shown (.ofLine inComment) l).drop (leadingBlanks l).length =
    shown (.ofLine inComment) (l.dropWhile Text.isBlank) := by
  cases inComment with
  | false =>
    rw [shown, ← List.map_drop]
    exact congrArg (List.map Cell.masked) (cells_behind_blanks l)
  | true =>
    rw [leadingBlanks]
    induction l with
    | nil => rfl
    | cons c cs ih =>
      cases hc : Text.isBlank c with
      | false => rw [List.takeWhile_cons_of_neg (by simp [hc]),
          List.dropWhile_cons_of_neg (by simp [hc])]; rfl
      | true =>
        have hstep : (Mode.ofLine true).step c cs.head? =
            (⟨c, .blockComment, false⟩, .ofLine true) :=
          if_neg fun e => ne_of_white (Text.isSpace_of_isBlank hc) (by decide) e.1
        rw [List.takeWhile_cons_of_pos hc, List.dropWhile_cons_of_pos hc, shown, cellsFrom, hstep]
        exact ih

/-- How a line that was laid out shows: its signs are respaced, and it declares the script if it did
so behind its indentation and has none any more. -/
structure LaidOut (inComment : Bool) (laid l : Text) : Prop where
  respaced : Respaced True (some ' ') (shown (.ofLine inComment) laid) (shown (.ofLine inComment) l)
  declaration : declaration.readAt? (shown (.ofLine inComment) laid) ≠ none ↔
    leadingBlanks laid = [] ∧
    declaration.readAt? ((shown (.ofLine inComment) l).drop (leadingBlanks l).length) ≠ none

theorem laidOut_trimRight (inComment : Bool) (hl : Text.OneLine l)
    (hclosed : (substance (.ofLine inComment) [l]).openLiterals = 0) (hnone : inComment = true ∨
      ∀ c ∈ shown (.ofLine inComment) l, Text.isSpace c = true) :
    LaidOut inComment (Text.trimRight Text.isSpace l) l := by
  obtain ⟨white, hwhite, e⟩ := shown_trimRight (Mode.settled_ofLine inComment) hl hclosed
  have hneither :
    declaration.readAt? (shown (.ofLine inComment) (Text.trimRight Text.isSpace l)) = none ∧
      declaration.readAt? ((shown (.ofLine inComment) l).drop (leadingBlanks l).length) = none := by
    rcases hnone with rfl | hspace
    · rw [shown_behind_blanks]
      exact ⟨declaration_block (Text.oneLine_trimRight hl _),
        declaration_block (oneLine_dropWhile hl _)⟩
    · refine ⟨declaration_white fun c hc => hspace c ?_, declaration_white fun c hc =>
        hspace c (List.mem_of_mem_drop hc)⟩
      rw [e]
      exact List.mem_append_left white hc
  exact ⟨(Respaced.refl True (some ' ') _).trim hwhite e, iff_of_false (absurd hneither.1) fun h =>
    h.2 hneither.2⟩

theorem shown_indented {indent : Text} (h : ∀ c ∈ indent, Text.isBlank c = true) (t : Text) :
    shown (.code false) (indent ++ t) = indent ++ shown (.code false) t := by
  rw [shown_code_white false (Text.white_of_blanks h), Bool.false_and]

section Declares

variable {laid new old white : Text} (hrespaced : Respaced True none new old)
    (hwhite : ∀ c ∈ white, Text.isSpace c = true)
include hrespaced hwhite

/-- A line of code without an indentation declares the script exactly if what stood behind the old
one does. -/
theorem declares_unindented (e : new = shown (.code false) laid ++ white) :
    declaration.readAt? (shown (.code false) laid) ≠ none ↔ leadingBlanks laid = [] ∧
    declaration.readAt? old ≠ none := by
  have hsame := hrespaced.trim hwhite e
  refine ⟨fun h => ⟨?_, hsame.declaration h⟩, fun h => hsame.flip.declaration h.2⟩
  obtain ⟨⟨c, rest, ec, hc⟩, -⟩ := declaration_head h
  cases laid with
  | nil => rfl
  | cons y laid =>
    refine List.takeWhile_cons_of_neg fun hy => ?_
    have hshown := shown_indented (List.forall_mem_singleton.mpr hy) laid
    rw [List.singleton_append, ec] at hshown
    rw [(List.cons.inj hshown).1, not_word_of_blank hy] at hc
    cases hc

theorem declares_indented {x : Char} {indent spaced tail : Text} (hx : Text.isBlank x = true)
    (etext : x :: spaced = laid ++ tail)
    (e : x :: (indent ++ new) = shown (.code false) laid ++ white) :
    declaration.readAt? (shown (.code false) laid) ≠ none ↔ leadingBlanks laid = [] ∧
    declaration.readAt? old ≠ none := by
  refine iff_of_false (fun h => ?_) fun ⟨hnone, h⟩ => ?_
  · obtain ⟨⟨c, rest, ec, hc⟩, -⟩ := declaration_head h
    rw [ec] at e
    rw [← (List.cons.inj e).1, not_word_of_blank hx] at hc
    cases hc
  · cases laid with
    | nil =>
      refine h (declaration_white (hrespaced.white fun c hc => hwhite c ?_))
      rw [← show _ = white from e]
      exact List.mem_cons_of_mem x (List.mem_append_right indent hc)
    | cons y laid =>
      obtain ⟨rfl, -⟩ := List.cons.inj etext
      rw [leadingBlanks, List.takeWhile_cons_of_pos hx] at hnone
      cases hnone

end Declares

theorem laidOut_spaceLine (ho : options.spacesAroundOperators = true) (opened : List Char)
    {indent : Text} (hindent : ∀ c ∈ indent, Text.isBlank c = true) (hl : Text.OneLine l)
    (hclosed : (substance (.code false) [l]).openLiterals = 0) {laid : Text}
    (e : laid = Text.trimRight Text.isSpace
      (indent ++ spaceLine options opened (cellsFrom (.code false) (l.dropWhile Text.isBlank)))) :
    LaidOut false laid l := by
  have hlead := blank_of_leadingBlanks l
  have hrest := oneLine_dropWhile hl Text.isBlank
  have hspaced := standsFor_spaceLine options opened hrest (head_dropWhile_blank l)
  have hrespaced := respaced_spaceLine ho opened hrest (head_dropWhile_blank l)
  generalize spaceLine options opened (cellsFrom (.code false) (l.dropWhile Text.isBlank)) =
    spaced at e hspaced hrespaced
  have hone : Text.OneLine (indent ++ spaced) :=
    fun k => (List.mem_append.mp k).elim (fun k => blank_ne_newline (hindent _ k) rfl)
    hspaced.oneLine
  have hnew : (substance (.code false) [indent ++ spaced]).openLiterals = 0 := by
    rw [leadingBlanks_append l, substance_leading_white (Text.white_of_blanks hlead)] at hclosed
    rw [substance_leading_white (Text.white_of_blanks hindent), hspaced.substance ho]
    exact hclosed
  obtain ⟨white, hwhite, eshown⟩ := shown_trimRight rfl hone hnew
  rw [← e, shown_indented hindent spaced] at eshown
  obtain ⟨tail, etext, -⟩ := Text.trimRight_append_white Text.isSpace (indent ++ spaced)
  rw [← e] at etext
  have hold : shown (.code false) l = leadingBlanks l ++ shown (.code false)
      (l.dropWhile Text.isBlank) := by
    rw [← shown_indented hlead, ← leadingBlanks_append]
  refine ⟨hold ▸ (hrespaced.indent hindent hlead).trim hwhite eshown, ?_⟩
  rw [shown_behind_blanks]
  cases indent with
  | nil => exact declares_unindented hrespaced hwhite eshown
  | cons x indent =>
    exact declares_indented hrespaced hwhite (hindent x List.mem_cons_self) etext eshown

theorem laidOut_layLine (ho : options.spacesAroundOperators = true) (s : IndentState) (number : Nat)
    (inComment : Bool) (hl : Text.OneLine l)
    (hclosed : (substance (.ofLine inComment) [l]).openLiterals = 0) :
    LaidOut inComment (layLine options s number (scriptLine (.ofLine inComment) l)).1.text l := by
  rw [layLine]
  simp only [scriptLine_text, scriptLine_inComment, Mode.inBlock_ofLine]
  split
  case isTrue hwhite =>
    rw [← trimRight_eq_nil (List.all_eq_true.mp hwhite)]
    refine laidOut_trimRight inComment hl hclosed
      (.inr (shown_white (Mode.settled_ofLine inComment) (by cases inComment <;> rfl) fun c hc =>
      ?_))
    exact ⟨List.all_eq_true.mp hwhite c hc, fun e => hl (e ▸ hc)⟩
  case isFalse =>
    cases inComment with
    | true => exact laidOut_trimRight true hl hclosed (.inl rfl)
    | false =>
      simp only [Bool.false_eq_true, if_false]
      split
      case isTrue hcode =>
        refine laidOut_trimRight false hl hclosed
          (.inr fun c hc => (Text.white_or_mem_strip hc).resolve_right fun hmem => ?_)
        exact absurd (List.isEmpty_iff.mp hcode ▸ hmem) List.not_mem_nil
      case isFalse =>
        obtain ⟨indent, hindent, e⟩ := layCode_text options s number (scriptLine (.ofLine false) l)
          (Text.strip (scriptLine (.ofLine false) l).masked)
        have hcells : (scriptLine (.ofLine false) l).cells.drop (leadingBlanks l).length =
            cellsFrom (.code false) (l.dropWhile Text.isBlank) := cells_behind_blanks l
        rw [scriptLine_text, hcells] at e
        exact laidOut_spaceLine ho _ hindent hl hclosed e

end Lines

end PineTools.Layout
