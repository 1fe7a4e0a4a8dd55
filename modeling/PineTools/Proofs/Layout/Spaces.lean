import PineTools.Layout.Spacing
import PineTools.Proofs.Layout.Cuts

/-! Canonical spaces change no token. What stands between two tokens is blank, a quote keeps its
distance from a backslash, and with spaces around operators two of them never make up the start of a
comment. -/
namespace PineTools.Layout

/-- A token and the same token with a role. Only operators get one, and no sign of a comment is
anything but binary. -/
structure Roled (t t' : Token) : Prop where
  kind : t'.kind = t.kind
  text : t'.text = t.text
  gap : t'.gap = t.gap
  plain : t.kind ≠ .operator → t'.role = t.role
  sign : t.kind = .operator → t.text.head? = some '/' ∨ t.text.head? = some '*' → t'.role = .binary

inductive AllRoled : List Token → List Token → Prop
  | nil : AllRoled [] []
  | cons {t t' : Token} {ts ts' : List Token} : Roled t t' → AllRoled ts ts' →
  AllRoled (t :: ts) (t' :: ts')

theorem Roled.refl {t : Token} (h : t.kind ≠ .operator) : Roled t t :=
  ⟨rfl, rfl, rfl, fun _ => rfl, fun e => absurd e h⟩

/-- The next operators, as many as given, are angle brackets. -/
def AnglesNext : Nat → List Token → Prop
  | 0, _ => True
  | _ + 1, [] => True
  | n + 1, t :: ts =>
    if t.kind = .operator then (t.text = ['<'] ∨ t.text = ['>']) ∧ AnglesNext n ts
      else AnglesNext (n + 1) ts

theorem anglesNext_zero (ts : List Token) : AnglesNext 0 ts := by simp only [AnglesNext]

theorem anglesNext_cons {t : Token} (h : t.kind ≠ .operator) {n : Nat} {ts : List Token} :
    AnglesNext n (t :: ts) ↔ AnglesNext n ts := by
  cases n with
  | zero => exact iff_of_true (anglesNext_zero _) (anglesNext_zero _)
  | succ n => rw [AnglesNext, if_neg h]

theorem anglesNext_operator {t : Token} (hk : t.kind = .operator)
    (ht : t.text = ['<'] ∨ t.text = ['>']) {n : Nat} {ts : List Token} (h : AnglesNext n ts) :
    AnglesNext (n + 1) (t :: ts) := by
  rw [AnglesNext, if_pos hk]
  exact ⟨ht, h⟩

theorem Token.isOperator_iff (t : Token) (s : String) :
    t.isOperator s = true ↔ t.kind = .operator ∧ t.text = s.toList := by
  rw [Token.isOperator, Bool.and_eq_true, beq_iff_eq, beq_iff_eq]

/-- Only names, commas and angle brackets stand in a list of element types. -/
theorem anglesNext_of_genericOperators {depth n : Nat} {ts : List Token}
    (h : genericOperators depth (ts.filter fun f => f.kind != .comment) = some n) :
    AnglesNext n ts := by
  induction ts generalizing depth n with
  | nil => cases h
  | cons t ts ih =>
    by_cases hcomment : t.kind = .comment
    · rw [List.filter_cons_of_neg (by simp [hcomment])] at h
      exact (anglesNext_cons (by rw [hcomment]; decide)).mpr (ih h)
    rw [List.filter_cons_of_pos (by simp [hcomment]), genericOperators.eq_def] at h
    dsimp only at h
    split at h
    case isTrue hopen =>
      obtain ⟨hk, ht⟩ := (t.isOperator_iff "<").mp hopen
      obtain ⟨k, hk', rfl⟩ := Option.map_eq_some_iff.mp h
      exact anglesNext_operator hk (.inl ht) (ih hk')
    case isFalse =>
      split at h
      case isTrue hclose =>
        obtain ⟨hk, ht⟩ := (t.isOperator_iff ">").mp hclose
        cases depth with
        | zero =>
          cases h
          exact anglesNext_operator hk (.inr ht) (anglesNext_zero ts)
        | succ depth =>
          obtain ⟨k, hk', rfl⟩ := Option.map_eq_some_iff.mp h
          exact anglesNext_operator hk (.inr ht) (ih hk')
      case isFalse =>
        split at h
        case isTrue hname =>
          refine (anglesNext_cons fun e => ?_).mpr (ih h)
          rw [e] at hname
          exact absurd hname (by decide)
        case isFalse => cases h

theorem operatorRole_next (t : Token) (opened : List Char) (previous earlier : Option Token)
    (ts : List Token) :
    AnglesNext (operatorRole t opened previous earlier (ts.filter fun f => f.kind != .comment)).2
      ts := by
  rw [operatorRole]
  split
  · exact anglesNext_zero ts
  split
  · exact anglesNext_zero ts
  split
  · split
    case h_1 n h => exact anglesNext_of_genericOperators h
    case h_2 => exact anglesNext_zero ts
  · exact anglesNext_zero ts

theorem operatorRole_sign {t : Token} (h : t.text.head? = some '/' ∨ t.text.head? = some '*')
    (opened : List Char) (previous earlier : Option Token) (followers : List Token) :
    (operatorRole t opened previous earlier followers).1 = .binary := by
  have none_of (s : String) (hs : s.toList.head? ≠ some '/' ∧ s.toList.head? ≠ some '*') :
      t.isOperator s = false := by
    rw [← Bool.not_eq_true, t.isOperator_iff]
    rintro ⟨-, e⟩
    rw [e] at h
    exact h.elim hs.1 hs.2
  simp only [operatorRole, isUnary, isNamedSign, none_of "+" (by decide), none_of "-" (by decide),
    none_of "=" (by decide), none_of "<" (by decide), Bool.or_self, Bool.false_and,
    Bool.false_eq_true, if_false]

theorem allRoled_assignRoles (opened : List Char) (previous earlier : Option Token) {pending : Nat}
    {ts : List Token} (h : AnglesNext pending ts) :
    AllRoled ts (assignRoles opened previous earlier pending ts) := by
  induction ts generalizing opened previous earlier pending with
  | nil => exact .nil
  | cons t ts ih =>
    have plain (hk : t.kind ≠ .operator) (opened : List Char) (previous earlier : Option Token) :
        AllRoled (t :: ts) (t :: assignRoles opened previous earlier pending ts) :=
      .cons (.refl hk) (ih _ _ _ ((anglesNext_cons hk).mp h))
    unfold assignRoles
    split
    case h_1 hk => exact plain (by rw [hk]; decide) _ _ _
    case h_2 hk => exact plain (by rw [hk]; decide) _ _ _
    case h_3 hk => exact plain (by rw [hk]; decide) _ _ _
    case h_4 hk =>
      split
      case h_1 n =>
        rw [AnglesNext, if_pos hk] at h
        refine .cons ⟨rfl, rfl, rfl, fun e => absurd hk e, fun _ hs => ?_⟩ (ih _ _ _ h.2)
        rcases h.1 with e | e <;> rw [e] at hs <;> exact absurd hs (by decide)
      case h_2 =>
        exact .cons ⟨rfl, rfl, rfl, fun e => absurd hk e, fun _ hs => operatorRole_sign hs _ _ _ _⟩
          (ih _ _ _ (operatorRole_next t _ _ _ ts))
    case h_5 hk => exact plain (fun e => by simp_all) _ _ _

section Separators

variable (options : FormatOptions)

theorem forall_mem_ite {c : Prop} [Decidable c] {p : Char → Prop} {a b : Text} (ha : ∀ x ∈ a, p x)
    (hb : ∀ x ∈ b, p x) :
    ∀ x ∈ (if c then a else b), p x := by
  split
  · exact ha
  · exact hb

theorem blank_of_blankIf (condition : Bool) : ∀ c ∈ blankIf condition, Text.isBlank c = true := by
  cases condition <;> decide

theorem blank_of_keptBlank (t : Token) : ∀ c ∈ keptBlank t, Text.isBlank c = true := by
  refine forall_mem_ite ?_ ?_ <;> decide

theorem blank_of_separator (p : Token) {t : Token} (h : ∀ c ∈ t.gap, Text.isBlank c = true) :
    ∀ c ∈ separator options p t, Text.isBlank c = true := by
  have nothing : ∀ c ∈ ([] : Text), Text.isBlank c = true := List.forall_mem_nil _
  have kept := blank_of_keptBlank t
  rw [separator]
  refine forall_mem_ite h (forall_mem_ite nothing (forall_mem_ite (blank_of_blankIf _) ?_))
  refine forall_mem_ite nothing (forall_mem_ite nothing (forall_mem_ite nothing ?_))
  refine forall_mem_ite (blank_of_blankIf _) (forall_mem_ite (by decide) (forall_mem_ite ?_ kept))
  exact forall_mem_ite kept (forall_mem_ite nothing kept)

theorem separator_comment (p : Token) {t : Token} (h : t.kind = .comment) :
    separator options p t = t.gap := by
  simp only [separator, h, BEq.rfl, Bool.true_or, if_true]

/-- A character that no rule is about keeps its distance. -/
theorem separator_other {p t : Token} (hp : p.kind = .other ∧ p.role = .plain)
    (ht : (t.kind = .literal ∨ t.kind = .other) ∧ t.role = .plain) :
    separator options p t = keptBlank t := by
  obtain ⟨hk | hk, hr⟩ := ht <;> simp [separator, hp.1, hp.2, hk, hr]

theorem separator_words {p t : Token} (hp : p.kind.isSign = false ∧ p.kind ≠ .comment ∧
    p.role = .plain) (ht : t.kind.isSign = false ∧ t.kind ≠ .comment ∧ t.role = .plain) :
      separator options p t = keptBlank t := by
  have sign {kind : TokenKind} (h : kind.isSign = false) :
      kind ≠ .operator ∧ kind ≠ .opener ∧ kind ≠ .closer ∧ kind ≠ .comma ∧ kind ≠ .dot := by
        cases kind <;> simp_all [TokenKind.isSign]
  obtain ⟨-, hopener, -, hcomma, hdot⟩ := sign hp.1
  obtain ⟨-, hopener', hcloser', hcomma', hdot'⟩ := sign ht.1
  simp [separator, hp.2, ht.2, hopener, hcomma, hdot, hopener', hcloser', hcomma', hdot']

theorem separator_dot {p t : Token} (hp : p.kind = .dot) (ht : t.kind.isSign = false)
    (hcomment : t.kind ≠ .comment) :
    separator options p t = [] := by
  have hcomma : t.kind ≠ .comma ∧ t.kind ≠ .closer := by
    cases h : t.kind <;> simp_all [TokenKind.isSign]
  simp [separator, hp, hcomment, hcomma]

theorem separator_opener {p t : Token} (hp : p.kind = .opener) (h : t.gap = []) :
    separator options p t = [] := by
  simp [separator, hp, h]

theorem separator_binary {options : FormatOptions} (ho : options.spacesAroundOperators = true)
    {p t : Token} (hp : p.kind = .operator ∧ p.role = .binary)
    (ht : t.kind = .operator ∧ t.role = .binary) :
    separator options p t = [' '] := by
  simp [separator, hp.1, hp.2, ht.1, ht.2, ho, blankIf]

theorem isEmpty_keptBlank (t : Token) : (keptBlank t).isEmpty = t.gap.isEmpty := by
  rw [keptBlank]
  split
  · simp_all
  · simp_all

end Separators

/-- After a character that two modes read alike the texts are read alike. -/
theorem substance_step {m m' : Mode} {c : Char} (h : ∀ ahead, m.step c ahead = m'.step c ahead)
    (t : Text) :
    substance m [c :: t] = substance m' [c :: t] := by
  rw [substance_singleton, substance_singleton, cellsFrom, cellsFrom, Mode.after, Mode.after, h, h]

theorem step_code_flag (b b' : Bool) {c : Char} (h : Quote.ofChar? c = none) (ahead : Option Char) :
    (Mode.code b).step c ahead = (Mode.code b').step c ahead := by
  simp only [Mode.step, Mode.stepCode, h]

theorem substance_code_flag (b b' : Bool) {c : Char} (h : Quote.ofChar? c = none) (t : Text) :
    substance (.code b) [c :: t] = substance (.code b') [c :: t] :=
  substance_step (step_code_flag b b' h) t

theorem substance_common_start {m : Mode} {t a b : Text} (alike : ReadsAlike m t a.head? b.head?)
    (literals : ∀ cs, literalsFrom [] (cellsUpTo m b.head? t ++ cs) =
      literalsFrom [] (cellsUpTo m b.head? t) ++ literalsFrom [] cs)
    (h : substance (m.after b.head? t) [a] = substance (m.after b.head? t) [b]) :
    substance m [t ++ a] = substance m [t ++ b] := by
  rw [substance_singleton, substance_singleton, Substance.mk.injEq] at h
  obtain ⟨hsolid, hliterals, hopen, hcomment⟩ := h
  rw [substance_singleton, substance_singleton, cellsFrom_append, cellsFrom_append,
    Mode.after_append, Mode.after_append, Option.or_none, Option.or_none, alike.1, alike.2,
    literals, literals, solidCells_append, solidCells_append, hsolid, hliterals, hopen, hcomment]

def afterGap (m : Mode) (gap : Text) : Mode := if gap.isEmpty then m else .code false

/-- The last token that was written, the mode after it, and the gap before the text that is still to
be written. -/
structure Written (m : Mode) (p : Token) (gap t : Text) : Prop where
  mode : (m = .block ∧ gap = []) ∨ ∃ b, m = .code b ∧ (b = true → p.kind = .other ∧ p.role = .plain)
  blank : ∀ c ∈ gap, Text.isBlank c = true
  slash : p.kind = .operator → p.text = ['/'] →
    p.role = .binary ∧ (gap = [] → t.head? ≠ some '/' ∧ t.head? ≠ some '*')

theorem afterGap_code (b : Bool) (gap : Text) :
    afterGap (.code b) gap = .code (b && gap.isEmpty) := by
  rw [afterGap]
  cases gap with
  | nil => simp
  | cons => simp

theorem Written.push {m : Mode} {p : Token} {gap : Text} {b : Bool} {c : Char} {cs : Text}
    (hw : Written m p gap (c :: cs)) (hk : .code b = afterGap m gap) (hc : Text.isBlank c = true) :
    .code false = afterGap m (gap ++ [c]) ∧ Written m p (gap ++ [c]) cs := by
  rcases hw.mode with ⟨rfl, rfl⟩ | ⟨b', rfl, hback⟩
  · cases hk
  refine ⟨?_, .inr ⟨b', rfl, hback⟩, ?_, fun hp hslash => ?_⟩
  · rw [afterGap_code, List.isEmpty_eq_false_iff.mpr (by simp), Bool.and_false]
  · exact List.forall_mem_append.mpr ⟨hw.blank, List.forall_mem_singleton.mpr hc⟩
  · exact ⟨(hw.slash hp hslash).1, fun e => absurd e (by simp)⟩

theorem step_separator (options : FormatOptions) {m : Mode} {p : Token} {gap : Text}
    {c : Char} {cs : Text} (hw : Written m p gap (c :: cs)) {kind : TokenKind}
    (start : TokenStart (afterGap m gap) kind c) (hcomment : kind ≠ .comment) {t : Token}
    (hgap : t.gap = gap) (hkind : t.kind = kind) (hrole : kind ≠ .operator → t.role = .plain) :
    ∃ b, m = .code b ∧ ∀ ahead, (Mode.code (b && (separator options p t).isEmpty)).step c ahead =
      (afterGap m gap).step c ahead := by
  rcases hw.mode with ⟨rfl, rfl⟩ | ⟨b, rfl, hback⟩
  · exact absurd (start.block rfl) hcomment
  refine ⟨b, rfl, ?_⟩
  rw [afterGap_code]
  cases hq : Quote.ofChar? c with
  | none => exact step_code_flag _ _ hq
  | some q =>
    have hk := (start.quote q (Quote.ofChar?_eq_some hq)).imp_right (·.resolve_right hcomment)
    have hplain : t.role = .plain := by
      refine hrole ?_
      rcases hk with rfl | rfl <;> decide
    cases b with
    | false => exact fun _ => rfl
    | true =>
      rw [separator_other options (hback rfl) ⟨hkind ▸ hk, hplain⟩, isEmpty_keptBlank, hgap]
      exact fun _ => rfl

theorem substance_separator (options : FormatOptions) {m : Mode} {p : Token} {gap : Text}
    {c : Char} {cs : Text} (hw : Written m p gap (c :: cs)) {kind : TokenKind}
    (start : TokenStart (afterGap m gap) kind c) {t : Token} (hgap : t.gap = gap)
    (hkind : t.kind = kind) (hrole : kind ≠ .operator → t.role = .plain) (rest : Text) :
    substance m [separator options p t ++ c :: rest] = substance (afterGap m gap) [c :: rest] := by
  by_cases hcomment : kind = .comment
  · rw [separator_comment options p (hkind.trans hcomment), hgap]
    rcases hw.mode with ⟨rfl, rfl⟩ | ⟨b, rfl, -⟩
    · rfl
    · rw [substance_code_white b (Text.white_of_blanks hw.blank), afterGap_code]
  have hblank := blank_of_separator options p (t := t) (by rw [hgap]; exact hw.blank)
  obtain ⟨b, e, hstep⟩ := step_separator options hw start hcomment hgap hkind hrole
  refine (congrArg (substance · [separator options p t ++ c :: rest]) e).trans ?_
  rw [substance_code_white b (Text.white_of_blanks hblank)]
  exact substance_step hstep rest

theorem separator_slash {options : FormatOptions} (ho : options.spacesAroundOperators = true)
    {m : Mode} {p : Token} {gap : Text} {c : Char} {cs : Text} (hw : Written m p gap (c :: cs))
    {kind : TokenKind} (start : TokenStart (afterGap m gap) kind c) {t : Token} (hgap : t.gap = gap)
    (hkind : t.kind = kind) (hrole : kind = .operator → c = '/' ∨ c = '*' → t.role = .binary)
    (hp : p.kind = .operator) (hslash : p.text = ['/']) (rest : Text) :
    (separator options p t ++ c :: rest).head? ≠ some '/' ∧
    (separator options p t ++ c :: rest).head? ≠ some '*' := by
  obtain ⟨hbinary, hnext⟩ := hw.slash hp hslash
  have hblank := blank_of_separator options p (t := t) (by rw [hgap]; exact hw.blank)
  cases hsep : separator options p t with
  | cons x xs =>
    rw [hsep] at hblank
    have hx := Text.isSpace_of_isBlank (hblank x List.mem_cons_self)
    exact ⟨fun e => ne_of_white hx (by decide) (Option.some_inj.mp e),
      fun e => ne_of_white hx (by decide) (Option.some_inj.mp e)⟩
  | nil =>
    have hc : ¬ (c = '/' ∨ c = '*') := by
      intro hc
      rcases start.sign hc with hop | hcomment
      · rw [separator_binary ho ⟨hp, hbinary⟩ ⟨hkind.trans hop, hrole hop hc⟩] at hsep
        cases hsep
      · rw [separator_comment options p (hkind.trans hcomment), hgap] at hsep
        have := hnext hsep
        rw [List.head?_cons, Ne, Option.some_inj, Ne, Option.some_inj] at this
        exact hc.elim this.1 this.2
    exact ⟨fun e => hc (.inl (Option.some_inj.mp e)), fun e => hc (.inr (Option.some_inj.mp e))⟩

theorem Cut.written {m : Mode} {kind : TokenKind} {text rest gap : Text}
    (cut : Cut m kind text rest) {t : Token} (roled : Roled { kind, text, gap } t) :
    Written (m.after rest.head? text) t [] rest := by
  refine ⟨?_, List.forall_mem_nil _, fun hk ht => ?_⟩
  · rcases cut.next with ⟨b, e, hb⟩ | ⟨-, e⟩
    · have hother (h : b = true) : kind ≠ .operator := by
        rw [hb h]
        decide
      exact .inr ⟨b, e, fun h => ⟨roled.kind.trans (hb h), roled.plain (hother h)⟩⟩
    · exact .inl ⟨e, rfl⟩
  · rw [roled.kind] at hk
    rw [roled.text] at ht
    refine ⟨roled.sign hk (.inl ?_), fun _ => cut.slash hk ht⟩
    rw [ht]
    rfl

/-- Writing tokens with canonical spaces keeps the substance of a line. The invariant along the line
is that the scanner stands where it stood, and that no comment starts at the seam. -/
theorem substance_joinAfter {options : FormatOptions} (ho : options.spacesAroundOperators = true)
    {m k : Mode} {p : Token} {gap t : Text} {ts ts' : List Token} (tokenized : Tokenized k gap t ts)
    (hk : k = afterGap m gap) (hw : Written m p gap t) (roled : AllRoled ts ts') :
    substance m [joinAfter options p ts'] = substance k [t] ∧
      (p.kind = .operator → p.text = ['/'] →
        (joinAfter options p ts').head? ≠ some '/' ∧
        (joinAfter options p ts').head? ≠ some '*') := by
  induction tokenized generalizing m p ts' with
  | nil k gap =>
    cases roled
    refine ⟨?_, fun _ _ => ⟨by simp [joinAfter], by simp [joinAfter]⟩⟩
    rw [hk]
    rcases hw.mode with ⟨rfl, rfl⟩ | ⟨b, rfl, -⟩
    · rfl
    · rw [afterGap_code]
      rfl
  | @blank b gap c cs ts hc _ ih =>
    have hspace := Text.isSpace_of_isBlank hc
    obtain ⟨hgap, hpushed⟩ := hw.push hk hc
    rw [show c :: cs = [c] ++ cs from rfl,
      substance_code_white _ (List.forall_mem_singleton.mpr hspace), List.isEmpty_cons,
      Bool.and_false]
    exact ih hgap hpushed roled
  | @token k gap c cs kind n ts start _ _ hcut hnext ih =>
    obtain _ | ⟨hroled, hrest⟩ := roled
    rename_i t' ts'
    -- The token followed by what is written after it, and by what it was followed by.
    have hjoin : substance k [c :: cs.take n ++ joinAfter options t' ts'] =
        substance k [c :: cs.take n ++ cs.drop n] := by
      rcases hcut with hnil | cut
      · rw [hnil] at hnext
        rw [hnext.eq_nil] at hrest
        cases hrest
        rw [hnil]
        rfl
      · obtain ⟨hsub, hseam⟩ := ih rfl (cut.written hroled) hrest
        refine substance_common_start (cut.alike _ fun hk ht => ?_) cut.literals hsub
        exact hseam (hroled.kind.trans hk) (hroled.text.trans ht)
    subst hk
    rw [joinAfter, hroled.text, List.append_assoc]
    rw [List.cons_append, List.cons_append, List.take_append_drop] at hjoin
    constructor
    · rw [List.cons_append, ← hjoin]
      exact substance_separator options hw start hroled.gap hroled.kind (fun h => hroled.plain h) _
    · intro hp hslash
      exact separator_slash ho hw start hroled.gap hroled.kind
        (fun hk hc => hroled.sign hk (hc.imp (congrArg some) (congrArg some))) hp hslash _

/-- An opening bracket, after which tokens are written as at the start of a line. -/
def frontToken : Token := { kind := .opener, text := ['('], gap := [] }

theorem joinAfter_front (options : FormatOptions) {t : Token} (h : t.gap = []) (ts : List Token) :
    joinAfter options frontToken (t :: ts) = joinTokens options (t :: ts) := by
  rw [joinAfter, separator_opener options rfl h, joinTokens]
  rfl

/-- A line that does not start with a blank is spaced as if it stood behind an opening bracket. -/
theorem spaceLine_eq (options : FormatOptions) (opened : List Char) {t : Text}
    (hfirst : t.head?.any Text.isBlank = false) :
    ∃ ts, AllRoled (tokensAfter [] (cellsFrom (.code false) t)) ts ∧
      spaceLine options opened (cellsFrom (.code false) t) = joinAfter options frontToken ts := by
  have roled :=
    allRoled_assignRoles opened none none (anglesNext_zero (tokens (cellsFrom (.code false) t)))
  refine ⟨_, roled, ?_⟩
  rw [spaceLine]
  generalize assignRoles opened none none 0 (tokens (cellsFrom (.code false) t)) = ts at roled ⊢
  cases t with
  | nil =>
    rw [cellsFrom, tokens, tokensAfter] at roled
    cases roled
    rfl
  | cons c cs =>
    have hblank : (((Mode.code false).step c cs.head?).1.isCode && Text.isBlank c) = false := by
      rw [show Text.isBlank c = false from hfirst, Bool.and_false]
    rw [tokens, tokensAfter_cellsFrom [] hblank rfl] at roled
    obtain _ | ⟨hroled, -⟩ := roled
    exact (joinAfter_front options hroled.gap _).symm

theorem written_front (t : Text) : Written (.code false) frontToken [] t :=
  ⟨.inr ⟨false, rfl, by decide⟩, List.forall_mem_nil _, fun e => by cases e⟩

theorem substance_spaceLine {options : FormatOptions} (ho : options.spacesAroundOperators = true)
    (opened : List Char) {t : Text} (ht : Text.OneLine t)
    (hfirst : t.head?.any Text.isBlank = false) :
    substance (.code false) [spaceLine options opened (cellsFrom (.code false) t)] =
      substance (.code false) [t] := by
  obtain ⟨ts, roled, e⟩ := spaceLine_eq options opened hfirst
  rw [e]
  exact (substance_joinAfter ho (tokenized_tokensAfter (.inr ⟨false, rfl⟩) [] ht) rfl
    (written_front t) roled).1

section Texts

variable (options : FormatOptions)

theorem tokensAfter_texts {gap : Text} (h : ∀ c ∈ gap, Text.isBlank c = true) (cs : List Cell) :
    ((tokensAfter gap cs).map fun t => Text.solid t.text).flatten = Text.solid (cs.map Cell.char) ∧
      ∀ t ∈ tokensAfter gap cs, (∀ c ∈ t.gap, Text.isBlank c = true) ∧ ∀ c ∈ t.text,
        c ∈ cs.map Cell.char := by
  fun_induction tokensAfter gap cs with
  | case1 gap => exact ⟨rfl, List.forall_mem_nil _⟩
  | case2 gap c cs hblank ih =>
    obtain ⟨-, hc⟩ := Bool.and_eq_true_iff.mp hblank
    obtain ⟨hsolid, hmem⟩ := ih (List.forall_mem_append.mpr ⟨h, List.forall_mem_singleton.mpr hc⟩)
    rw [List.map_cons, Text.solid_cons, if_pos (Text.isSpace_of_isBlank hc)]
    exact ⟨hsolid, fun t ht =>
      ⟨(hmem t ht).1, fun x hx => List.mem_cons_of_mem _ ((hmem t ht).2 x hx)⟩⟩
  | case3 gap c cs hblank kind extra e ih =>
    obtain ⟨hsolid, hmem⟩ := ih (List.forall_mem_nil _)
    have hcs : cs.map Cell.char = (cs.take extra).map Cell.char ++
        (cs.drop extra).map Cell.char := by
      rw [← List.map_append, List.take_append_drop]
    rw [List.map_cons, List.map_cons, List.flatten_cons, hsolid, ← Text.solid_append,
      List.cons_append, hcs]
    refine ⟨rfl,
      List.forall_mem_cons.mpr ⟨⟨h, fun x hx => ?_⟩, fun t ht => ⟨(hmem t ht).1, fun x hx => ?_⟩⟩⟩
    · exact (List.mem_append_left _ hx : x ∈ (c.char :: (cs.take extra).map Cell.char) ++ _)
    · exact List.mem_cons_of_mem _ (List.mem_append_right _ ((hmem t ht).2 x hx))

theorem AllRoled.texts {ts ts' : List Token} (h : AllRoled ts ts') :
    ts'.map Token.text = ts.map Token.text := by
  induction h with
  | nil => rfl
  | cons hroled _ ih => rw [List.map_cons, List.map_cons, hroled.text, ih]

theorem AllRoled.gaps {ts ts' : List Token} (h : AllRoled ts ts') :
    ts'.map Token.gap = ts.map Token.gap := by
  induction h with
  | nil => rfl
  | cons hroled _ ih => rw [List.map_cons, List.map_cons, hroled.gap, ih]

theorem solid_joinAfter (p : Token) {ts : List Token} (h : ∀ gap ∈ ts.map Token.gap, ∀ c ∈ gap,
    Text.isBlank c = true) :
    Text.solid (joinAfter options p ts) = ((ts.map Token.text).map Text.solid).flatten := by
  induction ts generalizing p with
  | nil => rfl
  | cons t ts ih =>
    obtain ⟨hgap, hrest⟩ := List.forall_mem_cons.mp h
    have hsep := blank_of_separator options p hgap
    rw [joinAfter, Text.solid_append, Text.solid_append, ih t hrest,
      Text.solid_eq_nil (Text.white_of_blanks hsep), List.nil_append]
    rfl

theorem mem_joinAfter {p : Token} {ts : List Token} (h : ∀ gap ∈ ts.map Token.gap, ∀ c ∈ gap,
    Text.isBlank c = true) {x : Char} (hx : x ∈ joinAfter options p ts) : Text.isBlank x = true ∨
    ∃ text ∈ ts.map Token.text, x ∈ text := by
  induction ts generalizing p with
  | nil => exact absurd hx List.not_mem_nil
  | cons t ts ih =>
    obtain ⟨hgap, hrest⟩ := List.forall_mem_cons.mp h
    rw [joinAfter] at hx
    rcases List.mem_append.mp hx with hx | hx
    · rcases List.mem_append.mp hx with hx | hx
      · exact .inl (blank_of_separator options p hgap x hx)
      · exact .inr ⟨t.text, List.mem_cons_self, hx⟩
    · refine (ih hrest hx).imp_right ?_
      rintro ⟨text, hmem, hx⟩
      exact ⟨text, List.mem_cons_of_mem _ hmem, hx⟩

/-- Spacing a line neither drops nor adds anything but white space, whatever the options. -/
theorem solid_spaceLine (opened : List Char) (line : List Cell) :
    Text.solid (spaceLine options opened line) = Text.solid (line.map Cell.char) ∧
      ∀ c ∈ spaceLine options opened line, Text.isBlank c = true ∨ c ∈ line.map Cell.char := by
  have roled := allRoled_assignRoles opened none none (anglesNext_zero (tokens line))
  obtain ⟨hsolid, hmem⟩ := @tokensAfter_texts [] (List.forall_mem_nil _) line
  have hgaps : ∀ gap ∈ (assignRoles opened none none 0 (tokens line)).map Token.gap, ∀ c ∈ gap,
      Text.isBlank c = true := by
    rw [roled.gaps]
    intro gap hgap
    obtain ⟨t, ht, rfl⟩ := List.mem_map.mp hgap
    exact (hmem t ht).1
  have htexts : (((tokens line).map Token.text).map Text.solid).flatten =
      Text.solid (line.map Cell.char) := by
    rw [List.map_map]
    exact hsolid
  rw [spaceLine]
  rw [← roled.texts] at htexts
  have hchars : ∀ text ∈ (assignRoles opened none none 0 (tokens line)).map Token.text, ∀ c ∈ text,
      c ∈ line.map Cell.char := by
    rw [roled.texts]
    intro text htext
    obtain ⟨t, ht, rfl⟩ := List.mem_map.mp htext
    exact (hmem t ht).2
  generalize assignRoles opened none none 0 (tokens line) = ts at hgaps htexts hchars ⊢
  cases ts with
  | nil => exact ⟨htexts, List.forall_mem_nil _⟩
  | cons t ts =>
    obtain ⟨-, hrest⟩ := List.forall_mem_cons.mp hgaps
    rw [joinTokens]
    refine ⟨?_, fun c hc => ?_⟩
    · rw [← htexts, Text.solid_append, solid_joinAfter options t hrest]
      rfl
    · rcases List.mem_append.mp hc with hc | hc
      · exact .inr (hchars _ List.mem_cons_self c hc)
      · refine (mem_joinAfter options hrest hc).imp_right ?_
        rintro ⟨text, htext, hc⟩
        exact hchars text (List.mem_cons_of_mem _ htext) c hc

end Texts

end PineTools.Layout
