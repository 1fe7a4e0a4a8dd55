import PineTools.Proofs.Construct.Calls
import PineTools.Proofs.Construct.LineByLine
import PineTools.Proofs.Repair.Renames
import PineTools.Proofs.Scan.Places

/-! Names that are called. A name ends where no word character and no dot goes on, and it is called
where a parenthesis opens behind it. Looking for the calls of a name is looking for it among the
called names, and renaming calls gives those names another spelling; two such changes, one after the
other, are one. -/
namespace PineTools

open Reader

variable {α : Type} [Glyph α]

def inName (g : α) : Bool := Text.isWordOrDot (Glyph.seen g)

/-- A parenthesis opens next, perhaps behind blanks. -/
def opens (gs : List α) : Bool :=
  (gs.dropWhile fun g => Text.isBlank (Glyph.seen g)).head?.map Glyph.seen == some '('

/-- Gives the names that are called another spelling. What has been read of a name so far is passed
on. -/
def mapCallsFrom (f : List α → List α) (read : List α) : List α → List α
  | [] => read
  | g :: gs =>
    if inName g then mapCallsFrom f (read ++ [g]) gs
    else (if opens (g :: gs) then f read else read) ++ g :: mapCallsFrom f [] gs

/-- Gives the names that are called another spelling. -/
def mapCalls (f : List α → List α) (gs : List α) : List α := mapCallsFrom f [] gs

/-- The names that are called. Where a parenthesis opens behind no name, the empty name counts. -/
def callsFrom (read : List α) : List α → List (List α)
  | [] => []
  | g :: gs =>
    if inName g then callsFrom (read ++ [g]) gs
    else if opens (g :: gs) then read :: callsFrom [] gs
    else callsFrom [] gs

def calls (gs : List α) : List (List α) := callsFrom [] gs

theorem opens_cons (g : α) (gs : List α) :
    opens (g :: gs) = if Text.isBlank (Glyph.seen g) then opens gs else Glyph.seen g == '(' := by
  rw [opens, List.dropWhile_cons]
  split
  · rfl
  · rfl

theorem opens_of_inName {g : α} (h : inName g = true) (gs : List α) : opens (g :: gs) = false := by
  rw [opens_cons, if_neg (by rw [(not_blank_of_isWordOrDot h).1]; exact Bool.false_ne_true),
    beq_eq_false_iff_ne]
  intro e
  rw [inName, e] at h
  exact absurd h (by decide)

/-- A spelling keeps the empty name and makes names of names. -/
structure Spelling (f : List α → List α) : Prop where
  nil : f [] = []
  name : ∀ u, u ≠ [] → (∀ g ∈ u, inName g = true) → f u ≠ [] ∧ ∀ g ∈ f u, inName g = true

theorem Spelling.comp {f g : List α → List α} (hg : Spelling g) (hf : Spelling f) :
    Spelling (g ∘ f) :=
  ⟨(congrArg g hf.nil).trans hg.nil, fun u hne hu => hg.name _ (hf.name u hne hu).1
    (hf.name u hne hu).2⟩

theorem Spelling.inName {f : List α → List α} (h : Spelling f) {u : List α}
    (hu : ∀ g ∈ u, inName g = true) :
    ∀ g ∈ f u, PineTools.inName g = true := by
  by_cases hne : u = []
  · rw [hne, h.nil]
    exact List.forall_mem_nil _
  · exact (h.name u hne hu).2

section MapCalls

variable {f : List α → List α}

theorem mapCallsFrom_names {u : List α} (hu : ∀ g ∈ u, inName g = true) (read gs : List α) :
    mapCallsFrom f read (u ++ gs) = mapCallsFrom f (read ++ u) gs := by
  induction u generalizing read with
  | nil => rw [List.nil_append, List.append_nil]
  | cons g u ih =>
    obtain ⟨hg, hu⟩ := List.forall_mem_cons.mp hu
    rw [List.cons_append, mapCallsFrom, if_pos hg, ih hu, List.append_assoc]
    rfl

theorem mapCalls_cons_of_not (hf : f [] = []) {g : α} (hg : inName g = false) (gs : List α) :
    mapCalls f (g :: gs) = g :: mapCalls f gs := by
  rw [mapCalls, mapCallsFrom, if_neg (by rw [hg]; exact Bool.false_ne_true), hf, ite_self]
  rfl

theorem mapCallsFrom_eq (hf : f [] = []) (read gs : List α) : mapCallsFrom f read gs =
    (if opens (gs.dropWhile inName) then f (read ++ gs.takeWhile inName)
      else read ++ gs.takeWhile inName) ++
      mapCalls f (gs.dropWhile inName) := by
  induction gs generalizing read with
  | nil => simp [mapCallsFrom, mapCalls, opens]
  | cons g gs ih =>
    rw [mapCallsFrom]
    by_cases hg : inName g = true
    · rw [if_pos hg, ih, List.takeWhile_cons_of_pos hg, List.dropWhile_cons_of_pos hg,
        List.append_assoc]
      rfl
    · rw [if_neg hg, List.takeWhile_cons_of_neg hg, List.dropWhile_cons_of_neg hg, List.append_nil,
        mapCalls_cons_of_not hf (Bool.not_eq_true _ ▸ hg)]
      rfl

theorem opens_mapCalls (hf : Spelling f) (gs : List α) : opens (mapCalls f gs) = opens gs := by
  induction gs with
  | nil => rfl
  | cons g gs ih =>
    by_cases hg : inName g = true
    · rw [opens_of_inName hg, mapCalls, mapCallsFrom, if_pos hg, mapCallsFrom_eq hf.nil]
      have hname : ∀ x ∈ [] ++ [g] ++ gs.takeWhile inName, inName x = true := by
        rw [List.forall_mem_append]
        exact ⟨List.forall_mem_singleton.mpr hg, fun x hx =>
          List.all_eq_true.mp List.all_takeWhile x hx⟩
      obtain ⟨hne, hall⟩ := hf.name _ (by simp) hname
      -- A name begins with a glyph that neither is blank nor opens a call.
      have hbegins {u : List α} (hne : u ≠ []) (hu : ∀ x ∈ u, inName x = true) (rest : List α) :
          opens (u ++ rest) = false := by
        cases u with
        | nil => exact absurd rfl hne
        | cons x u => exact opens_of_inName (hu x List.mem_cons_self) (u ++ rest)
      split
      · exact hbegins hne hall _
      · exact hbegins (by simp) hname _
    · rw [mapCalls_cons_of_not hf.nil (Bool.not_eq_true _ ▸ hg), opens_cons, opens_cons, ih]

theorem mapCalls_mapCalls (hf : Spelling f) (g : List α → List α) (gs : List α) :
    mapCalls g (mapCalls f gs) = mapCalls (g ∘ f) gs := by
  suffices ∀ read, (∀ x ∈ read, inName x = true) → mapCalls g (mapCallsFrom f read gs) =
    mapCallsFrom (g ∘ f) read gs from
    this [] (List.forall_mem_nil _)
  induction gs with
  | nil =>
    intro read hread
    have hend := mapCallsFrom_names (f := g) hread [] []
    rw [List.append_nil, List.nil_append] at hend
    exact hend
  | cons x gs ih =>
    intro read hread
    rw [mapCallsFrom, mapCallsFrom]
    by_cases hx : inName x = true
    · rw [if_pos hx, if_pos hx]
      exact ih _ (List.forall_mem_append.mpr ⟨hread, List.forall_mem_singleton.mpr hx⟩)
    · rw [if_neg hx, if_neg hx]
      have hopens : opens (x :: mapCallsFrom f [] gs) = opens (x :: gs) := by
        rw [opens_cons, opens_cons, ← mapCalls, opens_mapCalls hf]
      have hspelt {u : List α} (hu : ∀ y ∈ u, inName y = true) :
        mapCalls g (u ++ x :: mapCallsFrom f [] gs) =
          (if opens (x :: gs) then g u else u) ++ x :: mapCallsFrom (g ∘ f) [] gs := by
        rw [mapCalls, mapCallsFrom_names hu, List.nil_append, mapCallsFrom, if_neg hx, hopens,
          ← ih [] (List.forall_mem_nil _)]
        rfl
      split
      case isTrue hopen =>
        rw [hspelt (hf.inName hread), if_pos hopen]
        rfl
      case isFalse hopen => rw [hspelt hread, if_neg hopen]

theorem mapCalls_congr {g : List α → List α} {gs : List α} (h : ∀ u ∈ calls gs, f u = g u) :
    mapCalls f gs = mapCalls g gs := by
  suffices ∀ read, (∀ u ∈ callsFrom read gs, f u = g u) → mapCallsFrom f read gs =
    mapCallsFrom g read gs from this [] h
  clear h
  induction gs with
  | nil => exact fun _ _ => rfl
  | cons x gs ih =>
    intro read h
    rw [callsFrom] at h
    rw [mapCallsFrom, mapCallsFrom]
    by_cases hx : inName x = true
    · rw [if_pos hx] at h
      rw [if_pos hx, if_pos hx, ih _ h]
    · rw [if_neg hx] at h
      rw [if_neg hx, if_neg hx]
      split
      case isTrue hopen =>
        rw [if_pos hopen, List.forall_mem_cons] at h
        rw [h.1, ih _ h.2]
      case isFalse hopen =>
        rw [if_neg hopen] at h
        rw [ih _ h]

theorem mapCalls_id (gs : List α) : mapCalls id gs = gs := by
  suffices ∀ read : List α, mapCallsFrom id read gs = read ++ gs from this []
  induction gs with
  | nil => exact fun read => (List.append_nil read).symm
  | cons x gs ih =>
    intro read
    rw [mapCallsFrom, ih, ih, id, ite_self]
    split
    · rw [List.append_assoc, List.singleton_append]
    · rfl

/-- A called name is made of glyphs of the sequence. -/
theorem mem_of_mem_calls {gs u : List α} (h : u ∈ calls gs) : ∀ x ∈ u, x ∈ gs := by
  suffices ∀ read, u ∈ callsFrom read gs → ∀ x ∈ u, x ∈ read ++ gs from this [] h
  clear h
  induction gs with
  | nil => exact fun read h => absurd h List.not_mem_nil
  | cons y gs ih =>
    intro read h x hx
    rw [callsFrom] at h
    have hlater (h : u ∈ callsFrom [] gs) : x ∈ read ++ y :: gs :=
      List.mem_append_right read (List.mem_cons_of_mem y (ih [] h x hx))
    split at h
    · have := ih _ h x hx
      rwa [List.append_assoc, List.singleton_append] at this
    · split at h
      · rcases List.mem_cons.mp h with rfl | h
        · exact List.mem_append_left _ hx
        · exact hlater h
      · exact hlater h

theorem callsFrom_names {u : List α} (hu : ∀ g ∈ u, inName g = true) (read gs : List α) :
    callsFrom read (u ++ gs) = callsFrom (read ++ u) gs := by
  induction u generalizing read with
  | nil => rw [List.nil_append, List.append_nil]
  | cons g u ih =>
    obtain ⟨hg, hu⟩ := List.forall_mem_cons.mp hu
    rw [List.cons_append, callsFrom, if_pos hg, ih hu, List.append_assoc]
    rfl

theorem calls_mapCalls (hf : Spelling f) (gs : List α) :
    calls (mapCalls f gs) = (calls gs).map f := by
  suffices ∀ read, (∀ x ∈ read, inName x = true) →
      calls (mapCallsFrom f read gs) = (callsFrom read gs).map f from
        this [] (List.forall_mem_nil _)
  induction gs with
  | nil =>
    intro read hread
    have hend := callsFrom_names hread [] []
    rw [List.append_nil] at hend
    exact hend
  | cons x gs ih =>
    intro read hread
    rw [mapCallsFrom, callsFrom]
    by_cases hx : inName x = true
    · rw [if_pos hx, if_pos hx]
      exact ih _ (List.forall_mem_append.mpr ⟨hread, List.forall_mem_singleton.mpr hx⟩)
    · have hopens : opens (x :: mapCallsFrom f [] gs) = opens (x :: gs) := by
        rw [opens_cons, opens_cons, ← mapCalls, opens_mapCalls hf]
      have hspelt {u : List α} (hu : ∀ y ∈ u, inName y = true) :
          calls (u ++ x :: mapCallsFrom f [] gs) =
            (if opens (x :: gs) then [u] else []) ++ (calls gs).map f := by
        have hrest : callsFrom [] (mapCallsFrom f [] gs) = (calls gs).map f :=
          ih [] (List.forall_mem_nil _)
        rw [calls, callsFrom_names hu, List.nil_append, callsFrom, if_neg hx, hopens, hrest]
        split <;> rfl
      rw [if_neg hx, if_neg hx]
      split
      case isTrue hopen =>
        rw [hspelt (hf.inName hread), if_pos hopen, List.map_cons]
        rfl
      case isFalse hopen =>
        rw [hspelt hread, if_neg hopen]
        rfl

section Dividers

/-- A glyph with which no name goes on and no call opens. -/
def Divides (g : α) : Prop :=
  inName g = false ∧ Text.isBlank (Glyph.seen g) = false ∧ Glyph.seen g ≠ '('

variable {g : α} (hg : Divides g)
include hg

theorem opens_append_divider (a b : List α) : opens (a ++ g :: b) = opens a := by
  induction a with
  | nil =>
    rw [List.nil_append, opens_cons, hg.2.1, if_neg Bool.false_ne_true]
    exact beq_false_of_ne hg.2.2
  | cons x a ih => rw [List.cons_append, opens_cons, opens_cons, ih]

theorem mapCalls_append_divider (a b : List α) :
    mapCalls f (a ++ g :: b) = mapCalls f a ++ g :: mapCalls f b := by
  suffices ∀ read, mapCallsFrom f read (a ++ g :: b) = mapCallsFrom f read a ++
    g :: mapCalls f b from
    this []
  induction a with
  | nil =>
    intro read
    have hopen := opens_append_divider hg [] b
    rw [List.nil_append] at hopen
    rw [List.nil_append, mapCallsFrom, mapCallsFrom, hopen, hg.1, if_neg Bool.false_ne_true]
    rfl
  | cons x a ih =>
    intro read
    have hopen := opens_append_divider hg (x :: a) b
    rw [List.cons_append] at hopen
    rw [List.cons_append, mapCallsFrom, mapCallsFrom, hopen, ih, ih]
    split
    · rfl
    · rw [List.append_assoc, List.cons_append]

theorem calls_append_divider (a b : List α) : calls (a ++ g :: b) = calls a ++ calls b := by
  suffices ∀ read, callsFrom read (a ++ g :: b) = callsFrom read a ++ calls b from this []
  induction a with
  | nil =>
    intro read
    have hopen := opens_append_divider hg [] b
    rw [List.nil_append] at hopen
    rw [List.nil_append, callsFrom, callsFrom, hopen, hg.1, if_neg Bool.false_ne_true]
    rfl
  | cons x a ih =>
    intro read
    have hopen := opens_append_divider hg (x :: a) b
    rw [List.cons_append] at hopen
    rw [List.cons_append, callsFrom, callsFrom, hopen, ih, ih]
    split
    · rfl
    · split <;> rfl

end Dividers

section Closed

variable {a : List α} (ha : ∀ g ∈ a, Glyph.seen g ≠ '(')
include ha

theorem opens_append_closed {b : List α} (hb : opens b = false) : opens (a ++ b) = false := by
  induction a with
  | nil => exact hb
  | cons x a ih =>
    obtain ⟨hx, ha⟩ := List.forall_mem_cons.mp ha
    rw [List.cons_append, opens_cons, ih ha]
    split
    · rfl
    · exact beq_false_of_ne hx

/-- Where no call opens every name keeps its spelling. -/
theorem mapCalls_closed : mapCalls f a = a := by
  suffices ∀ read, mapCallsFrom f read a = read ++ a from this []
  induction a with
  | nil => exact fun read => (List.append_nil read).symm
  | cons x a ih =>
    intro read
    have hopen : opens (x :: a) = false := by
      have := opens_append_closed ha (b := []) rfl
      rwa [List.append_nil] at this
    obtain ⟨-, ha⟩ := List.forall_mem_cons.mp ha
    rw [mapCallsFrom, ih ha, ih ha, hopen, if_neg Bool.false_ne_true]
    split
    · rw [List.append_assoc, List.singleton_append]
    · rfl

theorem mapCalls_append_closed (hlast : ∀ g ∈ a.getLast?, inName g = false) {b : List α}
    (hb : opens b = false) : mapCalls f (a ++ b) = a ++ mapCalls f b := by
  suffices ∀ read, a ≠ [] → mapCallsFrom f read (a ++ b) = read ++ (a ++ mapCalls f b) by
    by_cases hne : a = []
    · rw [hne]
      rfl
    · exact this [] hne
  induction a with
  | nil => exact fun read hne => absurd rfl hne
  | cons x a ih =>
    intro read _
    have hopen := opens_append_closed ha hb
    obtain ⟨hx, ha⟩ := List.forall_mem_cons.mp ha
    rw [List.cons_append] at hopen
    rw [List.cons_append, mapCallsFrom, hopen, if_neg Bool.false_ne_true]
    cases a with
    | nil =>
      rw [hlast x rfl, if_neg Bool.false_ne_true]
      rfl
    | cons y a =>
      have hlast : ∀ g ∈ (y :: a).getLast?, inName g = false :=
        fun g hg => hlast g (by rwa [List.getLast?_cons_cons])
      rw [ih ha hlast _ (List.cons_ne_nil y a), ih ha hlast _ (List.cons_ne_nil y a)]
      split
      · simp only [List.append_assoc, List.cons_append, List.nil_append]
      · rfl

/-- Where no call opens no name is called, and none is by what stands in front. -/
theorem calls_append_closed (b : List α) : calls (b ++ a) = calls b := by
  have hopens (b : List α) : opens (b ++ a) = opens b := by
    induction b with
    | nil =>
      have hnone := opens_append_closed ha (b := []) rfl
      rwa [List.append_nil] at hnone
    | cons x b ih => rw [List.cons_append, opens_cons, opens_cons, ih]
  have hnone : ∀ read : List α, callsFrom read a = [] := by
    clear hopens
    induction a with
    | nil => exact fun _ => rfl
    | cons x a ih =>
      have hopen := opens_append_closed ha (b := []) rfl
      rw [List.append_nil] at hopen
      obtain ⟨-, ha⟩ := List.forall_mem_cons.mp ha
      intro read
      rw [callsFrom, hopen, if_neg Bool.false_ne_true, ih ha, ih ha, ite_self]
  suffices ∀ read, callsFrom read (b ++ a) = callsFrom read b from this []
  induction b with
  | nil => exact fun read => hnone read
  | cons x b ih =>
    intro read
    have hopen := hopens (x :: b)
    rw [List.cons_append] at hopen
    rw [List.cons_append, callsFrom, callsFrom, hopen, ih, ih]

theorem calls_closed : calls a = [] := calls_append_closed ha []

end Closed

theorem mapCalls_append_of_not (hf : f [] = []) {a : List α} (ha : ∀ g ∈ a, inName g = false)
    (b : List α) :
    mapCalls f (a ++ b) = a ++ mapCalls f b := by
  induction a with
  | nil => rfl
  | cons g a ih =>
    obtain ⟨hg, ha⟩ := List.forall_mem_cons.mp ha
    rw [List.cons_append, mapCalls_cons_of_not hf hg, ih ha]
    rfl

theorem not_inName_of_blank {g : α} (hg : Text.isBlank (Glyph.seen g) = true) :
    inName g = false := by
  refine Bool.eq_false_iff.mpr fun hname => ?_
  rw [(not_blank_of_isWordOrDot hname).1] at hg
  cases hg

/-- Behind glyphs that stand in no name the same names are called. -/
theorem mem_calls_append_of_not {u a : List α} (hu : u ≠ []) (ha : ∀ g ∈ a, inName g = false)
    (b : List α) :
    u ∈ calls (a ++ b) ↔ u ∈ calls b := by
  induction a with
  | nil => rfl
  | cons g a ih =>
    obtain ⟨hg, ha⟩ := List.forall_mem_cons.mp ha
    rw [List.cons_append, calls, callsFrom, if_neg (by rw [hg]; exact Bool.false_ne_true), ← ih ha]
    split
    · rw [List.mem_cons, or_iff_right hu]
      rfl
    · rfl

theorem mapCalls_call (hf : f [] = []) {u gap b : List α} {p : α} (hu : ∀ g ∈ u, inName g = true)
    (hgap : ∀ g ∈ gap, Text.isBlank (Glyph.seen g) = true) (hp : Glyph.seen p = '(') :
    mapCalls f (u ++ (gap ++ p :: b)) = f u ++ (gap ++ p :: mapCalls f b) := by
  have hopen {gap : List α} (hgap : ∀ g ∈ gap, Text.isBlank (Glyph.seen g) = true) :
      opens (gap ++ p :: b) = true := by
    induction gap with
    | nil =>
      rw [List.nil_append, opens_cons, hp]
      rfl
    | cons g gap ih =>
      obtain ⟨hg, hgap⟩ := List.forall_mem_cons.mp hgap
      rw [List.cons_append, opens_cons, if_pos hg, ih hgap]
  have hblank : ∀ g ∈ gap ++ [p], inName g = false := by
    rw [List.forall_mem_append]
    refine ⟨fun g hg => not_inName_of_blank (hgap g hg), List.forall_mem_singleton.mpr ?_⟩
    rw [inName, hp]
    decide
  have hopens := hopen hgap
  have hsplit (b : List α) : gap ++ p :: b = (gap ++ [p]) ++ b := by simp
  rw [mapCalls, mapCallsFrom_names hu, List.nil_append]
  rw [hsplit b] at hopens
  rw [hsplit b, hsplit (mapCalls f b)]
  cases hseparators : gap ++ [p] with
  | nil => simp at hseparators
  | cons g separators =>
    rw [hseparators] at hopens hblank
    obtain ⟨hg, hseparators⟩ := List.forall_mem_cons.mp hblank
    rw [List.cons_append] at hopens
    rw [List.cons_append, List.cons_append, mapCallsFrom, hg, if_neg Bool.false_ne_true, hopens,
      if_pos rfl, ← mapCalls, mapCalls_append_of_not hf hseparators]

section Seen

theorem opens_seenText (gs : List α) : opens (seenText gs) = opens gs := by
  induction gs with
  | nil => rfl
  | cons g gs ih =>
    rw [opens_cons, ← ih]
    exact opens_cons (Glyph.seen g) (seenText gs)

theorem calls_seenText (gs : List α) : calls (seenText gs) = (calls gs).map seenText := by
  suffices ∀ read : List α, callsFrom (seenText read) (seenText gs) =
    (callsFrom read gs).map seenText from
    this []
  induction gs with
  | nil => exact fun _ => rfl
  | cons g gs ih =>
    intro read
    have hopens : opens (Glyph.seen g :: seenText gs) = opens (g :: gs) := opens_seenText (g :: gs)
    have hread : seenText read ++ [Glyph.seen g] = seenText (read ++ [g]) := by
      rw [seenText, seenText, List.map_append]
      rfl
    have hmore := ih (read ++ [g])
    have hrest : callsFrom [] (seenText gs) = (callsFrom [] gs).map seenText := ih []
    change callsFrom (seenText read) (Glyph.seen g :: seenText gs) = _
    have hname : inName (Glyph.seen g) = inName g := rfl
    rw [callsFrom, callsFrom, hopens, hname, hread, hmore, hrest]
    split
    · rfl
    · split <;> rfl

theorem seenText_mapCalls {f' : Text → Text} (h : ∀ u, seenText (f u) = f' (seenText u))
    (gs : List α) :
    seenText (mapCalls f gs) = mapCalls f' (seenText gs) := by
  suffices ∀ read : List α,
      seenText (mapCallsFrom f read gs) = mapCallsFrom f' (seenText read) (seenText gs) from this []
  induction gs with
  | nil => exact fun _ => rfl
  | cons g gs ih =>
    intro read
    have hopens : opens (Glyph.seen g :: seenText gs) = opens (g :: gs) := opens_seenText (g :: gs)
    have hread : seenText read ++ [Glyph.seen g] = seenText (read ++ [g]) := by
      rw [seenText, seenText, List.map_append]
      rfl
    have hmore := ih (read ++ [g])
    have hrest : seenText (mapCallsFrom f [] gs) = mapCallsFrom f' [] (seenText gs) := ih []
    have hname : inName (Glyph.seen g) = inName g := rfl
    change _ = mapCallsFrom f' (seenText read) (Glyph.seen g :: seenText gs)
    rw [mapCallsFrom, mapCallsFrom, hopens, hname, hread, ← hmore, ← hrest, ← h]
    split
    · rfl
    · split <;> exact List.map_append

end Seen

end MapCalls

section CallOf

variable {name : Text}

theorem inName_of_mem_takeWhile (gs : List α) : ∀ g ∈ gs.takeWhile inName, inName g = true :=
  fun g hg => List.all_eq_true.mp List.all_takeWhile g hg

theorem not_inName_of_dropWhile {gs rest : List α} {g : α} (h : gs.dropWhile inName = g :: rest) :
    inName g = false := by
  have hhead := List.head?_dropWhile_not inName gs
  rw [h] at hhead
  simpa using hhead

theorem names_append_of_opens {u rest : List α} (hu : ∀ g ∈ u, inName g = true)
    (hopen : opens rest = true) :
    (u ++ rest).takeWhile inName = u ∧ (u ++ rest).dropWhile inName = rest := by
  have hends (g : α) (hg : rest.head? = some g) : Text.isWordOrDot (Glyph.seen g) = false := by
    cases rest with
    | nil => cases hg
    | cons x rest =>
      cases hg
      cases hx : inName g with
      | false => exact hx
      | true =>
        rw [opens_of_inName hx] at hopen
        cases hopen
  obtain ⟨htake, hdrop⟩ := run_eq_some.mp (run_append hu hends)
  exact ⟨htake.symm, hdrop.symm⟩

@[elab_as_elim]
theorem induction_names {motive : List α → Prop}
    (name : ∀ gs, (∀ g rest, gs.dropWhile inName = g :: rest → motive rest) → motive gs)
    (gs : List α) : motive gs := by
  induction hlen : gs.length using Nat.strongRecOn generalizing gs with
  | _ n ih =>
    refine name gs fun g rest hdrop => ih rest.length ?_ rest rfl
    have hle := (List.dropWhile_suffix (l := gs) inName).length_le
    rw [hdrop, List.length_cons] at hle
    omega

theorem callOf_iff {before : Option Char} {gs rest : List α} :
    callOf name before gs = some ((), rest) ↔
    (∀ c, before = some c → Text.isWordOrDot c = false) ∧
      ∃ called, gs = called ++ rest ∧ seenText called = name ∧ opens rest = true := by
  have hopens (gs : List α) :
      ((do discard blanks; one (· == '(') : Reader α α) gs).isSome = opens gs := by
    change (one (· == '(') (gs.dropWhile fun g => Text.isBlank (Glyph.seen g))).isSome = _
    rw [opens]
    cases gs.dropWhile fun g => Text.isBlank (Glyph.seen g) with
    | nil => rfl
    | cons g rest =>
      rw [one]
      split
      case isTrue h => exact (beq_iff_eq.mpr (congrArg some (beq_iff_eq.mp h))).symm
      case isFalse h => exact (beq_false_of_ne fun e => h (beq_iff_eq.mpr (Option.some.inj e))).symm
  rw [callOf, Pattern.fresh_eq_some, discard_bind_eq_some]
  refine and_congr_right fun _ => ⟨?_, ?_⟩
  · rintro ⟨called, rest', hcalled, hopen⟩
    obtain ⟨hopen, e⟩ := ahead_eq_some.mp hopen
    cases e
    obtain ⟨rfl, hseen⟩ := exactly_eq_some.mp hcalled
    exact ⟨called, rfl, hseen, (hopens rest).symm.trans hopen⟩
  · rintro ⟨called, rfl, hseen, hopen⟩
    exact ⟨called, rest, exactly_eq_some.mpr ⟨rfl, hseen⟩,
      ahead_eq_some.mpr ⟨(hopens rest).trans hopen, rfl⟩⟩

/-- Where no name goes on, the next name is found if it is the right one and called. -/
theorem callOf_fresh (hname : Repair.IsName name) {before : Option Char}
    (hbefore : ∀ c, before = some c → Text.isWordOrDot c = false) (gs : List α) :
    callOf name before gs =
      if seenText (gs.takeWhile inName) = name ∧ opens (gs.dropWhile inName) = true then
        some ((), gs.dropWhile inName)
      else none := by
  split
  case isTrue h => exact callOf_iff.mpr ⟨hbefore, _, List.takeWhile_append_dropWhile.symm, h.1, h.2⟩
  case isFalse h =>
    refine Option.eq_none_iff_forall_ne_some.mpr fun r e => h ?_
    obtain ⟨-, called, rfl, hseen, hopen⟩ := callOf_iff.mp e
    have hcalled : ∀ g ∈ called, inName g = true :=
      fun g hg => hname.2 _ (hseen ▸ List.mem_map_of_mem hg)
    rw [(names_append_of_opens hcalled hopen).1, (names_append_of_opens hcalled hopen).2]
    exact ⟨hseen, hopen⟩

theorem callOf_inside (name : Text) {c : Char} (hc : Text.isWordOrDot c = true) (gs : List α) :
    callOf name (some c) gs = none := by
  rw [callOf, Pattern.fresh, if_pos hc]
  rfl

theorem callOf_at_separator (hname : Repair.IsName name) (before : Option Char) {g : α}
    (hg : inName g = false) (gs : List α) :
    callOf name before (g :: gs) = none := by
  refine Option.eq_none_iff_forall_ne_some.mpr fun r e => ?_
  obtain ⟨-, called, e, hseen, -⟩ := callOf_iff.mp e
  cases called with
  | nil => exact hname.1 hseen.symm
  | cons x called =>
    cases e
    have hin : inName g = true := hname.2 _ (hseen ▸ List.mem_cons_self)
    rw [hg] at hin
    cases hin

theorem lineWise_callOf_name (hname : Repair.IsName name) :
    (callOf name : Pattern α Unit).LineWise :=
  lineWise_callOf hname.1 fun k => (not_blank_of_isWordOrDot (hname.2 _ k)).2 rfl

theorem callOf_at_end (hname : Repair.IsName name) (before : Option Char) :
    callOf name before ([] : List α) = none :=
  (@lineWise_callOf_name α _ name hname).advances.at_end before

theorem fresh_behind {g : α} (hg : inName g = false) (c : Char) (h : some (Glyph.seen g) = some c) :
    Text.isWordOrDot c = false := by
  rw [← Option.some.inj h]
  exact hg

theorem passed_of_names {u : List α} (hne : u ≠ []) (hu : ∀ g ∈ u, inName g = true)
    (before : Option Char) :
    ∃ c, Pattern.passed before u = some c ∧ Text.isWordOrDot c = true := by
  rcases List.eq_nil_or_concat u with rfl | ⟨init, x, rfl⟩
  · exact absurd rfl hne
  · rw [List.concat_eq_append] at hu ⊢
    rw [Pattern.passed_append]
    exact ⟨_, rfl, hu x (List.mem_append_right _ (List.mem_singleton_self x))⟩

def renamed (name : Text) (new u : List α) : List α := if seenText u = name then new else u

theorem renamed_nil (hname : Repair.IsName name) (new : List α) :
    renamed name new [] = [] := if_neg fun e => hname.1 e.symm

theorem spelling_renamed (hname : Repair.IsName name) {new : List α} (hne : new ≠ [])
    (hnew : ∀ g ∈ new, inName g = true) :
    Spelling (renamed name new) := by
  refine ⟨renamed_nil hname new, fun u hu hall => ?_⟩
  rw [renamed]
  split
  · exact ⟨hne, hnew⟩
  · exact ⟨hu, hall⟩

/-- What one segment becomes when calls get a name. -/
def Segment.respelt (new : List α) : Segment α Unit → List α
  | .plain g => [g]
  | .found _ _ => new

/-- What becomes of a sequence when the calls found in it get a name. -/
def respeltFrom (name : Text) (new : List α) (before : Option Char) (gs : List α) : List α :=
  (Pattern.segmentsFrom (callOf name) before 0 gs).flatMap (Segment.respelt new)

section Respelt

variable {new : List α} {before : Option Char}

theorem respeltFrom_nil (hname : Repair.IsName name) : respeltFrom name new before [] = [] := by
  have hend : Pattern.segmentsFrom (callOf name : Pattern α Unit) before 0 [] = [] := by
    simp only [Pattern.segmentsFrom, callOf_at_end hname]
  rw [respeltFrom, hend]
  rfl

theorem respeltFrom_plain {g : α} {gs : List α} (h : callOf name before (g :: gs) = none) :
    respeltFrom name new before (g :: gs) = g :: respeltFrom name new (some (Glyph.seen g)) gs := by
  rw [respeltFrom, Pattern.segmentsFrom_plain h]
  rfl

theorem respeltFrom_found {taken gs : List α} (hne : taken ≠ [])
    (h : callOf name before (taken ++ gs) = some ((), gs)) :
    respeltFrom name new before (taken ++ gs) = new ++ respeltFrom name new
      (Pattern.passed before taken) gs := by
  rw [respeltFrom, Pattern.segmentsFrom_found hne h]
  rfl

theorem respeltFrom_inside (hname : Repair.IsName name) {c : Char} (hc : Text.isWordOrDot c = true)
    (gs : List α) :
    respeltFrom name new (some c) gs = gs.takeWhile inName ++ respeltFrom name new none
      (gs.dropWhile inName) := by
  induction gs generalizing c with
  | nil => rw [respeltFrom_nil hname, List.dropWhile_nil, respeltFrom_nil hname, List.takeWhile_nil,
      List.nil_append]
  | cons g gs ih =>
    rw [respeltFrom_plain (callOf_inside name hc (g :: gs))]
    by_cases hg : inName g = true
    · rw [ih hg, List.takeWhile_cons_of_pos hg, List.dropWhile_cons_of_pos hg, List.cons_append]
    · rw [List.takeWhile_cons_of_neg hg, List.dropWhile_cons_of_neg hg, List.nil_append,
        respeltFrom_plain (callOf_at_separator hname none (Bool.not_eq_true _ ▸ hg) gs)]

theorem respeltFrom_name (hname : Repair.IsName name) (hbefore : ∀ c, before = some c →
    Text.isWordOrDot c = false) (gs : List α) : respeltFrom name new before gs =
      (if opens (gs.dropWhile inName) then renamed name new (gs.takeWhile inName)
        else gs.takeWhile inName) ++
        respeltFrom name new none (gs.dropWhile inName) := by
  have hcall := callOf_fresh hname hbefore gs
  split at hcall
  case isTrue h =>
    have hne : gs.takeWhile inName ≠ [] := fun e => hname.1 (h.1 ▸ congrArg seenText e)
    have hsplit : gs.takeWhile inName ++ gs.dropWhile inName = gs := List.takeWhile_append_dropWhile
    obtain ⟨c, hpassed, hc⟩ := passed_of_names hne (inName_of_mem_takeWhile gs) before
    obtain ⟨hnone, hrest⟩ := names_append_of_opens (u := []) (List.forall_mem_nil _) h.2
    rw [List.nil_append] at hnone hrest
    have hfound : callOf name before (gs.takeWhile inName ++ gs.dropWhile inName) =
        some ((), gs.dropWhile inName) := by
      rw [hsplit]
      exact hcall
    calc respeltFrom name new before gs
      _ = respeltFrom name new before (gs.takeWhile inName ++ gs.dropWhile inName) := by rw [hsplit]
      _ = new ++ respeltFrom name new (some c) (gs.dropWhile inName) := by
        rw [respeltFrom_found hne hfound, hpassed]
      _ = new ++ respeltFrom name new none (gs.dropWhile inName) := by
        rw [respeltFrom_inside hname hc, hnone, hrest, List.nil_append]
      _ = _ := by rw [if_pos h.2, renamed, if_pos h.1]
  case isFalse h =>
    have hsame : (if opens (gs.dropWhile inName) then renamed name new (gs.takeWhile inName)
      else gs.takeWhile inName) =
        gs.takeWhile inName := by
      split
      case isTrue hopen => exact if_neg fun e => h ⟨e, hopen⟩
      case isFalse => rfl
    rw [hsame]
    cases gs with
    | nil => rw [respeltFrom_nil hname, List.dropWhile_nil, respeltFrom_nil hname,
        List.takeWhile_nil, List.nil_append]
    | cons g gs =>
      by_cases hg : inName g = true
      · rw [respeltFrom_plain hcall, respeltFrom_inside hname hg, List.takeWhile_cons_of_pos hg,
          List.dropWhile_cons_of_pos hg, List.cons_append]
      · rw [respeltFrom_plain hcall, List.takeWhile_cons_of_neg hg, List.dropWhile_cons_of_neg hg,
          List.nil_append,
          respeltFrom_plain (callOf_at_separator hname none (Bool.not_eq_true _ ▸ hg) gs)]

theorem respeltFrom_eq (hname : Repair.IsName name) (hbefore : ∀ c, before = some c →
    Text.isWordOrDot c = false) (gs : List α) : respeltFrom name new before gs =
      mapCalls (renamed name new) gs := by
  have hnil := renamed_nil hname new
  induction gs using induction_names generalizing before with
  | name gs ih =>
    rw [respeltFrom_name hname hbefore, mapCalls, mapCallsFrom_eq hnil, List.nil_append]
    congr 1
    cases hdrop : gs.dropWhile inName with
    | nil => exact respeltFrom_nil hname
    | cons g rest =>
      have hg := not_inName_of_dropWhile hdrop
      rw [respeltFrom_plain (callOf_at_separator hname none hg rest),
        ih g rest hdrop (fresh_behind hg), mapCalls_cons_of_not hnil hg]

end Respelt

theorem segments_callOf (hname : Repair.IsName name) (new gs : List α) :
    ((callOf name).segments gs).flatMap (Segment.respelt new) = mapCalls (renamed name new) gs :=
  respeltFrom_eq hname (fun c e => absurd e (Option.some_ne_none c).symm) gs

section OccursIn

variable {before : Option Char}

theorem any_callsFrom (P : List α → Bool) (hP : P [] = false) (read gs : List α) :
    (callsFrom read gs).any P =
    (P (read ++ gs.takeWhile inName) && opens (gs.dropWhile inName) ||
      (calls (gs.dropWhile inName)).any P) := by
  induction gs generalizing read with
  | nil => simp [callsFrom, calls, opens]
  | cons g gs ih =>
    rw [callsFrom]
    by_cases hg : inName g = true
    · rw [if_pos hg, ih, List.takeWhile_cons_of_pos hg, List.dropWhile_cons_of_pos hg,
        List.append_assoc]
      rfl
    · rw [if_neg hg, List.takeWhile_cons_of_neg hg, List.dropWhile_cons_of_neg hg, List.append_nil,
        calls, callsFrom, if_neg hg]
      cases opens (g :: gs) with
      | false => simp
      | true => simp [hP]

theorem any_calls_cons_of_not {P : List α → Bool} (hP : P [] = false) {g : α}
    (hg : inName g = false) (gs : List α) :
    (calls (g :: gs)).any P = (calls gs).any P := by
  rw [calls, callsFrom, if_neg (by rw [hg]; exact Bool.false_ne_true)]
  split
  · rw [List.any_cons, hP]
    rfl
  · rfl

theorem occursFrom_nil (hname : Repair.IsName name) :
    Pattern.occursFrom (callOf name) before ([] : List α) = false := by
  rw [Pattern.occursFrom, callOf_at_end hname]
  rfl

theorem occursFrom_plain {g : α} {gs : List α} (h : callOf name before (g :: gs) = none) :
    Pattern.occursFrom (callOf name) before (g :: gs) = Pattern.occursFrom (callOf name)
    (some (Glyph.seen g)) gs := by
  rw [Pattern.occursFrom, h]
  rfl

theorem occursFrom_inside (hname : Repair.IsName name) {c : Char} (hc : Text.isWordOrDot c = true)
    (gs : List α) :
    Pattern.occursFrom (callOf name) (some c) gs = Pattern.occursFrom (callOf name) none
      (gs.dropWhile inName) := by
  induction gs generalizing c with
  | nil => rw [occursFrom_nil hname, List.dropWhile_nil, occursFrom_nil hname]
  | cons g gs ih =>
    rw [occursFrom_plain (callOf_inside name hc (g :: gs))]
    by_cases hg : inName g = true
    · rw [ih hg, List.dropWhile_cons_of_pos hg]
    · rw [List.dropWhile_cons_of_neg hg,
        occursFrom_plain (callOf_at_separator hname none (Bool.not_eq_true _ ▸ hg) gs)]

theorem occursFrom_name (hname : Repair.IsName name) (hbefore : ∀ c, before = some c →
    Text.isWordOrDot c = false) (gs : List α) : Pattern.occursFrom (callOf name) before gs =
      (seenText (gs.takeWhile inName) == name && opens (gs.dropWhile inName) ||
        Pattern.occursFrom (callOf name) none (gs.dropWhile inName)) := by
  have hcall : (callOf name before gs).isSome =
      (seenText (gs.takeWhile inName) == name && opens (gs.dropWhile inName)) := by
    rw [callOf_fresh hname hbefore, Bool.eq_iff_iff, Bool.and_eq_true, beq_iff_eq]
    split
    case isTrue h => exact iff_of_true rfl h
    case isFalse h => exact iff_of_false Bool.false_ne_true h
  rw [← hcall]
  cases gs with
  | nil =>
    rw [List.dropWhile_nil, occursFrom_nil hname, occursFrom_nil hname, callOf_at_end hname]
    rfl
  | cons g gs =>
    by_cases hg : inName g = true
    · rw [Pattern.occursFrom, occursFrom_inside hname hg, List.dropWhile_cons_of_pos hg]
    · have hnone := callOf_at_separator hname before (Bool.not_eq_true _ ▸ hg) gs
      rw [List.dropWhile_cons_of_neg hg, occursFrom_plain hnone,
        occursFrom_plain (callOf_at_separator hname none (Bool.not_eq_true _ ▸ hg) gs), hnone]
      rfl

theorem occursFrom_eq (hname : Repair.IsName name) (hbefore : ∀ c, before = some c →
    Text.isWordOrDot c = false) (gs : List α) : Pattern.occursFrom (callOf name) before gs =
      (calls gs).any fun u => seenText u == name := by
  have hnil : (seenText ([] : List α) == name) = false := beq_false_of_ne fun e => hname.1 e.symm
  induction gs using induction_names generalizing before with
  | name gs ih =>
    rw [occursFrom_name hname hbefore, calls, any_callsFrom _ hnil, List.nil_append]
    congr 1
    cases hdrop : gs.dropWhile inName with
    | nil => exact occursFrom_nil hname
    | cons g rest =>
      have hg := not_inName_of_dropWhile hdrop
      rw [occursFrom_plain (callOf_at_separator hname none hg rest),
        ih g rest hdrop (fresh_behind hg), any_calls_cons_of_not hnil hg]

end OccursIn

theorem occursIn_callOf (hname : Repair.IsName name) (gs : List α) :
    (callOf name : Pattern α Unit).occursIn gs = (calls gs).any fun u => seenText u == name := by
  rw [Pattern.occursIn_eq]
  exact occursFrom_eq hname (fun c e => absurd e (Option.some_ne_none c).symm) gs

end CallOf

end PineTools
