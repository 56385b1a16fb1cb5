import Quadratize.Formula.Token
import Quadratize.Proofs.Text.Scan

/-!
# Tokens are read back

Tokens that follow each other are told apart whatever stands around them, except that the digits of
a number would run into a digit behind them.
-/

namespace Quadratize.Formula

open Text

variable {c : Char} {cs ds rest sep : List Char} {t : Token} {ts us : List Token}

/-! ## One token -/

theorem tokens?_symbol (hgap : isGap c = false) (hdigit : isDigit c = false) (hwire : c ≠ '_')
    (ht : symbol? c = some t) (rest : List Char) :
    tokens? (c :: rest) = (tokens? rest).map (t :: ·) := by
  rw [tokens?]
  simp [hgap, hdigit, hwire, ht]

/-- A run of spaces and tabs, maybe empty. -/
def IsGaps (g : List Char) : Prop :=
  ∀ c ∈ g, isGap c = true

theorem isGaps_nil : IsGaps [] := nofun

theorem isGaps_space : IsGaps [' '] :=
  List.forall_mem_singleton.mpr rfl

namespace IsGaps

variable {g g' : List Char}

theorem append (hg : IsGaps g) (hg' : IsGaps g') : IsGaps (g ++ g') :=
  List.forall_mem_append.mpr ⟨hg, hg'⟩

theorem stops (hg : IsGaps g) : Stops isDigit g := by
  intro c hc
  by_contra hdigit
  have hgap : isGap c = false := isGap_of_isDigit (by simpa using hdigit)
  rw [hg c (List.mem_of_mem_head? hc)] at hgap
  cases hgap

/-- Gaps in front of a text are passed over. -/
theorem tokens?_append (hg : IsGaps g) (rest : List Char) : tokens? (g ++ rest) = tokens? rest := by
  induction g with
  | nil => rfl
  | cons c g ih =>
    obtain ⟨hc, hg⟩ := List.forall_mem_cons.mp hg
    rw [List.cons_append, tokens?, if_pos hc, ih hg]

end IsGaps

theorem tokens?_number (hds : IsRun ds) (hrest : Stops isDigit rest) :
    tokens? (ds ++ rest) = (tokens? rest).map (.number ds :: ·) := by
  obtain ⟨c, cs, rfl, hc, hcs⟩ := hds.exists_eq_cons
  rw [List.cons_append, tokens?]
  simp only [isGap_of_isDigit hc, hc, if_true, IsRun.splitDigits_append hcs hrest,
    Bool.false_eq_true, if_false]

theorem placeholder?_append (hds : IsRun ds) (rest : List Char) :
    placeholder? (ds ++ '_' :: rest) = some (ds, rest) := by
  obtain ⟨c, cs, rfl, -, -⟩ := hds.exists_eq_cons
  rw [placeholder?, IsRun.splitDigits_append hds.digits (Stops.cons_iff.mpr rfl)]
  rfl

theorem tokens?_wire (hds : IsRun ds) (rest : List Char) :
    tokens? ('_' :: (ds ++ '_' :: rest)) = (tokens? rest).map (.wire ds :: ·) := by
  rw [tokens?, if_neg (by decide), if_neg (by decide), if_pos rfl]
  split
  · rename_i heq
    rw [placeholder?_append hds] at heq
    cases heq
    rfl
  · rename_i heq
    rw [placeholder?_append hds] at heq
    cases heq

/-! ## Texts of several tokens -/

/-- The text is read as the tokens if no digit follows. -/
def Spells (cs : List Char) (ts : List Token) : Prop :=
  ∀ rest, Stops isDigit rest → tokens? (cs ++ rest) = (tokens? rest).map (ts ++ ·)

/-- The text is read as one token whatever follows, and it can follow a number. -/
structure Separates (sep : List Char) (t : Token) : Prop where
  ne_nil : sep ≠ []
  stops : Stops isDigit sep
  tokens?_append : ∀ rest, tokens? (sep ++ rest) = (tokens? rest).map (t :: ·)

theorem separates_symbol (hgap : isGap c = false) (hdigit : isDigit c = false) (hwire : c ≠ '_')
    (ht : symbol? c = some t) : Separates [c] t where
  ne_nil := List.cons_ne_nil c []
  stops := Stops.cons_iff.mpr hdigit
  tokens?_append := tokens?_symbol hgap hdigit hwire ht

/-- Gaps around a separator do not matter. -/
theorem Separates.gaps {g g' : List Char} (h : Separates sep t) (hg : IsGaps g) (hg' : IsGaps g') :
    Separates (g ++ sep ++ g') t where
  ne_nil := by simp [h.ne_nil]
  stops := (hg.stops.append h.stops).append hg'.stops
  tokens?_append := fun rest ↦ by
    rw [List.append_assoc, List.append_assoc, hg.tokens?_append, h.tokens?_append,
      hg'.tokens?_append]

theorem Separates.spaced (h : Separates sep t) : Separates (' ' :: (sep ++ [' '])) t :=
  h.gaps isGaps_space isGaps_space

theorem separates_times : Separates ['*'] .times :=
  separates_symbol rfl rfl (by decide) rfl

theorem separates_plus : Separates ['+'] .plus :=
  separates_symbol rfl rfl (by decide) rfl

theorem separates_minus : Separates ['-'] .minus :=
  separates_symbol rfl rfl (by decide) rfl

theorem separates_opening : Separates ['('] .opening :=
  separates_symbol rfl rfl (by decide) rfl

theorem separates_closing : Separates [')'] .closing :=
  separates_symbol rfl rfl (by decide) rfl

namespace Spells

theorem number (hds : IsRun ds) : Spells ds [.number ds] :=
  fun _ hrest ↦ tokens?_number hds hrest

theorem wire (hds : IsRun ds) : Spells ('_' :: (ds ++ ['_'])) [.wire ds] := by
  intro rest _
  rw [List.cons_append, List.append_assoc, List.singleton_append]
  exact tokens?_wire hds rest

/-- A separator between two texts keeps their tokens apart. -/
theorem between (hsep : Separates sep t) (hcs : Spells cs ts) (hds : Spells ds us) :
    Spells (cs ++ sep ++ ds) (ts ++ t :: us) := by
  intro rest hrest
  have hstop : Stops isDigit (sep ++ (ds ++ rest)) := hsep.stops.append_of_ne_nil hsep.ne_nil
  rw [List.append_assoc, List.append_assoc, hcs _ hstop, hsep.tokens?_append, hds rest hrest,
    Option.map_map, Option.map_map]
  congr 1
  funext tail
  simp

theorem behind (hsep : Separates sep t) (hcs : Spells cs ts) : Spells (sep ++ cs) (t :: ts) := by
  intro rest hrest
  rw [List.append_assoc, hsep.tokens?_append, hcs rest hrest, Option.map_map]
  rfl

theorem nil : Spells [] [] :=
  fun _ _ ↦ Option.map_id.symm ▸ rfl

/-- A text between an opening and a closing parenthesis. -/
theorem enclosed {sep' : List Char} (hopen : Separates sep .opening)
    (hclose : Separates sep' .closing) (hcs : Spells cs ts) :
    Spells (sep ++ (cs ++ sep')) (.opening :: (ts ++ [.closing])) := by
  have hclosed := hcs.between hclose nil
  rw [List.append_nil] at hclosed
  exact hclosed.behind hopen

theorem parens (hcs : Spells cs ts) :
    Spells ('(' :: (cs ++ [')'])) (.opening :: (ts ++ [.closing])) :=
  hcs.enclosed separates_opening separates_closing

theorem tokens?_eq (h : Spells cs ts) : tokens? cs = some ts := by
  have hcs := h [] Stops.nil
  rw [List.append_nil, tokens?, Option.map_some, List.append_nil] at hcs
  exact hcs

end Spells

/-! ## Characters that occur -/

theorem of_splitDigits (cs : List Char) : cs = (splitDigits cs).1 ++ (splitDigits cs).2 :=
  List.takeWhile_append_dropWhile.symm

theorem isDigit_of_mem_splitDigits {d : Char} (h : d ∈ (splitDigits cs).1) : isDigit d = true :=
  List.all_eq_true.mp List.all_takeWhile d h

theorem of_placeholder? (h : placeholder? cs = some (ds, rest)) :
    cs = ds ++ '_' :: rest ∧ ∀ d ∈ ds, isDigit d = true := by
  have hcs := of_splitDigits cs
  have hdigits := @isDigit_of_mem_splitDigits cs
  unfold placeholder? at h
  split at h
  · cases h
  · rename_i heq
    cases h
    rw [heq] at hcs hdigits
    exact ⟨hcs, fun _ ↦ hdigits⟩
  · cases h

/-- A character that is neither a gap nor part of a token does not occur in a list of tokens. -/
theorem not_mem_of_tokens? (hgap : isGap c = false) (hdigit : isDigit c = false) (hwire : c ≠ '_')
    (hc : symbol? c = none) (h : tokens? cs = some ts) : c ∉ cs := by
  have hdigits {ds : List Char} (hds : ∀ d ∈ ds, isDigit d = true) : c ∉ ds := by
    intro hmem
    rw [hds c hmem] at hdigit
    cases hdigit
  have hne {d : Char} {cs : List Char} (hd : c ≠ d) (hcs : c ∉ cs) : c ∉ d :: cs :=
    List.not_mem_cons_of_ne_of_not_mem hd hcs
  fun_induction tokens? cs generalizing ts with
  | case1 => exact List.not_mem_nil
  | case2 d cs hd ih =>
    refine hne ?_ (ih h)
    rintro rfl
    rw [hd] at hgap
    cases hgap
  | case3 d cs _ hd digits =>
    rename_i ih
    obtain ⟨us, hus, -⟩ := Option.map_eq_some_iff.mp h
    refine hne ?_ ?_
    · rintro rfl
      rw [hd] at hdigit
      cases hdigit
    · rw [of_splitDigits cs, List.mem_append]
      rintro (hmem | hmem)
      · exact hdigits (fun _ ↦ isDigit_of_mem_splitDigits) hmem
      · exact ih hus hmem
  | case4 cs ds rest heq _ _ ih =>
    obtain ⟨us, hus, -⟩ := Option.map_eq_some_iff.mp h
    obtain ⟨rfl, hds⟩ := of_placeholder? heq
    refine hne hwire ?_
    rw [List.mem_append, List.mem_cons]
    rintro (hmem | rfl | hmem)
    · exact hdigits hds hmem
    · exact hwire rfl
    · exact ih hus hmem
  | case5 => cases h
  | case6 d cs _ _ _ t ht ih =>
    obtain ⟨us, hus, -⟩ := Option.map_eq_some_iff.mp h
    refine hne ?_ (ih hus)
    rintro rfl
    rw [hc] at ht
    cases ht
  | case7 => cases h

end Quadratize.Formula
