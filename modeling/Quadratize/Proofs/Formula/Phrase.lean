import Quadratize.Proofs.Formula.Reader
import Quadratize.Proofs.Formula.Token

/-!
# The grammar on texts

A formula is a text that the grammar derives.  Runs of gaps may stand around every token, and no gap
stands inside a number or a placeholder.  The grammar on texts and the grammar on tokens derive the
same trees, so a text has at most one tree, and it is the tree that is read.
-/

namespace Quadratize.Formula

open Text

/-! ## Gaps -/

/-- The text has the property once the gaps around it are left out. -/
def Gapped (P : List Char → Prop) (cs : List Char) : Prop :=
  ∃ g ds g', IsGaps g ∧ P ds ∧ IsGaps g' ∧ cs = g ++ ds ++ g'

/-! ## The grammar -/

/-- How a text makes up a part of a formula, and the tree of that part. -/
inductive Phrase : Category → List Char → Expr → Prop
  | number {ds : List Char} (h : IsRun ds) : Phrase .factor ds (.number ds)
  | wire {ds : List Char} (h : IsRun ds) : Phrase .factor ('_' :: (ds ++ ['_'])) (.wire ds)
  | parens {g cs g' : List Char} {e : Expr} (hg : IsGaps g) (h : Phrase .sum cs e)
    (hg' : IsGaps g') : Phrase .factor ('(' :: (g ++ cs ++ g' ++ [')'])) e
  | factor {cs : List Char} {e : Expr} (h : Phrase .factor cs e) : Phrase .term cs e
  | mul {cs sep ds : List Char} {a b : Expr} (ha : Phrase .term cs a) (hsep : Gapped (· = ['*']) sep)
    (hb : Phrase .factor ds b) : Phrase .term (cs ++ sep ++ ds) (.mul a b)
  | term {cs : List Char} {e : Expr} (h : Phrase .term cs e) : Phrase .sum cs e
  | neg {g cs : List Char} {e : Expr} (hg : IsGaps g) (h : Phrase .term cs e) :
    Phrase .sum ('-' :: (g ++ cs)) (.neg e)
  | add {cs sep ds : List Char} {a b : Expr} (ha : Phrase .sum cs a) (hsep : Gapped (· = ['+']) sep)
    (hb : Phrase .term ds b) : Phrase .sum (cs ++ sep ++ ds) (.add a b)
  | sub {cs sep ds : List Char} {a b : Expr} (ha : Phrase .sum cs a) (hsep : Gapped (· = ['-']) sep)
    (hb : Phrase .term ds b) : Phrase .sum (cs ++ sep ++ ds) (.sub a b)

/-- A formula is a sum, maybe with gaps around it. -/
def IsFormula (text : List Char) (e : Expr) : Prop :=
  Gapped (Phrase .sum · e) text

/-! ## From phrases to tokens -/

variable {c : Char} {cs ds sep : List Char} {t : Token} {ts us : List Token} {k k' k'' : Category}
  {a b e : Expr}

theorem Separates.gapped (h : Separates [c] t) (hsep : Gapped (· = [c]) sep) : Separates sep t := by
  obtain ⟨g, _, g', hg, rfl, hg', rfl⟩ := hsep
  exact h.gaps hg hg'

/-- The tokens of a phrase are derived as the same part with the same tree. -/
theorem Phrase.spells (h : Phrase k cs e) : ∃ ts, Spells cs ts ∧ Derives k ts e := by
  induction h with
  | number h => exact ⟨_, .number h, .number _⟩
  | wire h => exact ⟨_, .wire h, .wire _⟩
  | parens hg _ hg' ih =>
    obtain ⟨ts, hts, he⟩ := ih
    have hopen := separates_opening.gaps isGaps_nil hg
    have hclose := separates_closing.gaps hg' isGaps_nil
    refine ⟨_, ?_, he.parens⟩
    simpa using hts.enclosed hopen hclose
  | factor _ ih =>
    obtain ⟨ts, hts, he⟩ := ih
    exact ⟨ts, hts, he.factor⟩
  | mul _ hsep _ iha ihb =>
    obtain ⟨ts, hts, ha⟩ := iha
    obtain ⟨us, hus, hb⟩ := ihb
    exact ⟨_, hts.between (separates_times.gapped hsep) hus, ha.mul hb⟩
  | term _ ih =>
    obtain ⟨ts, hts, he⟩ := ih
    exact ⟨ts, hts, he.term⟩
  | neg hg _ ih =>
    obtain ⟨ts, hts, he⟩ := ih
    exact ⟨_, hts.behind (separates_minus.gaps isGaps_nil hg), he.neg⟩
  | add _ hsep _ iha ihb =>
    obtain ⟨ts, hts, ha⟩ := iha
    obtain ⟨us, hus, hb⟩ := ihb
    exact ⟨_, hts.between (separates_plus.gapped hsep) hus, ha.add hb⟩
  | sub _ hsep _ iha ihb =>
    obtain ⟨ts, hts, ha⟩ := iha
    obtain ⟨us, hus, hb⟩ := ihb
    exact ⟨_, hts.between (separates_minus.gapped hsep) hus, ha.sub hb⟩

theorem IsFormula.read? (h : IsFormula cs e) : Expr.read? cs = some e := by
  obtain ⟨g, ds, g', hg, hds, hg', rfl⟩ := h
  obtain ⟨ts, hts, he⟩ := hds.spells
  have hend : tokens? g' = some [] := by
    have h := hg'.tokens?_append []
    rwa [List.append_nil, tokens?] at h
  rw [Expr.read?, List.append_assoc, hg.tokens?_append, hts g' hg'.stops, hend]
  exact he.ofTokens?.symm ▸ congrArg Expr.ofTokens? (List.append_nil ts)

/-! ## From tokens to phrases -/

/-- The text of a token. -/
def Token.text : Token → List Char
  | number ds => ds
  | wire ds => '_' :: (ds ++ ['_'])
  | plus => ['+']
  | minus => ['-']
  | times => ['*']
  | opening => ['(']
  | closing => [')']

/-- The digits of a number or a wire are a run. -/
def Token.Proper : Token → Prop
  | number ds | wire ds => IsRun ds
  | _ => True

/-- The text is made up of the texts of the tokens, with gaps between them. -/
inductive Lexed : List Char → List Token → Prop
  | nil : Lexed [] []
  | gap {c : Char} {cs : List Char} {ts : List Token} (hc : isGap c = true) (h : Lexed cs ts) :
    Lexed (c :: cs) ts
  | token {t : Token} {cs : List Char} {ts : List Token} (ht : t.Proper) (h : Lexed cs ts) :
    Lexed (t.text ++ cs) (t :: ts)

theorem text_of_symbol? (h : symbol? c = some t) : t.text = [c] ∧ t.Proper := by
  unfold symbol? at h
  split_ifs at h with h₁ h₂ h₃ h₄ h₅
  · cases h; cases h₁; exact ⟨rfl, trivial⟩
  · cases h; cases h₂; exact ⟨rfl, trivial⟩
  · cases h; cases h₃; exact ⟨rfl, trivial⟩
  · cases h; cases h₄; exact ⟨rfl, trivial⟩
  · cases h; cases h₅; exact ⟨rfl, trivial⟩

theorem isRun_of_placeholder? {rest : List Char} (h : placeholder? cs = some (ds, rest)) :
    IsRun ds where
  ne_nil := by
    rintro rfl
    unfold placeholder? at h
    split at h
    · cases h
    · rename_i hne _
      cases h
      exact hne rfl
    · cases h
  digits := (of_placeholder? h).2

/-- The tokens of a text make it up. -/
theorem lexed_of_tokens? (h : tokens? cs = some ts) : Lexed cs ts := by
  fun_induction tokens? cs generalizing ts with
  | case1 =>
    cases h
    exact .nil
  | case2 c cs hc ih => exact .gap hc (ih h)
  | case3 c cs _ hc digits =>
    rename_i ih
    obtain ⟨us, hus, rfl⟩ := Option.map_eq_some_iff.mp h
    have hrun : IsRun (c :: digits.1) :=
      ⟨List.cons_ne_nil _ _, List.forall_mem_cons.mpr ⟨hc, fun _ ↦ isDigit_of_mem_splitDigits⟩⟩
    have htext : c :: cs = (Token.number (c :: digits.1)).text ++ digits.2 :=
      congrArg (c :: ·) (of_splitDigits cs)
    rw [htext]
    exact .token hrun (ih hus)
  | case4 cs ds rest heq _ _ ih =>
    obtain ⟨us, hus, rfl⟩ := Option.map_eq_some_iff.mp h
    have htext : '_' :: cs = (Token.wire ds).text ++ rest := by
      rw [(of_placeholder? heq).1]
      simp [Token.text]
    rw [htext]
    exact .token (isRun_of_placeholder? heq) (ih hus)
  | case5 => cases h
  | case6 c cs _ _ _ t ht ih =>
    obtain ⟨us, hus, rfl⟩ := Option.map_eq_some_iff.mp h
    obtain ⟨htext, hproper⟩ := text_of_symbol? ht
    rw [← List.singleton_append, ← htext]
    exact .token hproper (ih hus)
  | case7 => cases h

namespace Lexed

theorem gaps (h : Lexed cs []) : IsGaps cs := by
  generalize hts : ([] : List Token) = ts at h
  induction h with
  | nil => exact isGaps_nil
  | gap hc _ ih => exact List.forall_mem_cons.mpr ⟨hc, ih hts⟩
  | token => cases hts

/-- The first token stands behind gaps. -/
theorem uncons (h : Lexed cs (t :: ts)) :
    ∃ g rest, IsGaps g ∧ t.Proper ∧ Lexed rest ts ∧ cs = g ++ t.text ++ rest := by
  generalize hus : t :: ts = us at h
  induction h with
  | nil => cases hus
  | @gap c _ _ hc _ ih =>
    obtain ⟨g, rest, hg, ht, hrest, rfl⟩ := ih hus
    exact ⟨c :: g, rest, List.forall_mem_cons.mpr ⟨hc, hg⟩, ht, hrest, rfl⟩
  | token ht h =>
    cases hus
    exact ⟨[], _, isGaps_nil, ht, h, rfl⟩

theorem singleton (h : Lexed cs [t]) : t.Proper ∧ Gapped (· = t.text) cs := by
  obtain ⟨g, rest, hg, ht, hrest, rfl⟩ := h.uncons
  exact ⟨ht, g, _, rest, hg, rfl, hrest.gaps, rfl⟩

theorem prepend {g : List Char} (hg : IsGaps g) (h : Lexed cs ts) : Lexed (g ++ cs) ts := by
  induction g with
  | nil => exact h
  | cons c g ih =>
    obtain ⟨hc, hg⟩ := List.forall_mem_cons.mp hg
    exact .gap hc (ih hg)

/-- The text falls apart where its tokens do. -/
theorem split (h : Lexed cs (ts ++ us)) :
    ∃ as bs, Lexed as ts ∧ Lexed bs us ∧ cs = as ++ bs := by
  induction ts generalizing cs with
  | nil => exact ⟨[], cs, .nil, h, rfl⟩
  | cons t ts ih =>
    obtain ⟨g, rest, hg, ht, hrest, rfl⟩ := h.uncons
    obtain ⟨as, bs, has, hbs, rfl⟩ := ih hrest
    refine ⟨g ++ (t.text ++ as), bs, prepend hg (.token ht has), hbs, ?_⟩
    simp

/-- Two phrases with an operator between them, whose gaps fall to the operator. -/
theorem operator
    (hjoin : ∀ {as sep bs}, Phrase k as a → Gapped (· = t.text) sep → Phrase k' bs b →
      Phrase k'' (as ++ sep ++ bs) e)
    (ha : ∀ {cs}, Lexed cs ts → Gapped (Phrase k · a) cs)
    (hb : ∀ {cs}, Lexed cs us → Gapped (Phrase k' · b) cs) (h : Lexed cs (ts ++ t :: us)) :
    Gapped (Phrase k'' · e) cs := by
  obtain ⟨front, back, hfront, hback, rfl⟩ := h.split
  obtain ⟨g, rest, hg, -, hrest, rfl⟩ := hback.uncons
  obtain ⟨g₁, as, g₁', hg₁, has, hg₁', rfl⟩ := ha hfront
  obtain ⟨g₂, bs, g₂', hg₂, hbs, hg₂', rfl⟩ := hb hrest
  have hsep : Gapped (· = t.text) (g₁' ++ g ++ t.text ++ g₂) :=
    ⟨_, _, _, hg₁'.append hg, rfl, hg₂, rfl⟩
  refine ⟨g₁, _, g₂', hg₁, hjoin has hsep hbs, hg₂', ?_⟩
  simp

end Lexed

/-- A text that is made up of the tokens of a part is a phrase of that part, with gaps around it. -/
theorem Derives.gapped (h : Derives k ts e) (hcs : Lexed cs ts) : Gapped (Phrase k · e) cs := by
  induction h generalizing cs with
  | number ds =>
    obtain ⟨hds, g, _, g', hg, rfl, hg', rfl⟩ := hcs.singleton
    exact ⟨g, _, g', hg, .number hds, hg', rfl⟩
  | wire ds =>
    obtain ⟨hds, g, _, g', hg, rfl, hg', rfl⟩ := hcs.singleton
    exact ⟨g, _, g', hg, .wire hds, hg', rfl⟩
  | parens _ ih =>
    obtain ⟨g, rest, hg, -, hrest, rfl⟩ := hcs.uncons
    obtain ⟨inner, back, hinner, hback, rfl⟩ := hrest.split
    obtain ⟨g₁, ds, g₁', hg₁, hds, hg₁', rfl⟩ := ih hinner
    obtain ⟨-, g₂, _, g₂', hg₂, rfl, hg₂', rfl⟩ := hback.singleton
    refine ⟨g, _, g₂', hg, .parens hg₁ hds (hg₁'.append hg₂), hg₂', ?_⟩
    simp [Token.text]
  | factor _ ih =>
    obtain ⟨g, ds, g', hg, hds, hg', rfl⟩ := ih hcs
    exact ⟨g, ds, g', hg, hds.factor, hg', rfl⟩
  | mul _ _ iha ihb => exact hcs.operator .mul iha ihb
  | term _ ih =>
    obtain ⟨g, ds, g', hg, hds, hg', rfl⟩ := ih hcs
    exact ⟨g, ds, g', hg, hds.term, hg', rfl⟩
  | neg _ ih =>
    obtain ⟨g, rest, hg, -, hrest, rfl⟩ := hcs.uncons
    obtain ⟨g₁, ds, g', hg₁, hds, hg', rfl⟩ := ih hrest
    refine ⟨g, _, g', hg, .neg hg₁ hds, hg', ?_⟩
    simp [Token.text]
  | add _ _ iha ihb => exact hcs.operator .add iha ihb
  | sub _ _ iha ihb => exact hcs.operator .sub iha ihb

/-- The tree of a text is found exactly if the grammar derives the text with that tree. -/
theorem read?_eq_some_iff : Expr.read? cs = some e ↔ IsFormula cs e := by
  refine ⟨fun h ↦ ?_, IsFormula.read?⟩
  obtain ⟨ts, hts, he⟩ := Option.bind_eq_some_iff.mp h
  exact (ofTokens?_eq_some_iff.mp he).gapped (lexed_of_tokens? hts)

end Quadratize.Formula
