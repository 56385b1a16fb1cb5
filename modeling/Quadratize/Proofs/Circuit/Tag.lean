import Quadratize.Circuit.Text
import Quadratize.Proofs.Form.Render

/-!
# Tags of gates

A written tag is read back as its kind of gate, with the form of a quadratic gate taken from the
note.  Tags consist of the characters of kinds, and none starts like another statement.
-/

namespace Quadratize

open Text

namespace Opcode

theorem tag_quadratic (f : QuadForm) : (quadratic f).tag = "quadratic".toList := rfl

/-- A base-16 numeral does not start like the mark of a negative constant. -/
theorem not_neg_of_numeral (n : Nat) : "neg-".toList.isPrefixOf? (numeral 16 n) = none := by
  obtain ⟨c, cs, hcons⟩ := List.exists_cons_of_ne_nil (@numeral_ne_nil 16 n)
  have hmem : c ∈ numeral 16 n := hcons ▸ List.mem_cons_self
  obtain ⟨d, hd, -, rfl⟩ := mem_numeral (by decide) (by decide) hmem
  rw [hcons]
  interval_cases d <;> rfl

theorem readConstant?_toHex (c : Scalar) : readConstant? c.toHex = some c := by
  rw [readConstant?, Scalar.toHex, not_neg_of_numeral]
  dsimp only
  rw [readNumeral?_numeral (by decide) (by decide), Option.map_some, Scalar.reduce_val]

theorem readConstant?_neg {c : Scalar} (h : c.isNegative = true) :
    readConstant? ("neg-".toList ++ numeral 16 c.magnitude) = some c := by
  have hprefix : "neg-".toList.isPrefixOf? ("neg-".toList ++ numeral 16 c.magnitude) =
      some (numeral 16 c.magnitude) := rfl
  rw [readConstant?, hprefix]
  dsimp only
  rw [readNumeral?_numeral (by decide) (by decide), Option.map_some, Scalar.reduce_magnitude,
    if_pos h, neg_neg]

theorem read_constMul {text note : List Char} {c : Scalar} (h : readConstant? text = some c) :
    Opcode.read ("const-mul-".toList ++ text) note = .ok (constMul c) := by
  have hplain : plain? ("const-mul-".toList ++ text) = none := rfl
  have hform : ¬("const-mul-".toList ++ text = "quadratic".toList ∨
      "const-mul-".toList ++ text = "quad_gate".toList) := by
    rintro (h | h)
    · cases h
    · cases h
  have hprefix : "const-mul-".toList.isPrefixOf? ("const-mul-".toList ++ text) = some text := rfl
  rw [Opcode.read, hplain]
  dsimp only
  rw [if_neg hform, hprefix]
  dsimp only
  rw [h]

/-- A tag is read back as its kind; that of a quadratic gate takes the form from the note. -/
theorem read_tag {op : Opcode} {note : List Char}
    (h : ∀ f, op = .quadratic f → QuadForm.read note = .ok f) :
    Opcode.read op.tag note = .ok op := by
  cases op with
  | constMul c =>
    unfold tag
    dsimp only
    split
    · rename_i hneg
      exact read_constMul (readConstant?_neg hneg)
    · exact read_constMul (readConstant?_toHex c)
  | quadratic f =>
    have hplain : plain? "quadratic".toList = none := rfl
    rw [tag_quadratic, Opcode.read, hplain]
    dsimp only
    rw [if_pos (.inl rfl), h f rfl]
  | _ => rfl

/-- The form of a quadratic gate has been read from its note. -/
theorem of_read_eq_quadratic {tag note : List Char} {f : QuadForm}
    (h : Opcode.read tag note = .ok (.quadratic f)) : QuadForm.read note = .ok f := by
  unfold Opcode.read at h
  split at h
  · rename_i op hop
    cases h
    have hmem := List.mem_of_find?_eq_some hop
    simp at hmem
  · split_ifs at h
    · split at h
      · rename_i g hg
        cases h
        exact hg
      · cases h
    · split at h
      · cases h
      · split at h
        · cases h
        · cases h

theorem isKindChar_of_mem_numeral {n : Nat} {c : Char} (h : c ∈ numeral 16 n) :
    Statement.isKindChar c = true := by
  obtain ⟨d, hd, -, rfl⟩ := mem_numeral (by decide) (by decide) h
  interval_cases d <;> rfl

theorem isKindChar_of_mem_tag {op : Opcode} {c : Char} (h : c ∈ op.tag) :
    Statement.isKindChar c = true := by
  have hword (word : List Char) (hword : word.all Statement.isKindChar = true) {n : Nat}
      (hc : c ∈ word ++ numeral 16 n) : Statement.isKindChar c = true :=
    (List.mem_append.mp hc).elim (List.all_eq_true.mp hword c) isKindChar_of_mem_numeral
  cases op with
  | constMul a =>
    unfold tag at h
    dsimp only at h
    split at h
    · exact hword "const-mul-neg-".toList rfl h
    · exact hword "const-mul-".toList rfl h
  | quadratic f =>
    rw [tag_quadratic] at h
    exact List.all_eq_true.mp (by rfl) c h
  | _ => exact List.all_eq_true.mp (by rfl) c h

/-- No tag starts with the keyword of another statement. -/
theorem isPrefixOf?_tag (op : Opcode) :
    "total".toList.isPrefixOf? op.tag = none ∧ "input".toList.isPrefixOf? op.tag = none ∧
      "output".toList.isPrefixOf? op.tag = none := by
  cases op with
  | constMul a =>
    unfold tag
    dsimp only
    split
    · exact ⟨rfl, rfl, rfl⟩
    · exact ⟨rfl, rfl, rfl⟩
  | quadratic f =>
    rw [tag_quadratic]
    exact ⟨rfl, rfl, rfl⟩
  | _ => exact ⟨rfl, rfl, rfl⟩

theorem tag_ne_nil (op : Opcode) : op.tag ≠ [] := by
  cases op with
  | constMul a =>
    unfold tag
    dsimp only
    split
    · exact List.cons_ne_nil _ _
    · exact List.cons_ne_nil _ _
  | quadratic f =>
    rw [tag_quadratic]
    exact List.cons_ne_nil _ _
  | _ => exact List.cons_ne_nil _ _

end Opcode

end Quadratize
