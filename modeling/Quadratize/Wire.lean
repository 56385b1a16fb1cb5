import Quadratize.Sparse.Basic
import Quadratize.Text.Numeral

/-!
# Wires

A wire is named by a number below `2 ^ 32 - 1`.
-/

namespace Quadratize

/-- The numbers of wires lie below this limit. -/
def wireLimit : Nat := 4294967295

/-- A wire, named by its number. -/
structure Wire where
  id : Nat
  isLt : id < wireLimit
deriving DecidableEq

namespace Wire

@[ext] theorem ext {v w : Wire} (h : v.id = w.id) : v = w := by
  cases v; cases w; cases h; rfl

instance : Key Wire := ⟨id, ext⟩

/-- The wire that carries the constant one in a compiled circuit. -/
def first : Wire := ⟨0, by decide⟩

instance : Inhabited Wire := ⟨first⟩

/-- The wire with the given number. -/
def ofNat? (n : Nat) : Option Wire :=
  if h : n < wireLimit then some ⟨n, h⟩ else none

/-- The wire named by a run of digits. -/
def read? (digits : List Char) : Option Wire :=
  (Text.readNumeral? 10 digits).bind ofNat?

/-- The number of a wire in base 10. -/
def render (w : Wire) : List Char :=
  Text.decimal w.id

instance : ToString Wire := ⟨fun w ↦ String.ofList w.render⟩

/-! ## Ascending lists without repetition -/

/-- Puts a wire into an ascending list, unless it is there already. -/
def insert (w : Wire) : List Wire → List Wire
  | [] => [w]
  | v :: rest =>
    if w.id < v.id then w :: v :: rest
    else if v.id < w.id then v :: insert w rest
    else v :: rest

/-- The distinct wires of a list in ascending order. -/
def ascending (ws : List Wire) : List Wire :=
  ws.foldr insert []

theorem mem_insert {u w : Wire} {l : List Wire} : u ∈ insert w l ↔ u = w ∨ u ∈ l := by
  induction l with
  | nil => simp [insert]
  | cons v rest ih =>
    unfold insert
    split
    · simp
    · split
      · simp only [List.mem_cons, ih]
        constructor
        · rintro (h | h | h)
          · exact .inr (.inl h)
          · exact .inl h
          · exact .inr (.inr h)
        · rintro (h | h | h)
          · exact .inr (.inl h)
          · exact .inl h
          · exact .inr (.inr h)
      · have he : w = v := ext (by omega)
        subst he
        simp

@[simp] theorem mem_ascending {u : Wire} {l : List Wire} : u ∈ ascending l ↔ u ∈ l := by
  induction l with
  | nil => simp [ascending]
  | cons v rest ih =>
    change u ∈ insert v (ascending rest) ↔ _
    rw [mem_insert, ih, List.mem_cons]

end Wire

end Quadratize
