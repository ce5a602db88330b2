import DeskCalculator.Json
import DeskCalculator.Proofs.Reading.Likeness

/-!
# Reading expressions that were written as JSON

**Theorem (`ofJson?_toJson_iff`).** An expression reads back from its JSON value exactly if its
literals are finite. A literal that is infinite or undefined is written `null`, so nothing is read
at all.

Every node is an object with one member, so the reading of a written node is the reading of its
parts put together (`ofJson?_toJson_binary` and so on). Both halves follow by induction: over the
expression if its literals are finite, and over the way from the literal up to the whole if one is
not.
-/

namespace DeskCalculator.Expr

variable {content left right argument : Json} {op : Operator} {f : Function} {place : Option Nat}
  {e : Expr} {x : Float}

/-! ## One node -/

theorem ofJson?_literal (content : Json) :
    ofJson? (.object [("literal", content)]) = (literalOfJson? content).map literal := by
  rw [ofJson?]
  simp

theorem ofJson?_binary (hop : operatorOfJson? content = some op)
    (hl : content.member? "left" = some left) (hr : content.member? "right" = some right) :
    ofJson? (.object [("binary", content)]) =
      (ofJson? left).bind fun l => (ofJson? right).map fun r => binary op l r := by
  rw [ofJson?]
  simp only [String.reduceEq, if_false, if_true]
  split
  next hl' hr' =>
    rw [hl] at hl'
    rw [hr] at hr'
    cases hl'
    cases hr'
    rw [hop]
    cases ofJson? left <;> cases ofJson? right <;> rfl
  next h => exact absurd hr (h left right hl)

theorem ofJson?_call (hf : functionOfJson? content = some f)
    (ha : content.member? "arg" = some argument)
    (hplace : placeOfJson? (content.member? "unsigned_at") = some place) :
    ofJson? (.object [("call", content)]) = (ofJson? argument).map fun a => call f a place := by
  rw [ofJson?]
  simp only [String.reduceEq, if_false, if_true]
  split
  next ha' =>
    rw [ha] at ha'
    cases ha'
    rw [hf, hplace]
    cases ofJson? argument <;> rfl
  next h =>
    rw [ha] at h
    cases h

theorem ofJson?_negation (content : Json) :
    ofJson? (.object [("neg", content)]) = (ofJson? content).map negation := by
  rw [ofJson?]
  simp

/-! ## Written nodes -/

theorem ofJson?_toJson_literal (x : Float) :
    ofJson? (literal x).toJson = if x.isFinite then some (literal x) else none := by
  rw [toJson, ofJson?_literal, literalToJson]
  split <;> rfl

theorem ofJson?_toJson_binary (op : Operator) (l r : Expr) :
    ofJson? (binary op l r).toJson =
      (ofJson? l.toJson).bind fun l => (ofJson? r.toJson).map fun r => binary op l r := by
  rw [toJson]
  exact ofJson?_binary op.ofName?_name rfl rfl

theorem ofJson?_toJson_call (f : Function) (a : Expr) (place : Option Nat) :
    ofJson? (call f a place).toJson = (ofJson? a.toJson).map fun a => call f a place := by
  cases place with
  | none =>
    rw [toJson]
    exact ofJson?_call f.ofName?_name rfl rfl
  | some place =>
    rw [toJson]
    exact ofJson?_call f.ofName?_name rfl rfl

theorem ofJson?_toJson_negation (o : Expr) :
    ofJson? (negation o).toJson = (ofJson? o.toJson).map negation := by
  rw [toJson, ofJson?_negation]

/-! ## Whole expressions -/

/-- An expression of finite literals reads back. -/
theorem ofJson?_toJson_of_isFinite (h : ∀ x, (literal x).Within e → x.isFinite) :
    ofJson? e.toJson = some e := by
  induction e with
  | literal x => rw [ofJson?_toJson_literal, if_pos (h x .refl)]
  | binary op l r ihl ihr =>
    rw [ofJson?_toJson_binary, ihl fun x hx => h x (.left hx), ihr fun x hx => h x (.right hx)]
    rfl
  | call f a place ih =>
    rw [ofJson?_toJson_call, ih fun x hx => h x (.argument hx)]
    rfl
  | negation o ih =>
    rw [ofJson?_toJson_negation, ih fun x hx => h x (.operand hx)]
    rfl

/-- A literal that is infinite or undefined keeps the whole from being read. -/
theorem Within.ofJson?_toJson_eq_none (h : (literal x).Within e) (hx : x.isFinite = false) :
    ofJson? e.toJson = none := by
  induction h with
  | refl => rw [ofJson?_toJson_literal, if_neg (by simp [hx])]
  | left _ ih => rw [ofJson?_toJson_binary, ih]; rfl
  | @right op l r _ ih =>
    rw [ofJson?_toJson_binary, ih]
    cases ofJson? l.toJson <;> rfl
  | argument _ ih => rw [ofJson?_toJson_call, ih]; rfl
  | operand _ ih => rw [ofJson?_toJson_negation, ih]; rfl

/-! ## The theorem -/

/-- An expression reads back from its JSON value, with every place and every sign, exactly if all
its literals are finite. From the value of an expression with another literal nothing is read. -/
theorem ofJson?_toJson_iff (e : Expr) :
    (ofJson? e.toJson = some e ↔ ∀ x, (literal x).Within e → x.isFinite) ∧
      (∀ x, (literal x).Within e → x.isFinite = false → ofJson? e.toJson = none) := by
  refine ⟨⟨?_, ofJson?_toJson_of_isFinite⟩, ?_⟩
  · intro hread x hx
    by_contra hfinite
    rw [hx.ofJson?_toJson_eq_none (Bool.eq_false_iff.2 hfinite)] at hread
    cases hread
  · intro x hx hfinite
    exact hx.ofJson?_toJson_eq_none hfinite

/-- A number beyond the doubles is infinite, and what is written for it does not read back. -/
example : parse {} "1e999" = .ok (literal (1.0 / 0.0)) ∧
    (literal (1.0 / 0.0)).toJson = .object [("literal", .null)] :=
  ⟨by decide +kernel, by rfl⟩

end DeskCalculator.Expr
