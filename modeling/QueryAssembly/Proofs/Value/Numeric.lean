import QueryAssembly.Number.Layout
import QueryAssembly.Proofs.Lexical.Label

namespace QueryAssembly

/-! Numbers are written with digits, signs, a point and a mark for the power of
ten. A scan passes them in code. -/

namespace Text

def isNumeric (char : Char) : Bool :=
  char.isDigit || char == '-' || char == '+' || char == '.' || char == 'e'

def Numeric (text : Text) : Prop := ∀ char ∈ text, isNumeric char

instance (text : Text) : Decidable text.Numeric :=
  List.decidableBAll _ text

theorem Numeric.isPlain {text : Text} (numeric : text.Numeric) :
    ∀ char ∈ text, Position.isPlain char := by
  intro char member
  have isNumeric := numeric char member
  simp only [Position.isPlain, Bool.and_eq_true, bne_iff_ne]
  refine ⟨⟨?_, ?_⟩, ?_⟩ <;>
    · rintro rfl
      exact absurd isNumeric (by decide)

theorem numeric_cons_iff {char : Char} {rest : Text} :
    Numeric (char :: rest) ↔ isNumeric char ∧ rest.Numeric :=
  List.forall_mem_cons

theorem numeric_append_iff {left right : Text} :
    Numeric (left ++ right) ↔ left.Numeric ∧ right.Numeric :=
  List.forall_mem_append

theorem numeric_zeros (count : Nat) : Numeric (List.replicate count '0') := by
  intro char member
  rw [List.eq_of_mem_replicate member]
  rfl

theorem numeric_ofNat (value : Nat) : Numeric (ofNat value) := by
  intro char member
  have digit := Nat.isDigit_of_mem_toDigits (by decide) (by decide) member
  simp [isNumeric, digit]

theorem numeric_ofInt (value : Int) : Numeric (ofInt value) := by
  cases value with
  | ofNat value => exact numeric_ofNat value
  | negSucc value => exact numeric_cons_iff.mpr ⟨rfl, numeric_ofNat _⟩

theorem numeric_significantDigits (decimal : Decimal) :
    Numeric (significantDigits decimal) := by
  rw [significantDigits]
  split
  · decide
  · intro char member
    apply numeric_ofNat decimal.digits
    rw [List.mem_reverse] at member
    exact List.mem_reverse.mp ((List.dropWhile_sublist _).subset member)

theorem numeric_plainDecimal {digits : Text} (numeric : digits.Numeric)
    (point : Int) : Numeric (plainDecimal digits point) := by
  have whole : Numeric (digits.take point.toNat) := fun char member =>
    numeric char (List.mem_of_mem_take member)
  have fraction : Numeric (digits.drop point.toNat) := fun char member =>
    numeric char (List.mem_of_mem_drop member)
  rw [plainDecimal]
  split
  · exact numeric_cons_iff.mpr ⟨rfl, numeric_cons_iff.mpr
      ⟨rfl, numeric_append_iff.mpr ⟨numeric_zeros _, numeric⟩⟩⟩
  · simp only [numeric_append_iff, numeric_cons_iff]
    refine ⟨⟨whole, numeric_zeros _⟩, rfl, ?_⟩
    split
    · decide
    · exact fraction

theorem numeric_scientificDecimal {digits : Text} (numeric : digits.Numeric)
    (plusSign : Bool) (power : Int) :
    Numeric (scientificDecimal plusSign digits power) := by
  have power_numeric : Numeric ('e' ::
      (if plusSign && decide (0 ≤ power) then '+' :: ofInt power
        else ofInt power)) := by
    refine numeric_cons_iff.mpr ⟨rfl, ?_⟩
    split
    · exact numeric_cons_iff.mpr ⟨rfl, numeric_ofInt power⟩
    · exact numeric_ofInt power
  unfold scientificDecimal
  refine numeric_append_iff.mpr ⟨?_, power_numeric⟩
  match digits, numeric with
  | [], _ => decide
  | [first], numeric => exact numeric
  | first :: second :: rest, numeric =>
      rw [numeric_cons_iff, numeric_cons_iff] at numeric
      exact numeric_cons_iff.mpr
        ⟨numeric.1, numeric_cons_iff.mpr ⟨rfl, numeric_cons_iff.mpr numeric.2⟩⟩

theorem numeric_write (layout : NumberLayout) (value : Double) :
    Numeric (value.write layout) := by
  have digits := numeric_significantDigits (value.shortest layout.tie)
  have unsigned : ∀ point : Int, Numeric
      (if layout.leastPoint ≤ point ∧ point ≤ layout.greatestPoint then
        plainDecimal (significantDigits (value.shortest layout.tie)) point
      else scientificDecimal layout.plusSign
        (significantDigits (value.shortest layout.tie)) (point - 1)) := by
    intro point
    split
    · exact numeric_plainDecimal digits point
    · exact numeric_scientificDecimal digits layout.plusSign _
  rw [Double.write]
  split
  · exact numeric_cons_iff.mpr ⟨rfl, unsigned _⟩
  · exact unsigned _

end Text

end QueryAssembly
