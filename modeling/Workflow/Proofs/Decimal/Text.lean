import Workflow.Decimal.Reading
import Workflow.Decimal.Shortest

/-!
# The text of numbers

The text of a number consists of digits, signs, points and the letter of the exponent. A whole
number can be read back from its text; the text of a float is not that of a whole number.
-/

namespace Workflow.Decimal

variable {cs : List Char}

def isNumeric (c : Char) : Bool :=
  c.isDigit || c == '+' || c == '-' || c == '.' || c == 'e'

theorem isNumeric_of_isDigit {c : Char} (h : c.isDigit = true) : isNumeric c = true := by
  rw [isNumeric, h]
  rfl

theorem isDigit_of_mem_toDigits {n : Nat} {c : Char} (h : c ∈ Nat.toDigits 10 n) :
    c.isDigit = true :=
  Nat.isDigit_of_mem_toDigits (by decide) (by decide) h

theorem splitSign_of_digits (h : ∀ c ∈ cs, c.isDigit = true) : splitSign cs = (false, cs) := by
  unfold splitSign
  split
  · cases h '-' List.mem_cons_self
  · cases h '+' List.mem_cons_self
  · rfl

theorem ofDigits_toDigits (n : Nat) : ofDigits (Nat.toDigits 10 n) = n :=
  Nat.ofDigitChars_ten_toDigits

inductive Writes : List Char → Int → Prop
  | digits {cs : List Char} (hne : cs ≠ []) (h : ∀ c ∈ cs, c.isDigit = true) :
      Writes cs (ofDigits cs)
  | plus {cs : List Char} (hne : cs ≠ []) (h : ∀ c ∈ cs, c.isDigit = true) :
      Writes ('+' :: cs) (ofDigits cs)
  | minus {cs : List Char} (hne : cs ≠ []) (h : ∀ c ∈ cs, c.isDigit = true) :
      Writes ('-' :: cs) (-(ofDigits cs : Int))

/-- What digits are read as, after a sign has been split off. -/
theorem readInt?_of_splitSign {digits : List Char} {negative : Bool} {value : Int}
    (hsplit : splitSign cs = (negative, digits)) (hne : digits ≠ [])
    (hdigits : ∀ c ∈ digits, c.isDigit = true)
    (hvalue : value = if negative then -(ofDigits digits : Int) else ofDigits digits)
    (hlow : -0x8000000000000000 ≤ value) (hhigh : value < 0x8000000000000000) :
    readInt? cs = some value := by
  rw [readInt?, hsplit]
  dsimp only
  rw [List.all_eq_true.2 hdigits, List.isEmpty_eq_false_iff.2 hne, ← hvalue, decide_eq_true hlow,
    decide_eq_true hhigh]
  rfl

theorem readInt?_of_writes {n : Int} (h : Writes cs n) (hlow : -0x8000000000000000 ≤ n)
    (hhigh : n < 0x8000000000000000) : readInt? cs = some n := by
  cases h with
  | digits hne h => exact readInt?_of_splitSign (splitSign_of_digits h) hne h rfl hlow hhigh
  | plus hne h | minus hne h => exact readInt?_of_splitSign rfl hne h rfl hlow hhigh

theorem Writes.isNumeric {n : Int} (h : Writes cs n) : ∀ c ∈ cs, isNumeric c = true := by
  cases h with
  | digits hne h => exact fun c hc => isNumeric_of_isDigit (h c hc)
  | plus hne h | minus hne h =>
    rw [List.forall_mem_cons]
    exact ⟨rfl, fun c hc => isNumeric_of_isDigit (h c hc)⟩

theorem writes_toString (n : Int) : Writes (toString n).toList n := by
  have hdigits : ∀ n : Nat, ∀ c ∈ Nat.toDigits 10 n, c.isDigit = true :=
    fun _ _ => isDigit_of_mem_toDigits
  cases n with
  | ofNat n =>
    have htext : (toString (Int.ofNat n)).toList = Nat.toDigits 10 n := Nat.toList_repr
    have hwrites := Writes.digits Nat.toDigits_ne_nil (hdigits n)
    rwa [ofDigits_toDigits, ← htext] at hwrites
  | negSucc n =>
    have htext : (toString (Int.negSucc n)).toList = '-' :: Nat.toDigits 10 (n + 1) := by
      have hrepr : (toString (Int.negSucc n)).toList = ("-" ++ Nat.repr (n + 1)).toList := rfl
      rw [hrepr, String.toList_append, Nat.toList_repr]
      rfl
    have hwrites := Writes.minus Nat.toDigits_ne_nil (hdigits (n + 1))
    rwa [ofDigits_toDigits, ← htext] at hwrites

theorem readInt?_range {value : Int} (h : readInt? cs = some value) :
    -0x8000000000000000 ≤ value ∧ value < 0x8000000000000000 := by
  simp only [readInt?, Option.ite_none_left_eq_some, Option.ite_none_right_eq_some,
    Option.some.injEq, Bool.and_eq_true, decide_eq_true_eq] at h
  obtain ⟨-, hrange, rfl⟩ := h
  exact hrange

theorem readInt?_toString {n : Int} (hlow : -0x8000000000000000 ≤ n)
    (hhigh : n < 0x8000000000000000) : readInt? (toString n).toList = some n :=
  readInt?_of_writes (writes_toString n) hlow hhigh

def IsNumeric (s : String) : Prop :=
  ∀ c ∈ s.toList, isNumeric c = true

instance (s : String) : Decidable (IsNumeric s) :=
  decidable_of_iff (s.toList.all isNumeric = true) List.all_eq_true

theorem IsNumeric.append {s t : String} (hs : IsNumeric s) (ht : IsNumeric t) :
    IsNumeric (s ++ t) := by
  intro c hc
  rw [String.toList_append, List.mem_append] at hc
  exact hc.elim (hs c) (ht c)

theorem isNumeric_ofList (h : ∀ c ∈ cs, c.isDigit = true) : IsNumeric (String.ofList cs) := by
  intro c hc
  rw [String.toList_ofList] at hc
  exact isNumeric_of_isDigit (h c hc)

theorem isNumeric_toString (n : Nat) : IsNumeric (toString n) :=
  isNumeric_ofList fun _ => isDigit_of_mem_toDigits

theorem isNumeric_int (n : Int) : IsNumeric (toString n) :=
  (writes_toString n).isNumeric

/-- No text with a point or a letter is that of a whole number. -/
theorem readInt?_eq_none {c : Char} (hc : c ∈ cs) (hmark : c = '.' ∨ c = 'e') :
    readInt? cs = none := by
  have hsign : c ∈ (splitSign cs).2 := by
    unfold splitSign
    split
    next cs =>
      refine (List.mem_cons.1 hc).resolve_left ?_
      rintro rfl
      rcases hmark with h | h <;> cases h
    next cs _ =>
      refine (List.mem_cons.1 hc).resolve_left ?_
      rintro rfl
      rcases hmark with h | h <;> cases h
    next => exact hc
  have hdigits : (splitSign cs).2.all Char.isDigit = false := by
    refine Bool.eq_false_iff.2 fun hall => ?_
    have hdigit := List.all_eq_true.1 hall c hsign
    rcases hmark with rfl | rfl <;> cases hdigit
  rw [readInt?]
  dsimp only
  rw [hdigits, Bool.not_false, Bool.or_true, if_pos rfl]

structure IsFloatText (s : String) : Prop where
  numeric : IsNumeric s
  mark : ∃ c ∈ s.toList, c = '.' ∨ c = 'e'

theorem IsFloatText.append {s t : String} (hs : IsFloatText s) (ht : IsNumeric t) :
    IsFloatText (s ++ t) where
  numeric := hs.numeric.append ht
  mark := by
    obtain ⟨c, hc, hmark⟩ := hs.mark
    exact ⟨c, String.toList_append ▸ List.mem_append_left _ hc, hmark⟩

theorem IsNumeric.append_floatText {s t : String} (hs : IsNumeric s) (ht : IsFloatText t) :
    IsFloatText (s ++ t) where
  numeric := hs.append ht.numeric
  mark := by
    obtain ⟨c, hc, hmark⟩ := ht.mark
    exact ⟨c, String.toList_append ▸ List.mem_append_right _ hc, hmark⟩

theorem isNumeric_zeros (n : Nat) : IsNumeric (zeros n) :=
  isNumeric_ofList fun _ hc => (List.eq_of_mem_replicate hc).symm ▸ rfl

theorem isNumeric_signed (n : Int) : IsNumeric (signed n) := by
  refine .append ?_ (isNumeric_toString _)
  split <;> decide

theorem isFloatText_write (layout : Layout) (d : Numeral) : IsFloatText (layout.write d) := by
  have hdigit : ∀ c ∈ (toString d.digits).toList, c.isDigit = true := fun c hc => by
    rw [Nat.toString_eq_repr, Nat.toList_repr] at hc
    exact isDigit_of_mem_toDigits hc
  have htext := isNumeric_toString d.digits
  have hzero : IsFloatText ".0" := ⟨by decide, '.', by decide, .inl rfl⟩
  have hpoint : IsFloatText "." := ⟨by decide, '.', by decide, .inl rfl⟩
  have hexponent : IsFloatText "e" := ⟨by decide, 'e', by decide, .inr rfl⟩
  unfold Layout.write
  dsimp only
  split
  · exact ⟨by decide, '.', by decide, .inl rfl⟩
  · split
    · split
      · exact (htext.append (isNumeric_zeros _)).append_floatText hzero
      · split
        · refine ((isNumeric_ofList fun c hc => ?_).append_floatText hpoint).append
            (isNumeric_ofList fun c hc => ?_)
          · exact hdigit c (List.mem_of_mem_take hc)
          · exact hdigit c (List.mem_of_mem_drop hc)
        · have hstart : IsFloatText "0." := ⟨by decide, '.', by decide, .inl rfl⟩
          exact (hstart.append (isNumeric_zeros _)).append htext
    · split
      next hnil =>
        rw [Nat.toString_eq_repr, Nat.toList_repr] at hnil
        exact absurd hnil Nat.toDigits_ne_nil
      next lead heq =>
        have hlead := isNumeric_ofList (heq ▸ hdigit)
        rw [← String.singleton_eq_ofList] at hlead
        exact (hlead.append_floatText hexponent).append (isNumeric_signed _)
      next lead rest _ heq =>
        rw [heq] at hdigit
        have hlead : IsNumeric (String.singleton lead) := by
          rw [String.singleton_eq_ofList]
          exact isNumeric_ofList fun c hc =>
            hdigit c (List.mem_singleton.1 hc ▸ List.mem_cons_self)
        have hrest := isNumeric_ofList fun c hc => hdigit c (List.mem_cons_of_mem _ hc)
        exact (((hlead.append_floatText hpoint).append hrest).append hexponent.numeric).append
          (isNumeric_signed _)

theorem isFloatText_writeFloat (layout : Layout) (x : Float) :
    IsFloatText (layout.writeFloat x) := by
  have htext := isFloatText_write layout (Binary.ofBits x.toBits).shortest
  unfold Layout.writeFloat
  dsimp only
  split
  · exact htext
  · exact IsNumeric.append_floatText (s := "-") (by decide) htext

end Workflow.Decimal
