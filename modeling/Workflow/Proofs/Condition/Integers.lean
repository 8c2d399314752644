import Workflow.Proofs.Condition.RoundTrip
import Workflow.Proofs.Decimal.Nearest

/-!
# Comparing whole numbers

A condition compares numbers as doubles. So a whole number meets `==` when the nearest number that a
double holds is the same as that of the literal. That is exact as long as one of the two is below
`2 ^ 53`, but of two large numbers close to each other a condition may not see the difference.
-/

namespace Workflow.Condition

open Decimal (nearestInt)

def Comparison.Relates : Comparison → Int → Int → Prop
  | .equal, a, b => a = b
  | .unequal, a, b => a ≠ b

theorem Comparison.relates_congr {a b a' b' : Int} (h : a = b ↔ a' = b') (sign : Comparison) :
    sign.Relates a b ↔ sign.Relates a' b' := by
  cases sign with
  | equal => exact h
  | unequal => exact not_congr h

theorem sameValue_int {a b : Int} (ha : a.natAbs < 2 ^ 64) (hb : b.natAbs < 2 ^ 64) :
    sameValue (.int a) (.int b) = true ↔ nearestInt a = nearestInt b :=
  Decimal.ofInt_beq_iff ha hb

theorem isMet_condition_int {data : Data} {key : String} {a b : Int} (sign : Comparison)
    (hdata : data.get? key = some (.int a)) (ha : a.natAbs < 2 ^ 64) (hb : b.natAbs < 2 ^ 64) :
    (sign.condition key (.int b)).isMet data = true ↔
      sign.Relates (nearestInt a) (nearestInt b) := by
  cases sign with
  | equal =>
    rw [Comparison.condition, isMet, hdata, Option.any_some]
    exact sameValue_int ha hb
  | unequal =>
    rw [Comparison.condition, isMet, hdata, Option.any_some, Bool.not_eq_true',
      ← Bool.not_eq_true]
    exact not_congr (sameValue_int ha hb)

theorem literal_of_writes {cs : List Char} {n : Int} (h : Decimal.Writes (Text.trim cs) n)
    (hlow : -0x8000000000000000 ≤ n) (hhigh : n < 0x8000000000000000) : literal cs = .int n := by
  have htrim : Text.trim (Text.trim cs) = Text.trim cs :=
    Text.trim_of_forall fun c hc => isBlank_of_isNumeric (h.isNumeric c hc)
  have hcs : literal cs = literal (Text.trim cs) := by
    rw [literal, literal, htrim]
  have hnumeric : Decimal.IsNumeric (String.ofList (Text.trim cs)) := by
    intro c hc
    rw [String.toList_ofList] at hc
    exact h.isNumeric c hc
  have hnumber := literal_of_numeric hnumeric
  rw [String.toList_ofList, Decimal.readInt?_of_writes h hlow hhigh] at hnumber
  rw [hcs, hnumber]

/-- A comparison of two whole numbers is met when the relation holds of the nearest numbers that
doubles hold. That is when it holds of the numbers themselves if these are the same, if one of them
is small or if they lie far apart. -/
theorem isMet_of_parse_int {text key : String} {before after : List Char} {sign : Comparison}
    {data : Data} {a b : Int} (hkey : Names before key)
    (htext : Text.trim text.toList = before ++ (sign.sign ++ after))
    (hliteral : Decimal.Writes (Text.trim after) b) (hlow : -0x8000000000000000 ≤ b)
    (hhigh : b < 0x8000000000000000) (hdata : data.get? key = some (.int a))
    (hbelow : -0x8000000000000000 ≤ a) (habove : a < 0x10000000000000000) :
    ∃ c, parse text = .ok c ∧
      (c.isMet data = true ↔ sign.Relates (nearestInt a) (nearestInt b)) ∧
      (a = b ∨ a.natAbs < 2 ^ 53 ∨ b.natAbs < 2 ^ 53 ∨ 2 ^ 11 < (a - b).natAbs →
        (c.isMet data = true ↔ sign.Relates a b)) := by
  have ha : a.natAbs < 2 ^ 64 := by omega
  have hb : b.natAbs < 2 ^ 64 := by omega
  have hmet := isMet_condition_int sign hdata ha hb
  refine ⟨sign.condition key (.int b), ?_, hmet, fun hexact => hmet.trans ?_⟩
  · rw [parse_of_names sign hkey htext, literal_of_writes hliteral hlow hhigh]
  · refine Comparison.relates_congr ?_ sign
    rcases hexact with rfl | hexact
    · exact iff_of_true rfl rfl
    · exact Decimal.nearestInt_eq_iff ha hb hexact

/-- The number after `2 ^ 53` is taken for `2 ^ 53`. -/
theorem isMet_of_parse_int_limit :
    ∃ c, parse "k == 9007199254740993" = .ok c ∧
      c.isMet [("k", .int 9007199254740992)] = true := by
  have hkey : Names ['k', ' '] "k" :=
    ⟨⟨by decide, List.all_eq_true.1 (by decide +kernel)⟩, .inr ⟨by decide, by decide⟩⟩
  have htext : Text.trim "k == 9007199254740993".toList =
      ['k', ' '] ++ (Comparison.equal.sign ++ " 9007199254740993".toList) := by
    decide +kernel
  have hliteral : Decimal.Writes (Text.trim " 9007199254740993".toList) 9007199254740993 :=
    Decimal.writes_toString 9007199254740993
  have hdata : Table.get? "k" [("k", Json.int 9007199254740992)] = some (.int 9007199254740992) :=
    rfl
  obtain ⟨c, hparse, hmet, -⟩ := isMet_of_parse_int hkey htext hliteral (by decide) (by decide)
    hdata (by decide) (by decide)
  have hsame : nearestInt 9007199254740992 = nearestInt 9007199254740993 := by decide +kernel
  exact ⟨c, hparse, hmet.2 hsame⟩

end Workflow.Condition
