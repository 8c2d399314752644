import Mathlib.Data.List.DropRight
import Workflow.Proofs.Lint.Codes
import Workflow.Sample

/-!
# Suggested names

For a state whose name is not in snake case linting suggests the converted name. The conversion
yields words joined by single underscores, or nothing, so the suggestion is in snake case unless
what comes first in it is no letter: a name may have a digit before all its letters, and it may have
neither letters nor digits.
-/

namespace Workflow.Lint

variable {last : NameEnd} {c : Char} {cs : List Char}

inductive Words : List Char → Prop where
  | last {c : Char} (hc : isWordChar c = true) : Words [c]
  | next {c : Char} {cs : List Char} (hc : isWordChar c = true) (h : Words cs) : Words (c :: cs)
  | underscore {c : Char} {cs : List Char} (hc : isWordChar c = true) (h : Words cs) :
      Words (c :: '_' :: cs)

def SnakeCase (cs : List Char) : Prop :=
  Words cs ∧ ∃ c, cs.head? = some c ∧ c.isLower = true

theorem ne_underscore_of_isWordChar (hc : isWordChar c = true) : c ≠ '_' := by
  rintro rfl
  exact absurd hc (by decide)

theorem Words.starts (h : Words cs) : ∃ c rest, cs = c :: rest ∧ isWordChar c = true := by
  cases h with
  | last hc | next hc _ | underscore hc _ => exact ⟨_, _, rfl, hc⟩

theorem Words.ends (h : Words cs) : ∃ init c, cs = init ++ [c] ∧ isWordChar c = true := by
  induction h with
  | last hc => exact ⟨[], _, rfl, hc⟩
  | next _ _ ih =>
    obtain ⟨init, c, rfl, hc⟩ := ih
    exact ⟨_ :: init, c, rfl, hc⟩
  | underscore _ _ ih =>
    obtain ⟨init, c, rfl, hc⟩ := ih
    exact ⟨_ :: '_' :: init, c, rfl, hc⟩

theorem isSnakeTail_cons (hc : isWordChar c = true) : isSnakeTail (c :: cs) = isSnakeTail cs := by
  rw [isSnakeTail, hc, Bool.true_and]
  rintro _ _ rfl
  exact absurd rfl (ne_underscore_of_isWordChar hc)

theorem Words.isSnakeTail (h : Words cs) : Lint.isSnakeTail cs = true := by
  induction h with
  | last hc => exact isSnakeTail_cons hc
  | next hc h ih => exact (isSnakeTail_cons hc).trans ih
  | underscore hc h ih =>
    obtain ⟨d, rest, rfl, hd⟩ := h.starts
    rw [isSnakeTail_cons hc, Lint.isSnakeTail, hd, Bool.true_and, ← isSnakeTail_cons hd, ih]

theorem Words.of_isSnakeTail (hc : isWordChar c = true) (h : Lint.isSnakeTail cs = true) :
    Words (c :: cs) := by
  induction cs using isSnakeTail.induct generalizing c with
  | case1 => exact .last hc
  | case2 d cs ih =>
    obtain ⟨hd, hcs⟩ := Bool.and_eq_true_iff.1 h
    exact .underscore hc (ih hd hcs)
  | case3 d cs hne ih =>
    rw [isSnakeTail.eq_3 d cs hne] at h
    obtain ⟨hd, hcs⟩ := Bool.and_eq_true_iff.1 h
    exact .next hc (ih hd hcs)

theorem isWordChar_of_isLower (hc : c.isLower = true) : isWordChar c = true := by
  rw [isWordChar, hc, Bool.true_or]

/-- What the pattern accepts are the names in snake case. -/
theorem isSnakeCase_iff : isSnakeCase cs = true ↔ SnakeCase cs := by
  cases cs with
  | nil => exact iff_of_false Bool.false_ne_true fun h => nomatch h.1
  | cons c cs =>
    rw [isSnakeCase, Bool.and_eq_true]
    constructor
    · rintro ⟨hc, hcs⟩
      exact ⟨.of_isSnakeTail (isWordChar_of_isLower hc) hcs, c, rfl, hc⟩
    · rintro ⟨hwords, _, ⟨⟩, hc⟩
      exact ⟨hc, (isSnakeTail_cons (isWordChar_of_isLower hc)).symm.trans hwords.isSnakeTail⟩

theorem isUpper_iff : c.isUpper = true ↔ 65 ≤ c.toNat ∧ c.toNat ≤ 90 :=
  decide_eq_true_iff

theorem isLower_iff : c.isLower = true ↔ 97 ≤ c.toNat ∧ c.toNat ≤ 122 :=
  Bool.and_eq_true_iff.trans (and_congr decide_eq_true_iff decide_eq_true_iff)

theorem isDigit_iff : c.isDigit = true ↔ 48 ≤ c.toNat ∧ c.toNat ≤ 57 :=
  Bool.and_eq_true_iff.trans (and_congr decide_eq_true_iff decide_eq_true_iff)

theorem isAlpha_iff : c.isAlpha = true ↔ c.isUpper = true ∨ c.isLower = true :=
  Bool.or_eq_true_iff

theorem isAlphanum_iff : c.isAlphanum = true ↔ c.isAlpha = true ∨ c.isDigit = true :=
  Bool.or_eq_true_iff

theorem toLower_of_not_isUpper (hc : ¬c.isUpper = true) : c.toLower = c :=
  dif_neg fun h => hc (decide_eq_true h)

theorem toNat_toLower (hc : c.isUpper = true) : c.toLower.toNat = c.toNat + 32 := by
  have hlower : c.toLower = ⟨c.val + 32, _⟩ := dif_pos (of_decide_eq_true hc)
  have hadd : (c.val + 32).toNat = (c.toNat + 32) % 2 ^ 32 := UInt32.toNat_add c.val 32
  have hrange := isUpper_iff.1 hc
  rw [hlower]
  change (c.val + 32).toNat = _
  omega

theorem isLower_toLower_of_isUpper (hc : c.isUpper = true) : c.toLower.isLower = true := by
  have hrange := isUpper_iff.1 hc
  rw [isLower_iff, toNat_toLower hc]
  omega

theorem isLower_toLower_iff : c.toLower.isLower = true ↔ c.isAlpha = true := by
  rw [isAlpha_iff]
  by_cases hc : c.isUpper = true
  · exact iff_of_true (isLower_toLower_of_isUpper hc) (.inl hc)
  · rw [toLower_of_not_isUpper hc, or_iff_right hc]

theorem isWordChar_toLower (hc : c.isUpper = true) : isWordChar c.toLower = true :=
  isWordChar_of_isLower (isLower_toLower_of_isUpper hc)

theorem isWordChar_of_isAlphanum (hc : c.isAlphanum = true) (hupper : ¬c.isUpper = true) :
    isWordChar c = true := by
  rw [isAlphanum_iff, isAlpha_iff, or_iff_right hupper] at hc
  exact Bool.or_eq_true_iff.2 hc

theorem not_isUpper_and_isAlphanum (hc : isWordChar c = true) :
    ¬c.isUpper = true ∧ c.isAlphanum = true := by
  rw [isUpper_iff, isAlphanum_iff, isAlpha_iff]
  rcases Bool.or_eq_true_iff.1 hc with hlower | hdigit
  · have hrange := isLower_iff.1 hlower
    exact ⟨by omega, .inl (.inr hlower)⟩
  · have hrange := isDigit_iff.1 hdigit
    exact ⟨by omega, .inr hdigit⟩

inductive Untrimmed : List Char → Prop where
  | words {cs : List Char} (h : Words cs) : Untrimmed cs
  | underscore {cs : List Char} (h : Words cs) : Untrimmed (cs ++ ['_'])

theorem Untrimmed.next (hc : isWordChar c = true) (h : cs = [] ∨ Untrimmed cs) :
    Untrimmed (c :: cs) := by
  rcases h with rfl | ⟨h⟩ | ⟨h⟩
  · exact .words (.last hc)
  · exact .words (.next hc h)
  · exact .underscore (.next hc h)

theorem Untrimmed.joined (hc : isWordChar c = true) (h : cs = [] ∨ Untrimmed cs) :
    Untrimmed (c :: '_' :: cs) := by
  rcases h with rfl | ⟨h⟩ | ⟨h⟩
  · exact .underscore (.last hc)
  · exact .words (.underscore hc h)
  · exact .underscore (.underscore hc h)

/-- What the rest of a name is converted to, by how the name ends so far: it goes on from a letter
or digit, or it starts anew. -/
def Continues (last : NameEnd) (out : List Char) : Prop :=
  match last with
  | .small | .capital => ∀ c, isWordChar c = true → Untrimmed (c :: out)
  | .empty | .underscore => out = [] ∨ Untrimmed out

theorem continues_of_untrimmed (h : Untrimmed cs) : Continues last cs := by
  cases last with
  | small | capital => exact fun _ hc => .next hc (.inr h)
  | empty | underscore => exact .inr h

theorem continues_snakeFrom (last : NameEnd) (cs : List Char) :
    Continues last (snakeFrom last cs) := by
  -- What is yet to come may begin with an underscore, so it is judged together with the letter or
  -- digit before it.
  fun_induction snakeFrom last cs with
  | case1 last =>
    cases last with
    | small | capital => exact fun _ hc => .next hc (.inl rfl)
    | empty | underscore => exact .inl rfl
  | case2 last c cs hupper ih =>
    have hword : Untrimmed (c.toLower :: snakeFrom .capital cs) := ih _ (isWordChar_toLower hupper)
    split
    next hsmall =>
      subst hsmall
      exact fun _ hd => .joined hd (.inr hword)
    next => exact continues_of_untrimmed hword
  | case3 last c cs hupper halphanum ih =>
    exact continues_of_untrimmed (ih c (isWordChar_of_isAlphanum halphanum hupper))
  | case4 c cs _ _ ih | case5 c cs _ _ ih => exact fun _ hd => .joined hd ih
  | case6 c cs _ _ ih | case7 c cs _ _ ih => exact ih

theorem Words.dropWhile (h : Words cs) (rest : List Char) :
    (cs ++ rest).dropWhile (· == '_') = cs ++ rest := by
  obtain ⟨c, tail, rfl, hc⟩ := h.starts
  exact List.dropWhile_cons_of_neg (by simpa using ne_underscore_of_isWordChar hc)

theorem Words.rdropWhile (h : Words cs) : cs.rdropWhile (· == '_') = cs := by
  obtain ⟨init, c, rfl, hc⟩ := h.ends
  exact List.rdropWhile_concat_neg _ _ _ (by simpa using ne_underscore_of_isWordChar hc)

theorem trimUnderscores_of_words (h : Words cs) : trimUnderscores cs = cs := by
  have hstart := h.dropWhile []
  rw [List.append_nil] at hstart
  calc trimUnderscores cs = (cs.dropWhile (· == '_')).rdropWhile (· == '_') := rfl
    _ = cs.rdropWhile (· == '_') := by rw [hstart]
    _ = cs := h.rdropWhile

theorem trimUnderscores_append (h : Words cs) : trimUnderscores (cs ++ ['_']) = cs :=
  calc trimUnderscores (cs ++ ['_'])
    _ = ((cs ++ ['_']).dropWhile (· == '_')).rdropWhile (· == '_') := rfl
    _ = (cs ++ ['_']).rdropWhile (· == '_') := by rw [h.dropWhile]
    _ = cs.rdropWhile (· == '_') := List.rdropWhile_concat_pos _ _ _ rfl
    _ = cs := h.rdropWhile

/-- Trimming leaves the words, and their start is that of what is trimmed. -/
theorem Untrimmed.trim (h : Untrimmed cs) :
    Words (trimUnderscores cs) ∧ (trimUnderscores cs).head? = cs.head? := by
  cases h with
  | words h =>
    rw [trimUnderscores_of_words h]
    exact ⟨h, rfl⟩
  | underscore h =>
    rw [trimUnderscores_append h]
    obtain ⟨c, rest, rfl, -⟩ := h.starts
    exact ⟨h, rfl⟩

theorem toSnakeCase_spec (cs : List Char) :
    (toSnakeCase cs = [] ∨ Words (toSnakeCase cs)) ∧
      (toSnakeCase cs).head? = (snakeFrom .empty cs).head? := by
  rcases continues_snakeFrom .empty cs with hempty | huntrimmed
  · rw [toSnakeCase, hempty]
    exact ⟨.inl rfl, rfl⟩
  · exact ⟨.inr huntrimmed.trim.1, huntrimmed.trim.2⟩

theorem head?_snakeFrom :
    (snakeFrom .empty cs).head? = (cs.find? Char.isAlphanum).map Char.toLower := by
  induction cs with
  | nil => rfl
  | cons c cs ih =>
    rw [snakeFrom]
    split
    next hupper =>
      have halphanum : c.isAlphanum = true :=
        isAlphanum_iff.2 (.inl (isAlpha_iff.2 (.inl hupper)))
      rw [List.find?_cons_of_pos halphanum]
      rfl
    next hupper =>
      split
      next halphanum =>
        rw [List.find?_cons_of_pos halphanum]
        exact congrArg some (toLower_of_not_isUpper hupper).symm
      next halphanum =>
        rw [List.find?_cons_of_neg halphanum]
        exact ih

theorem snakeFrom_cons (hc : isWordChar c = true) :
    snakeFrom last (c :: cs) = c :: snakeFrom .small cs := by
  obtain ⟨hupper, halphanum⟩ := not_isUpper_and_isAlphanum hc
  exact (if_neg hupper).trans (if_pos halphanum)

theorem snakeFrom_of_words (h : Words cs) : snakeFrom last cs = cs := by
  induction h generalizing last with
  | last hc => exact snakeFrom_cons hc
  | next hc h ih => rw [snakeFrom_cons hc, ih]
  | underscore hc h ih =>
    have hunderscore : ∀ cs, snakeFrom .small ('_' :: cs) = '_' :: snakeFrom .underscore cs :=
      fun _ => rfl
    rw [snakeFrom_cons hc, hunderscore, ih]

/-- A name made of words stays as it is. -/
theorem toSnakeCase_of_words (h : Words cs) : toSnakeCase cs = cs := by
  rw [toSnakeCase, snakeFrom_of_words h, trimUnderscores_of_words h]

theorem toSnakeCase_eq_self_iff : toSnakeCase cs = cs ↔ cs = [] ∨ Words cs := by
  constructor
  · intro h
    have hwords := (toSnakeCase_spec cs).1
    rwa [h] at hwords
  · rintro (rfl | h)
    · rfl
    · exact toSnakeCase_of_words h

def LetterFirst (cs : List Char) : Prop :=
  ∃ c, cs.find? Char.isAlphanum = some c ∧ c.isAlpha = true

theorem snakeCase_toSnakeCase_iff : SnakeCase (toSnakeCase cs) ↔ LetterFirst cs := by
  obtain ⟨hwords, hhead⟩ := toSnakeCase_spec cs
  rw [head?_snakeFrom] at hhead
  constructor
  · rintro ⟨-, d, hd, hlower⟩
    rw [hhead, Option.map_eq_some_iff] at hd
    obtain ⟨c, hc, rfl⟩ := hd
    exact ⟨c, hc, isLower_toLower_iff.1 hlower⟩
  · rintro ⟨c, hc, halpha⟩
    rw [hc, Option.map_some] at hhead
    refine ⟨hwords.resolve_left ?_, _, hhead, isLower_toLower_iff.2 halpha⟩
    intro hnil
    rw [hnil] at hhead
    cases hhead

/-- What is reported of a name that is not in snake case suggests the converted name. That consists
of words, or of nothing, and it is in snake case exactly if a letter comes first among the letters
and digits of the name. It is no other name than the reported one exactly if that is empty or
consists of words already, the first of which then starts with a digit. A name in snake case is
left as it is. -/
theorem naming_suggestion_exact (known : Option Registry) (spec : WorkflowSpec) :
    (∀ cs, isSnakeCase cs = true ↔ SnakeCase cs) ∧
    (∀ finding ∈ lint known spec, finding.code = .naming → ∃ name ∈ spec.stateNames,
      finding = namingFinding name ∧ ¬SnakeCase name.toList ∧
      (toSnakeCase name.toList = [] ∨ Words (toSnakeCase name.toList)) ∧
      (SnakeCase (toSnakeCase name.toList) ↔ LetterFirst name.toList) ∧
      (SnakeCase (toSnakeCase name.toList) → toSnakeCase name.toList ≠ name.toList) ∧
      (toSnakeCase name.toList = name.toList ↔ name.toList = [] ∨ Words name.toList)) ∧
    ∀ cs, SnakeCase cs → toSnakeCase cs = cs := by
  refine ⟨fun _ => isSnakeCase_iff, fun finding hmem hcode => ?_,
    fun _ h => toSnakeCase_of_words h.1⟩
  have hcodes : finding.code ∈ [Code.duplicateState, .naming] := hcode ▸ .tail _ (.head _)
  obtain ⟨name, hname, hreport⟩ := List.mem_flatMap.1 ((mem_lint_iff_mem_checkNames hcodes).1 hmem)
  rcases List.mem_append.1 hreport with hduplicate | hnaming
  · rw [(mem_when.1 hduplicate).2] at hcode
    cases hcode
  · obtain ⟨hcase, rfl⟩ := mem_when.1 hnaming
    have hcase : ¬SnakeCase name.toList := by
      rwa [Bool.not_eq_true', ← Bool.not_eq_true, isSnakeCase_iff] at hcase
    refine ⟨name, mem_dedup.1 hname, rfl, hcase, (toSnakeCase_spec _).1,
      snakeCase_toSnakeCase_iff, fun h heq => ?_, toSnakeCase_eq_self_iff⟩
    exact hcase (heq ▸ h)

def misnamed : WorkflowSpec :=
  let start : WorkflowSpec := { name := "misnamed", initialState := "FetchData" }
  ((start.withState (Sample.noopState "FetchData")).withState (Sample.finalState "2fast")).withState
    (Sample.finalState "日本")

/-- To follow the suggestion helps in the first case only: in the second the suggested name is the
reported one, in the third it is empty. -/
theorem naming_suggestion_exact_misnamed :
    (namingFinding "FetchData" ∈ lint none misnamed ∧
      (namingFinding "FetchData").suggestion = "rename it to 'fetch_data'" ∧
      SnakeCase (toSnakeCase "FetchData".toList)) ∧
    (namingFinding "2fast" ∈ lint none misnamed ∧
      (namingFinding "2fast").suggestion = "rename it to '2fast'" ∧
      ¬SnakeCase (toSnakeCase "2fast".toList)) ∧
    (namingFinding "日本" ∈ lint none misnamed ∧
      (namingFinding "日本").suggestion = "rename it to ''" ∧
      ¬SnakeCase (toSnakeCase "日本".toList)) := by
  have hexact : ∀ name, namingFinding name ∈ lint none misnamed →
      (SnakeCase (toSnakeCase name.toList) ↔ LetterFirst name.toList) := by
    intro name hmem
    obtain ⟨name', -, hfinding, -, -, hiff, -⟩ :=
      (naming_suggestion_exact none misnamed).2.1 _ hmem rfl
    cases Option.some.inj (congrArg Finding.state hfinding)
    exact hiff
  have hfetch : namingFinding "FetchData" ∈ lint none misnamed := by decide +kernel
  have hfast : namingFinding "2fast" ∈ lint none misnamed := by decide +kernel
  have hkanji : namingFinding "日本" ∈ lint none misnamed := by decide +kernel
  refine ⟨⟨hfetch, by decide +kernel, (hexact _ hfetch).2 ⟨'F', by decide +kernel, rfl⟩⟩,
    ⟨hfast, by decide +kernel, fun h => ?_⟩, ⟨hkanji, by decide +kernel, fun h => ?_⟩⟩
  · obtain ⟨c, hc, halpha⟩ := (hexact _ hfast).1 h
    have hdigit : "2fast".toList.find? Char.isAlphanum = some '2' := rfl
    cases hdigit.symm.trans hc
    exact absurd halpha (by decide)
  · obtain ⟨c, hc, -⟩ := (hexact _ hkanji).1 h
    have hnone : "日本".toList.find? Char.isAlphanum = none := rfl
    cases hnone.symm.trans hc

end Workflow.Lint
