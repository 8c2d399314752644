import Mathlib.Data.List.Forall2
import Mathlib.Data.List.Induction
import Mathlib.Data.List.Nodup
import Mathlib.Data.List.TakeWhile
import Workflow.Spec.Source

/-!
# Expansion is one pass over the references

`Splits` says, without a scan, how a text falls into references and single characters: a character
stands for itself only where no reference starts. There is exactly one such splitting, since a
reference ends where its name and its fallback make it end. `expand` puts the values into that
splitting, or lists the variables that have none.
-/

namespace Workflow.Environment

def IsName (name : String) : Prop :=
  ∃ c cs, name.toList = c :: cs ∧ (c.isAlpha = true ∨ c = '_') ∧
    ∀ d ∈ cs, d.isAlphanum = true ∨ d = '_'

def closing : Option String → List Char
  | none => ['\x7d']
  | some fallback => ':' :: '-' :: (fallback.toList ++ ['\x7d'])

namespace Reference

structure WellFormed (r : Reference) : Prop where
  name : IsName r.name
  fallback : ∀ text ∈ r.fallback, '\x7d' ∉ text.toList

def source (r : Reference) : List Char :=
  '$' :: '\x7b' :: (r.name.toList ++ closing r.fallback)

end Reference

theorem closing?_eq_some_iff {cs rest : List Char} {fallback : Option String} :
    closing? cs = some (fallback, rest) ↔
      (∀ text ∈ fallback, '\x7d' ∉ text.toList) ∧ cs = closing fallback ++ rest := by
  constructor
  · intro h
    unfold closing? at h
    split at h
    next cs =>
      cases h
      exact ⟨nofun, rfl⟩
    next cs =>
      split at h
      next c after hdrop =>
        cases h
        have hc : c = '\x7d' := by
          have hhead := List.head?_dropWhile_not (· != '\x7d') cs
          simpa only [hdrop, List.head?_cons, bne_eq_false_iff_eq] using hhead
        refine ⟨fun text htext hmem => ?_, ?_⟩
        · cases htext
          rw [String.toList_ofList] at hmem
          simpa using List.mem_takeWhile_imp hmem
        · rw [closing, String.toList_ofList, List.cons_append, List.cons_append, List.append_assoc,
            List.singleton_append]
          rw [hc] at hdrop
          rw [← hdrop, List.takeWhile_append_dropWhile]
      next => cases h
    next => cases h
  · rintro ⟨hfallback, rfl⟩
    cases fallback with
    | none => rfl
    | some fallback =>
      have hall : ∀ c ∈ fallback.toList, (c != '\x7d') = true := by
        intro c hc
        refine bne_iff_ne.2 ?_
        rintro rfl
        exact hfallback fallback rfl hc
      simp only [closing, List.cons_append, List.append_assoc, closing?]
      rw [List.takeWhile_append_of_pos hall, List.dropWhile_append_of_pos hall]
      simp

theorem closing_head (fallback : Option String) (rest : List Char) :
    ∃ c cs, closing fallback ++ rest = c :: cs ∧ isNameChar c = false := by
  cases fallback with
  | none => exact ⟨_, _, rfl, rfl⟩
  | some fallback => exact ⟨_, _, rfl, rfl⟩

/-- The reference that a text starts with is read off it, and nothing else is. -/
theorem reference?_eq_some_iff {cs rest : List Char} {r : Reference} :
    reference? cs = some (r, rest) ↔ r.WellFormed ∧ cs = r.source ++ rest := by
  constructor
  · intro h
    unfold reference? at h
    split at h
    next c cs =>
      split at h
      next hstart =>
        split at h
        next fallback after hclosing =>
          cases h
          obtain ⟨hfallback, hdrop⟩ := closing?_eq_some_iff.1 hclosing
          refine ⟨⟨⟨c, cs.takeWhile isNameChar, String.toList_ofList, ?_, fun d hd => ?_⟩,
            hfallback⟩, ?_⟩
          · simpa [isNameStart] using hstart
          · simpa [isNameChar] using List.mem_takeWhile_imp hd
          · rw [Reference.source, String.toList_ofList, List.cons_append, List.cons_append,
              List.append_assoc, ← hdrop, List.cons_append, List.takeWhile_append_dropWhile]
        next => cases h
      next => cases h
    next => cases h
  · rintro ⟨⟨⟨c, cs, hname, hstart, hall⟩, hfallback⟩, rfl⟩
    obtain ⟨d, after, hafter, hd⟩ := closing_head r.fallback rest
    replace hall : ∀ d ∈ cs, isNameChar d = true := by simpa [isNameChar] using hall
    have htake : (cs ++ (closing r.fallback ++ rest)).takeWhile isNameChar = cs := by
      rw [List.takeWhile_append_of_pos hall, hafter, List.takeWhile_cons_of_neg (by simp [hd]),
        List.append_nil]
    have hdrop : (cs ++ (closing r.fallback ++ rest)).dropWhile isNameChar =
        closing r.fallback ++ rest := by
      rw [List.dropWhile_append_of_pos hall, hafter, List.dropWhile_cons_of_neg (by simp [hd])]
    have hclosing : closing? (closing r.fallback ++ rest) = some (r.fallback, rest) :=
      closing?_eq_some_iff.2 ⟨hfallback, rfl⟩
    have hstart' : isNameStart c = true := by simpa [isNameStart] using hstart
    rw [Reference.source, hname, List.cons_append, List.cons_append, List.cons_append,
      List.cons_append, List.append_assoc, reference?, if_pos hstart', htake, hdrop, hclosing,
      ← hname]
    simp

/-- How a text falls into references, each taken where it starts first, and the characters between
them. -/
inductive Splits : List Char → List Piece → Prop where
  | nil : Splits [] []
  | reference {r : Reference} {rest : List Char} {ps : List Piece} (wellFormed : r.WellFormed)
      (splits : Splits rest ps) : Splits (r.source ++ rest) (.reference r :: ps)
  | text {c : Char} {cs : List Char} {ps : List Piece}
      (noReference : ∀ (r : Reference) (rest : List Char), r.WellFormed →
        c :: cs ≠ r.source ++ rest)
      (splits : Splits cs ps) : Splits (c :: cs) (.text c :: ps)

theorem pieces_of_reference {cs rest : List Char} {r : Reference}
    (h : reference? cs = some (r, rest)) : pieces cs = .reference r :: pieces rest := by
  cases cs with
  | nil => cases h
  | cons c cs =>
    rw [pieces]
    split
    next heq =>
      rw [h] at heq
      cases heq
      rfl
    next heq =>
      rw [h] at heq
      cases heq

theorem pieces_of_none {c : Char} {cs : List Char} (h : reference? (c :: cs) = none) :
    pieces (c :: cs) = .text c :: pieces cs := by
  rw [pieces]
  split
  next heq =>
    rw [h] at heq
    cases heq
  next => rfl

theorem reference?_eq_none_iff {cs : List Char} :
    reference? cs = none ↔
      ∀ (r : Reference) (rest : List Char), r.WellFormed → cs ≠ r.source ++ rest := by
  rw [Option.eq_none_iff_forall_ne_some, Prod.forall]
  simp only [ne_eq, reference?_eq_some_iff, not_and]

theorem splits_pieces (cs : List Char) : Splits cs (pieces cs) := by
  induction cs using pieces.induct with
  | case1 =>
    rw [pieces]
    exact .nil
  | case2 c cs r rest h ih =>
    obtain ⟨hwell, hsource⟩ := reference?_eq_some_iff.1 h
    rw [pieces_of_reference h, hsource]
    exact .reference hwell ih
  | case3 c cs h ih =>
    rw [pieces_of_none h]
    exact .text (reference?_eq_none_iff.1 h) ih

theorem Splits.eq_pieces {cs : List Char} {ps : List Piece} (h : Splits cs ps) :
    ps = pieces cs := by
  induction h with
  | nil => rw [pieces]
  | reference hwell _ ih =>
    rw [pieces_of_reference (reference?_eq_some_iff.2 ⟨hwell, rfl⟩), ← ih]
  | text hnone _ ih => rw [pieces_of_none (reference?_eq_none_iff.2 hnone), ← ih]

def missing (env : Table String) (ps : List Piece) : List String :=
  ps.filterMap fun
    | .reference r => if r.fallback = none ∧ env.get? r.name = none then some r.name else none
    | .text _ => none

theorem mem_missing {env : Table String} {ps : List Piece} {name : String} :
    name ∈ missing env ps ↔ ∃ r : Reference, Piece.reference r ∈ ps ∧ r.fallback = none ∧
      env.get? r.name = none ∧ r.name = name := by
  rw [missing, List.mem_filterMap]
  constructor
  · rintro ⟨piece, hmem, hname⟩
    cases piece with
    | text => cases hname
    | reference r =>
      obtain ⟨⟨hfallback, hunset⟩, heq⟩ := Option.ite_none_right_eq_some.1 hname
      exact ⟨r, hmem, hfallback, hunset, Option.some.inj heq⟩
  · rintro ⟨r, hmem, hfallback, hunset, rfl⟩
    exact ⟨.reference r, hmem, if_pos ⟨hfallback, hunset⟩⟩

theorem missing_ne_nil_iff {env : Table String} {ps : List Piece} :
    missing env ps ≠ [] ↔ ∃ r : Reference, Piece.reference r ∈ ps ∧ r.fallback = none ∧
      env.get? r.name = none := by
  constructor
  · intro h
    obtain ⟨name, hname⟩ := List.exists_mem_of_ne_nil _ h
    obtain ⟨r, hmem, hfallback, hunset, -⟩ := mem_missing.1 hname
    exact ⟨r, hmem, hfallback, hunset⟩
  · rintro ⟨r, hmem, hfallback, hunset⟩
    exact List.ne_nil_of_mem (mem_missing.2 ⟨r, hmem, hfallback, hunset, rfl⟩)

/-- The names among the occurrences, each once, in the order in which they occur first. -/
structure FirstOccurrences (occurrences names : List String) : Prop where
  nodup : names.Nodup
  mem : ∀ name, name ∈ names ↔ name ∈ occurrences
  order : names.Pairwise fun a b => occurrences.idxOf a < occurrences.idxOf b

namespace FirstOccurrences

variable {occurrences names : List String} {name : String}

theorem nil : FirstOccurrences [] [] :=
  ⟨.nil, fun _ => Iff.rfl, .nil⟩

theorem order_append (h : FirstOccurrences occurrences names) (later : List String) :
    names.Pairwise fun a b =>
      (occurrences ++ later).idxOf a < (occurrences ++ later).idxOf b := by
  refine h.order.imp_of_mem fun {a b} ha hb hlt => ?_
  rwa [List.idxOf_append_of_mem ((h.mem a).1 ha), List.idxOf_append_of_mem ((h.mem b).1 hb)]

theorem again (h : FirstOccurrences occurrences names) (hname : name ∈ occurrences) :
    FirstOccurrences (occurrences ++ [name]) names where
  nodup := h.nodup
  mem other := by
    rw [h.mem, List.mem_append, List.mem_singleton]
    refine ⟨.inl, fun hother => hother.elim id ?_⟩
    rintro rfl
    exact hname
  order := h.order_append [name]

theorem first (h : FirstOccurrences occurrences names) (hname : name ∉ occurrences) :
    FirstOccurrences (occurrences ++ [name]) (names ++ [name]) where
  nodup := by
    refine List.nodup_append.2 ⟨h.nodup, List.nodup_singleton name, fun a ha b hb => ?_⟩
    rintro rfl
    rw [List.mem_singleton] at hb
    exact hname (hb ▸ (h.mem a).1 ha)
  mem other := by rw [List.mem_append, List.mem_append, h.mem]
  order := by
    refine List.pairwise_append.2 ⟨h.order_append [name], List.pairwise_singleton _ name,
      fun a ha b hb => ?_⟩
    have hmem : a ∈ occurrences := (h.mem a).1 ha
    rw [List.mem_singleton.1 hb, List.idxOf_append_of_mem hmem,
      List.idxOf_append_of_notMem hname]
    exact Nat.lt_add_right _ (List.idxOf_lt_length_iff.2 hmem)

end FirstOccurrences

/-- The list of the unset variables grows by a name where that name is first missing. -/
theorem firstOccurrences_unset (env : Table String) (ps : List Piece) :
    FirstOccurrences (missing env ps) (unset env ps) := by
  induction ps using List.reverseRecOn with
  | nil => exact .nil
  | append_singleton ps piece ih =>
    rw [unset, List.foldl_append, List.foldl_cons, List.foldl_nil, ← unset, missing,
      List.filterMap_append, ← missing]
    cases piece with
    | text c =>
      change FirstOccurrences (missing env ps ++ []) (unset env ps)
      rwa [List.append_nil]
    | reference r =>
      by_cases hmissing : r.fallback = none ∧ env.get? r.name = none
      · have hvalue : ((Piece.reference r).value? env).isSome = false := by
          simp [Piece.value?, hmissing]
        simp only [List.filterMap_cons, if_pos hmissing, List.filterMap_nil, hvalue,
          Bool.false_or, List.contains_iff_mem, ih.mem]
        split
        next hmem => exact ih.again hmem
        next hmem => exact ih.first hmem
      · have hvalue : ((Piece.reference r).value? env).isSome = true := by
          simp only [Piece.value?, Option.isSome_map, Option.isSome_or, Bool.or_eq_true,
            Option.isSome_iff_ne_none]
          tauto
        simpa only [List.filterMap_cons, if_neg hmissing, List.filterMap_nil, List.append_nil,
          hvalue, Bool.true_or, if_true] using ih

/-- The text that a piece is replaced by: a variable that is set by its value, even an empty one,
and one that is not by the fallback. -/
inductive Replaced (env : Table String) : Piece → List Char → Prop where
  | text (c : Char) : Replaced env (.text c) [c]
  | value {r : Reference} {value : String} (set : env.get? r.name = some value) :
      Replaced env (.reference r) value.toList
  | fallback {r : Reference} {text : String} (unset : env.get? r.name = none)
      (fallback : r.fallback = some text) : Replaced env (.reference r) text.toList

theorem replaced_value? {env : Table String} {piece : Piece}
    (h : ∀ r : Reference, piece = .reference r → r.fallback = none → env.get? r.name ≠ none) :
    Replaced env piece ((piece.value? env).getD []) := by
  cases piece with
  | text c => exact .text c
  | reference r =>
    cases hset : env.get? r.name with
    | some value =>
      rw [Piece.value?, hset]
      exact .value hset
    | none =>
      cases hfallback : r.fallback with
      | some text =>
        rw [Piece.value?, hset, hfallback]
        exact .fallback hset hfallback
      | none => exact absurd hset (h r rfl hfallback)

theorem forall₂_replaced {env : Table String} {ps : List Piece} (h : missing env ps = []) :
    List.Forall₂ (Replaced env) ps (ps.map fun piece => (piece.value? env).getD []) := by
  rw [List.forall₂_map_right_iff, List.forall₂_same]
  intro piece hmem
  refine replaced_value? fun r hr hfallback hunset => ?_
  subst hr
  exact missing_ne_nil_iff.2 ⟨r, hmem, hfallback, hunset⟩ h

theorem expand_eq (env : Table String) (text : String) :
    expand env text =
      if missing env (pieces text.toList) = [] then
        .ok (String.ofList ((pieces text.toList).map fun piece =>
          (piece.value? env).getD []).flatten)
      else .error (unset env (pieces text.toList)) := by
  have hmem := (firstOccurrences_unset env (pieces text.toList)).mem
  rw [expand]
  split
  next hunset =>
    rw [hunset] at hmem
    rw [if_pos (List.eq_nil_iff_forall_not_mem.2 fun name => mt (hmem name).2 List.not_mem_nil),
      List.flatMap_def]
  next hunset =>
    rw [if_neg]
    intro hmissing
    rw [hmissing] at hmem
    exact hunset (List.eq_nil_iff_forall_not_mem.2 fun name => mt (hmem name).1 List.not_mem_nil)

/-- A text has one splitting into references and characters. Its expansion fails exactly when a
reference without a fallback names a variable that is not set; then the problem names the place of
the text and these variables, each once and in the order in which they are first met. Otherwise the
pieces are replaced one for one, so that what has been put in is not looked at again. -/
theorem expand_single_pass (env : Table String) (text : String) :
    ∃ ps, Splits text.toList ps ∧ (∀ qs, Splits text.toList qs → qs = ps) ∧
      ((∃ names, expand env text = .error names) ↔
        ∃ r : Reference, Piece.reference r ∈ ps ∧ r.fallback = none ∧ env.get? r.name = none) ∧
      (∀ names, expand env text = .error names → FirstOccurrences (missing env ps) names ∧
        ∀ place, WorkflowSpec.ofToml place env text = .error (.config
          (place ++ ": unset environment variable(s): " ++ Text.commaSeparated names))) ∧
      ∀ result, expand env text = .ok result →
        ∃ parts, List.Forall₂ (Replaced env) ps parts ∧ result = String.ofList parts.flatten := by
  refine ⟨pieces text.toList, splits_pieces _, fun _ => Splits.eq_pieces, ?_, ?_, ?_⟩
  · rw [← missing_ne_nil_iff, expand_eq]
    split
    next h => simp only [h, reduceCtorEq, exists_false, ne_eq, not_true_eq_false]
    next h => simp only [h, Except.error.injEq, exists_eq', ne_eq, not_false_eq_true]
  · intro names h
    refine ⟨?_, fun place => by rw [WorkflowSpec.ofToml, h]⟩
    rw [expand_eq] at h
    split at h
    next => cases h
    next =>
      cases h
      exact firstOccurrences_unset env _
  · intro result h
    rw [expand_eq] at h
    split at h
    next hmissing =>
      cases h
      exact ⟨_, forall₂_replaced hmissing, rfl⟩
    next => cases h

/-- A value that looks like a reference stays as it is, an empty value counts, and of two unset
variables the one that is met first is named first. -/
theorem expand_single_pass_nested :
    (∃ ps parts, Splits "$$\x7bA\x7d$\x7bB:-x\x7d$\x7b1\x7d".toList ps ∧
      List.Forall₂ (Replaced [("A", "$\x7bB\x7d"), ("B", "")]) ps parts ∧
      String.ofList parts.flatten = "$$\x7bB\x7d$\x7b1\x7d") ∧
    ∃ ps, Splits "$\x7bB\x7d$\x7bA\x7d$\x7bA:-$\x7bB\x7d\x7d".toList ps ∧
      FirstOccurrences (missing [] ps) ["B", "A"] ∧
      WorkflowSpec.ofToml "flow.toml" [] "$\x7bB\x7d$\x7bA\x7d$\x7bA:-$\x7bB\x7d\x7d" =
        .error (.config "flow.toml: unset environment variable(s): B, A") := by
  constructor
  · obtain ⟨ps, hsplits, -, -, -, hok⟩ := expand_single_pass [("A", "$\x7bB\x7d"), ("B", "")]
      "$$\x7bA\x7d$\x7bB:-x\x7d$\x7b1\x7d"
    obtain ⟨parts, hparts, hresult⟩ := hok "$$\x7bB\x7d$\x7b1\x7d" (by decide +kernel)
    exact ⟨ps, parts, hsplits, hparts, hresult.symm⟩
  · obtain ⟨ps, hsplits, -, -, herror, -⟩ := expand_single_pass []
      "$\x7bB\x7d$\x7bA\x7d$\x7bA:-$\x7bB\x7d\x7d"
    obtain ⟨hfirst, hplace⟩ := herror ["B", "A"] (by decide +kernel)
    exact ⟨ps, hsplits, hfirst, hplace "flow.toml"⟩

end Workflow.Environment
