import Mathlib.Data.Set.Subsingleton
import Workflow.Condition.Parser
import Workflow.Proofs.Text.Trim

/-!
# The grammar of conditions

A condition that does not always hold is written down as a key, a key that is negated, or a key, a
comparison sign and a literal. `Clause` is such a condition in parts. The text of a clause is taken
apart into the same parts again if its key names one, since no character of such a key opens a
quotation or begins a sign. So the literal may be any text, with signs and quotation marks in it.
-/

namespace Workflow

namespace Condition

structure IsKey (key : String) : Prop where
  ne_empty : key ≠ ""
  chars : ∀ c ∈ key.toList, isKeyChar c = true

def keyText (key : String) : List Char :=
  "data.".toList ++ key.toList

/-- A text names a key when the key is all that stands between blanks, with one scope in front of
it or, unless it begins like one, without. -/
structure Names (cs : List Char) (key : String) : Prop where
  isKey : IsKey key
  text : Text.trim cs = keyText key ∨
    Text.trim cs = key.toList ∧ ¬"data.".toList <+: key.toList

theorem dropScope_eq_iff {cs key : List Char} :
    dropScope cs = key ↔
      cs = "data.".toList ++ key ∨ cs = key ∧ ¬"data.".toList <+: key := by
  by_cases h : "data.".toList <+: cs
  · obtain ⟨rest, rfl⟩ := h
    have hdrop : dropScope ("data.".toList ++ rest) = rest := by
      rw [dropScope, if_pos (List.isPrefixOf_iff_prefix.2 (List.prefix_append _ _))]
      rfl
    rw [hdrop, List.append_cancel_left_eq]
    refine ⟨.inl, fun hkey => hkey.resolve_right ?_⟩
    rintro ⟨rfl, hnot⟩
    exact hnot (List.prefix_append _ _)
  · have hdrop : dropScope cs = cs := by
      rw [dropScope, if_neg (mt List.isPrefixOf_iff_prefix.1 h)]
    rw [hdrop]
    constructor
    · rintro rfl
      exact .inr ⟨rfl, h⟩
    · rintro (rfl | ⟨rfl, -⟩)
      · exact absurd (List.prefix_append _ _) h
      · rfl

theorem key?OfText_eq_some {cs : List Char} {key : String} :
    key?OfText cs = some key ↔ Names cs key := by
  have hscope : Names cs key ↔ IsKey key ∧ dropScope (Text.trim cs) = key.toList := by
    rw [dropScope_eq_iff]
    exact ⟨fun h => ⟨h.isKey, h.text⟩, fun h => ⟨h.1, h.2⟩⟩
  rw [hscope, key?OfText]
  constructor
  · intro h
    split at h
    next hkey =>
      cases h
      rw [Bool.and_eq_true, Bool.not_eq_true', List.isEmpty_eq_false_iff, List.all_eq_true] at hkey
      rw [String.toList_ofList]
      refine ⟨⟨fun hempty => hkey.1 ?_, ?_⟩, rfl⟩
      · rw [← String.toList_ofList (l := dropScope (Text.trim cs)), hempty]
        rfl
      · rw [String.toList_ofList]
        exact hkey.2
    · cases h
  · rintro ⟨hkey, htext⟩
    have hsome : key.toList.isEmpty = false := by
      rw [List.isEmpty_eq_false_iff]
      exact mt String.toList_eq_nil_iff.1 hkey.ne_empty
    rw [htext, hsome, List.all_eq_true.2 hkey.chars, Bool.not_false, Bool.true_and,
      if_pos rfl, String.ofList_toList]

theorem IsKey.keyText_chars {key : String} (h : IsKey key) :
    ∀ c ∈ keyText key, isKeyChar c = true := by
  intro c hc
  rcases List.mem_append.1 hc with hc | hc
  · have hdata : "data.".toList.all isKeyChar = true := by decide +kernel
    exact List.all_eq_true.1 hdata c hc
  · exact h.chars c hc

theorem isBlank_of_isKeyChar {c : Char} (h : isKeyChar c = true) : Text.isBlank c = false := by
  simp only [isKeyChar, Bool.or_eq_true, beq_iff_eq] at h
  rcases h with ((h | rfl) | rfl) | rfl
  · exact Text.isBlank_of_isAlphanumeric h
  all_goals decide

theorem trim_keyText {key : String} (h : IsKey key) : Text.trim (keyText key) = keyText key :=
  Text.trim_of_forall fun c hc => isBlank_of_isKeyChar (h.keyText_chars c hc)

def isPlain (c : Char) : Bool :=
  c != '"' && c != '\'' && c != '=' && c != '!'

theorem isPlain_of_any {p : Char → Bool} (hp : ['"', '\'', '=', '!'].any p = false)
    {c : Char} (h : p c = true) : isPlain c = true := by
  have hne : ∀ d ∈ ['"', '\'', '=', '!'], (c != d) = true := by
    intro d hd
    refine bne_iff_ne.2 ?_
    rintro rfl
    exact List.any_eq_false.1 hp c hd h
  simp only [List.forall_mem_cons] at hne
  obtain ⟨hquote, hmark, hequal, hbang, -⟩ := hne
  simp only [isPlain, hquote, hmark, hequal, hbang, Bool.and_self]

theorem isPlain_of_isKeyChar {c : Char} (h : isKeyChar c = true) : isPlain c = true :=
  isPlain_of_any (by decide +kernel) h

theorem isPlain_of_isBlank {c : Char} (h : Text.isBlank c = true) : isPlain c = true :=
  isPlain_of_any (by decide) h

namespace Names

variable {cs : List Char} {key : String}

theorem of_trim (hkey : IsKey key) (h : Text.trim cs = keyText key) : Names cs key :=
  ⟨hkey, .inl h⟩

theorem trim_chars (h : Names cs key) : ∀ c ∈ Text.trim cs, isKeyChar c = true := by
  rcases h.text with htext | ⟨htext, -⟩
  · rw [htext]
    exact h.isKey.keyText_chars
  · rw [htext]
    exact h.isKey.chars

theorem isPlain (h : Names cs key) : ∀ c ∈ cs, isPlain c = true := by
  intro c hc
  rcases Text.isBlank_or_mem_trim hc with hblank | hmem
  · exact isPlain_of_isBlank hblank
  · exact isPlain_of_isKeyChar (h.trim_chars c hmem)

end Names

def Comparison.sign : Comparison → List Char
  | .equal => ['=', '=']
  | .unequal => ['!', '=']

def Comparison.condition : Comparison → String → Json → Condition
  | .equal => equals
  | .unequal => differs

/-- A character is passed over that opens no quotation and begins no sign. -/
theorem splitFrom?_cons {c : Char} {cs : List Char} (hquote : c ≠ '"') (hmark : c ≠ '\'')
    (hsign : c = '=' ∨ c = '!' → ∀ rest, cs ≠ '=' :: rest) (before : List Char) :
    splitFrom? none before (c :: cs) = splitFrom? none (c :: before) cs := by
  rw [splitFrom?, if_neg (by simp [hquote, hmark])]
  · exact fun rest hc => hsign (.inl hc) rest
  · exact fun rest hc => hsign (.inr hc) rest

theorem splitFrom?_plain {cs : List Char} (h : ∀ c ∈ cs, isPlain c = true)
    (before rest : List Char) :
    splitFrom? none before (cs ++ rest) = splitFrom? none (cs.reverse ++ before) rest := by
  induction cs generalizing before with
  | nil => rfl
  | cons c cs ih =>
    have hc := h c List.mem_cons_self
    simp only [isPlain, Bool.and_eq_true, bne_iff_ne] at hc
    obtain ⟨⟨⟨hquote, hmark⟩, hequal⟩, hbang⟩ := hc
    rw [List.cons_append, splitFrom?_cons hquote hmark fun hc => absurd hc (not_or.2 ⟨hequal, hbang⟩),
      ih (fun d hd => h d (List.mem_cons_of_mem _ hd)), List.reverse_cons, List.append_assoc,
      List.singleton_append]

theorem splitComparison?_sign {before : List Char} (h : ∀ c ∈ before, isPlain c = true)
    (sign : Comparison) (after : List Char) :
    splitComparison? (before ++ (sign.sign ++ after)) = some (before, sign, after) := by
  have hsign : splitFrom? none before.reverse (sign.sign ++ after) =
      some (before.reverse.reverse, sign, after) := by
    cases sign with
    | equal | unequal => rfl
  rw [splitComparison?, splitFrom?_plain h, List.append_nil, hsign, List.reverse_reverse]

theorem splitComparison?_plain {cs : List Char} (h : ∀ c ∈ cs, isPlain c = true) :
    splitComparison? cs = none := by
  have hsplit := splitFrom?_plain h [] []
  rw [List.append_nil] at hsplit
  exact hsplit

theorem splitComparison?_bang {cs : List Char} (h : ∀ c ∈ cs, isPlain c = true) :
    splitComparison? ('!' :: cs) = none := by
  have hsign : ∀ rest, cs ≠ '=' :: rest := by
    rintro rest rfl
    have hequal := h '=' List.mem_cons_self
    cases hequal
  have hsplit := splitFrom?_plain h ['!'] []
  rw [List.append_nil] at hsplit
  exact (splitFrom?_cons (by decide) (by decide) (fun _ => hsign) []).trans hsplit

/-- Nothing of a text is lost when it is split. -/
theorem append_of_splitFrom? {quote : Option Char} {before cs key value : List Char}
    {sign : Comparison} (h : splitFrom? quote before cs = some (key, sign, value)) :
    key ++ (sign.sign ++ value) = before.reverse ++ cs := by
  induction cs generalizing quote before with
  | nil => cases h
  | cons c cs ih =>
    have hpass : ∀ quote, splitFrom? quote (c :: before) cs = some (key, sign, value) →
        key ++ (sign.sign ++ value) = before.reverse ++ c :: cs := by
      intro quote h
      rw [ih h, List.reverse_cons, List.append_assoc, List.singleton_append]
    unfold splitFrom? at h
    split at h
    · exact hpass _ h
    · split at h
      · exact hpass _ h
      · split at h
        · cases h
          rfl
        · cases h
          rfl
        · exact hpass _ h

inductive Clause where
  | holds (key : List Char)
  | fails (key : List Char)
  | compares (key : List Char) (sign : Comparison) (value : List Char)

namespace Clause

def text : Clause → List Char
  | holds key => key
  | fails key => '!' :: key
  | compares key sign value => key ++ (sign.sign ++ value)

def key : Clause → List Char
  | holds key | fails key | compares key _ _ => key

def condition (name : String) : Clause → Condition
  | holds _ => .holds name
  | fails _ => .fails name
  | compares _ sign value => sign.condition name (literal value)

def ofText (cs : List Char) : Clause :=
  match splitComparison? cs with
  | some (key, sign, value) => compares key sign value
  | none =>
    match cs with
    | '!' :: key => fails key
    | _ => holds cs

theorem ofText_holds {cs : List Char} (hsplit : splitComparison? cs = none)
    (hbang : ∀ key, cs ≠ '!' :: key) : ofText cs = holds cs := by
  unfold ofText
  rw [hsplit]
  dsimp only
  split
  next key => exact absurd rfl (hbang key)
  next => rfl

theorem ofText_fails {key : List Char} (hsplit : splitComparison? ('!' :: key) = none) :
    ofText ('!' :: key) = fails key := by
  rw [ofText, hsplit]

theorem ofText_compares {cs key value : List Char} {sign : Comparison}
    (hsplit : splitComparison? cs = some (key, sign, value)) :
    ofText cs = compares key sign value := by
  unfold ofText
  rw [hsplit]

theorem text_ofText (cs : List Char) : (ofText cs).text = cs := by
  unfold ofText
  split
  next hsplit => exact append_of_splitFrom? hsplit
  · split
    · rfl
    · rfl

/-- A text is taken apart into the clause that it was put together from. -/
theorem ofText_text {clause : Clause} {name : String} (h : Names clause.key name) :
    ofText clause.text = clause := by
  have hplain : ∀ c ∈ clause.key, isPlain c = true := h.isPlain
  cases clause with
  | holds key =>
    refine ofText_holds (splitComparison?_plain hplain) ?_
    rintro rest rfl
    have hbang := hplain '!' List.mem_cons_self
    cases hbang
  | fails key => exact ofText_fails (splitComparison?_bang hplain)
  | compares key sign value => exact ofText_compares (splitComparison?_sign hplain sign value)

end Clause

def IsAlways (cs : List Char) : Prop :=
  cs = [] ∨ Text.eqIgnoringCase cs "always".toList = true

instance (cs : List Char) : Decidable (IsAlways cs) :=
  inferInstanceAs (Decidable (_ ∨ _))

/-- The conditions that a text without outer blanks states. -/
inductive States (cs : List Char) : Condition → Prop
  | always (h : IsAlways cs) : States cs .always
  | clause (clause : Clause) {name : String} (hother : ¬IsAlways cs) (htext : clause.text = cs)
      (hkey : Names clause.key name) : States cs (clause.condition name)

/-- A text is read as the clause that it consists of. -/
theorem parse_eq (text : String) :
    parse text =
      if IsAlways (Text.trim text.toList) then .ok .always
      else
        (key?OfText (Clause.ofText (Text.trim text.toList)).key).elim
          (.error (.expression (String.ofList (Text.trim text.toList))))
          fun name => .ok ((Clause.ofText (Text.trim text.toList)).condition name) := by
  generalize hcs : Text.trim text.toList = cs
  have halways : (cs.isEmpty || Text.eqIgnoringCase cs "always".toList) = decide (IsAlways cs) := by
    rw [Bool.eq_iff_iff, Bool.or_eq_true, List.isEmpty_iff, decide_eq_true_eq, IsAlways]
  unfold parse
  dsimp only
  rw [hcs, halways]
  by_cases h : IsAlways cs
  · rw [if_pos h, if_pos (decide_eq_true h)]
  · rw [if_neg h, decide_eq_false h, if_neg Bool.false_ne_true]
    cases hsplit : splitComparison? cs with
    | none =>
      dsimp only
      split
      next key =>
        rw [Clause.ofText_fails hsplit, Clause.key]
        cases key?OfText key with
        | none | some name => rfl
      next hbang =>
        rw [Clause.ofText_holds hsplit hbang, Clause.key]
        cases key?OfText cs with
        | none | some name => rfl
    | some parts =>
      obtain ⟨key, sign, value⟩ := parts
      rw [Clause.ofText_compares hsplit, Clause.key]
      cases sign with
      | equal | unequal =>
        dsimp only
        cases key?OfText key with
        | none | some name => rfl

theorem parse_eq_ok {text : String} {c : Condition} :
    parse text = .ok c ↔ States (Text.trim text.toList) c := by
  rw [parse_eq]
  generalize Text.trim text.toList = cs
  constructor
  · intro h
    split at h
    next halways =>
      cases h
      exact .always halways
    next hother =>
      cases hkey : key?OfText (Clause.ofText cs).key with
      | none =>
        rw [hkey] at h
        cases h
      | some name =>
        rw [hkey] at h
        cases h
        exact .clause _ hother (Clause.text_ofText cs) (key?OfText_eq_some.1 hkey)
  · rintro (halways | ⟨clause, hother, rfl, hkey⟩)
    · rw [if_pos halways]
    · rw [if_neg hother, Clause.ofText_text hkey, key?OfText_eq_some.2 hkey, Option.elim_some]

theorem not_isAlways_of_mem {cs : List Char} (h : '=' ∈ cs) : ¬IsAlways cs := by
  rintro (rfl | halways)
  · cases h
  · rw [Text.eqIgnoringCase, beq_iff_eq] at halways
    have hmem := List.mem_map_of_mem (f := Char.toLower) h
    rw [halways] at hmem
    exact absurd hmem (by decide)

theorem Comparison.equal_mem_sign (sign : Comparison) : '=' ∈ sign.sign := by
  cases sign with
  | equal | unequal => decide

/-- A comparison may be written with any names of the key and with blanks anywhere between its
parts. -/
theorem parse_of_names (sign : Comparison) {text key : String} {before after : List Char}
    (hkey : Names before key) (h : Text.trim text.toList = before ++ (sign.sign ++ after)) :
    parse text = .ok (sign.condition key (literal after)) := by
  have hmem : '=' ∈ before ++ (sign.sign ++ after) :=
    List.mem_append_right _ (List.mem_append_left _ sign.equal_mem_sign)
  rw [parse_eq_ok, h]
  exact .clause (.compares before sign after) (not_isAlways_of_mem hmem) rfl hkey

theorem fault_of_parse {text : String} {fault : Fault} (h : parse text = .error fault) :
    fault = .expression (String.ofList (Text.trim text.toList)) := by
  rw [parse_eq] at h
  split at h
  · cases h
  · cases hkey : key?OfText (Clause.ofText (Text.trim text.toList)).key with
    | none =>
      rw [hkey] at h
      cases h
      rfl
    | some name =>
      rw [hkey] at h
      cases h

def clauses (cs : List Char) : Set Clause :=
  {clause | clause.text = cs ∧ ∃ name, Names clause.key name}

theorem subsingleton_clauses (cs : List Char) : (clauses cs).Subsingleton := by
  rintro a ⟨rfl, name, ha⟩ b ⟨htext, name', hb⟩
  rw [← Clause.ofText_text ha, ← htext, Clause.ofText_text hb]

/-- Reading accepts the texts of the grammar and no others, and a text can be taken apart in no more
than one way. -/
theorem parse_exact (text : String) :
    (∀ c, parse text = .ok c ↔ States (Text.trim text.toList) c) ∧
      (∀ fault, parse text = .error fault ↔
        fault = .expression (String.ofList (Text.trim text.toList)) ∧
          ¬∃ c, States (Text.trim text.toList) c) ∧
      (clauses (Text.trim text.toList)).Subsingleton := by
  refine ⟨fun c => parse_eq_ok, fun fault => ⟨fun h => ⟨fault_of_parse h, ?_⟩, ?_⟩,
    subsingleton_clauses _⟩
  · rintro ⟨c, hc⟩
    rw [parse_eq_ok.2 hc] at h
    cases h
  · rintro ⟨rfl, hnone⟩
    cases h : parse text with
    | ok c => exact absurd ⟨c, parse_eq_ok.1 h⟩ hnone
    | error fault => rw [fault_of_parse h]

/-- A sign between quotation marks belongs to the literal, and without a key there is no clause. -/
example : parse "k!='x==y" = .ok (.differs "k" (.string "'x==y")) ∧
    parse " == \"x\" " = .error (.expression "== \"x\"") :=
  ⟨rfl, rfl⟩

end Condition

end Workflow
