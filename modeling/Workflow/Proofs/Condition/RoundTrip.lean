import Workflow.Proofs.Condition.Grammar
import Workflow.Proofs.Decimal.Text

/-!
# Conditions that are displayed and read again

A condition that has been read from a text has a key and a literal of certain forms, and what is
displayed for it can be read again: as the same comparison with the same key, and with the same
literal, unless that is a text with characters that are escaped when it is displayed. Reading does
not undo that.
-/

namespace Workflow

namespace Json

def IsEscaped (c : Char) : Prop :=
  c = '"' ∨ c = '\\' ∨ c.toNat < 32

theorem escape_of_not_isEscaped {c : Char} (h : ¬IsEscaped c) : escape c = [c] := by
  obtain ⟨hquote, hslash, hcontrol⟩ : c ≠ '"' ∧ c ≠ '\\' ∧ ¬c.toNat < 32 := by
    simpa only [IsEscaped, not_or] using h
  have hne : ∀ d : Char, d.toNat < 32 → c ≠ d := fun d hd hcd => hcontrol (hcd ▸ hd)
  rw [escape, if_neg hquote, if_neg hslash, if_neg (hne '\n' (by decide)),
    if_neg (hne '\r' (by decide)), if_neg (hne '\t' (by decide)), if_neg (by omega),
    if_neg (by omega), if_neg hcontrol]

theorem one_lt_length_escape {c : Char} (h : IsEscaped c) : 1 < (escape c).length := by
  unfold escape
  split
  · decide
  · split
    · decide
    next hquote hslash =>
      have hcontrol := (h.resolve_left hquote).resolve_left hslash
      rw [if_pos hcontrol]
      repeat' split
      all_goals simp

theorem length_le_length_flatMap_escape (cs : List Char) :
    cs.length ≤ (cs.flatMap escape).length := by
  induction cs with
  | nil => exact Nat.le_refl _
  | cons c cs ih =>
    have hc : 1 ≤ (escape c).length := by
      by_cases h : IsEscaped c
      · exact Nat.le_of_lt (one_lt_length_escape h)
      · rw [escape_of_not_isEscaped h]
        exact Nat.le_refl 1
    rw [List.flatMap_cons, List.length_append, List.length_cons]
    omega

/-- A text stays as it is inside quotation marks exactly when none of its characters is escaped. -/
theorem flatMap_escape_eq_self {cs : List Char} :
    cs.flatMap escape = cs ↔ ∀ c ∈ cs, ¬IsEscaped c := by
  induction cs with
  | nil => exact iff_of_true rfl (List.forall_mem_nil _)
  | cons c cs ih =>
    rw [List.flatMap_cons, List.forall_mem_cons]
    by_cases h : IsEscaped c
    · refine iff_of_false (fun heq => ?_) fun hall => hall.1 h
      have hlength := congrArg List.length heq
      rw [List.length_append, List.length_cons] at hlength
      have hc := one_lt_length_escape h
      have hcs := length_le_length_flatMap_escape cs
      omega
    · rw [escape_of_not_isEscaped h, List.singleton_append, List.cons.injEq, and_iff_right rfl, ih,
        and_iff_right h]

end Json

namespace Condition

inductive IsLiteral : Json → Prop
  | null : IsLiteral .null
  | bool (b : Bool) : IsLiteral (.bool b)
  | int {n : Int} (hlow : -0x8000000000000000 ≤ n) (hhigh : n < 0x8000000000000000) :
      IsLiteral (.int n)
  | float {x : Float} (hfinite : x.isFinite = true) : IsLiteral (.float x)
  | string (s : String) : IsLiteral (.string s)

theorem isLiteral_literal (cs : List Char) : IsLiteral (literal cs) := by
  unfold literal
  dsimp only
  split
  · exact .string _
  · exact .string _
  · split
    · exact .bool true
    · exact .bool false
    · exact .null
    · split
      next n hint =>
        obtain ⟨hlow, hhigh⟩ := Decimal.readInt?_range hint
        exact .int hlow hhigh
      next hint =>
        split
        next x hfloat => exact .float (Option.filter_eq_some_iff.1 hfloat).2
        · exact .string _

theorem unquote?_quoted (mark : Char) (body : List Char) :
    unquote? mark (mark :: (body ++ [mark])) = some (String.ofList body) := by
  have hlast : (mark :: (body ++ [mark])).getLast? = some mark := by
    rw [← List.cons_append, List.getLast?_concat]
  rw [unquote?, hlast, if_pos, List.drop_one, List.tail_cons, List.dropLast_concat]
  simp

theorem toList_quote (s : String) :
    (Json.quote s).toList = '"' :: (s.toList.flatMap Json.escape ++ ['"']) := by
  simp only [Json.quote, String.toList_append, String.toList_ofList]
  rfl

/-- What stands inside quotation marks is read as it stands. -/
theorem literal_quote (s : String) :
    literal (Json.quote s).toList = .string (String.ofList (s.toList.flatMap Json.escape)) := by
  have htext := toList_quote s
  have htrim : Text.trim (Json.quote s).toList = (Json.quote s).toList := by
    refine Text.trim_eq_self (fun c hc => ?_) fun c hc => ?_
    · rw [htext] at hc
      cases hc
      decide
    · rw [htext, ← List.cons_append, List.getLast?_concat] at hc
      cases hc
      decide
  unfold literal
  dsimp only
  rw [htrim, htext, unquote?_quoted]

theorem isBlank_of_isNumeric {c : Char} (h : Decimal.isNumeric c = true) :
    Text.isBlank c = false := by
  simp only [Decimal.isNumeric, Bool.or_eq_true, beq_iff_eq] at h
  rcases h with (((h | rfl) | rfl) | rfl) | rfl
  · refine Text.isBlank_of_isAlphanumeric (List.any_eq_true.2 ⟨(48, 57), List.mem_cons_self, ?_⟩)
    rw [Char.isDigit, Bool.and_eq_true, decide_eq_true_eq, decide_eq_true_eq] at h
    rw [Bool.and_eq_true, decide_eq_true_eq, decide_eq_true_eq]
    exact h
  all_goals decide

theorem unquote?_of_numeric {text : String} (h : Decimal.IsNumeric text) {mark : Char}
    (hmark : Decimal.isNumeric mark = false) : unquote? mark text.toList = none := by
  have hhead : (text.toList.head? == some mark) = false := by
    refine beq_eq_false_iff_ne.2 fun hhead => ?_
    rw [h mark (List.mem_of_head? hhead)] at hmark
    cases hmark
  rw [unquote?, hhead, Bool.and_false, Bool.false_and, if_neg Bool.false_ne_true]

/-- A text of digits and the like is read as a number if possible. -/
theorem literal_of_numeric {text : String} (h : Decimal.IsNumeric text) :
    literal text.toList =
      match Decimal.readInt? text.toList with
      | some n => .int n
      | none =>
        match (Decimal.readFloat? text.toList).filter Float.isFinite with
        | some x => .float x
        | none => .string text := by
  have htrim : Text.trim text.toList = text.toList :=
    Text.trim_of_forall fun c hc => isBlank_of_isNumeric (h c hc)
  unfold literal
  dsimp only
  rw [htrim, unquote?_of_numeric h (by decide), unquote?_of_numeric h (by decide),
    String.ofList_toList]
  dsimp only
  split
  -- none of the words that are read as values looks like a number
  · exact absurd h (by decide)
  · exact absurd h (by decide)
  · exact absurd h (by decide)
  · rfl

theorem render_float {x : Float} (h : x.isFinite = true) :
    (Json.float x).render = Json.floatLayout.writeFloat x := by
  rw [Json.render, Json.renderScalar, if_pos h] <;> exact nofun

theorem literal_cons_blank {c : Char} (h : Text.isBlank c = true) (cs : List Char) :
    literal (c :: cs) = literal cs := by
  rw [literal, Text.trim_cons_blank h]
  rfl

def reread : Json → Json
  | .string s => .string (String.ofList (s.toList.flatMap Json.escape))
  | value => value

theorem literal_render {value : Json} (h : IsLiteral value)
    (hfloat : ∀ x, value = .float x →
      Decimal.readFloat? (Json.floatLayout.writeFloat x).toList = some x) :
    literal value.render.toList = reread value := by
  cases h with
  | null => rfl
  | bool b => cases b <;> rfl
  | @int n hlow hhigh =>
    have htext : (Json.int n).render = toString n := rfl
    rw [htext, literal_of_numeric (Decimal.isNumeric_int n), Decimal.readInt?_toString hlow hhigh]
    rfl
  | @float x hfinite =>
    have hlook := Decimal.isFloatText_writeFloat Json.floatLayout x
    obtain ⟨c, hc, hmark⟩ := hlook.mark
    rw [render_float hfinite, literal_of_numeric hlook.numeric, Decimal.readInt?_eq_none hc hmark, hfloat x rfl,
      Option.filter_some, if_pos hfinite]
    rfl
  | string s => exact literal_quote s

/-- The text of a literal is there, and does not end in a blank. -/
theorem exists_last_render {value : Json} (h : IsLiteral value) :
    ∃ c, value.render.toList.getLast? = some c ∧ Text.isBlank c = false := by
  have hnumeric : ∀ {text : String}, Decimal.IsNumeric text → text.toList ≠ [] →
      ∃ c, text.toList.getLast? = some c ∧ Text.isBlank c = false := by
    intro text htext hne
    have hlast := List.getLast?_eq_some_getLast hne
    exact ⟨_, hlast, isBlank_of_isNumeric (htext _ (List.mem_of_getLast? hlast))⟩
  cases h with
  | null => exact ⟨'l', rfl, by decide⟩
  | bool b => cases b <;> exact ⟨'e', rfl, by decide⟩
  | @int n hlow hhigh =>
    refine hnumeric (Decimal.isNumeric_int n) fun hnil => ?_
    have hread := Decimal.readInt?_toString hlow hhigh
    have htext : (toString n).toList = [] := hnil
    rw [htext] at hread
    cases hread
  | @float x hfinite =>
    obtain ⟨hlook, c, hc, -⟩ := Decimal.isFloatText_writeFloat Json.floatLayout x
    rw [render_float hfinite]
    exact hnumeric hlook (List.ne_nil_of_mem hc)
  | string s =>
    refine ⟨'"', ?_, by decide⟩
    have htext : (Json.string s).render = Json.quote s := rfl
    rw [htext, toList_quote, ← List.cons_append, List.getLast?_concat]

inductive IsReadable : Condition → Prop
  | always : IsReadable always
  | equals {key : String} {value : Json} (hkey : IsKey key) (hvalue : IsLiteral value) :
      IsReadable (equals key value)
  | differs {key : String} {value : Json} (hkey : IsKey key) (hvalue : IsLiteral value) :
      IsReadable (differs key value)
  | holds {key : String} (hkey : IsKey key) : IsReadable (holds key)
  | fails {key : String} (hkey : IsKey key) : IsReadable (fails key)

theorem IsReadable.isLiteral {c : Condition} (h : IsReadable c) {value : Json}
    (hvalue : c.value? = some value) : IsLiteral value := by
  cases h with
  | equals _ hliteral | differs _ hliteral => exact Option.some.inj hvalue ▸ hliteral
  | always | holds _ | fails _ => cases hvalue

theorem isReadable_of_parse {text : String} {c : Condition} (h : parse text = .ok c) :
    IsReadable c := by
  rcases parse_eq_ok.1 h with halways | ⟨clause, hother, htext, hname⟩
  · exact .always
  · cases clause with
    | holds key => exact .holds hname.isKey
    | fails key => exact .fails hname.isKey
    | compares key sign value =>
      cases sign with
      | equal => exact .equals hname.isKey (isLiteral_literal value)
      | unequal => exact .differs hname.isKey (isLiteral_literal value)

theorem not_isAlways {first : Char} (h : first = 'd' ∨ first = '!') (cs : List Char) :
    ¬IsAlways (first :: cs) := by
  rintro (hnil | halways)
  · cases hnil
  · rcases h with rfl | rfl <;> cases halways

theorem parse_comparison (sign : Comparison) {text key : String} {after : List Char}
    (hkey : IsKey key)
    (h : Text.trim text.toList = keyText key ++ [' '] ++ (sign.sign ++ after)) :
    parse text = .ok (sign.condition key (literal after)) := by
  have hname : Names (keyText key ++ [' ']) key := .of_trim hkey <|
    Text.trim_concat_blank (fun c hc => isBlank_of_isKeyChar (hkey.keyText_chars c hc)) (by decide)
  exact parse_of_names sign hname h

theorem parse_holds {text key : String} (hkey : IsKey key) (h : text.toList = keyText key) :
    parse text = .ok (holds key) := by
  have hname : Names (keyText key) key := .of_trim hkey (trim_keyText hkey)
  rw [parse_eq_ok, h, trim_keyText hkey]
  exact .clause (.holds _) (not_isAlways (.inl rfl) _) rfl hname

theorem parse_fails {text key : String} (hkey : IsKey key) (h : text.toList = '!' :: keyText key) :
    parse text = .ok (fails key) := by
  have hname : Names (keyText key) key := .of_trim hkey (trim_keyText hkey)
  have htrim : Text.trim ('!' :: keyText key) = '!' :: keyText key := by
    refine Text.trim_of_forall fun c hc => ?_
    rcases List.mem_cons.1 hc with rfl | hc
    · decide
    · exact isBlank_of_isKeyChar (hkey.keyText_chars c hc)
  rw [parse_eq_ok, h, htrim]
  exact .clause (.fails _) (not_isAlways (.inr rfl) _) rfl hname

def mapValue (f : Json → Json) : Condition → Condition
  | equals key value => equals key (f value)
  | differs key value => differs key (f value)
  | c => c

theorem parse_display_comparison (sign : Comparison) {key : String} {value : Json}
    (hkey : IsKey key) (hvalue : IsLiteral value)
    (hfloat : ∀ x, value = .float x →
      Decimal.readFloat? (Json.floatLayout.writeFloat x).toList = some x) :
    parse (sign.condition key value).display = .ok (sign.condition key (reread value)) := by
  have htext : (sign.condition key value).display.toList =
      keyText key ++ [' '] ++ (sign.sign ++ (' ' :: value.render.toList)) := by
    cases sign with
    | equal | unequal =>
      simp only [Comparison.condition, display, String.toList_append, List.append_assoc]
      rfl
  obtain ⟨last, hlast, hblank⟩ := exists_last_render hvalue
  have htrim : Text.trim (sign.condition key value).display.toList =
      keyText key ++ [' '] ++ (sign.sign ++ (' ' :: value.render.toList)) := by
    rw [htext]
    refine Text.trim_eq_self (fun c hc => ?_) fun c hc => ?_
    · cases hc
      decide
    · rw [List.getLast?_append, List.getLast?_append, List.getLast?_cons, hlast] at hc
      cases hc
      exact hblank
  rw [parse_comparison sign hkey htrim, literal_cons_blank (by decide), literal_render hvalue hfloat]

theorem parse_display_of_isReadable {c : Condition} (h : IsReadable c)
    (hfloat : ∀ x, c.value? = some (.float x) →
      Decimal.readFloat? (Json.floatLayout.writeFloat x).toList = some x) :
    parse c.display = .ok (c.mapValue reread) := by
  cases h with
  | always => rfl
  | equals hkey hvalue =>
    exact parse_display_comparison .equal hkey hvalue fun x hx => hfloat x (hx ▸ rfl)
  | differs hkey hvalue =>
    exact parse_display_comparison .unequal hkey hvalue fun x hx => hfloat x (hx ▸ rfl)
  | holds hkey =>
    refine parse_holds hkey ?_
    rw [display, String.toList_append]
    rfl
  | fails hkey =>
    refine parse_fails hkey ?_
    rw [display, String.toList_append]
    rfl

theorem beq_self_of_isFinite {x : Float} (h : x.isFinite = true) : (x == x) = true := by
  have hunpacked : x.toModel.unpack.isFinite = true := h
  change x.toModel.unpack.beq x.toModel.unpack = true
  cases hx : x.toModel.unpack with
  | notANumber | infinity sign =>
    rw [hx] at hunpacked
    cases hunpacked
  | zero sign => cases sign <;> rfl
  | finite sign mantissa exponent hcanonical =>
    have hthen : (compare exponent exponent).then (compare mantissa mantissa) = .eq := by
      rw [Std.compare_self, Std.compare_self]
      rfl
    cases sign with
    | positive =>
      change (some ((compare exponent exponent).then (compare mantissa mantissa)) == some .eq) = true
      rw [hthen]
      rfl
    | negative =>
      change (some ((compare exponent exponent).then (compare mantissa mantissa)).swap ==
        some .eq) = true
      rw [hthen]
      rfl

/-- What is read again equals the literal unless some of its characters have been escaped. -/
theorem reread_beq_self {value : Json} (h : IsLiteral value) :
    (reread value == value) = true ↔
      ¬∃ s, value = .string s ∧ ∃ c ∈ s.toList, Json.IsEscaped c := by
  cases h with
  | null => exact iff_of_true rfl nofun
  | bool b => exact iff_of_true (by cases b <;> rfl) nofun
  | @int n hlow hhigh =>
    have hself : (n == n) = true := beq_self_eq_true n
    exact iff_of_true hself nofun
  | float hfinite => exact iff_of_true (beq_self_of_isFinite hfinite) nofun
  | string s =>
    have heq : (reread (.string s) == .string s) =
        (String.ofList (s.toList.flatMap Json.escape) == s) := rfl
    rw [heq, beq_iff_eq, ← String.toList_inj, String.toList_ofList, Json.flatMap_escape_eq_self]
    constructor
    · rintro hall ⟨_, ⟨⟩, c, hc, hescaped⟩
      exact hall c hc hescaped
    · exact fun hnone c hc hescaped => hnone ⟨s, rfl, c, hc, hescaped⟩

theorem form_mapValue (f : Json → Json) (c : Condition) : (c.mapValue f).form = c.form := by
  cases c <;> rfl

theorem key?_mapValue (f : Json → Json) (c : Condition) : (c.mapValue f).key? = c.key? := by
  cases c <;> rfl

theorem mapValue_beq_self (f : Json → Json) (c : Condition) :
    (c.mapValue f == c) = true ↔ ∀ value, c.value? = some value → (f value == value) = true := by
  have hcompare : ∀ (key : String) (value : Json),
      (key == key && f value == value) = true ↔
        ∀ v, some value = some v → (f v == v) = true := fun key value => by
    rw [beq_self_eq_true, Bool.true_and]
    exact ⟨fun h v hv => Option.some.inj hv ▸ h, fun h => h value rfl⟩
  cases c with
  | always => exact iff_of_true rfl nofun
  | equals key value | differs key value => exact hcompare key value
  | holds key | fails key =>
    have hkey : (key == key) = true := beq_self_eq_true key
    exact iff_of_true hkey nofun

/-- What is displayed for a condition that has been read can be read again. It gives a condition of
the same form with the same key, and the same one exactly when its literal is not a text with double
quotation marks, backslashes or control characters. -/
theorem parse_display {text : String} {c : Condition} (h : parse text = .ok c)
    (hfloat : ∀ x, c.value? = some (.float x) →
      Decimal.readFloat? (Json.floatLayout.writeFloat x).toList = some x) :
    ∃ c', parse c.display = .ok c' ∧ c'.form = c.form ∧ c'.key? = c.key? ∧
      ((c' == c) = true ↔ ¬∃ s, c.value? = some (.string s) ∧ ∃ ch ∈ s.toList,
        ch = '"' ∨ ch = '\\' ∨ ch.toNat < 32) := by
  have hreadable := isReadable_of_parse h
  refine ⟨c.mapValue reread, parse_display_of_isReadable hreadable hfloat, form_mapValue _ _,
    key?_mapValue _ _, ?_⟩
  rw [mapValue_beq_self]
  constructor
  · rintro hsame ⟨s, hs, hescaped⟩
    exact (reread_beq_self (.string s)).1 (hsame _ hs) ⟨s, rfl, hescaped⟩
  · intro hnone value hvalue
    refine (reread_beq_self (hreadable.isLiteral hvalue)).2 ?_
    rintro ⟨s, rfl, hescaped⟩
    exact hnone ⟨s, hvalue, hescaped⟩

theorem parse_display_ratio :
    parse "data.ratio != 1.5" = .ok (differs "ratio" (.float 1.5)) ∧
      ∃ c', parse (differs "ratio" (.float 1.5)).display = .ok c' ∧ c'.form = "not_equals" ∧
        c'.key? = some "ratio" ∧ (c' == differs "ratio" (.float 1.5)) = true := by
  have hliteral : literal [' ', '1', '.', '5'] = .float 1.5 := by
    have hint : Decimal.readInt? "1.5".toList = none := by decide
    have hfloat : (Decimal.readFloat? "1.5".toList).filter Float.isFinite = some 1.5 := by
      decide +kernel
    have hnumeric : Decimal.IsNumeric "1.5" := by decide
    have hnumber := literal_of_numeric hnumeric
    rw [hint, hfloat] at hnumber
    exact hnumber
  have hkey : IsKey "ratio" := ⟨by decide, List.all_eq_true.1 (by decide +kernel)⟩
  have hparse : parse "data.ratio != 1.5" = .ok (differs "ratio" (.float 1.5)) :=
    hliteral ▸ parse_comparison .unequal hkey (by decide)
  obtain ⟨c', hdisplay, hform, hsame, hequal⟩ := parse_display hparse fun x hx => by
    cases hx
    decide +kernel
  exact ⟨hparse, c', hdisplay, hform, hsame, hequal.2 nofun⟩

end Condition

end Workflow
