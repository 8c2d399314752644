import Mathlib.Data.List.Forall2
import Workflow.Proofs.Spec.Valid
import Workflow.Registry.Build

/-!
# Building side by side

One computation that may fail mirrors another if it yields a value whenever the other does, and the
two values are related. What is built from two lots of parameters is related when what is read of
them is.
-/

namespace Workflow

section Mirrors

variable {α β γ δ : Type} {V : α → β → Prop} {W : γ → δ → Prop} {x : Except Fault α}
  {y : Except Fault β}

/-- If the first computation yields a value, then the second one yields a related value. -/
def Mirrors (V : α → β → Prop) (x : Except Fault α) (y : Except Fault β) : Prop :=
  ∀ a, x = .ok a → ∃ b, y = .ok b ∧ V a b

theorem mirrors_ok {a : α} {b : β} (h : V a b) : Mirrors V (.ok a) (.ok b) := by
  rintro _ ⟨⟩
  exact ⟨b, rfl, h⟩

theorem mirrors_error (fault : Fault) (y : Except Fault β) : Mirrors V (.error fault) y :=
  nofun

theorem mirrors_of_eq {x y : Except Fault α} (h : y = x) : Mirrors Eq x y := by
  subst h
  exact fun a ha => ⟨a, ha, rfl⟩

theorem Mirrors.bind {f : α → Except Fault γ} {g : β → Except Fault δ} (h : Mirrors V x y)
    (hf : ∀ a b, V a b → Mirrors W (f a) (g b)) : Mirrors W (x >>= f) (y >>= g) := by
  intro c hc
  obtain ⟨a, ha, hc⟩ := bind_eq_ok.1 hc
  obtain ⟨b, hb, hab⟩ := h a ha
  obtain ⟨d, hd, hcd⟩ := hf a b hab c hc
  exact ⟨d, bind_eq_ok.2 ⟨b, hb, hd⟩, hcd⟩

theorem Mirrors.bind_eq {x y : Except Fault α} {f : α → Except Fault γ} {g : α → Except Fault δ}
    (h : y = x) (hf : ∀ a, Mirrors W (f a) (g a)) : Mirrors W (x >>= f) (y >>= g) := by
  refine (mirrors_of_eq h).bind ?_
  rintro a _ rfl
  exact hf a

theorem mirrors_mapM {R : α → β → Prop} {f : α → Except Fault γ} {g : β → Except Fault δ}
    {as : List α} {bs : List β} (h : List.Forall₂ R as bs)
    (hf : ∀ a b, R a b → Mirrors W (f a) (g b)) :
    Mirrors (List.Forall₂ W) (as.mapM f) (bs.mapM g) := by
  induction h with
  | nil => exact mirrors_ok .nil
  | cons hab _ ih =>
    rw [List.mapM_cons, List.mapM_cons]
    exact (hf _ _ hab).bind fun _ _ hcd => ih.bind fun _ _ hrest => mirrors_ok (.cons hcd hrest)

theorem mirrors_foldlM {R : α → β → Prop} {f : γ → α → Except Fault γ} {g : δ → β → Except Fault δ}
    {as : List α} {bs : List β} (h : List.Forall₂ R as bs)
    (hf : ∀ c d a b, W c d → R a b → Mirrors W (f c a) (g d b)) {c : γ} {d : δ} (hcd : W c d) :
    Mirrors W (as.foldlM f c) (bs.foldlM g d) := by
  induction h generalizing c d with
  | nil => exact mirrors_ok hcd
  | cons hab _ ih =>
    rw [List.foldlM_cons, List.foldlM_cons]
    exact (hf _ _ _ _ hcd hab).bind fun _ _ => ih

end Mirrors

theorem forall₂_zipIdx {α β : Type} {R : α → β → Prop} {as : List α} {bs : List β}
    (h : List.Forall₂ R as bs) (k : Nat) :
    List.Forall₂ (fun a b => R a.1 b.1 ∧ b.2 = a.2) (as.zipIdx k) (bs.zipIdx k) := by
  induction h generalizing k with
  | nil => exact .nil
  | cons hab _ ih => exact .cons ⟨hab, rfl⟩ (ih (k + 1))

theorem forall₂_and_right {α β : Type} {R : α → β → Prop} {P : β → Prop} {as : List α} {bs : List β}
    (h : List.Forall₂ R as bs) (hP : ∀ b ∈ bs, P b) : List.Forall₂ (fun a b => R a b ∧ P b) as bs :=
  (((List.forall₂_and_left _ _).2 ⟨hP, h.flip⟩).imp fun _ _ h => h.symm).flip

theorem rel_imp_of_mem {α β : Type} {R R' : α → β → Prop} {a? : Option α} {b? : Option β}
    (h : Option.Rel R a? b?) (himp : ∀ a b, b ∈ b? → R a b → R' a b) : Option.Rel R' a? b? := by
  cases h with
  | none => exact .none
  | some h => exact .some (himp _ _ rfl h)

theorem isSome_of_rel {α β : Type} {R : α → β → Prop} {a? : Option α} {b? : Option β}
    (h : Option.Rel R a? b?) : b?.isSome = a?.isSome := by
  cases h <;> rfl

namespace Params

variable {α : Type}

def held? (read? : Json → Option α) : Option Json → Option (Option α)
  | none => some none
  | some value => (read? value).map some

def heldAction? : Option Json → Option (Option ActionSpec)
  | some .null => some none
  | value => held? actionOf? value

def actionsOf? : Json → Option (List ActionSpec) :=
  Json.items? (ActionSpec.ofJson? false)

def tablesOf? : Json → Option (List Data) :=
  Json.items? fields?

variable {p : Params} {key expected : String} {read? : Json → Option α}

theorem require_eq_ok {read : Except Fault (Option α)} {value : α} :
    p.require key read = .ok value ↔ read = .ok (some value) := by
  rcases read with fault | _ | result
  · exact ⟨nofun, nofun⟩
  · exact ⟨nofun, nofun⟩
  · constructor <;> rintro ⟨⟩ <;> rfl

theorem optional_eq_ok {result : Option α} :
    p.optional key expected read? = .ok result ↔ held? read? (p.value? key) = some result := by
  unfold optional
  cases p.value? key with
  | none => constructor <;> rintro ⟨⟩ <;> rfl
  | some value =>
    dsimp only [held?]
    cases read? value with
    | none => exact ⟨nofun, nofun⟩
    | some result => constructor <;> rintro ⟨⟩ <;> rfl

theorem require_optional_eq_ok {value : α} :
    p.require key (p.optional key expected read?) = .ok value ↔
      (p.value? key).bind read? = some value := by
  rw [require_eq_ok, optional_eq_ok]
  cases p.value? key with
  | none => exact ⟨nofun, nofun⟩
  | some json => exact Option.map_eq_some_iff.trans ⟨fun ⟨_, h, heq⟩ => Option.some.inj heq ▸ h,
      fun h => ⟨value, h, rfl⟩⟩

theorem action?_eq_ok {spec : Option ActionSpec} :
    p.action? key = .ok spec ↔ heldAction? (p.value? key) = some spec := by
  have hread : p.optional key "action" actionOf? = .ok spec ↔
      held? actionOf? (p.value? key) = some spec := optional_eq_ok
  unfold action? heldAction?
  generalize p.value? key = value? at hread ⊢
  cases value? with
  | none => exact hread
  | some value =>
    cases value with
    | null => constructor <;> rintro ⟨⟩ <;> rfl
    | bool | int | float | string | array | object => exact hread

theorem heldAction?_eq_some {value? : Option Json} {spec : ActionSpec}
    (h : heldAction? value? = some (some spec)) :
    ∃ fields, value? = some (.object fields) ∧
      ActionSpec.ofJson? false (.object fields) = some spec := by
  rcases value? with _ | value
  · cases h
  · cases value with
    | object fields =>
      obtain ⟨spec', hspec, heq⟩ := Option.map_eq_some_iff.1 h
      cases heq
      exact ⟨fields, rfl, hspec⟩
    | null | bool | int | float | string | array => cases h

structure Same (p p' : Params) (key : String) : Prop where
  owner : p'.owner = p.owner
  value : p'.value? key = p.value? key

namespace Same

variable {p' : Params}

theorem mismatch (h : Same p p' key) (expected : String) :
    p'.mismatch key expected = p.mismatch key expected := by
  rw [Params.mismatch, h.owner, ← Params.mismatch]

theorem optional (h : Same p p' key) (expected : String) (read? : Json → Option α) :
    p'.optional key expected read? = p.optional key expected read? := by
  rw [Params.optional, h.value, h.mismatch, ← Params.optional]

theorem require (h : Same p p' key) {read read' : Except Fault (Option α)} (hread : read' = read) :
    p'.require key read' = p.require key read := by
  have hmissing : p'.missing key = p.missing key := by rw [missing, h.owner, ← missing]
  unfold Params.require
  rw [hread, hmissing]

theorem string? (h : Same p p' key) : p'.string? key = p.string? key :=
  h.optional _ _

theorem string (h : Same p p' key) : p'.string key = p.string key :=
  h.require h.string?

theorem bool? (h : Same p p' key) : p'.bool? key = p.bool? key :=
  h.optional _ _

theorem count? (h : Same p p' key) : p'.count? key = p.count? key := by
  have hint : p'.int? key = p.int? key := h.optional _ _
  rw [Params.count?, hint, h.mismatch, ← Params.count?]

theorem condition (h : Same p p' key) : p'.condition key = p.condition key := by
  rw [Params.condition, h.string, ← Params.condition]

theorem condition? (h : Same p p' key) : p'.condition? key = p.condition? key := by
  rw [Params.condition?, h.string?, ← Params.condition?]

end Same

end Params

end Workflow
