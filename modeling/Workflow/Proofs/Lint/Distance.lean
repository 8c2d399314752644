import Mathlib.Data.List.Sort
import Mathlib.Order.Bounds.Basic
import Mathlib.Order.MinMax
import Workflow.Lint.Distance

/-!
# Suggested names

The distance that is computed row by row is the least number of edits that turn the one text into
the other, and each row is as long as the look-ups in it need. So the name that is suggested for an
unknown one is within two edits of it, no other name is nearer, and of those that are as near it
comes first in alphabetical order; there is no suggestion exactly if no name is within two edits.
-/

namespace Workflow.Lint

variable {cs ds target : List Char} {n : Nat}

inductive Edit : List Char → List Char → Prop where
  | insert (c : Char) (before after : List Char) : Edit (before ++ after) (before ++ c :: after)
  | delete (c : Char) (before after : List Char) : Edit (before ++ c :: after) (before ++ after)
  | substitute (c d : Char) (before after : List Char) :
      Edit (before ++ c :: after) (before ++ d :: after)

inductive Edits : Nat → List Char → List Char → Prop where
  | none (cs : List Char) : Edits 0 cs cs
  | next {n : Nat} {cs ds es : List Char} (h : Edit cs ds) (hs : Edits n ds es) :
      Edits (n + 1) cs es

theorem Edit.cons (c : Char) (h : Edit cs ds) : Edit (c :: cs) (c :: ds) := by
  cases h with
  | insert d before after => exact .insert d (c :: before) after
  | delete d before after => exact .delete d (c :: before) after
  | substitute d e before after => exact .substitute d e (c :: before) after

theorem Edit.reverse (h : Edit cs ds) : Edit cs.reverse ds.reverse := by
  cases h with
  | insert c before after => simpa using Edit.insert c after.reverse before.reverse
  | delete c before after => simpa using Edit.delete c after.reverse before.reverse
  | substitute c d before after => simpa using Edit.substitute c d after.reverse before.reverse

theorem Edits.cons (c : Char) (h : Edits n cs ds) : Edits n (c :: cs) (c :: ds) := by
  induction h with
  | none cs => exact .none (c :: cs)
  | next h _ ih => exact .next (h.cons c) ih

theorem Edits.reverse (h : Edits n cs ds) : Edits n cs.reverse ds.reverse := by
  induction h with
  | none cs => exact .none cs.reverse
  | next h _ ih => exact .next h.reverse ih

theorem edits_reverse_iff : Edits n cs.reverse ds.reverse ↔ Edits n cs ds := by
  refine ⟨fun h => ?_, Edits.reverse⟩
  have hback := h.reverse
  rwa [List.reverse_reverse, List.reverse_reverse] at hback

theorem edits_min {m : Nat} (h : Edits m cs ds) (h' : Edits n cs ds) : Edits (min m n) cs ds := by
  rcases min_choice m n with hmin | hmin
  · rwa [hmin]
  · rwa [hmin]

/-- How far two texts are apart, by what becomes of their first characters: the one takes the place
of the other, at no cost if they are the same, or the one is taken out, or the other is put in. -/
def apart : List Char → List Char → Nat
  | [], target => target.length
  | source, [] => source.length
  | c :: source, d :: target =>
    min (min (apart source target + if c = d then 0 else 1) (apart source (d :: target) + 1))
      (apart (c :: source) target + 1)

theorem apart_nil_left (target : List Char) : apart [] target = target.length := by
  rw [apart]

theorem apart_nil_right (source : List Char) : apart source [] = source.length := by
  cases source with
  | nil => rw [apart]
  | cons c source =>
    rw [apart]
    exact nofun

theorem apart_cons_cons (c d : Char) (source target : List Char) :
    apart (c :: source) (d :: target) =
      min (min (apart source target + if c = d then 0 else 1) (apart source (d :: target) + 1))
        (apart (c :: source) target + 1) := by
  rw [apart]

theorem apart_self (cs : List Char) : apart cs cs = 0 := by
  induction cs with
  | nil => rw [apart_nil_left, List.length_nil]
  | cons c cs ih => rw [apart_cons_cons, if_pos rfl, ih, Nat.add_zero, Nat.zero_min, Nat.zero_min]

theorem apart_cons_right_le (d : Char) (source target : List Char) :
    apart source (d :: target) ≤ apart source target + 1 := by
  cases source with
  | nil => rw [apart_nil_left, apart_nil_left, List.length_cons]
  | cons c source =>
    rw [apart_cons_cons]
    exact min_le_right _ _

theorem apart_cons_left_le (c : Char) (source target : List Char) :
    apart (c :: source) target ≤ apart source target + 1 := by
  cases target with
  | nil => rw [apart_nil_right, apart_nil_right, List.length_cons]
  | cons d target =>
    rw [apart_cons_cons]
    exact (min_le_left _ _).trans (min_le_right _ _)

theorem apart_le_cons_left (c : Char) (source target : List Char) :
    apart source target ≤ apart (c :: source) target + 1 := by
  induction target with
  | nil =>
    rw [apart_nil_right, apart_nil_right, List.length_cons]
    omega
  | cons d target ih =>
    have hright := apart_cons_right_le d source target
    rw [apart_cons_cons]
    omega

theorem apart_replace_le (c d : Char) (source target : List Char) :
    apart (c :: source) target ≤ apart (d :: source) target + 1 := by
  induction target with
  | nil =>
    rw [apart_nil_right, apart_nil_right, List.length_cons, List.length_cons]
    omega
  | cons e target ih =>
    have hcost : (if c = e then 0 else 1) ≤ 1 := by split <;> omega
    rw [apart_cons_cons, apart_cons_cons]
    omega

/-- If one text is at most one farther from every target than another, this stays so when the same
characters are put before both. -/
theorem apart_append_le (before : List Char)
    (h : ∀ target, apart cs target ≤ apart ds target + 1) (target : List Char) :
    apart (before ++ cs) target ≤ apart (before ++ ds) target + 1 := by
  induction before generalizing target with
  | nil => exact h target
  | cons c before ih =>
    -- A distance also goes back to that of the same text from less of the target, so each side
    -- needs an induction of its own.
    induction target with
    | nil =>
      have hlength := ih []
      simp only [apart_nil_right, List.cons_append, List.length_cons] at hlength ⊢
      omega
    | cons d target ih' =>
      have hdiagonal := ih target
      have hup := ih (d :: target)
      simp only [List.cons_append, apart_cons_cons] at ih' ⊢
      omega

theorem apart_le_of_edit (h : Edit cs ds) (target : List Char) :
    apart cs target ≤ apart ds target + 1 := by
  cases h with
  | insert c before after => exact apart_append_le before (apart_le_cons_left c after) target
  | delete c before after => exact apart_append_le before (apart_cons_left_le c after) target
  | substitute c d before after =>
    exact apart_append_le before (apart_replace_le c d after) target

/-- Fewer edits than that do not suffice. -/
theorem apart_le_of_edits (h : Edits n cs ds) : apart cs ds ≤ n := by
  induction h with
  | none cs => exact (apart_self cs).le
  | next h _ ih => exact (apart_le_of_edit h _).trans (Nat.add_le_add_right ih 1)

theorem edits_nil_left (target : List Char) : Edits target.length [] target := by
  induction target with
  | nil => exact .none []
  | cons d target ih => exact .next (.insert d [] []) (ih.cons d)

theorem edits_nil_right (source : List Char) : Edits source.length source [] := by
  induction source with
  | nil => exact .none []
  | cons c source ih => exact .next (.delete c [] source) ih

/-- That many edits suffice. -/
theorem edits_apart (source target : List Char) : Edits (apart source target) source target := by
  fun_induction apart source target with
  | case1 target => exact edits_nil_left target
  | case2 source => exact edits_nil_right source
  | case3 c source d target ihboth ihsource ihtarget =>
    have hboth : Edits (apart source target + if c = d then 0 else 1) (c :: source)
        (d :: target) := by
      split
      next hsame =>
        subst hsame
        exact ihboth.cons c
      next => exact .next (.substitute c d [] source) (ihboth.cons d)
    have hdelete : Edits (apart source (d :: target) + 1) (c :: source) (d :: target) :=
      .next (.delete c [] source) ihsource
    have hinsert : Edits (apart (c :: source) target + 1) (c :: source) (d :: target) :=
      .next (.insert d [] (c :: source)) (ihtarget.cons d)
    exact edits_min (edits_min hboth hdelete) hinsert

theorem isLeast_apart (source target : List Char) :
    IsLeast {n | Edits n source target} (apart source target) :=
  ⟨edits_apart source target, fun _ h => apart_le_of_edits h⟩

/-- The distances of a text from `passed` as it grows by one character of `target` after the other.
Rows are about initial parts, which grow at the end, and `apart` looks at the start: so the text and
what is passed have their characters in reverse. -/
def distances (source passed : List Char) : List Char → List Nat
  | [] => [apart source passed]
  | d :: target => apart source passed :: distances source (d :: passed) target

theorem distances_eq_cons (source passed target : List Char) :
    ∃ rest, distances source passed target = apart source passed :: rest := by
  cases target with
  | nil => exact ⟨[], rfl⟩
  | cons d target => exact ⟨_, rfl⟩

/-- The first row is that of the text without characters. -/
theorem distances_nil (passed target : List Char) :
    distances [] passed target = List.range' passed.length (target.length + 1) := by
  induction target generalizing passed with
  | nil => rw [distances, apart_nil_left]; rfl
  | cons d target ih =>
    rw [distances, ih, apart_nil_left, List.length_cons, List.length_cons]
    exact List.range'_succ.symm

/-- The row below is that of the text with one character more. -/
theorem rowBelow_distances (c : Char) (source passed target : List Char) :
    apart (c :: source) passed ::
        rowBelow c target (distances source passed target) (apart (c :: source) passed) =
      distances (c :: source) passed target := by
  induction target generalizing passed with
  | nil => rfl
  | cons d target ih =>
    obtain ⟨rest, hrest⟩ := distances_eq_cons source (d :: passed) target
    have htail := ih (d :: passed)
    rw [hrest] at htail
    rw [distances, distances, hrest, rowBelow]
    simp only [← apart_cons_cons, htail]

/-- From the row of what is past to that of the whole text. -/
theorem lastRow_distances (past source target : List Char) :
    lastRow target past.length (distances past [] target) source =
      distances (source.reverse ++ past) [] target := by
  induction source generalizing past with
  | nil => rfl
  | cons c source ih =>
    have hrow : nextRow target past.length (distances past [] target) c =
        distances (c :: past) [] target := by
      have hbelow := rowBelow_distances c past [] target
      rwa [apart_nil_right] at hbelow
    have hrest := ih (c :: past)
    rw [List.length_cons] at hrest
    rw [lastRow, hrow, hrest, List.reverse_cons, List.append_assoc, List.singleton_append]

theorem getLastD_distances (source passed target : List Char) :
    (distances source passed target).getLastD 0 = apart source (target.reverse ++ passed) := by
  induction target generalizing passed with
  | nil => rfl
  | cons d target ih =>
    obtain ⟨rest, hrest⟩ := distances_eq_cons source (d :: passed) target
    have hlast := ih (d :: passed)
    rw [hrest] at hlast
    rw [distances, hrest, List.reverse_cons, List.append_assoc, List.singleton_append, ← hlast]
    rfl

theorem editDistance_eq_apart (source target : List Char) :
    editDistance source target = apart source.reverse target.reverse := by
  have hfirst : List.range (target.length + 1) = distances [] [] target := by
    rw [distances_nil, List.range_eq_range', List.length_nil]
  have hlast := lastRow_distances [] source target
  rw [List.length_nil, List.append_nil] at hlast
  rw [editDistance, hfirst, hlast, getLastD_distances, List.append_nil]

theorem isLeast_editDistance (source target : List Char) :
    IsLeast {n | Edits n source target} (editDistance source target) := by
  have hleast := isLeast_apart source.reverse target.reverse
  simp only [edits_reverse_iff] at hleast
  rwa [editDistance_eq_apart]

/-- A row that is filled from the left. What an entry is made from is looked up by its place, two
entries above and one in the row so far, and there is no row if one of them is missing. -/
def fillRow? (c : Char) (above : List Nat) :
    (target : List Char) → (place : Nat) → (row : List Nat) → Option (List Nat)
  | [], _, row => some row
  | d :: target, place, row => do
    let diagonal ← above[place]?
    let up ← above[place + 1]?
    let left ← row[place]?
    let cost := if c = d then 0 else 1
    fillRow? c above target (place + 1)
      (row ++ [min (min (diagonal + cost) (up + 1)) (left + 1)])

def lastRow? (target : List Char) : (i : Nat) → (row : List Nat) → List Char → Option (List Nat)
  | _, row, [] => some row
  | i, row, c :: source => do
    let below ← fillRow? c row target 0 [i + 1]
    lastRow? target (i + 1) below source

def editDistance? (source target : List Char) : Option Nat := do
  let row ← lastRow? target 0 (List.range (target.length + 1)) source
  row[target.length]?

theorem length_rowBelow (c : Char) {target : List Char} {above : List Nat} (left : Nat)
    (h : above.length = target.length + 1) :
    (rowBelow c target above left).length = target.length := by
  induction target generalizing above left with
  | nil => simp only [rowBelow, List.length_nil]
  | cons d target ih =>
    match above, h with
    | diagonal :: up :: above, h => exact congrArg Nat.succ (ih _ (Nat.succ.inj h))

theorem getElem?_append_cons {past rest : List Nat} {entry place : Nat} (h : past.length = place) :
    (past ++ entry :: rest)[place]? = some entry := by
  rw [← h, List.getElem?_append_right le_rfl, Nat.sub_self, List.getElem?_cons_zero]

/-- With the entries above in two parts, those that are passed and one more than there are
characters to come, whatever is looked up is there. -/
theorem fillRow?_eq (c : Char) {target : List Char} {past above row : List Nat} {left : Nat}
    (hpast : past.length = row.length) (habove : above.length = target.length + 1) :
    fillRow? c (past ++ above) target row.length (row ++ [left]) =
      some (row ++ left :: rowBelow c target above left) := by
  induction target generalizing past above row left with
  | nil => simp only [fillRow?, rowBelow]
  | cons d target ih =>
    match above, habove with
    | diagonal :: up :: above, habove =>
      -- What is passed above and the row so far grow together, so the places stay right.
      let entry := min (min (diagonal + if c = d then 0 else 1) (up + 1)) (left + 1)
      have hmoved : (past ++ [diagonal]).length = row.length + 1 := by
        rw [List.length_append, hpast, List.length_singleton]
      have hsplit : past ++ diagonal :: up :: above = (past ++ [diagonal]) ++ up :: above := by
        rw [List.append_assoc, List.singleton_append]
      have hdiagonal : (past ++ diagonal :: up :: above)[row.length]? = some diagonal :=
        getElem?_append_cons hpast
      have hup : (past ++ diagonal :: up :: above)[row.length + 1]? = some up :=
        hsplit ▸ getElem?_append_cons hmoved
      have hleft : (row ++ [left])[row.length]? = some left := List.getElem?_concat_length
      have hgrown : (row ++ [left]).length = row.length + 1 := List.length_append
      calc fillRow? c (past ++ diagonal :: up :: above) (d :: target) row.length (row ++ [left])
        _ = fillRow? c ((past ++ [diagonal]) ++ up :: above) target (row ++ [left]).length
              ((row ++ [left]) ++ [entry]) := by
          rw [fillRow?, hdiagonal, hup, hleft, hsplit, hgrown]
          rfl
        _ = some ((row ++ [left]) ++ entry :: rowBelow c target (up :: above) entry) :=
          ih (hmoved.trans hgrown.symm) (Nat.succ.inj habove)
        _ = some (row ++ left :: rowBelow c (d :: target) (diagonal :: up :: above) left) := by
          rw [List.append_assoc, List.singleton_append]
          rfl

theorem lastRow?_eq (i : Nat) {row : List Nat} (source : List Char)
    (hrow : row.length = target.length + 1) :
    lastRow? target i row source = some (lastRow target i row source) ∧
      (lastRow target i row source).length = target.length + 1 := by
  induction source generalizing i row with
  | nil => exact ⟨rfl, hrow⟩
  | cons c source ih =>
    have hbelow : fillRow? c row target 0 [i + 1] = some (nextRow target i row c) :=
      @fillRow?_eq c target [] row [] (i + 1) rfl hrow
    have hlength : (nextRow target i row c).length = target.length + 1 :=
      congrArg Nat.succ (length_rowBelow c (i + 1) hrow)
    rw [lastRow?, hbelow, lastRow]
    exact ih (i + 1) hlength

theorem getElem?_eq_getLastD {row : List Nat} (h : row.length = n + 1) :
    row[n]? = some (row.getLastD 0) := by
  have hlast : n < row.length := h ▸ Nat.lt_succ_self n
  rw [List.getLastD_eq_getLast?, List.getLast?_eq_getElem?, h, Nat.add_sub_cancel,
    List.getElem?_eq_getElem hlast, Option.getD_some]

theorem editDistance?_eq (source target : List Char) :
    editDistance? source target = some (editDistance source target) := by
  obtain ⟨hrow, hlength⟩ := lastRow?_eq 0 source (@List.length_range (target.length + 1))
  rw [editDistance?, hrow]
  exact getElem?_eq_getLastD hlength

variable {name candidate other : String} {names candidates : List String}

/-- A name within two edits that no other of the names is nearer than, and the first in alphabetical
order of those that are as near. -/
structure IsClosest (name : String) (names : List String) (candidate : String) : Prop where
  mem : candidate ∈ names
  near : editDistance name.toList candidate.toList ≤ 2
  least : ∀ other ∈ names,
    editDistance name.toList candidate.toList ≤ editDistance name.toList other.toList
  first : ∀ other ∈ names,
    editDistance name.toList other.toList = editDistance name.toList candidate.toList →
      candidate ≤ other

theorem IsClosest.unique (h : IsClosest name names candidate) (h' : IsClosest name names other) :
    candidate = other := by
  have hsame := Nat.le_antisymm (h.least other h'.mem) (h'.least candidate h.mem)
  exact String.le_antisymm (h.first other h'.mem hsame.symm) (h'.first candidate h.mem hsame)

/-- It goes in front of names that it comes before, if it is near and none of them is nearer. -/
theorem isClosest_cons_self (hnear : editDistance name.toList candidate.toList ≤ 2)
    (hleast : ∀ other ∈ names,
      editDistance name.toList candidate.toList ≤ editDistance name.toList other.toList)
    (hfirst : ∀ other ∈ names, candidate ≤ other) :
    IsClosest name (candidate :: names) candidate where
  mem := List.mem_cons_self
  near := hnear
  least := List.forall_mem_cons.2 ⟨le_rfl, hleast⟩
  first := List.forall_mem_cons.2
    ⟨fun _ => String.le_refl candidate, fun other hother _ => hfirst other hother⟩

/-- It is still the closest when a name that is farther away joins. -/
theorem IsClosest.cons (h : IsClosest name names candidate)
    (hfar : editDistance name.toList candidate.toList < editDistance name.toList other.toList) :
    IsClosest name (other :: names) candidate where
  mem := .tail _ h.mem
  near := h.near
  least := List.forall_mem_cons.2 ⟨hfar.le, h.least⟩
  first := List.forall_mem_cons.2 ⟨fun hsame => absurd hsame hfar.ne', h.first⟩

theorem IsClosest.of_sortNames (h : IsClosest name (sortNames names) candidate) :
    IsClosest name names candidate where
  mem := mem_sortNames.1 h.mem
  near := h.near
  least other hother := h.least other (mem_sortNames.2 hother)
  first other hother := h.first other (mem_sortNames.2 hother)

theorem pairwise_sortNames (names : List String) : (sortNames names).Pairwise (· ≤ ·) :=
  List.pairwise_mergeSort' (· ≤ ·) names

theorem far_of_nearest?_eq_none (h : nearest? name candidates = none) :
    ∀ candidate ∈ candidates, 2 < editDistance name.toList candidate.toList := by
  induction candidates with
  | nil => exact List.forall_mem_nil _
  | cons candidate candidates ih =>
    rw [nearest?] at h
    split at h
    next => cases h
    next hnot =>
      rw [h, Option.all_none, Bool.and_true, decide_eq_true_eq, not_le] at hnot
      exact List.forall_mem_cons.2 ⟨hnot, ih h⟩

/-- Among names in alphabetical order the search finds the closest one. -/
theorem isClosest_of_nearest? (hsorted : candidates.Pairwise (· ≤ ·))
    (h : nearest? name candidates = some (candidate, n)) :
    n = editDistance name.toList candidate.toList ∧ IsClosest name candidates candidate := by
  induction candidates generalizing candidate n with
  | nil => cases h
  | cons first candidates ih =>
    obtain ⟨hfirst, hsorted⟩ := List.pairwise_cons.1 hsorted
    rw [nearest?] at h
    split at h
    next hnearest =>
      cases h
      rw [Bool.and_eq_true, decide_eq_true_eq] at hnearest
      obtain ⟨hnear, hrest⟩ := hnearest
      refine ⟨rfl, isClosest_cons_self hnear (fun other hother => ?_) hfirst⟩
      cases hfound : nearest? name candidates with
      | none => exact hnear.trans (far_of_nearest?_eq_none hfound other hother).le
      | some found =>
        obtain ⟨hn, hclosest⟩ := ih hsorted hfound
        rw [hfound, Option.all_some, decide_eq_true_eq, hn] at hrest
        exact hrest.trans (hclosest.least other hother)
    next hnot =>
      obtain ⟨hn, hclosest⟩ := ih hsorted h
      refine ⟨hn, hclosest.cons (Nat.lt_of_not_le fun hle => hnot ?_)⟩
      rw [h, Option.all_some, hn, Bool.and_eq_true, decide_eq_true_eq, decide_eq_true_eq]
      exact ⟨hle.trans hclosest.near, hle⟩

theorem isClosest_of_closest? (h : closest? name names = some candidate) :
    IsClosest name names candidate := by
  rw [closest?, Option.map_eq_some_iff] at h
  obtain ⟨⟨_, n⟩, hfound, rfl⟩ := h
  exact (isClosest_of_nearest? (pairwise_sortNames names) hfound).2.of_sortNames

theorem closest?_eq_none_iff :
    closest? name names = none ↔
      ∀ candidate ∈ names, 2 < editDistance name.toList candidate.toList := by
  constructor
  · intro h candidate hmem
    rw [closest?, Option.map_eq_none_iff] at h
    exact far_of_nearest?_eq_none h candidate (mem_sortNames.2 hmem)
  · intro hfar
    refine Option.eq_none_iff_forall_ne_some.2 fun candidate h => ?_
    have hclosest := isClosest_of_closest? h
    exact (hfar candidate hclosest.mem).not_ge hclosest.near

theorem closest?_eq_some_iff :
    closest? name names = some candidate ↔ IsClosest name names candidate := by
  refine ⟨isClosest_of_closest?, fun h => ?_⟩
  cases hfound : closest? name names with
  | none => exact absurd h.near (closest?_eq_none_iff.1 hfound candidate h.mem).not_ge
  | some other => rw [(isClosest_of_closest? hfound).unique h]

/-- The distance that is computed row by row, in rows in which whatever is looked up is there, is
the least number of edits that turn the one text into the other. A name is suggested exactly if one
of the names is within two edits, and then it is of those at the least distance the first in
alphabetical order. -/
theorem closest_name_exact :
    (∀ source target : List Char,
      editDistance? source target = some (editDistance source target) ∧
        IsLeast {n | Edits n source target} (editDistance source target)) ∧
    ∀ (name : String) (names : List String),
      ((closest? name names).isSome = true ↔
        ∃ candidate ∈ names, editDistance name.toList candidate.toList ≤ 2) ∧
      ∀ candidate, closest? name names = some candidate ↔ IsClosest name names candidate := by
  refine ⟨fun source target => ⟨editDistance?_eq source target, isLeast_editDistance source target⟩,
    fun name names => ⟨?_, fun candidate => closest?_eq_some_iff⟩⟩
  rw [Option.isSome_iff_ne_none, Ne, closest?_eq_none_iff]
  simp only [not_forall, not_lt, exists_prop]

/-- Of two names that are equally near the first in alphabetical order is suggested. -/
example : closest? "cc" ["dc", "ac"] = some "ac" := by cbv

end Workflow.Lint
