import Workflow.Text.Alphanumeric
import Workflow.Text.Blank

/-!
# Blanks at the ends of a text

Trimming takes blanks away and nothing else. No alphanumeric character is blank.
-/

namespace Workflow.Text

variable {c : Char} {cs : List Char}

theorem trimStart_eq_self (h : ∀ c ∈ cs.head?, isBlank c = false) : trimStart cs = cs := by
  cases cs with
  | nil => rfl
  | cons c cs => rw [trimStart, List.dropWhile_cons_of_neg (by rw [h c rfl]; exact Bool.false_ne_true)]

theorem trimEnd_eq_self (h : ∀ c ∈ cs.getLast?, isBlank c = false) : trimEnd cs = cs := by
  have hreverse : trimStart cs.reverse = cs.reverse :=
    trimStart_eq_self fun c hc => h c (List.head?_reverse ▸ hc)
  rw [trimEnd, ← trimStart, hreverse, List.reverse_reverse]

theorem trim_eq_self (hhead : ∀ c ∈ cs.head?, isBlank c = false)
    (hlast : ∀ c ∈ cs.getLast?, isBlank c = false) : trim cs = cs := by
  rw [trim, trimStart_eq_self hhead, trimEnd_eq_self hlast]

theorem trim_of_forall (h : ∀ c ∈ cs, isBlank c = false) : trim cs = cs :=
  trim_eq_self (fun c hc => h c (List.mem_of_head? hc)) fun c hc => h c (List.mem_of_getLast? hc)

theorem trim_cons_blank (h : isBlank c = true) : trim (c :: cs) = trim cs := by
  rw [trim, trimStart, List.dropWhile_cons_of_pos h, trim, trimStart]

theorem trim_concat_blank (hcs : ∀ c ∈ cs, isBlank c = false) (h : isBlank c = true) :
    trim (cs ++ [c]) = cs := by
  cases cs with
  | nil => rw [List.nil_append, trim_cons_blank h]; rfl
  | cons first cs =>
    have hstart : trimStart (first :: cs ++ [c]) = first :: cs ++ [c] :=
      trimStart_eq_self fun _ hc => Option.some.inj hc ▸ hcs first List.mem_cons_self
    rw [trim, hstart, trimEnd, List.reverse_append, List.reverse_singleton, List.singleton_append,
      List.dropWhile_cons_of_pos h]
    exact trimEnd_eq_self fun _ hc => hcs _ (List.mem_of_getLast? hc)

/-- Trimming drops nothing but blanks. -/
theorem isBlank_or_mem_trim (h : c ∈ cs) : isBlank c = true ∨ c ∈ trim cs := by
  have hdrop : ∀ l : List Char, c ∈ l → isBlank c = true ∨ c ∈ l.dropWhile isBlank := by
    intro l hl
    rw [← List.takeWhile_append_dropWhile (p := isBlank) (l := l)] at hl
    exact (List.mem_append.1 hl).imp_left (List.all_eq_true.1 List.all_takeWhile c)
  rcases hdrop cs h with hblank | hstart
  · exact .inl hblank
  · have hend := hdrop _ (List.mem_reverse.2 hstart)
    exact hend.imp_right List.mem_reverse.2

def blanks : List Nat :=
  [9, 10, 11, 12, 13, 0x20, 0x85, 0xA0, 0x1680, 0x2000, 0x2001, 0x2002, 0x2003, 0x2004, 0x2005,
    0x2006, 0x2007, 0x2008, 0x2009, 0x200A, 0x2028, 0x2029, 0x202F, 0x205F, 0x3000]

theorem mem_blanks_of_isBlank (h : isBlank c = true) : c.toNat ∈ blanks := by
  simp only [isBlank, Bool.or_eq_true, Bool.and_eq_true, decide_eq_true_eq, beq_iff_eq] at h
  simp only [blanks, List.mem_cons, List.not_mem_nil, or_false]
  omega

theorem isBlank_of_isAlphanumeric (h : isAlphanumeric c = true) : isBlank c = false := by
  have hnone : ∀ n ∈ blanks, isAlphanumeric (Char.ofNat n) = false := by decide +kernel
  refine Bool.eq_false_iff.2 fun hblank => ?_
  have hc := hnone _ (mem_blanks_of_isBlank hblank)
  rw [Char.ofNat_toNat, h] at hc
  cases hc

end Workflow.Text
