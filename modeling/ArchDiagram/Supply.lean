/-
# Supply of names

How many different names of a list are not used yet. Expansions nest only by
using up such names, so this number bounds how deep they can nest. Main
statements: the number does not grow with fewer candidates and more used names
(`Supply.left_le`), and it drops when a candidate is used (`Supply.left_lt`).
-/

namespace ArchDiagram.Supply

/-- How many different names of a pool are not among the used ones. -/
def left (used : List String) : List String → Nat
  | [] => 0
  | name :: rest => if name ∈ used then left used rest else left (name :: used) rest + 1

variable {used used' pool pool' : List String} {name : String}

theorem left_congr (h : ∀ other, other ∈ used ↔ other ∈ used') :
    left used pool = left used' pool := by
  induction pool generalizing used used' with
  | nil => rfl
  | cons first rest ih =>
      simp only [left, h first]
      split
      · exact ih h
      · have hrest : left (first :: used) rest = left (first :: used') rest :=
          ih fun other => by simp [h other]
        rw [hrest]

theorem left_eq_add_one (hmem : name ∈ pool) (hnew : name ∉ used) :
    left used pool = left (name :: used) pool + 1 := by
  induction pool generalizing used with
  | nil => simp at hmem
  | cons first rest ih =>
      by_cases hfirst : first = name
      · subst hfirst
        simp [left, hnew]
      · have hrest : name ∈ rest := by
          rcases List.mem_cons.mp hmem with h | h
          · exact absurd h.symm hfirst
          · exact h
        by_cases hused : first ∈ used
        · simp [left, hused, ih hrest hnew]
        · have hnew' : name ∉ first :: used := by simp [hnew, Ne.symm hfirst]
          simp only [left, hused, if_false, List.mem_cons, hfirst, or_self]
          have hswap : left (name :: first :: used) rest = left (first :: name :: used) rest :=
            left_congr fun other => by simp only [List.mem_cons]; exact or_left_comm
          rw [ih hrest hnew', hswap]

theorem left_le (h : ∀ other ∈ pool', other ∉ used' → other ∈ pool ∧ other ∉ used) :
    left used' pool' ≤ left used pool := by
  induction pool' generalizing used used' with
  | nil => exact Nat.zero_le _
  | cons first rest ih =>
      simp only [left]
      split
      · exact ih fun other hother => h other (List.mem_cons_of_mem _ hother)
      · rename_i hfirst
        obtain ⟨hpool, hused⟩ := h first List.mem_cons_self hfirst
        rw [left_eq_add_one hpool hused]
        refine Nat.succ_le_succ (ih fun other hother hnew => ?_)
        simp only [List.mem_cons, not_or] at hnew ⊢
        obtain ⟨hin, hout⟩ := h other (List.mem_cons_of_mem _ hother) hnew.2
        exact ⟨hin, hnew.1, hout⟩

theorem left_lt (hmem : name ∈ pool) (hnew : name ∉ used)
    (h : ∀ other ∈ pool', other ∉ used' → other ∈ pool ∧ other ∉ used ∧ other ≠ name) :
    left used' pool' < left used pool := by
  rw [left_eq_add_one hmem hnew]
  refine Nat.lt_succ_of_le (left_le fun other hother hout => ?_)
  obtain ⟨hin, hused, hne⟩ := h other hother hout
  exact ⟨hin, by simp [hne, hused]⟩

/-- A pair of numbers drops if its first part does not grow and its second part
drops. -/
theorem lex_of_le_of_lt {a b c d : Nat} (hfirst : a ≤ c) (hsecond : b < d) :
    Prod.Lex (· < ·) (· < ·) (a, b) (c, d) := by
  rcases Nat.lt_or_eq_of_le hfirst with h | h
  · exact Prod.Lex.left _ _ h
  · subst h
    exact Prod.Lex.right _ hsecond

end ArchDiagram.Supply
