import Grounding.Number.Order
import Grounding.Term.Basic

/-!
# The order of terms

Terms are ordered first by form, in the order in which `Term` lists its constructors, then by their
parts from left to right; argument lists and name sets compare lexicographically. This is a total
order in which only equal terms compare equal, so a term can be the key of an ordered map.
-/

namespace Grounding

namespace Term

/-- The place of the term's form among the forms. -/
def rank : Term → Nat
  | .constant _ => 0
  | .atom _ => 1
  | .compound .. => 2
  | .var _ => 3
  | .symbolic .. => 4
  | .density _ => 5
  | .realized .. => 6
  | .coordinate .. => 7

mutual

/-- Compares two terms by form and then by their parts. -/
def compare : Term → Term → Ordering
  | .constant m, .constant n => m.compare n
  | .atom a, .atom b => Ord.compare a b
  | .compound f as, .compound g bs => (Ord.compare f g).then (compareAll as bs)
  | .var a, .var b => Ord.compare a b
  | .symbolic f as xs, .symbolic g bs ys =>
    ((Ord.compare f g).then (compareAll as bs)).then (Ord.compare xs.toList ys.toList)
  | .density a, .density b => Ord.compare a b
  | .realized f as a m, .realized g bs b n =>
    (((Ord.compare f g).then (compareAll as bs)).then (Ord.compare a b)).then (Ord.compare m n)
  | .coordinate a m, .coordinate b n => (Ord.compare a b).then (Ord.compare m n)
  | s, t => Ord.compare s.rank t.rank

/-- Compares two lists of terms lexicographically. -/
def compareAll : List Term → List Term → Ordering
  | [], [] => .eq
  | [], _ :: _ => .lt
  | _ :: _, [] => .gt
  | s :: ss, t :: ts => (s.compare t).then (compareAll ss ts)

end

instance : Ord Term := ⟨Term.compare⟩

mutual

theorem swap_compare (s t : Term) : (s.compare t).swap = t.compare s := by
  cases s <;> cases t <;>
    simp [compare, rank, Number.swap_compare, swap_compareAll, Ordering.swap_then,
      ← Std.OrientedOrd.eq_swap]
  termination_by structural s

theorem swap_compareAll (ss ts : List Term) : (compareAll ss ts).swap = compareAll ts ss := by
  cases ss <;> cases ts <;> simp [compareAll, swap_compare, swap_compareAll, Ordering.swap_then]
  termination_by structural ss

end

mutual

theorem compare_eq_iff {s t : Term} : s.compare t = .eq ↔ s = t := by
  cases s <;> cases t <;>
    simp [compare, rank, Number.compare_eq_iff, compareAll_eq_iff, Ordering.then_eq_eq,
      Std.ExtTreeSet.toList_inj, and_assoc]
  termination_by structural s

theorem compareAll_eq_iff {ss ts : List Term} : compareAll ss ts = .eq ↔ ss = ts := by
  cases ss <;> cases ts <;>
    simp [compareAll, compare_eq_iff, compareAll_eq_iff, Ordering.then_eq_eq]
  termination_by structural ss

end

theorem rank_le_of_compare_eq_lt {s t : Term} (h : s.compare t = .lt) : s.rank ≤ t.rank := by
  cases s <;> cases t <;> simp [rank, compare, Std.compare_eq_lt] at h ⊢

theorem compare_eq_lt_of_rank_lt {s t : Term} (h : s.rank < t.rank) : s.compare t = .lt := by
  cases s <;> cases t <;> simp [rank] at h <;> rfl

/-- Lexicographic comparison is transitive if both of its parts are. -/
theorem then_lt_trans {o₁₂ o₂₃ o₁₃ p₁₂ p₂₃ p₁₃ : Ordering}
    (hlt : o₁₂ = .lt → o₂₃ = .lt → o₁₃ = .lt) (hl : o₁₂ = .eq → o₁₃ = o₂₃)
    (hr : o₂₃ = .eq → o₁₃ = o₁₂) (hp : p₁₂ = .lt → p₂₃ = .lt → p₁₃ = .lt)
    (h₁₂ : o₁₂.then p₁₂ = .lt) (h₂₃ : o₂₃.then p₂₃ = .lt) : o₁₃.then p₁₃ = .lt := by
  cases o₁₂ <;> cases o₂₃ <;> simp_all

/-- The same for a first part that is a lawful order of its own. -/
theorem compare_then_lt_trans {α : Type} [Ord α] [Std.TransOrd α] {a b c : α}
    {p₁₂ p₂₃ p₁₃ : Ordering}
    (hp : p₁₂ = .lt → p₂₃ = .lt → p₁₃ = .lt)
    (h₁₂ : (Ord.compare a b).then p₁₂ = .lt) (h₂₃ : (Ord.compare b c).then p₂₃ = .lt) :
    (Ord.compare a c).then p₁₃ = .lt :=
  then_lt_trans Std.TransCmp.lt_trans Std.TransCmp.congr_left
    (fun h => (Std.TransCmp.congr_right h).symm) hp h₁₂ h₂₃

/-- The same for a first part that compares argument lists. -/
theorem compareAll_then_lt_trans {as bs cs : List Term} {p₁₂ p₂₃ p₁₃ : Ordering}
    (ha : compareAll as bs = .lt → compareAll bs cs = .lt → compareAll as cs = .lt)
    (hp : p₁₂ = .lt → p₂₃ = .lt → p₁₃ = .lt) (h₁₂ : (compareAll as bs).then p₁₂ = .lt)
    (h₂₃ : (compareAll bs cs).then p₂₃ = .lt) : (compareAll as cs).then p₁₃ = .lt :=
  then_lt_trans ha (fun h => by rw [compareAll_eq_iff.1 h])
    (fun h => by rw [compareAll_eq_iff.1 h]) hp h₁₂ h₂₃

mutual

theorem compare_lt_trans {r s t : Term} (hrs : r.compare s = .lt) (hst : s.compare t = .lt) :
    r.compare t = .lt := by
  have h₁ := rank_le_of_compare_eq_lt hrs
  have h₂ := rank_le_of_compare_eq_lt hst
  by_cases h : r.rank < t.rank
  · exact compare_eq_lt_of_rank_lt h
  · have hr : r.rank = s.rank := by omega
    have ht : s.rank = t.rank := by omega
    cases r <;> cases s <;> simp only [rank, reduceCtorEq, Nat.reduceEqDiff] at hr
    all_goals cases t <;> simp only [rank, reduceCtorEq, Nat.reduceEqDiff] at ht
    all_goals simp only [compare] at hrs hst ⊢
    · exact Number.compare_lt_trans hrs hst
    · exact Std.TransCmp.lt_trans hrs hst
    · exact compare_then_lt_trans compareAll_lt_trans hrs hst
    · exact Std.TransCmp.lt_trans hrs hst
    · simp only [Ordering.then_assoc] at hrs hst ⊢
      exact compare_then_lt_trans (compareAll_then_lt_trans compareAll_lt_trans
        Std.TransCmp.lt_trans) hrs hst
    · exact Std.TransCmp.lt_trans hrs hst
    · simp only [Ordering.then_assoc] at hrs hst ⊢
      exact compare_then_lt_trans (compareAll_then_lt_trans compareAll_lt_trans
        (compare_then_lt_trans Std.TransCmp.lt_trans)) hrs hst
    · exact compare_then_lt_trans Std.TransCmp.lt_trans hrs hst
  termination_by structural r

theorem compareAll_lt_trans {rs ss ts : List Term} (hrs : compareAll rs ss = .lt)
    (hst : compareAll ss ts = .lt) : compareAll rs ts = .lt := by
  cases rs <;> cases ss <;> cases ts <;> simp only [compareAll, reduceCtorEq] at hrs hst ⊢
  · exact then_lt_trans compare_lt_trans (fun h => by rw [compare_eq_iff.1 h])
      (fun h => by rw [compare_eq_iff.1 h]) compareAll_lt_trans hrs hst
  termination_by structural rs

end

instance : Std.LawfulEqOrd Term where
  compare_self := compare_eq_iff.2 rfl
  eq_of_compare := compare_eq_iff.1

instance : Std.TransOrd Term where
  eq_swap := (swap_compare _ _).symm
  isLE_trans {r s t} hrs hst := by
    rw [Ordering.isLE_iff_eq_lt_or_eq_eq] at *
    rcases hrs with hrs | hrs
    · rcases hst with hst | hst
      · exact .inl (compare_lt_trans hrs hst)
      · exact .inl (compare_eq_iff.1 hst ▸ hrs)
    · exact compare_eq_iff.1 hrs ▸ hst

instance : DecidableEq Term := fun s t => decidable_of_iff (s.compare t = .eq) compare_eq_iff

end Term

end Grounding
