import Mathlib.Algebra.BigOperators.Ring.List
import Mathlib.Algebra.GroupWithZero.Nat
import Mathlib.Data.List.Forall2
import Mathlib.Logic.Function.Iterate
import Grounding.Evaluation.Product

/-!
# Products one tuple at a time

A cursor counts through the product of some operands like an odometer whose digits have the lengths
of the operands as bases. The rank of its positions is the number that they write, and it is the
place of the tuple in the list of all tuples. Counting one step up raises the rank by one, or wraps
around from the last place. So the cursor comes to every place once, in order.

Sizes are counted with saturation, and the order of the operands makes no difference to that: a
count at its bound stays there, unless an operand is empty.
-/

namespace Grounding

variable {α : Type} {xs : List α} {xss : List (List α)} {is : List Nat}

theorem length_tuples_cons (xs : List α) (xss : List (List α)) :
    (tuples (xs :: xss)).length = xs.length * (tuples xss).length := by
  simp [tuples, List.length_flatMap]

theorem length_tuples (xss : List (List α)) : (tuples xss).length = (xss.map List.length).prod := by
  induction xss with
  | nil => rfl
  | cons xs xss ih => rw [length_tuples_cons, ih, List.map_cons, List.prod_cons]

theorem tuples_of_empty (h : [] ∈ xss) : tuples xss = [] := by
  have hzero : 0 ∈ xss.map List.length := List.mem_map.mpr ⟨[], h, rfl⟩
  rw [← List.length_eq_zero_iff, length_tuples]
  exact List.prod_eq_zero hzero

/-- The tuples are rows of one length, one row after the other. -/
theorem getElem?_tuples_cons {i r : Nat} (hi : i < xs.length) (hr : r < (tuples xss).length) :
    (tuples (xs :: xss))[i * (tuples xss).length + r]? =
      (tuples xss)[r]?.map (xs[i] :: ·) := by
  rw [tuples]
  induction xs generalizing i with
  | nil => cases hi
  | cons x xs ih =>
    rw [List.flatMap_cons]
    cases i with
    | zero =>
      rw [Nat.zero_mul, Nat.zero_add, List.getElem?_append_left (by simpa using hr),
        List.getElem?_map]
      rfl
    | succ i =>
      have hplace : (i + 1) * (tuples xss).length + r - ((tuples xss).map (x :: ·)).length =
          i * (tuples xss).length + r := by
        rw [List.length_map, Nat.succ_mul]
        omega
      rw [List.getElem?_append_right (by rw [List.length_map, Nat.succ_mul]; omega), hplace,
        ih (Nat.lt_of_succ_lt_succ hi)]
      rfl

namespace Cursor

/-- There is one position for each operand, and it lies within the operand. -/
def Within (xss : List (List α)) (is : List Nat) : Prop :=
  List.Forall₂ (fun xs i => i < xs.length) xss is

/-- The elements at these positions, one of each operand. -/
def choice? (xss : List (List α)) (is : List Nat) : Option (List α) :=
  (xss.zip is).mapM fun (xs, i) => xs[i]?

/-- The number that positions write, with the lengths of the operands as bases. -/
def rank : List (List α) → List Nat → Nat
  | _ :: xss, i :: is => i * (tuples xss).length + rank xss is
  | _, _ => 0

theorem rank_lt (h : Within xss is) : rank xss is < (tuples xss).length := by
  induction h with
  | nil => exact Nat.one_pos
  | @cons xs i xss is hi _ ih =>
    have hrow : (i + 1) * (tuples xss).length ≤ xs.length * (tuples xss).length :=
      Nat.mul_le_mul_right _ hi
    rw [length_tuples_cons, rank]
    rw [Nat.succ_mul] at hrow
    omega

theorem choice?_cons {i : Nat} (xss : List (List α)) (is : List Nat) (hi : i < xs.length) :
    choice? (xs :: xss) (i :: is) = (choice? xss is).map (xs[i] :: ·) := by
  unfold choice?
  rw [List.zip_cons_cons, List.mapM_cons]
  dsimp only
  rw [List.getElem?_eq_getElem hi]
  cases (xss.zip is).mapM fun (xs, i) => xs[i]? <;> rfl

/-- The tuple at some positions stands at the place that they write. -/
theorem getElem?_tuples_rank (h : Within xss is) : (tuples xss)[rank xss is]? = choice? xss is := by
  induction h with
  | nil => rfl
  | @cons xs i xss is hi h ih =>
    rw [rank, getElem?_tuples_cons hi (rank_lt h), ih, choice?_cons xss is hi]

theorem within_zero (h : ∀ xs ∈ xss, xs ≠ []) : Within xss (xss.map fun _ => 0) := by
  rw [Within, List.forall₂_map_right_iff, List.forall₂_same]
  exact fun xs hxs => List.length_pos_iff.mpr (h xs hxs)

theorem ne_nil_of_within (h : Within xss is) : ∀ xs ∈ xss, xs ≠ [] := by
  induction h with
  | nil => exact fun xs hxs => by cases hxs
  | cons hi _ ih =>
    exact List.forall_mem_cons.mpr ⟨List.length_pos_iff.mp (Nat.zero_lt_of_lt hi), ih⟩

theorem rank_zero (xss : List (List α)) : rank xss (xss.map fun _ => 0) = 0 := by
  induction xss with
  | nil => rfl
  | cons xs xss ih => rw [List.map_cons, rank, ih, Nat.zero_mul]

theorem increment_cons (xs : List α) (xss : List (List α)) (i : Nat) (is : List Nat) :
    increment (xs :: xss) (i :: is) =
      if (increment xss is).2 then
        if i + 1 < xs.length then ((i + 1) :: (increment xss is).1, false)
        else (0 :: (increment xss is).1, true)
      else (i :: (increment xss is).1, false) := rfl

/-- One step up writes the next number, or starts again from zero after the last one. -/
theorem increment_cases (h : Within xss is) :
    (∃ js, increment xss is = (js, false) ∧ Within xss js ∧ rank xss js = rank xss is + 1) ∨
      increment xss is = (xss.map fun _ => 0, true) ∧
        rank xss is + 1 = (tuples xss).length := by
  induction h with
  | nil => exact .inr ⟨rfl, rfl⟩
  | @cons xs i xss is hi h ih =>
    rw [increment_cons, rank]
    rcases ih with ⟨js, hstep, hwithin, hrank⟩ | ⟨hwrapped, hlast⟩
    · rw [hstep, if_neg Bool.false_ne_true]
      refine .inl ⟨i :: js, rfl, .cons hi hwithin, ?_⟩
      rw [rank, hrank, Nat.add_assoc]
    · rw [hwrapped, if_pos rfl]
      by_cases hnext : i + 1 < xs.length
      · rw [if_pos hnext]
        refine .inl ⟨_, rfl, .cons hnext (within_zero (ne_nil_of_within h)), ?_⟩
        rw [rank, rank_zero, Nat.succ_mul]
        omega
      · rw [if_neg hnext]
        have hwhole : xs.length = i + 1 := by omega
        refine .inr ⟨rfl, ?_⟩
        rw [length_tuples_cons, hwhole, Nat.succ_mul]
        omega

/-- What a call gives, and the place after it. An exhausted cursor stays where it is. -/
def call (c : Cursor α) : Option (List α) × Cursor α :=
  match c.next? with
  | some (tuple, next) => (some tuple, next)
  | none => (none, c)

/-- The place after this many calls. -/
def after (n : Nat) (c : Cursor α) : Cursor α := (fun c => c.call.2)^[n] c

/-- After `n` calls, the cursor stands at place `n`, or is exhausted and has passed every place. -/
structure StandsAt (xss : List (List α)) (n : Nat) (c : Cursor α) : Prop where
  operands : c.operands = xss
  exhausted : c.exhausted = true → (tuples xss).length ≤ n
  within : c.exhausted = false → Within xss c.positions ∧ rank xss c.positions = n

variable {c : Cursor α} {n : Nat}

theorem standsAt_start (xss : List (List α)) : StandsAt xss 0 (start xss) where
  operands := rfl
  exhausted h := by
    obtain ⟨xs, hxs, hnil⟩ := List.any_eq_true.mp h
    rw [List.isEmpty_iff.mp hnil] at hxs
    rw [tuples_of_empty hxs]
    exact Nat.le_refl 0
  within h := by
    refine ⟨within_zero fun xs hxs hnil => ?_, rank_zero xss⟩
    exact List.any_eq_false.mp h xs hxs (List.isEmpty_iff.mpr hnil)

/-- A cursor that is not exhausted stands at a tuple. -/
theorem StandsAt.tuple? (h : StandsAt xss n c) (hgoing : c.exhausted = false) :
    c.tuple? = (tuples xss)[n]? ∧ n < (tuples xss).length := by
  obtain ⟨hwithin, hrank⟩ := h.within hgoing
  refine ⟨?_, hrank ▸ rank_lt hwithin⟩
  rw [← hrank, getElem?_tuples_rank hwithin, choice?, ← h.operands]
  rfl

/-- A call gives the tuple at the place of the cursor and goes on to the next place. -/
theorem StandsAt.call (h : StandsAt xss n c) :
    c.call.1 = (tuples xss)[n]? ∧ StandsAt xss (n + 1) c.call.2 := by
  unfold Cursor.call next?
  cases hexhausted : c.exhausted with
  | true =>
    have hpast := h.exhausted hexhausted
    refine ⟨(List.getElem?_eq_none hpast).symm, h.operands, fun _ => Nat.le_succ_of_le hpast, ?_⟩
    exact fun hgoing => absurd (hexhausted.symm.trans hgoing) (by decide)
  | false =>
    obtain ⟨hwithin, hrank⟩ := h.within hexhausted
    obtain ⟨htuple, hlt⟩ := h.tuple? hexhausted
    rw [if_neg Bool.false_ne_true, htuple, List.getElem?_eq_getElem hlt, Option.map_some]
    refine ⟨rfl, ?_⟩
    dsimp only
    unfold advance
    rw [h.operands]
    rcases increment_cases hwithin with ⟨js, hstep, hjs, hnext⟩ | ⟨hwrapped, hlast⟩
    · rw [hstep]
      exact ⟨rfl, nofun, fun _ => ⟨hjs, by rw [hnext, hrank]⟩⟩
    · rw [hwrapped]
      exact ⟨rfl, fun _ => by omega, nofun⟩

theorem standsAt_after (xss : List (List α)) (n : Nat) : StandsAt xss n ((start xss).after n) := by
  induction n with
  | zero => exact standsAt_start xss
  | succ n ih =>
    rw [after, Function.iterate_succ_apply']
    exact ih.call.2

end Cursor

/-- The positions of all places, first place first. -/
def places (xss : List (List α)) : List (List Nat) :=
  tuples (xss.map fun xs => List.range xs.length)

theorem mem_tuples_iff {tuple : List α} : tuple ∈ tuples xss ↔ List.Forall₂ (· ∈ ·) tuple xss := by
  induction xss generalizing tuple with
  | nil => simp [tuples]
  | cons xs xss ih =>
    simp only [tuples, List.mem_flatMap, List.mem_map, ih, List.forall₂_cons_right_iff]
    constructor
    · rintro ⟨x, hx, rest, hrest, rfl⟩
      exact ⟨x, rest, hx, hrest, rfl⟩
    · rintro ⟨x, rest, hx, hrest, rfl⟩
      exact ⟨x, hx, rest, hrest, rfl⟩

theorem mem_places_iff : is ∈ places xss ↔ Cursor.Within xss is := by
  rw [places, mem_tuples_iff, List.forall₂_map_right_iff, Cursor.Within]
  simp only [List.mem_range]
  exact ⟨List.Forall₂.flip, List.Forall₂.flip⟩

/-- Choices from ascending lists ascend in lexicographic order. -/
theorem pairwise_tuples {r : α → α → Prop} (h : ∀ xs ∈ xss, xs.Pairwise r) :
    (tuples xss).Pairwise (List.Lex r) := by
  induction xss with
  | nil => exact List.pairwise_singleton _ _
  | cons xs xss ih =>
    obtain ⟨hxs, hxss⟩ := List.forall_mem_cons.mp h
    rw [tuples, List.pairwise_flatMap]
    constructor
    · intro x _
      exact List.pairwise_map.mpr ((ih hxss).imp fun hrest => .cons hrest)
    · refine hxs.imp fun {x y} hxy row hrow row' hrow' => ?_
      obtain ⟨rest, -, rfl⟩ := List.mem_map.mp hrow
      obtain ⟨rest', -, rfl⟩ := List.mem_map.mp hrow'
      exact .rel hxy

theorem pairwise_places (xss : List (List α)) : (places xss).Pairwise (List.Lex (· < ·)) := by
  refine pairwise_tuples fun is his => ?_
  obtain ⟨xs, -, rfl⟩ := List.mem_map.mp his
  exact List.pairwise_lt_range

theorem map_choice?_places (xss : List (List α)) :
    (places xss).map (Cursor.choice? xss) = (tuples xss).map some := by
  induction xss with
  | nil => rfl
  | cons xs xss ih =>
    let row (head : Option α) : List (Option (List α)) :=
      (tuples xss).map fun rest => head.map (· :: rest)
    have hrow (i : Nat) (hi : i ∈ List.range xs.length) :
        ((places xss).map (i :: ·)).map (Cursor.choice? (xs :: xss)) = row xs[i]? := by
      have hlt := List.mem_range.mp hi
      have hchoice : Cursor.choice? (xs :: xss) ∘ (i :: ·) =
          Option.map (xs[i] :: ·) ∘ Cursor.choice? xss :=
        funext fun is => Cursor.choice?_cons xss is hlt
      rw [List.map_map, hchoice, ← List.map_map, ih, List.map_map, List.getElem?_eq_getElem hlt]
      rfl
    have hheads : (List.range xs.length).map (fun i => xs[i]?) = xs.map some := by
      refine List.ext_getElem (by simp) fun i h₁ h₂ => ?_
      simp at h₁ h₂ ⊢
    calc (places (xs :: xss)).map (Cursor.choice? (xs :: xss))
        = (List.range xs.length).flatMap fun i => row xs[i]? := by
          rw [places, List.map_cons, tuples, List.map_flatMap]
          exact List.flatMap_congr hrow
      _ = (xs.map some).flatMap row := by rw [← hheads, List.flatMap_map]
      _ = (tuples (xs :: xss)).map some := by
          rw [List.flatMap_map, tuples, List.map_flatMap]
          simp only [row, List.map_map]
          rfl

theorem foldl_saturating (xss : List (List α)) (size : Nat) :
    xss.foldl (fun size xs => min (size * xs.length) sizeBound) (min size sizeBound) =
      min (size * (xss.map List.length).prod) sizeBound := by
  induction xss generalizing size with
  | nil => simp
  | cons xs xss ih =>
    have hstep : min (min size sizeBound * xs.length) sizeBound =
        min (size * xs.length) sizeBound := by
      rcases Nat.le_total size sizeBound with hle | hge
      · rw [Nat.min_eq_left hle]
      · -- the count is at its bound, and only an empty operand brings it down
        rw [Nat.min_eq_right hge]
        rcases Nat.eq_zero_or_pos xs.length with hzero | hpos
        · rw [hzero, Nat.mul_zero, Nat.mul_zero]
        · have hbound : sizeBound ≤ sizeBound * xs.length := Nat.le_mul_of_pos_right _ hpos
          rw [Nat.min_eq_right hbound,
            Nat.min_eq_right (hbound.trans (Nat.mul_le_mul_right _ hge))]
    rw [List.foldl_cons, hstep, ih, List.map_cons, List.prod_cons, Nat.mul_assoc]

theorem productSize_eq (xss : List (List α)) :
    productSize xss = min (xss.map List.length).prod sizeBound := by
  have h := foldl_saturating xss 1
  rwa [Nat.one_mul, Nat.min_eq_left (by decide)] at h

/-- The calls of a cursor give the tuples of the product in order, each once, and then nothing more:
there is one tuple for each choice of positions within the operands, and the positions ascend in
lexicographic order. Until it is exhausted a cursor stands within every operand. The count of the
tuples is their number, or the greatest size if there are more, in whatever order the operands come;
and a product is accepted exactly if the count does not exceed the limit. -/
theorem product_enumerated (operands : List (List α)) :
    (∀ n, ((Cursor.start operands).after n).call.1 = (tuples operands)[n]?) ∧
    (∀ n, ((Cursor.start operands).after n).exhausted = false →
      Cursor.Within operands ((Cursor.start operands).after n).positions ∧
        ((Cursor.start operands).after n).tuple?.isSome) ∧
    ((places operands).Pairwise (List.Lex (· < ·)) ∧
      (∀ is, is ∈ places operands ↔ Cursor.Within operands is) ∧
      (places operands).map (Cursor.choice? operands) = (tuples operands).map some) ∧
    (tuples operands).length = (operands.map List.length).prod ∧
    (operands = [] → tuples operands = [[]]) ∧ ([] ∈ operands → tuples operands = []) ∧
    productSize operands = min (operands.map List.length).prod (2 ^ 64 - 1) ∧
    (∀ operands', operands.Perm operands' → productSize operands' = productSize operands) ∧
    ∀ limit, checkProductSize operands limit =
      if productSize operands ≤ limit then .ok (productSize operands)
      else .error (.combinatorialExplosion (productSize operands) limit) := by
  have hstands := Cursor.standsAt_after operands
  refine ⟨fun n => (hstands n).call.1, fun n hgoing => ?_, ⟨pairwise_places operands,
    fun is => mem_places_iff, map_choice?_places operands⟩, length_tuples operands, ?_,
    tuples_of_empty, productSize_eq operands, fun operands' hperm => ?_, fun limit => ?_⟩
  · obtain ⟨hwithin, -⟩ := (hstands n).within hgoing
    obtain ⟨htuple, hlt⟩ := (hstands n).tuple? hgoing
    refine ⟨hwithin, ?_⟩
    rw [htuple, List.getElem?_eq_getElem hlt]
    rfl
  · rintro rfl
    rfl
  · rw [productSize_eq, productSize_eq, (hperm.map List.length).prod_eq]
  · unfold checkProductSize
    dsimp only
    split
    · next h => rw [if_neg (Nat.not_le.mpr h)]
    · next h => rw [if_pos (Nat.not_lt.mp h)]

end Grounding
