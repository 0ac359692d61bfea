import Grounding.Proofs.Session.Density

/-!
# The order of terms and the ordered sets

Terms are kept in ordered sets and maps, which only work if the order is lawful. The critical part
is the order of numbers: an integer meets a float through the nearest float, so integers that differ
may meet one float alike. As this conversion is monotone, the order by the nearest float, then by
value, with a float after all integers that meet it, is total and tells any two numbers apart.

What is put into the sets of a formula is therefore in them once, in its place, and stays.
-/

namespace Grounding

/-- Each entry of the list is below every later one, so none is listed twice. -/
def Ascending {α : Type} [Ord α] (as : List α) : Prop := as.Pairwise (compare · · = .lt)

/-- Conversion to the nearest float keeps the order of integers. -/
theorem Binary64.isLE_compareTotal_ofInt {y z : Int} (h : y ≤ z) :
    ((ofInt y).compareTotal (ofInt z)).isLE :=
  Std.isLE_compare.mpr (totalKey_ofInt_mono h)

namespace Formula

variable {f : Formula} {v d : Term} {s : NodeId}

section Listing

variable {κ α : Type} [Ord κ] [Std.TransOrd κ] [Ord α] [Std.TransOrd α]
  {m : Std.ExtTreeMap κ (Std.ExtTreeSet α)} {k : κ}

theorem ascending_of_listed {as : List α} (h : m[k]?.map Std.ExtTreeSet.toList = some as) :
    Ascending as := by
  obtain ⟨set, -, rfl⟩ := Option.map_eq_some_iff.mp h
  exact Std.ExtTreeSet.ordered_toList

/-- What is listed under a key is what the set under the key holds. -/
theorem mem_listed_iff [Std.LawfulEqOrd α] {a : α} :
    a ∈ (m[k]?.map Std.ExtTreeSet.toList).getD [] ↔ a ∈ m.getD k ∅ := by
  rw [mem_getD_iff]
  cases m[k]?.map Std.ExtTreeSet.toList <;> simp

end Listing

theorem mem_densities_iff : d ∈ (f.densities? v).getD [] ↔ f.IsAsked v d :=
  mem_listed_iff.trans isAsked_iff.symm

theorem mem_sites_iff : s ∈ (f.sites? v).getD [] ↔ f.IsSite v s :=
  mem_listed_iff.trans isSite_iff.symm

end Formula

/-- The order of terms is total and tells any two terms apart, where floats are compared by their
bits and no integer is a float; integers meet floats through a monotone conversion. So the free
variables, the densities of a variable and its sites are listed in ascending order, each of them
once. An addition lists exactly one more, unless it was there, and whatever operations follow lose
none. -/
theorem term_order_lawful :
    (∀ a b : Term, (compare a b).swap = compare b a) ∧
    (∀ a b c : Term, (compare a b).isLE → (compare b c).isLE → (compare a c).isLE) ∧
    (∀ a b : Term, compare a b = .eq ↔ a = b) ∧
    (∀ x y : Binary64, compare (Term.constant (.float x)) (.constant (.float y)) = .eq ↔
      x.bits = y.bits) ∧
    (∀ (i : Int64) (x : Binary64),
      compare (Term.constant (.int i)) (.constant (.float x)) ≠ .eq) ∧
    (∀ i j : Int64, i ≤ j →
      ((Binary64.ofInt i.toInt).compareTotal (.ofInt j.toInt)).isLE) ∧
    (∀ f : Formula, Ascending f.freeVariables.toList ∧
      (∀ v ds, f.densities? v = some ds → Ascending ds) ∧
      ∀ v ss, f.sites? v = some ss → Ascending ss) ∧
    (∀ (f : Formula) v u, u ∈ (f.addFree v).freeVariables.toList ↔
      u = v ∨ u ∈ f.freeVariables.toList) ∧
    (∀ (f : Formula) v u d e, d ∈ ((f.addDensity v e).densities? u).getD [] ↔
      u = v ∧ d = e ∨ d ∈ (f.densities? u).getD []) ∧
    (∀ (f : Formula) v u p x s, s ∈ ((f.addSite v p x).2.sites? u).getD [] ↔
      u = v ∧ s = (f.addSite v p x).1 ∨ s ∈ (f.sites? u).getD []) ∧
    ∀ f g : Formula, f.LeadsTo g →
      (∀ u ∈ f.freeVariables.toList, u ∈ g.freeVariables.toList) ∧
      (∀ v, ∀ d ∈ (f.densities? v).getD [], d ∈ (g.densities? v).getD []) ∧
      ∀ v, ∀ s ∈ (f.sites? v).getD [], s ∈ (g.sites? v).getD [] := by
  refine ⟨Term.swap_compare, fun a b c => Std.TransCmp.isLE_trans, fun a b => Term.compare_eq_iff,
    fun x y => ?floats, fun i x h => ?apart, fun i j h => ?conversion, fun f => ?ascending,
    fun f v u => ?free, fun f v u d e => ?density, fun f v u p x s => ?site,
    fun f g hfg => ?kept⟩
  case floats => exact Term.compare_eq_iff.trans (by cases x; cases y; simp)
  case apart => cases Term.compare_eq_iff.mp h
  case conversion => exact Binary64.isLE_compareTotal_ofInt (Int64.le_iff_toInt_le.mp h)
  case ascending =>
    exact ⟨Std.ExtTreeSet.ordered_toList, fun _ _ => Formula.ascending_of_listed,
      fun _ _ => Formula.ascending_of_listed⟩
  case free =>
    rw [Std.ExtTreeSet.mem_toList, Std.ExtTreeSet.mem_toList]
    exact Formula.mem_addFree
  case density =>
    rw [Formula.mem_densities_iff, Formula.mem_densities_iff]
    exact Formula.isAsked_addDensity
  case site =>
    rw [Formula.mem_sites_iff, Formula.mem_sites_iff]
    exact Formula.isSite_addSite p x
  case kept =>
    have grows := hfg.trail.grows
    refine ⟨fun u hu => ?_, fun v d hd => ?_, fun v s hs => ?_⟩
    · rw [Std.ExtTreeSet.mem_toList] at hu ⊢
      exact grows.freeVariables u hu
    · rw [Formula.mem_densities_iff] at hd ⊢
      exact grows.isAsked hd
    · rw [Formula.mem_sites_iff] at hs ⊢
      exact grows.isSite hs

/-- The integers `2 ^ 53` and `2 ^ 53 + 1` meet the float `2 ^ 53` alike, which breaks no chain; and
a variable has its sites after another is declared free. -/
theorem term_order_lawful_rainy :
    (compare (Term.constant (.int 0x20000000000000)) (.constant (.int 0x20000000000001))).isLE ∧
    (compare (Term.constant (.int 0x20000000000001))
      (.constant (.float ⟨0x4340000000000000⟩))).isLE ∧
    (compare (Term.constant (.int 0x20000000000000))
      (.constant (.float ⟨0x4340000000000000⟩))).isLE ∧
    Formula.rainy.LeadsTo (Formula.rainy.addFree (.atom "y")) ∧
    ⟨1⟩ ∈ ((Formula.rainy.addFree (.atom "y")).sites? (.atom "x")).getD [] := by
  obtain ⟨-, htrans, -, -, -, -, -, -, -, -, hkept⟩ := term_order_lawful
  have hints : (compare (Term.constant (.int 0x20000000000000))
      (.constant (.int 0x20000000000001))).isLE := by decide +kernel
  have hfloat : (compare (Term.constant (.int 0x20000000000001))
      (.constant (.float ⟨0x4340000000000000⟩))).isLE := by decide +kernel
  have hfree : Formula.rainy.LeadsTo (Formula.rainy.addFree (.atom "y")) :=
    .step (.free (.atom "y")) .refl rfl
  have hsites : (Formula.rainy.sites? (.atom "x")).getD [] = [⟨1⟩, ⟨2⟩] := rfl
  obtain ⟨-, -, hsame⟩ := hkept _ _ hfree
  exact ⟨hints, hfloat, htrans _ _ _ hints hfloat, hfree, hsame _ _ (hsites ▸ List.mem_cons_self)⟩

end Grounding
