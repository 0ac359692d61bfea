import Mathlib.Data.List.Forall2
import Grounding.Exchange.Conversion

/-!
# Conversion there and back

A term has a native value unless a symbolic form occurs in it, and the native value gives the term
back. A native value has a term unless a string or a dictionary occurs in it. Terms have one form of
lists where native values have three, so coming back a value has all its lists as native lists.

A term is converted from the top: a proper list is recognized before its items are looked at, and
its cells are never converted themselves. Seen from the bottom, a cell becomes a longer native list
exactly if its tail became a native list. `toNative_compound` says that the two views agree, and the
round trips go by the second one, along the arguments.
-/

namespace Grounding

variable {ε α β : Type}

theorem map_eq_ok_iff {r : Except ε α} {f : α → β} {b : β} :
    r.map f = .ok b ↔ ∃ a, r = .ok a ∧ f a = b := by
  cases r <;> simp [Except.map]

theorem exists_map_eq_ok_iff {r : Except ε α} {f : α → β} :
    (∃ b, r.map f = .ok b) ↔ ∃ a, r = .ok a := by
  cases r <;> simp [Except.map]

/-- A list is converted if its head and its tail are. -/
theorem cons_eq_ok_iff {r : Except ε α} {rs : Except ε (List α)} {l : List α} :
    (do return (← r) :: (← rs) : Except ε (List α)) = .ok l ↔
      ∃ a as, r = .ok a ∧ rs = .ok as ∧ l = a :: as := by
  cases r <;> cases rs <;> simp [bind, Except.bind, pure, Except.pure, eq_comm]

theorem exists_cons_eq_ok_iff {r : Except ε α} {rs : Except ε (List α)} :
    (∃ l, (do return (← r) :: (← rs) : Except ε (List α)) = .ok l) ↔
      (∃ a, r = .ok a) ∧ ∃ as, rs = .ok as := by
  cases r <;> cases rs <;> simp [bind, Except.bind, pure, Except.pure]

namespace Term

/-- The term occurs in the other one: it is this one or occurs in one of its arguments. -/
inductive Occurs (s : Term) : Term → Prop
  | self : Occurs s s
  | arg {a t : Term} (ha : a ∈ t.args) (h : Occurs s a) : Occurs s t

/-- The term is made of numbers, atoms, variables and compound terms throughout. -/
def Ordinary (t : Term) : Prop := ∀ s : Term, s.Occurs t → s.isSymbolic = false

theorem ordinary_iff {t : Term} :
    t.Ordinary ↔ t.isSymbolic = false ∧ ∀ a ∈ t.args, a.Ordinary := by
  constructor
  · exact fun h => ⟨h t .self, fun a ha s hs => h s (.arg ha hs)⟩
  · rintro ⟨ht, hargs⟩ s (_ | ⟨ha, hs⟩)
    · exact ht
    · exact hargs _ ha s hs

end Term

namespace NativeValue

/-- The values that a value is made of. -/
def parts : NativeValue → List NativeValue
  | .functor _ args => args
  | .list items => items
  | .dict entries => entries.map (·.2)
  | _ => []

/-- Whether the value is a string or a dictionary. -/
def isForeign : NativeValue → Bool
  | .str _ | .dict _ => true
  | _ => false

/-- The value occurs in the other one: it is this one or occurs in one of its parts. -/
inductive Occurs (w : NativeValue) : NativeValue → Prop
  | self : Occurs w w
  | part {p v : NativeValue} (hp : p ∈ v.parts) (h : Occurs w p) : Occurs w v

/-- The value has no string and no dictionary in it. -/
def Ordinary (v : NativeValue) : Prop := ∀ w : NativeValue, w.Occurs v → w.isForeign = false

theorem ordinary_iff {v : NativeValue} :
    v.Ordinary ↔ v.isForeign = false ∧ ∀ p ∈ v.parts, p.Ordinary := by
  constructor
  · exact fun h => ⟨h v .self, fun p hp w hw => h w (.part hp hw)⟩
  · rintro ⟨hv, hparts⟩ w (_ | ⟨hp, hw⟩)
    · exact hv
    · exact hparts _ hp w hw

mutual

/-- The value with its lists as native lists, from the inside out: the atom `[]` becomes the empty
list, and a functor `.` of a head and a tail that is a list by then becomes the longer list. -/
def listed : NativeValue → NativeValue
  | .atom name => if name = "[]" then .list [] else .atom name
  | .functor name args =>
    match listedAll args with
    | [head, .list tail] =>
      if name = "." then .list (head :: tail) else .functor name [head, .list tail]
    | args => .functor name args
  | .list items => .list (listedAll items)
  | v => v

/-- Each value with its lists as native lists. -/
def listedAll : List NativeValue → List NativeValue
  | [] => []
  | v :: vs => v.listed :: listedAll vs

end

end NativeValue

namespace Term

open NativeValue (toTerms)

/-- The native value of a functor with arguments; a cell before a list makes a longer list. -/
def nativeCall (functor : String) : List NativeValue → NativeValue
  | [head, .list items] =>
    if functor = cellFunctor then .list (head :: items) else .functor functor [head, .list items]
  | args => .functor functor args

theorem toNatives_eq_ok_iff {ts : List Term} {vs : List NativeValue} :
    toNatives ts = .ok vs ↔ List.Forall₂ (fun t v => t.toNative = .ok v) ts vs := by
  induction ts generalizing vs with
  | nil => simp [eq_comm]
  | cons t ts ih =>
    simp only [toNatives, cons_eq_ok_iff, ih, List.forall₂_cons_left_iff, exists_and_left]

/-- Only a proper list has a native list. -/
theorem isList_of_toNative {t : Term} {vs : List NativeValue} (h : t.toNative = .ok (.list vs)) :
    t.isList := by
  cases hlist : t.list? with
  | some items => exact Option.isSome_iff_exists.mpr ⟨items, hlist⟩
  | none =>
    cases t with
    | constant n => cases n <;> simp at h
    | atom name =>
      have hname : name ≠ nilName := by
        rintro rfl
        cases hlist
      simp [toNative_atom hname] at h
    | compound functor args =>
      rw [toNative_of_not_list hlist, map_eq_ok_iff] at h
      obtain ⟨_, -, h⟩ := h
      cases h
    | var => simp at h
    | symbolic | density | realized | coordinate =>
      cases (toNative_of_isSymbolic rfl).symm.trans h

/-- A compound term is a proper list if it is a cell whose tail is one. -/
theorem list?_compound_eq_some_iff {functor : String} {args items : List Term} :
    (compound functor args).list? = some items ↔ functor = cellFunctor ∧
      ∃ head tail rest, args = [head, tail] ∧ tail.list? = some rest ∧ items = head :: rest := by
  match args with
  | [] | [_] | _ :: _ :: _ :: _ => simp [list?]
  | [head, tail] =>
    rw [list?]
    split
    · next hcell =>
      rw [Option.map_eq_some_iff]
      constructor
      · rintro ⟨rest, hrest, rfl⟩
        exact ⟨hcell, head, tail, rest, rfl, hrest, rfl⟩
      · rintro ⟨-, _, _, rest, hargs, hrest, rfl⟩
        cases hargs
        exact ⟨rest, hrest, rfl⟩
    · next hcell => simp [hcell]

/-- Where a compound term is no proper list, its arguments do not make it a longer one. -/
theorem nativeCall_of_not_list {functor : String} {args : List Term} {vs : List NativeValue}
    (hlist : (compound functor args).list? = none) (hvs : toNatives args = .ok vs) :
    nativeCall functor vs = .functor functor vs := by
  unfold nativeCall
  split
  · next head items =>
    split
    · next hcell =>
      exfalso
      obtain ⟨t, _, -, hrest, rfl⟩ := List.forall₂_cons_right_iff.mp (toNatives_eq_ok_iff.mp hvs)
      obtain ⟨u, _, hu, hnil, rfl⟩ := List.forall₂_cons_right_iff.mp hrest
      cases hnil
      obtain ⟨rest, hrest⟩ := Option.isSome_iff_exists.mp (isList_of_toNative hu)
      have hitems : (compound functor [t, u]).list? = some (t :: rest) :=
        list?_compound_eq_some_iff.mpr ⟨hcell, t, u, rest, rfl, hrest, rfl⟩
      cases hlist.symm.trans hitems
    · rfl
  · rfl

/-- The native value of a compound term, from those of its arguments. -/
theorem toNative_compound (functor : String) (args : List Term) :
    (compound functor args).toNative = (toNatives args).map (nativeCall functor) := by
  cases hlist : (compound functor args).list? with
  | none =>
    rw [toNative_of_not_list hlist]
    cases hvs : toNatives args with
    | error e => rfl
    | ok vs => exact congrArg Except.ok (nativeCall_of_not_list hlist hvs).symm
  | some items =>
    rw [toNative_of_list? hlist]
    obtain ⟨rfl, head, tail, rest, rfl, hrest, rfl⟩ := list?_compound_eq_some_iff.mp hlist
    simp only [toNatives, toNative_of_list? hrest]
    cases head.toNative with
    | error e => rfl
    | ok v => cases toNatives rest <;> rfl

/-- A longer native list and the functor of a cell are the same term. -/
theorem toTerm_nativeCall (functor : String) (args : List NativeValue) :
    (nativeCall functor args).toTerm = (toTerms args).map (.compound functor) := by
  unfold nativeCall
  split
  · next head items =>
    split
    · next hcell =>
      subst hcell
      simp only [NativeValue.toTerm, toTerms]
      cases head.toTerm with
      | error e => rfl
      | ok h =>
        cases toTerms items with
        | error e => rfl
        | ok ts => rfl
    · rw [NativeValue.toTerm]
  · rw [NativeValue.toTerm]

mutual

theorem toTerm_of_toNative {t : Term} {v : NativeValue} (h : t.toNative = .ok v) :
    v.toTerm = .ok t := by
  cases t with
  | constant n =>
    cases n <;> simp only [toNative_int, toNative_float, Except.ok.injEq] at h <;> subst h <;> rfl
  | atom name =>
    by_cases hname : name = nilName
    · subst hname
      cases toNative_nil.symm.trans h
      rfl
    · cases (toNative_atom hname).symm.trans h
      rfl
  | compound functor args =>
    rw [toNative_compound, map_eq_ok_iff] at h
    obtain ⟨vs, hvs, rfl⟩ := h
    rw [toTerm_nativeCall, toTerms_of_toNatives hvs]
    rfl
  | var name =>
    cases (toNative_var name).symm.trans h
    rfl
  | symbolic | density | realized | coordinate =>
    cases (toNative_of_isSymbolic rfl).symm.trans h
  termination_by structural t

theorem toTerms_of_toNatives {ts : List Term} {vs : List NativeValue} (h : toNatives ts = .ok vs) :
    toTerms vs = .ok ts := by
  cases ts with
  | nil =>
    cases toNatives_nil.symm.trans h
    rfl
  | cons t ts =>
    rw [toNatives, cons_eq_ok_iff] at h
    obtain ⟨v, vs, hv, hvs, rfl⟩ := h
    rw [toTerms, toTerm_of_toNative hv, toTerms_of_toNatives hvs]
    rfl
  termination_by structural ts

end

mutual

theorem exists_toNative_iff (t : Term) : (∃ v, t.toNative = .ok v) ↔ t.Ordinary := by
  rw [ordinary_iff]
  cases t with
  | constant n => cases n <;> simp [isSymbolic, args]
  | atom name =>
    have hvalue : ∃ v, (atom name).toNative = .ok v := by
      by_cases hname : name = nilName
      · subst hname
        exact ⟨_, toNative_nil⟩
      · exact ⟨_, toNative_atom hname⟩
    simp [hvalue, isSymbolic, args]
  | var => simp [isSymbolic, args]
  | compound functor ts =>
    simp only [toNative_compound, exists_map_eq_ok_iff, exists_toNatives_iff ts, isSymbolic, args,
      true_and]
  | symbolic | density | realized | coordinate =>
    rw [toNative_of_isSymbolic rfl]
    simp [isSymbolic]
  termination_by structural t

theorem exists_toNatives_iff (ts : List Term) :
    (∃ vs, toNatives ts = .ok vs) ↔ ∀ t ∈ ts, t.Ordinary := by
  cases ts with
  | nil => simp
  | cons t ts =>
    simp only [toNatives, exists_cons_eq_ok_iff, exists_toNative_iff t, exists_toNatives_iff ts,
      List.forall_mem_cons]
  termination_by structural ts

end

end Term

namespace NativeValue

open Term (toNatives)

theorem listed_functor (name : String) (args : List NativeValue) :
    (NativeValue.functor name args).listed = Term.nativeCall name (listedAll args) := by
  rw [listed]
  rcases listedAll args with - | ⟨head, - | ⟨tail, - | ⟨_, _⟩⟩⟩
  case cons.cons.nil => cases tail <;> rfl
  all_goals rfl

mutual

theorem toNative_of_toTerm {v : NativeValue} {t : Term} (h : v.toTerm = .ok t) :
    t.toNative = .ok v.listed := by
  cases v with
  | functor name args =>
    rw [toTerm, map_eq_ok_iff] at h
    obtain ⟨ts, hts, rfl⟩ := h
    rw [Term.toNative_compound, toNatives_of_toTerms hts, listed_functor]
    rfl
  | atom name =>
    cases h
    rw [listed]
    by_cases hname : name = "[]"
    · subst hname
      exact Term.toNative_nil
    · rw [if_neg hname]
      exact Term.toNative_atom hname
  | int value =>
    cases h
    exact Term.toNative_int value
  | float value =>
    cases h
    exact Term.toNative_float value
  | var name =>
    cases h
    exact Term.toNative_var name
  | list items =>
    rw [toTerm, map_eq_ok_iff] at h
    obtain ⟨ts, hts, rfl⟩ := h
    rw [Term.toNative_of_list? (Term.list?_ofList ts), toNatives_of_toTerms hts, listed]
    rfl
  | str | dict => cases h
  termination_by structural v

theorem toNatives_of_toTerms {vs : List NativeValue} {ts : List Term} (h : toTerms vs = .ok ts) :
    toNatives ts = .ok (listedAll vs) := by
  cases vs with
  | nil =>
    cases h
    exact Term.toNatives_nil
  | cons v vs =>
    rw [toTerms, cons_eq_ok_iff] at h
    obtain ⟨t, ts, ht, hts, rfl⟩ := h
    rw [Term.toNatives, toNative_of_toTerm ht, toNatives_of_toTerms hts]
    rfl
  termination_by structural vs

end

mutual

theorem exists_toTerm_iff (v : NativeValue) : (∃ t, v.toTerm = .ok t) ↔ v.Ordinary := by
  rw [ordinary_iff]
  cases v with
  | functor name vs | list vs =>
    simp only [toTerm, exists_map_eq_ok_iff, exists_toTerms_iff vs, isForeign, parts, true_and]
  | atom | int | float | var => simp [toTerm, isForeign, parts]
  | str | dict => simp [toTerm, isForeign]
  termination_by structural v

theorem exists_toTerms_iff (vs : List NativeValue) :
    (∃ ts, toTerms vs = .ok ts) ↔ ∀ v ∈ vs, v.Ordinary := by
  cases vs with
  | nil => simp [toTerms]
  | cons v vs =>
    simp only [toTerms, exists_cons_eq_ok_iff, exists_toTerm_iff v, exists_toTerms_iff vs,
      List.forall_mem_cons]
  termination_by structural vs

end

end NativeValue

/-- Exactly the terms without symbolic forms have a native value, from which the same term comes
back. Exactly the native values without strings and dictionaries have a term, from which the same
value comes back, with its lists as native lists. -/
theorem conversion_there_and_back :
    (∀ t : Term, ((∃ v, t.toNative = .ok v) ↔ ∀ s : Term, s.Occurs t → s.isSymbolic = false) ∧
      ∀ v, t.toNative = .ok v → v.toTerm = .ok t) ∧
    ∀ v : NativeValue,
      ((∃ t, v.toTerm = .ok t) ↔ ∀ w : NativeValue, w.Occurs v → w.isForeign = false) ∧
      ∀ t, v.toTerm = .ok t → t.toNative = .ok v.listed :=
  ⟨fun t => ⟨t.exists_toNative_iff, fun _ => Term.toTerm_of_toNative⟩,
    fun v => ⟨v.exists_toTerm_iff, fun _ => NativeValue.toNative_of_toTerm⟩⟩

/-- A partial list keeps its cells, and cells that end in `[]` come back as a native list. -/
theorem conversion_of_cells :
    (NativeValue.functor "." [.int 1, .var "T"]).toTerm =
      .ok (.compound "." [.constant (.int 1), .var "T"]) ∧
    (Term.ofList [.constant (.int 1), .ofList []]).toNative =
      .ok (NativeValue.functor "." [.int 1, .functor "." [.atom "[]", .atom "[]"]]).listed ∧
    (NativeValue.functor "." [.int 1, .functor "." [.atom "[]", .atom "[]"]]).listed =
      .list [.int 1, .list []] := by
  have hpartial : (Term.compound "." [.constant (.int 1), .var "T"]).toNative =
      .ok (.functor "." [.int 1, .var "T"]) := by
    rw [Term.toNative_of_not_list rfl]
    simp [Term.toNatives, Except.map, bind, Except.bind, pure, Except.pure]
  obtain ⟨hterm, hvalue⟩ := conversion_there_and_back
  refine ⟨(hterm (.compound "." [.constant (.int 1), .var "T"])).2 _ hpartial, ?_, rfl⟩
  exact (hvalue (.functor "." [.int 1, .functor "." [.atom "[]", .atom "[]"]])).2 _ rfl

end Grounding
