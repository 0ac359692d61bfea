import Std.Data.String.ToInt
import Grounding.Proofs.Term.Token

/-!
# The text of plain data

Terms made of integers, atoms and compound terms with arguments have texts that tell them apart. The
text of such a term is a row of tokens, and this row can be read from its beginning: the first token
tells the form of the term, and what follows a name tells an atom from a functor.
-/

namespace Grounding

open Token

theorem isAlphanum_of_isLower {c : Char} (h : c.isLower = true) : c.isAlphanum = true := by
  show ((c.isUpper || c.isLower) || c.isDigit) = true
  rw [h, Bool.or_true, Bool.true_or]

theorem isAlphanum_of_isDigit {c : Char} (h : c.isDigit = true) : c.isAlphanum = true := by
  show (c.isAlpha || c.isDigit) = true
  rw [h, Bool.or_true]

theorem isLower_of_isDigit {c : Char} (h : c.isDigit = true) : c.isLower = false := by
  have hle : c.val ≤ '9'.val := of_decide_eq_true (Bool.and_eq_true_iff.mp h).2
  have hnot : ¬ 'a'.val ≤ c.val := fun hge => absurd (UInt32.le_trans hge hle) (by decide)
  exact Bool.and_eq_false_iff.mpr (.inl (decide_eq_false hnot))

theorem separates_of_isAlphanum {c : Char} (h : c.isAlphanum = true ∨ c = '_') :
    c ∉ markChars ∧ c ≠ '\'' := by
  have hmarks : ('\'' :: markChars).all (fun c => !(c.isAlphanum || c = '_')) = true := by decide
  have hnot : c ∉ '\'' :: markChars := by
    intro hc
    have hneither : c.isAlphanum = false ∧ ¬ c = '_' := by
      simpa using List.all_eq_true.mp hmarks c hc
    simp [hneither.1, hneither.2] at h
  exact ⟨fun hc => hnot (List.mem_cons_of_mem _ hc), fun hc => hnot (hc ▸ List.mem_cons_self)⟩

/-- The characters of the bare names that do not start with a letter, other than `[]`. -/
def signChars : List Char := '!' :: ';' :: operatorChars

theorem separates_of_mem_signChars {c : Char} (hc : c ∈ signChars) :
    (c ∉ markChars ∧ c ≠ '\'') ∧ c.isDigit = false := by
  have hsigns : signChars.all (fun c => !markChars.contains c && c ≠ '\'' && !c.isDigit) = true := by
    decide
  simpa using List.all_eq_true.mp hsigns c hc

/-- A name without quotes, other than `[]`, is a bare word without digits or starts with a lower
case letter. -/
theorem bare_of_needsQuotes {name : String} (h : needsQuotes name = false)
    (hnil : name ≠ Term.nilName) : (bare name.toList).Proper ∧
      ((∀ c ∈ name.toList, c.isDigit = false) ∨ ∃ c ∈ name.toList.head?, c.isLower = true) := by
  unfold needsQuotes at h
  cases hname : name.toList with
  | nil =>
    rw [hname] at h
    cases h
  | cons c cs =>
    have hsigns (hall : ∀ d ∈ c :: cs, d ∈ signChars) : (bare (c :: cs)).Proper ∧
        ((∀ d ∈ c :: cs, d.isDigit = false) ∨ ∃ d ∈ (c :: cs).head?, d.isLower = true) :=
      ⟨⟨List.cons_ne_nil c cs, fun d hd => (separates_of_mem_signChars (hall d hd)).1⟩,
        .inl fun d hd => (separates_of_mem_signChars (hall d hd)).2⟩
    rw [hname] at h
    simp only [Bool.not_eq_eq_eq_not, Bool.not_false, Bool.or_eq_true, Bool.and_eq_true,
      decide_eq_true_eq, List.all_eq_true, List.contains_iff_mem] at h
    rcases h with (((rfl | rfl) | rfl) | hall) | ⟨hlower, hall⟩
    · exact absurd rfl hnil
    · refine hsigns fun d hd => ?_
      rw [← hname] at hd
      exact List.mem_singleton.mp hd ▸ List.mem_cons_self
    · refine hsigns fun d hd => ?_
      rw [← hname] at hd
      exact List.mem_singleton.mp hd ▸ List.mem_cons_of_mem _ List.mem_cons_self
    · exact hsigns fun d hd => List.mem_cons_of_mem _ (List.mem_cons_of_mem _ (hall d hd))
    · refine ⟨⟨List.cons_ne_nil c cs, fun d hd => separates_of_isAlphanum ?_⟩,
        .inr ⟨c, rfl, hlower⟩⟩
      rcases List.mem_cons.mp hd with rfl | hd
      · exact .inl (isAlphanum_of_isLower hlower)
      · exact hall d hd

/-- The digits of an integer may come after a minus sign. -/
theorem toList_repr_int (z : Int) : ∃ n : Nat, z.repr.toList = Nat.toDigits 10 n ∨
    z.repr.toList = '-' :: Nat.toDigits 10 n := by
  rw [Int.repr_eq_if]
  split
  · exact ⟨z.toNat, .inl (Nat.toList_repr)⟩
  · refine ⟨(-z).toNat, .inr ?_⟩
    rw [String.toList_append, Nat.toList_repr]
    rfl

/-- The text of an integer is a bare word that has a digit and does not start with a letter. -/
theorem bare_repr_int (z : Int) : (bare z.repr.toList).Proper ∧
    (∃ c ∈ z.repr.toList, c.isDigit = true) ∧ ∀ c ∈ z.repr.toList.head?, c.isLower = false := by
  obtain ⟨n, hn⟩ := toList_repr_int z
  have hdigit {c : Char} (hc : c ∈ Nat.toDigits 10 n) : c.isDigit = true :=
    Nat.isDigit_of_mem_toDigits (by decide) (Nat.le_refl 10) hc
  have hword {c : Char} (hc : c ∈ Nat.toDigits 10 n) : c ∉ markChars ∧ c ≠ '\'' :=
    separates_of_isAlphanum (.inl (isAlphanum_of_isDigit (hdigit hc)))
  obtain ⟨d, ds, hds⟩ := List.exists_cons_of_ne_nil (Nat.toDigits_ne_nil (n := n) (b := 10))
  have hd : d ∈ Nat.toDigits 10 n := hds ▸ List.mem_cons_self
  rcases hn with hn | hn <;> rw [hn]
  · refine ⟨⟨Nat.toDigits_ne_nil, fun c hc => hword hc⟩, ⟨d, hd, hdigit hd⟩, fun c hc => ?_⟩
    exact isLower_of_isDigit (hdigit (List.mem_of_mem_head? hc))
  · refine ⟨⟨List.cons_ne_nil _ _, fun c hc => ?_⟩,
      ⟨d, List.mem_cons_of_mem _ hd, hdigit hd⟩, fun c hc => ?_⟩
    · rcases List.mem_cons.mp hc with rfl | hc
      · decide
      · exact hword hc
    · cases hc
      rfl

/-- The tokens of a name as an atom or functor; `[]` is written with two marks. -/
def nameTokens (name : String) : List Token :=
  if needsQuotes name then [quoted name.toList]
  else if name = Term.nilName then [mark '[', mark ']']
  else [bare name.toList]

theorem nameTokens_cases (name : String) :
    (needsQuotes name = true ∧ nameTokens name = [quoted name.toList]) ∨
    (name = Term.nilName ∧ nameTokens name = [mark '[', mark ']']) ∨
    (needsQuotes name = false ∧ name ≠ Term.nilName ∧ nameTokens name = [bare name.toList]) := by
  unfold nameTokens
  split
  · next h => exact .inl ⟨h, rfl⟩
  · next h =>
    split
    · next hnil => exact .inr (.inl ⟨hnil, rfl⟩)
    · next hnil => exact .inr (.inr ⟨eq_false_of_ne_true h, hnil, rfl⟩)

theorem render_nameTokens (name : String) : render (nameTokens name) = (nameText name).toList := by
  unfold nameText
  rcases nameTokens_cases name with ⟨h, hts⟩ | ⟨rfl, hts⟩ | ⟨h, -, hts⟩ <;> rw [hts]
  · rw [if_pos h]
    simp [render, chars]
  · rfl
  · rw [if_neg (by simp [h])]
    simp [render, chars]

theorem wellSpaced_nameTokens (name : String) : WellSpaced (nameTokens name) := by
  rcases nameTokens_cases name with ⟨-, hts⟩ | ⟨-, hts⟩ | ⟨h, hnil, hts⟩ <;> rw [hts]
  · exact .single trivial
  · exact .cons_mark (by decide) (.single (show ']' ∈ markChars by decide))
  · exact .single (bare_of_needsQuotes h hnil).1

variable {m n : String} {r s : List Token} {z : Int}

theorem nameTokens_inj (h : nameTokens m ++ r = nameTokens n ++ s) : m = n ∧ r = s := by
  rcases nameTokens_cases m with ⟨-, hm⟩ | ⟨hmnil, hm⟩ | ⟨-, -, hm⟩ <;>
    rcases nameTokens_cases n with ⟨-, hn⟩ | ⟨hnnil, hn⟩ | ⟨-, -, hn⟩ <;>
    rw [hm, hn] at h <;>
    simp only [List.cons_append, List.nil_append, List.cons.injEq, quoted.injEq, bare.injEq,
      String.toList_inj, reduceCtorEq, false_and, true_and] at h
  · exact h
  · exact ⟨hmnil.trans hnnil.symm, h⟩
  · exact h

theorem nameTokens_ne_int : nameTokens n ++ r ≠ bare z.repr.toList :: s := by
  intro h
  obtain ⟨-, ⟨d, hd, hdigit⟩, hlower⟩ := bare_repr_int z
  rcases nameTokens_cases n with ⟨-, hn⟩ | ⟨rfl, hn⟩ | ⟨hq, hnil, hn⟩ <;> rw [hn] at h
  · cases h
  · cases h
  · obtain ⟨hword, -⟩ := List.cons_eq_cons.mp h
    rw [bare.injEq] at hword
    rcases (bare_of_needsQuotes hq hnil).2 with hnone | ⟨c, hc, hclower⟩
    · rw [hnone d (hword ▸ hd)] at hdigit
      cases hdigit
    · rw [hlower c (hword ▸ hc)] at hclower
      cases hclower

/-- Only `[]` begins with a bracket, and the other bracket follows. -/
theorem nameTokens_bracket (h : nameTokens n ++ r = mark '[' :: s) : s = mark ']' :: r := by
  rcases nameTokens_cases n with ⟨-, hn⟩ | ⟨rfl, hn⟩ | ⟨-, -, hn⟩ <;> rw [hn] at h <;> cases h
  rfl

/-- The tokens of a functor with the tokens of its arguments. -/
def callTokens (functor : String) (args : List (List Token)) : List Token :=
  nameTokens functor ++ mark '(' :: ([mark ','].intercalate args ++ [mark ')'])

namespace Term

mutual

/-- The tokens of a term of plain data by itself, or of what follows the items of a list when the
term is the tail. -/
def tokensAt (asTail : Bool) : Term → List Token
  | .constant n => bar asTail ++ [bare n.text.toList]
  | .atom name => if asTail && name = nilName then [] else bar asTail ++ nameTokens name
  | .compound functor [head, tail] =>
    if functor = cellFunctor then
      let items := head.tokensAt false ++ tail.tokensAt true
      if asTail then mark ',' :: items else mark '[' :: items ++ [mark ']']
    else bar asTail ++ callTokens functor [head.tokensAt false, tail.tokensAt false]
  | .compound functor args => bar asTail ++ callTokens functor (tokensOf args)
  | _ => []
where
  /-- Separates a tail that is no list from the items. -/
  bar : Bool → List Token
    | true => [mark '|']
    | false => []

/-- The tokens of each term of a list. -/
def tokensOf : List Term → List (List Token)
  | [] => []
  | t :: ts => t.tokensAt false :: tokensOf ts

end

theorem tokensOf_eq_map (ts : List Term) : tokensOf ts = ts.map (tokensAt false) := by
  induction ts with
  | nil => rfl
  | cons t ts ih => rw [tokensOf, ih, List.map_cons]

/-- Integers, atoms and compound terms with at least one argument, throughout. -/
inductive Plain : Term → Prop
  | int (i : Int64) : Plain (.constant (.int i))
  | atom (name : String) : Plain (.atom name)
  | compound (functor : String) (args : List Term) (hne : args ≠ []) (hargs : ∀ a ∈ args, Plain a) :
    Plain (.compound functor args)

/-- A compound term that is written as a functor with its arguments, not with brackets. -/
def Calls (functor : String) (args : List Term) : Prop :=
  args ≠ [] ∧ ∀ head tail, args = [head, tail] → functor ≠ cellFunctor

theorem Plain.cell {head tail : Term} (hhead : head.Plain) (htail : tail.Plain) :
    (cell head tail).Plain :=
  .compound _ _ (List.cons_ne_nil _ _) (by simpa using ⟨hhead, htail⟩)

/-- Plain data has four forms when it is written. -/
@[elab_as_elim]
theorem Plain.induct {motive : ∀ t : Term, t.Plain → Prop} (int : ∀ i, motive _ (.int i))
    (atom : ∀ name, motive _ (.atom name))
    (cell : ∀ head tail (hhead : head.Plain) (htail : tail.Plain), motive head hhead →
      motive tail htail → motive _ (hhead.cell htail))
    (call : ∀ functor args (hcalls : Calls functor args) (hargs : ∀ a ∈ args, a.Plain),
      (∀ a (ha : a ∈ args), motive a (hargs a ha)) → motive _ (.compound functor args hcalls.1 hargs))
    {t : Term} (ht : t.Plain) : motive t ht := by
  induction ht with
  | int i => exact int i
  | atom name => exact atom name
  | compound functor args hne hargs ih =>
    by_cases hcell : functor = cellFunctor ∧ ∃ head tail, args = [head, tail]
    · obtain ⟨rfl, head, tail, rfl⟩ := hcell
      exact cell head tail (hargs _ (by simp)) (hargs _ (by simp)) (ih _ (by simp)) (ih _ (by simp))
    · refine call functor args ⟨hne, fun head tail heq hfunctor => ?_⟩ hargs ih
      exact hcell ⟨hfunctor, head, tail, heq⟩

variable {functor : String} {args : List Term} {asTail : Bool}

theorem textAt_call (h : Calls functor args) (asTail : Bool) :
    (compound functor args).textAt asTail =
      textAt.bar asTail ++ callText functor (texts args) := by
  rcases args with - | ⟨a, - | ⟨b, - | ⟨c, args⟩⟩⟩
  · exact absurd rfl h.1
  · rfl
  · rw [textAt, if_neg (h.2 a b rfl)]
    rfl
  · rfl

theorem tokensAt_call (h : Calls functor args) (asTail : Bool) :
    (compound functor args).tokensAt asTail =
      tokensAt.bar asTail ++ callTokens functor (args.map (tokensAt false)) := by
  rw [← tokensOf_eq_map]
  rcases args with - | ⟨a, - | ⟨b, - | ⟨c, args⟩⟩⟩
  · exact absurd rfl h.1
  · rfl
  · rw [tokensAt, if_neg (h.2 a b rfl)]
    rfl
  · rfl

theorem render_intercalate (rows : List (List Token)) :
    render ([mark ','].intercalate rows) = [','].intercalate (rows.map render) := by
  rcases rows with - | ⟨row, rows⟩
  · rfl
  · induction rows generalizing row with
    | nil => simp
    | cons row' rows ih =>
      rw [List.intercalate_cons_cons, render_append, render_append, ih]
      simp only [List.map_cons, List.intercalate_cons_cons]
      rfl

theorem render_callTokens {texts : List String} {rows : List (List Token)} (hne : texts ≠ [])
    (h : rows.map render = texts.map String.toList) :
    render (callTokens functor rows) = (callText functor texts).toList := by
  rw [callText, if_neg (by simpa using hne), callTokens, render_append, render_nameTokens]
  simp only [String.toList_append, List.append_assoc]
  rw [argsText, String.toList_intercalate, ← h, ← List.singleton_append, render_append,
    render_append, render_intercalate]
  rfl

theorem render_bar (asTail : Bool) : render (tokensAt.bar asTail) = (textAt.bar asTail).toList := by
  cases asTail <;> rfl

theorem render_tokensAt {t : Term} (ht : t.Plain) (asTail : Bool) :
    render (t.tokensAt asTail) = (t.textAt asTail).toList := by
  induction ht using Plain.induct generalizing asTail with
  | int i =>
    rw [tokensAt, textAt, render_append, String.toList_append, render_bar]
    simp [render, chars]
  | atom name =>
    rw [tokensAt, textAt]
    split
    · rfl
    · rw [render_append, String.toList_append, render_bar, render_nameTokens]
  | cell head tail _ _ hhead htail =>
    have hitems : render (head.tokensAt false ++ tail.tokensAt true) =
        (head.textAt false ++ tail.textAt true).toList := by
      rw [render_append, String.toList_append, hhead, htail]
    cases asTail with
    | true =>
      show render (mark ',' :: _) = ("," ++ _).toList
      rw [String.toList_append, ← hitems]
      rfl
    | false =>
      show render ([mark '['] ++ _ ++ [mark ']']) = ("[" ++ _ ++ "]").toList
      rw [String.toList_append, String.toList_append, ← hitems, render_append, render_append]
      rfl
  | call functor args hcalls hargs ih =>
    have hrows : (args.map (tokensAt false)).map render = (args.map text).map String.toList := by
      rw [List.map_map, List.map_map]
      exact List.map_congr_left fun a ha => ih a ha false
    rw [tokensAt_call hcalls, textAt_call hcalls, texts_eq_map, render_append,
      String.toList_append, render_bar, render_callTokens (by simpa using hcalls.1) hrows]

/-- The row of the tail of a list: nothing for the empty list, a comma and further items for a cell,
and any other term after a bar. -/
theorem tail_cases {t : Term} (ht : t.Plain) :
    (t = nil ∧ t.tokensAt true = []) ∨
    (∃ head tail, head.Plain ∧ tail.Plain ∧ t = cell head tail ∧
      t.tokensAt true = mark ',' :: (head.tokensAt false ++ tail.tokensAt true)) ∨
    t.tokensAt true = mark '|' :: t.tokensAt false := by
  cases ht using Plain.induct with
  | int i => exact .inr (.inr rfl)
  | atom name =>
    by_cases hnil : name = nilName
    · subst hnil
      exact .inl ⟨rfl, rfl⟩
    · refine .inr (.inr ?_)
      simp [tokensAt, hnil, tokensAt.bar]
  | cell head tail hhead htail => exact .inr (.inl ⟨head, tail, hhead, htail, rfl, rfl⟩)
  | call functor args hcalls =>
    refine .inr (.inr ?_)
    rw [tokensAt_call hcalls, tokensAt_call hcalls]
    rfl

theorem wellSpaced_callTokens {rows : List (List Token)} (h : ∀ row ∈ rows, WellSpaced row) :
    WellSpaced (callTokens functor rows) := by
  have hclose : WellSpaced [mark ')'] := .single (show ')' ∈ markChars by decide)
  have hrows : WellSpaced ([mark ','].intercalate rows ++ [mark ')']) := by
    rcases rows with - | ⟨row, rows⟩
    · exact hclose
    · induction rows generalizing row with
      | nil => simpa using (h row (by simp)).append hclose (by simp [isWord])
      | cons row' rows ih =>
        rw [List.forall_mem_cons] at h
        rw [List.intercalate_cons_cons, List.append_assoc, List.append_assoc]
        exact h.1.append (.cons_mark (by decide) (ih row' h.2)) (by simp [isWord])
  exact (wellSpaced_nameTokens functor).append (.cons_mark (by decide) hrows) (by simp [isWord])

theorem wellSpaced_bar {ts : List Token} (h : WellSpaced ts) (asTail : Bool) :
    WellSpaced (tokensAt.bar asTail ++ ts) := by
  cases asTail with
  | true => exact h.cons_mark (by decide)
  | false => exact h

theorem wellSpaced_tokensAt {t : Term} (ht : t.Plain) (asTail : Bool) :
    WellSpaced (t.tokensAt asTail) := by
  induction ht using Plain.induct generalizing asTail with
  | int i => exact wellSpaced_bar (.single (bare_repr_int i.toInt).1) asTail
  | atom name =>
    rw [tokensAt]
    split
    · exact ⟨by simp, .nil⟩
    · exact wellSpaced_bar (wellSpaced_nameTokens name) asTail
  | cell head tail _ htail hhead' htail' =>
    have hitems : WellSpaced (head.tokensAt false ++ tail.tokensAt true) := by
      refine (hhead' false).append (htail' true) ?_
      rcases tail_cases htail with ⟨-, h⟩ | ⟨_, _, -, -, -, h⟩ | h <;> rw [h] <;> simp [isWord]
    cases asTail with
    | true => exact hitems.cons_mark (by decide)
    | false =>
      exact (hitems.cons_mark (by decide)).append (.single (show ']' ∈ markChars by decide))
        (by simp [isWord])
  | call functor args hcalls hargs ih =>
    rw [tokensAt_call hcalls]
    refine wellSpaced_bar (wellSpaced_callTokens ?_) asTail
    rw [List.forall_mem_map]
    exact fun a ha => ih a ha false

theorem tokensAt_cell (head tail : Term) (r : List Token) :
    (cell head tail).tokensAt false ++ r =
      mark '[' :: (head.tokensAt false ++ (tail.tokensAt true ++ mark ']' :: r)) := by
  show mark '[' :: (head.tokensAt false ++ tail.tokensAt true) ++ [mark ']'] ++ r = _
  simp

/-- What follows a term is no argument list. -/
def Ended (ts : List Token) : Prop := ts.head? ≠ some (mark '(')

theorem ended_mark {c : Char} (hc : c ≠ '(') : Ended (mark c :: r) := by
  simpa [Ended] using hc

theorem ended_tail {t : Term} (ht : t.Plain) : Ended (t.tokensAt true ++ mark ']' :: r) := by
  rcases tail_cases ht with ⟨-, h⟩ | ⟨_, _, -, -, -, h⟩ | h <;> rw [h] <;>
    exact ended_mark (by decide)

theorem tokensAt_ne_bracket {t : Term} (ht : t.Plain) :
    t.tokensAt false ++ r ≠ mark ']' :: s := by
  have hname {name : String} {r s : List Token} : nameTokens name ++ r ≠ mark ']' :: s := by
    rcases nameTokens_cases name with ⟨-, h⟩ | ⟨-, h⟩ | ⟨-, -, h⟩ <;> rw [h] <;> simp
  cases ht using Plain.induct with
  | int i => exact nofun
  | atom name => exact hname
  | cell head tail => rw [tokensAt_cell]; exact nofun
  | call functor args hcalls =>
    rw [tokensAt_call hcalls]
    show callTokens _ _ ++ r ≠ _
    rw [callTokens, List.append_assoc]
    exact hname

/-- Only a cell begins with a bracket that a term follows. -/
theorem nameTokens_ne_cell {name : String} {head : Term} (hhead : head.Plain) (tail : Term) :
    nameTokens name ++ r ≠ (cell head tail).tokensAt false ++ s := by
  rw [tokensAt_cell]
  intro h
  exact tokensAt_ne_bracket hhead (nameTokens_bracket h)

/-- The tokens of a term, by itself or as a tail, tell the term and where it ends. -/
structure Readable (t : Term) : Prop where
  alone : ∀ {u r s}, u.Plain → Ended r → Ended s →
    t.tokensAt false ++ r = u.tokensAt false ++ s → t = u ∧ r = s
  asTail : ∀ {u r s}, u.Plain →
    t.tokensAt true ++ mark ']' :: r = u.tokensAt true ++ mark ']' :: s → t = u ∧ r = s

/-- Arguments are parted by commas up to the closing parenthesis. -/
theorem args_inj {as bs : List Term} (has : as ≠ []) (hbs : bs ≠ [])
    (hread : ∀ a ∈ as, a.Readable) (hplain : ∀ b ∈ bs, b.Plain)
    (h : [mark ','].intercalate (as.map (tokensAt false)) ++ mark ')' :: r =
      [mark ','].intercalate (bs.map (tokensAt false)) ++ mark ')' :: s) : as = bs ∧ r = s := by
  induction as generalizing bs with
  | nil => exact absurd rfl has
  | cons a as ih =>
    rcases bs with - | ⟨b, bs⟩
    · exact absurd rfl hbs
    rw [List.forall_mem_cons] at hread hplain
    rcases as with - | ⟨a', as⟩ <;> rcases bs with - | ⟨b', bs⟩ <;>
      simp only [List.map_cons, List.map_nil, List.intercalate_singleton,
        List.intercalate_cons_cons, List.append_assoc, List.singleton_append] at h <;>
      obtain ⟨rfl, hrest⟩ := hread.1.alone hplain.1 (ended_mark (by decide))
        (ended_mark (by decide)) h
    · exact ⟨rfl, (List.cons_eq_cons.mp hrest).2⟩
    · cases hrest
    · cases hrest
    · obtain ⟨heq, hrs⟩ := ih (by simp) (by simp) hread.2 hplain.2
        (by simpa using (List.cons_eq_cons.mp hrest).2)
      exact ⟨congrArg (a :: ·) heq, hrs⟩

theorem tokensAt_call_append (h : Calls functor args) (r : List Token) :
    (compound functor args).tokensAt false ++ r = nameTokens functor ++ mark '(' ::
      ([mark ','].intercalate (args.map (tokensAt false)) ++ mark ')' :: r) := by
  rw [tokensAt_call h]
  show callTokens _ _ ++ r = _
  simp [callTokens]

theorem cell_inj {head tail head' tail' : Term} (hhead : head.Readable) (htail : tail.Readable)
    (htailPlain : tail.Plain) (hhead' : head'.Plain) (htail' : tail'.Plain)
    (h : head.tokensAt false ++ (tail.tokensAt true ++ mark ']' :: r) =
      head'.tokensAt false ++ (tail'.tokensAt true ++ mark ']' :: s)) :
    cell head tail = cell head' tail' ∧ r = s := by
  obtain ⟨rfl, hrest⟩ := hhead.alone hhead' (ended_tail htailPlain) (ended_tail htail') h
  obtain ⟨rfl, hrs⟩ := htail.asTail htail' hrest
  exact ⟨rfl, hrs⟩

/-- A term that can be read by itself can be read as a tail, when the parts of a cell can. -/
theorem readable_of_alone {t : Term} (ht : t.Plain)
    (hcell : ∀ head tail, t = cell head tail → head.Readable ∧ tail.Readable)
    (halone : ∀ {u r s}, u.Plain → Ended r → Ended s →
      t.tokensAt false ++ r = u.tokensAt false ++ s → t = u ∧ r = s) : t.Readable where
  alone := halone
  asTail := by
    intro u r s hu h
    rcases tail_cases ht with ⟨hnil, hts⟩ | ⟨head, tail, -, htail, rfl, hts⟩ | hts <;>
      rcases tail_cases hu with ⟨hunil, hus⟩ | ⟨head', tail', hhead', htail', rfl, hus⟩ | hus <;>
      rw [hts, hus] at h
    case inl.inl => exact ⟨hnil.trans hunil.symm, (List.cons_eq_cons.mp h).2⟩
    case inr.inl.inr.inl =>
      rw [List.cons_append, List.cons_append, List.append_assoc, List.append_assoc] at h
      obtain ⟨hreadHead, hreadTail⟩ := hcell head tail rfl
      exact cell_inj hreadHead hreadTail htail hhead' htail' (List.cons_eq_cons.mp h).2
    case inr.inr.inr.inr =>
      obtain ⟨htu, hrs⟩ := halone hu (ended_mark (by decide)) (ended_mark (by decide))
        (List.cons_eq_cons.mp h).2
      exact ⟨htu, (List.cons_eq_cons.mp hrs).2⟩
    all_goals cases h

theorem readable_of_plain {t : Term} (ht : t.Plain) : t.Readable := by
  induction ht using Plain.induct with
  | int i =>
    refine readable_of_alone (.int i) nofun fun hu _ _ h => ?_
    cases hu using Plain.induct with
    | int j =>
      obtain ⟨hword, hrs⟩ := List.cons_eq_cons.mp h
      rw [bare.injEq, String.toList_inj] at hword
      exact ⟨by rw [Int64.toInt_inj.mp (Int.repr_inj.mp hword)], hrs⟩
    | atom name => exact absurd h.symm nameTokens_ne_int
    | cell head tail => cases h
    | call functor args hcalls =>
      rw [tokensAt_call_append hcalls] at h
      exact absurd h.symm nameTokens_ne_int
  | atom name =>
    refine readable_of_alone (.atom name) nofun fun hu hr hs h => ?_
    cases hu using Plain.induct with
    | int j => exact absurd h nameTokens_ne_int
    | atom name' =>
      obtain ⟨rfl, hrs⟩ := nameTokens_inj h
      exact ⟨rfl, hrs⟩
    | cell head tail hhead => exact absurd h (nameTokens_ne_cell hhead tail)
    | call functor args hcalls =>
      rw [tokensAt_call_append hcalls] at h
      exact absurd (congrArg List.head? (nameTokens_inj h).2) hr
  | cell head tail hhead htail ihHead ihTail =>
    refine readable_of_alone (hhead.cell htail) ?_ fun hu hr hs h => ?_
    · intro head' tail' heq
      cases heq
      exact ⟨ihHead, ihTail⟩
    cases hu using Plain.induct with
    | int j => cases h
    | atom name => exact absurd h.symm (nameTokens_ne_cell hhead tail)
    | cell head' tail' hhead' htail' =>
      rw [tokensAt_cell, tokensAt_cell] at h
      exact cell_inj ihHead ihTail htail hhead' htail' (List.cons_eq_cons.mp h).2
    | call functor args hcalls =>
      rw [tokensAt_call_append hcalls] at h
      exact absurd h.symm (nameTokens_ne_cell hhead tail)
  | call functor args hcalls hargs ih =>
    refine readable_of_alone (.compound functor args hcalls.1 hargs) ?_ fun hu hr hs h => ?_
    · intro head tail heq
      cases heq
      exact absurd rfl (hcalls.2 head tail rfl)
    rw [tokensAt_call_append hcalls] at h
    cases hu using Plain.induct with
    | int j => exact absurd h nameTokens_ne_int
    | atom name => exact absurd (congrArg List.head? (nameTokens_inj h).2).symm hs
    | cell head tail hhead => exact absurd h (nameTokens_ne_cell hhead tail)
    | call functor' args' hcalls' hargs' =>
      rw [tokensAt_call_append hcalls'] at h
      obtain ⟨rfl, hrest⟩ := nameTokens_inj h
      obtain ⟨rfl, hrs⟩ := args_inj hcalls.1 hcalls'.1 ih hargs' (List.cons_eq_cons.mp hrest).2
      exact ⟨rfl, hrs⟩

end Term

/-- Two terms of plain data with the same text are the same. -/
theorem plain_eq_of_text_eq {t u : Term} (ht : t.Plain) (hu : u.Plain) (h : t.text = u.text) : t = u := by
  have hrender : render (t.tokensAt false) = render (u.tokensAt false) := by
    rw [Term.render_tokensAt ht, Term.render_tokensAt hu]
    exact congrArg String.toList h
  have htokens := render_inj (Term.wellSpaced_tokensAt ht false) (Term.wellSpaced_tokensAt hu false)
    hrender
  refine ((Term.readable_of_plain ht).alone (r := []) (s := []) hu nofun nofun ?_).1
  rw [htokens]

/-- A list by its items and by its cells, with a name that ends in a backslash and one that has a
comma and a quote. -/
theorem plain_eq_of_cells :
    (Term.ofList [.atom "a\\", .atom ",'"]).text = "['a\\',',\\'']" ∧
    Term.ofList [.atom "a\\", .atom ",'"] =
      .compound "." [.atom "a\\", .compound "." [.atom ",'", .atom "[]"]] := by
  have hplain : (Term.ofList [.atom "a\\", .atom ",'"]).Plain :=
    .cell (.atom _) (.cell (.atom _) (.atom _))
  exact ⟨by decide +kernel, plain_eq_of_text_eq hplain hplain rfl⟩

end Grounding
