import Mathlib.Data.List.TakeWhile
import Mathlib.Data.Option.Basic
import Grounding.Settings.Document

/-!
# The documents of settings

A document is a set of assignments: the order of its lines makes no difference, and neither do blank
lines and comments. Every key is optional. For each choice of keys with their values there is a
document that assigns just these, and it is read as the settings that have them and the defaults for
the rest, as long as the limit fits a machine word. No document gives a greater limit.

Of the ways to write a value only one is covered for each: `true` and `false`, and decimal digits
without a sign, a prefix or underscores.
-/

namespace Grounding.Settings

theorem foldlM_eq_of_perm {α β : Type} {f : β → α → Option β} {l l' : List α} (h : l.Perm l')
    (hcomm : ∀ b x y, ((f b x).bind fun b => f b y) = (f b y).bind fun b => f b x) (b : β) :
    l.foldlM f b = l'.foldlM f b := by
  induction h generalizing b with
  | nil => rfl
  | cons x _ ih =>
    rw [List.foldlM_cons, List.foldlM_cons]
    exact congrArg ((f b x).bind ·) (funext ih)
  | swap x y l =>
    simp only [List.foldlM_cons, Option.bind_eq_bind, ← Option.bind_assoc]
    rw [hcomm]
  | trans _ _ ih ih' => rw [ih, ih']

theorem digit?_of_isDigit {c : Char} (h : c.isDigit = true) :
    digit? 10 c = some (c.toNat - '0'.toNat) := by
  have hbound : c.toNat ≤ 57 := (Char.isDigit_iff_toNat.mp h).2
  have hzero : '0'.toNat = 48 := rfl
  simp only [digit?, h, if_true]
  exact Option.filter_some_pos (decide_eq_true (by omega))

theorem digitsFrom_of_isDigit {cs : List Char} (h : ∀ c ∈ cs, c.isDigit = true) (acc : Nat) :
    digitsFrom 10 acc cs = some (Nat.ofDigitChars 10 cs acc) := by
  induction cs generalizing acc with
  | nil => rfl
  | cons c cs ih =>
    obtain ⟨hc, hcs⟩ := List.forall_mem_cons.mp h
    have hunderscore : c ≠ '_' := by
      rintro rfl
      exact absurd hc (by decide)
    rw [digitsFrom.eq_def, Nat.ofDigitChars_cons, Nat.mul_comm]
    simp [hunderscore, digit?_of_isDigit hc, ih hcs]

theorem isDigit_of_mem_toDigits (n : Nat) : ∀ c ∈ Nat.toDigits 10 n, c.isDigit = true :=
  fun _ => Nat.isDigit_of_mem_toDigits (by decide) (Nat.le_refl 10)

theorem head?_toDigits_ne_zero (n : Nat) (hn : n ≠ 0) : (Nat.toDigits 10 n).head? ≠ some '0' := by
  induction n using Nat.strongRecOn with
  | ind n ih =>
    by_cases hlt : n < 10
    · have hsmall : ∀ m < 10, m ≠ 0 → [m.digitChar].head? ≠ some '0' := by decide
      rw [Nat.toDigits_of_lt_base hlt]
      exact hsmall n hlt hn
    · rw [Nat.toDigits_of_base_le (by decide) (Nat.le_of_not_lt hlt), List.head?_append,
        List.head?_eq_some_head Nat.toDigits_ne_nil, Option.some_or,
        ← List.head?_eq_some_head Nat.toDigits_ne_nil]
      exact ih (n / 10) (by omega) (by omega)

theorem decimal?_toDigits (n : Nat) : decimal? (Nat.toDigits 10 n) = some n := by
  have hdigit := isDigit_of_mem_toDigits n
  have hread : Nat.ofDigitChars 10 (Nat.toDigits 10 n) 0 = n :=
    Nat.ofDigitChars_toDigits (by decide) (Nat.le_refl 10)
  have hzero : ¬ (2 ≤ (Nat.toDigits 10 n).length ∧ (Nat.toDigits 10 n).head? = some '0') := by
    rintro ⟨hlength, hhead⟩
    by_cases hn : n = 0
    · subst hn
      exact absurd hlength (by decide)
    · exact head?_toDigits_ne_zero n hn hhead
  obtain ⟨c, cs, hcs⟩ := List.exists_cons_of_ne_nil (Nat.toDigits_ne_nil (n := n) (b := 10))
  rw [hcs] at hdigit hread hzero ⊢
  obtain ⟨hc, htail⟩ := List.forall_mem_cons.mp hdigit
  simp only [decimal?, Bool.and_eq_true, decide_eq_true_eq, if_neg hzero, digits?,
    digit?_of_isDigit hc, Option.bind_some, digitsFrom_of_isDigit htail]
  rw [← hread, Nat.ofDigitChars_cons, Nat.mul_zero, Nat.zero_add]

/-- No digit is a letter or a sign, so digits alone are read as a decimal number. -/
theorem integer?_of_isDigit {cs : List Char} (h : ∀ c ∈ cs, c.isDigit = true) :
    integer? cs = (decimal? cs).map Int.ofNat := by
  rw [integer?.eq_def]
  split
  case h_1 => exact absurd (h 'x' (by simp)) (by decide)
  case h_2 => exact absurd (h 'o' (by simp)) (by decide)
  case h_3 => exact absurd (h 'b' (by simp)) (by decide)
  case h_4 => exact absurd (h '-' (by simp)) (by decide)
  case h_5 => exact absurd (h '+' (by simp)) (by decide)
  case h_6 => rfl

theorem limit?_toDigits {n : Nat} (h : n ≤ 0x7fffffffffffffff) :
    limit? (Nat.toDigits 10 n) = some n := by
  have hbounds : 0 ≤ Int.ofNat n ∧ Int.ofNat n ≤ 0x7fffffffffffffff :=
    ⟨Int.natCast_nonneg n, Int.ofNat_le.mpr h⟩
  rw [limit?, integer?_of_isDigit (isDigit_of_mem_toDigits n), decimal?_toDigits, Option.map_some,
    Option.bind_some, if_pos hbounds]
  rfl

theorem le_of_limit? {text : List Char} {n : Nat} (h : limit? text = some n) :
    n ≤ 0x7fffffffffffffff := by
  rw [limit?, Option.bind_eq_some_iff] at h
  obtain ⟨z, -, hz⟩ := h
  rw [Option.ite_none_right_eq_some] at hz
  obtain ⟨hbounds, hvalue⟩ := hz
  have hn : z.toNat = n := Option.some.inj hvalue
  omega

theorem ne_of_isBareKeyChar {c d : Char} (hc : isBareKeyChar c = true)
    (hd : isBareKeyChar d = false) : c ≠ d := by
  rintro rfl
  rw [hc] at hd
  cases hd

theorem isBareKeyChar_of_mem_toDigits (n : Nat) :
    ∀ c ∈ Nat.toDigits 10 n, isBareKeyChar c = true := by
  intro c hc
  simp [isBareKeyChar, Char.isAlphanum, isDigit_of_mem_toDigits n c hc]

/-- One assignment as a line. -/
def assignmentLine (key : String) (text : List Char) : List Char :=
  key.toList ++ ' ' :: '=' :: ' ' :: text

theorem ne_of_mem_assignmentLine {key : String} {text : List Char} {c : Char}
    (hkey : ∀ c ∈ key.toList, isBareKeyChar c = true)
    (htext : ∀ c ∈ text, isBareKeyChar c = true) (hc : c ∈ assignmentLine key text) :
    c ≠ '\n' ∧ c ≠ '\r' := by
  have hbare {c : Char} (h : isBareKeyChar c = true) : c ≠ '\n' ∧ c ≠ '\r' :=
    ⟨ne_of_isBareKeyChar h (by decide), ne_of_isBareKeyChar h (by decide)⟩
  simp only [assignmentLine, List.mem_append, List.mem_cons] at hc
  obtain hc | rfl | rfl | rfl | hc := hc
  · exact hbare (hkey c hc)
  · decide
  · decide
  · decide
  · exact hbare (htext c hc)

section AssignmentLine

variable {key : String} {text : List Char} (hkey : ∀ c ∈ key.toList, isBareKeyChar c = true)
  (hne : key.toList ≠ []) (htext : ∀ c ∈ text, isBareKeyChar c = true)

include hkey hne

theorem key?_of_isBareKeyChar (rest : List Char) :
    key? (key.toList ++ ' ' :: rest) = some (key.toList, ' ' :: rest) := by
  have htake : (key.toList ++ ' ' :: rest).takeWhile isBareKeyChar = key.toList := by
    rw [List.takeWhile_append_of_pos hkey, List.takeWhile_cons_of_neg (by decide),
      List.append_nil]
  have hdrop : (key.toList ++ ' ' :: rest).dropWhile isBareKeyChar = ' ' :: rest := by
    rw [List.dropWhile_append_of_pos hkey, List.dropWhile_cons_of_neg (by decide)]
  obtain ⟨c, cs, hcs⟩ := List.exists_cons_of_ne_nil hne
  have hc : isBareKeyChar c = true := hkey c (hcs ▸ List.mem_cons_self)
  rw [key?.eq_def]
  split
  case h_1 heq =>
    rw [hcs] at heq
    exact absurd (List.cons.inj heq).1 (ne_of_isBareKeyChar hc (by decide))
  case h_2 heq =>
    rw [hcs] at heq
    exact absurd (List.cons.inj heq).1 (ne_of_isBareKeyChar hc (by decide))
  case h_3 => rw [htake, hdrop, List.isEmpty_eq_false_iff.mpr hne, if_neg Bool.false_ne_true]

theorem dropWhile_isBlank_assignmentLine :
    (assignmentLine key text).dropWhile isBlank = assignmentLine key text := by
  obtain ⟨c, cs, hcs⟩ := List.exists_cons_of_ne_nil hne
  have hc : isBareKeyChar c = true := hkey c (hcs ▸ List.mem_cons_self)
  have hblank : isBlank c = false := by
    simp [isBlank, ne_of_isBareKeyChar hc (d := ' ') (by decide),
      ne_of_isBareKeyChar hc (d := '\t') (by decide)]
  rw [assignmentLine, hcs, List.cons_append, List.dropWhile_cons_of_neg (by simp [hblank])]

theorem endsLine_assignmentLine : endsLine (assignmentLine key text) = false := by
  rw [endsLine, dropWhile_isBlank_assignmentLine hkey hne]
  obtain ⟨c, cs, hcs⟩ := List.exists_cons_of_ne_nil hne
  have hc : isBareKeyChar c = true := hkey c (hcs ▸ List.mem_cons_self)
  simp [assignmentLine, hcs, ne_of_isBareKeyChar hc (d := '#') (by decide)]

include htext

theorem assignment?_assignmentLine :
    assignment? (assignmentLine key text) = some (key, text) := by
  have hword : ∀ c ∈ text, (!(isBlank c || c = '#')) = true := by
    intro c hc
    simp [isBlank, ne_of_isBareKeyChar (htext c hc) (d := ' ') (by decide),
      ne_of_isBareKeyChar (htext c hc) (d := '\t') (by decide),
      ne_of_isBareKeyChar (htext c hc) (d := '#') (by decide)]
  have hblank : (' ' :: text).dropWhile isBlank = text := by
    rw [List.dropWhile_cons_of_pos (by decide), List.dropWhile_eq_self_iff]
    intro hlength hblank
    have := hword _ (List.getElem_mem hlength)
    simp [hblank] at this
  have htake : text.takeWhile (fun c => !(isBlank c || c = '#')) = text :=
    List.takeWhile_eq_self_iff.mpr hword
  have hdrop : text.dropWhile (fun c => !(isBlank c || c = '#')) = [] :=
    List.dropWhile_eq_nil_iff.mpr hword
  have hequals : (' ' :: '=' :: ' ' :: text).dropWhile isBlank = '=' :: ' ' :: text := rfl
  simp only [assignment?, assignmentLine, key?_of_isBareKeyChar hkey hne, Option.bind_eq_bind,
    Option.bind_some, hequals, hblank, htake, hdrop, String.ofList_toList]
  rfl

end AssignmentLine

/-- Lines that each end in a line feed. -/
def unlines (lines : List (List Char)) : List Char :=
  lines.flatMap fun line => line ++ ['\n']

/-- A line ends at the first line feed, and what follows the last one is a line too. -/
theorem documentLines_unlines {lines : List (List Char)}
    (h : ∀ line ∈ lines, ∀ c ∈ line, c ≠ '\n' ∧ c ≠ '\r') :
    documentLines (unlines lines) = lines ++ [[]] := by
  have hline (line rest : List Char) (h : ∀ c ∈ line, c ≠ '\n' ∧ c ≠ '\r') :
      documentLines (line ++ '\n' :: rest) = line :: documentLines rest := by
    induction line with
    | nil => rfl
    | cons c line ih =>
      obtain ⟨⟨hfeed, hreturn⟩, hline⟩ := List.forall_mem_cons.mp h
      rw [List.cons_append, documentLines.eq_def]
      simp [hreturn, ih hline]
  induction lines with
  | nil => rfl
  | cons line lines ih =>
    obtain ⟨hhead, htail⟩ := List.forall_mem_cons.mp h
    rw [unlines, List.flatMap_cons, List.append_assoc, List.singleton_append, ← unlines,
      hline line _ hhead, ih htail, List.cons_append]

namespace Assigned

variable {a b c : Assigned} {key key' : String} {line text text' : List Char}

/-- All that an assignment can do. Nothing is assigned twice. -/
theorem assign_eq_some_iff : a.assign key text = some b ↔
    (key = "keep_builtins" ∧ a.keepBuiltins = none ∧
      ∃ value, boolean? text = some value ∧ b = { a with keepBuiltins := some value }) ∨
    (key = "max_cartesian_results" ∧ a.maxCombinations = none ∧
      ∃ n, limit? text = some n ∧ b = { a with maxCombinations := some n }) := by
  by_cases hkeep : key = "keep_builtins"
  · subst hkeep
    simp [assign, Option.map_eq_some_iff, @eq_comm _ b]
  · by_cases hlimit : key = "max_cartesian_results"
    · subst hlimit
      simp [assign, Option.map_eq_some_iff, @eq_comm _ b]
    · simp [assign, hkeep, hlimit]

/-- Two assignments are to different keys, so they do not touch each other. -/
theorem assign_swap (h : a.assign key text = some b) (h' : b.assign key' text' = some c) :
    ∃ d, a.assign key' text' = some d ∧ d.assign key text = some c := by
  obtain ⟨rfl, ha, value, hvalue, rfl⟩ | ⟨rfl, ha, value, hvalue, rfl⟩ := assign_eq_some_iff.mp h
  · obtain ⟨rfl, hb, -⟩ | ⟨rfl, hb, n, hn, rfl⟩ := assign_eq_some_iff.mp h'
    · cases hb
    · exact ⟨_, assign_eq_some_iff.mpr (.inr ⟨rfl, hb, n, hn, rfl⟩),
        assign_eq_some_iff.mpr (.inl ⟨rfl, ha, value, hvalue, rfl⟩)⟩
  · obtain ⟨rfl, hb, b, hboolean, rfl⟩ | ⟨rfl, hb, -⟩ := assign_eq_some_iff.mp h'
    · exact ⟨_, assign_eq_some_iff.mpr (.inl ⟨rfl, hb, b, hboolean, rfl⟩),
        assign_eq_some_iff.mpr (.inr ⟨rfl, ha, value, hvalue, rfl⟩)⟩
    · cases hb

theorem assign_comm (a : Assigned) (key key' : String) (text text' : List Char) :
    ((a.assign key text).bind fun b => b.assign key' text') =
      (a.assign key' text').bind fun b => b.assign key text := by
  ext c
  simp only [Option.bind_eq_some_iff]
  constructor
  · rintro ⟨b, h, h'⟩
    exact assign_swap h h'
  · rintro ⟨b, h, h'⟩
    exact assign_swap h h'

theorem readLine_of_endsLine (a : Assigned) (h : endsLine line = true) :
    a.readLine line = some a := by
  simp [readLine, h]

theorem readLine_assignmentLine (hkey : ∀ c ∈ key.toList, isBareKeyChar c = true)
    (hne : key.toList ≠ []) (htext : ∀ c ∈ text, isBareKeyChar c = true) (a : Assigned) :
    a.readLine (assignmentLine key text) = a.assign key text := by
  rw [readLine, endsLine_assignmentLine hkey hne, if_neg Bool.false_ne_true,
    dropWhile_isBlank_assignmentLine hkey hne, assignment?_assignmentLine hkey hne htext]
  rfl

theorem readLine_comm (a : Assigned) (line line' : List Char) :
    ((a.readLine line).bind fun b => b.readLine line') =
      (a.readLine line').bind fun b => b.readLine line := by
  cases hends : endsLine line with
  | true => simp [readLine_of_endsLine _ hends]
  | false =>
    cases hends' : endsLine line' with
    | true => simp [readLine_of_endsLine _ hends']
    | false =>
      simp only [readLine, hends, hends', Bool.false_eq_true, if_false]
      cases assignment? (line.dropWhile isBlank) with
      | none => simp
      | some p =>
        cases assignment? (line'.dropWhile isBlank) with
        | none => simp
        | some p' => exact assign_comm a p.1 p'.1 p.2 p'.2

theorem foldlM_readLine_filter (lines : List (List Char)) (a : Assigned) :
    (lines.filter fun line => !endsLine line).foldlM readLine a = lines.foldlM readLine a := by
  induction lines generalizing a with
  | nil => rfl
  | cons line lines ih =>
    rw [List.foldlM_cons]
    cases hends : endsLine line with
    | true => simpa [hends, readLine_of_endsLine a hends] using ih a
    | false =>
      simp only [List.filter_cons, hends, Bool.not_false, if_true, List.foldlM_cons]
      exact congrArg ((a.readLine line).bind ·) (funext ih)

/-- The limit, if there is one, fits a machine word. -/
def Fits (a : Assigned) : Prop :=
  ∀ n ∈ a.maxCombinations, n ≤ 0x7fffffffffffffff

/-- A line for each key that has a value. -/
def lines (a : Assigned) : List (List Char) :=
  (a.keepBuiltins.toList.map fun b => assignmentLine "keep_builtins" (toString b).toList) ++
    a.maxCombinations.toList.map fun n =>
      assignmentLine "max_cartesian_results" (Nat.toDigits 10 n)

/-- The document that assigns the values. -/
def document (a : Assigned) : String := String.ofList (unlines a.lines)

theorem readLine_keep_builtins (h : a.keepBuiltins = none) (value : Bool) :
    a.readLine (assignmentLine "keep_builtins" (toString value).toList) =
      some { a with keepBuiltins := some value } := by
  rw [readLine_assignmentLine (List.all_eq_true.mp rfl) (by decide)
    (List.all_eq_true.mp (by cases value <;> rfl))]
  exact assign_eq_some_iff.mpr (.inl ⟨rfl, h, value, by cases value <;> rfl, rfl⟩)

theorem readLine_max_cartesian_results (h : a.maxCombinations = none) {n : Nat}
    (hn : n ≤ 0x7fffffffffffffff) :
    a.readLine (assignmentLine "max_cartesian_results" (Nat.toDigits 10 n)) =
      some { a with maxCombinations := some n } := by
  rw [readLine_assignmentLine (List.all_eq_true.mp rfl) (by decide)
    (isBareKeyChar_of_mem_toDigits n)]
  exact assign_eq_some_iff.mpr (.inr ⟨rfl, h, n, limit?_toDigits hn, rfl⟩)

theorem foldlM_readLine_lines (h : a.Fits) : a.lines.foldlM readLine {} = some a := by
  obtain ⟨keep, limit⟩ := a
  have hkeep : (keep.toList.map fun b =>
      assignmentLine "keep_builtins" (toString b).toList).foldlM readLine {} =
        some { keepBuiltins := keep } := by
    cases keep with
    | none => rfl
    | some b =>
      rw [Option.toList_some, List.map_singleton, List.foldlM_cons, readLine_keep_builtins rfl]
      rfl
  rw [lines, List.foldlM_append, hkeep]
  cases limit with
  | none => rfl
  | some n =>
    rw [Option.toList_some, List.map_singleton, Option.bind_eq_bind, Option.bind_some,
      List.foldlM_cons, readLine_max_cartesian_results rfl (h n rfl)]
    rfl

theorem ne_of_mem_lines {ch : Char} (hline : line ∈ a.lines) (hch : ch ∈ line) :
    ch ≠ '\n' ∧ ch ≠ '\r' := by
  rw [lines, List.mem_append, List.mem_map, List.mem_map] at hline
  obtain ⟨b, -, rfl⟩ | ⟨n, -, rfl⟩ := hline
  · exact ne_of_mem_assignmentLine (List.all_eq_true.mp rfl)
      (List.all_eq_true.mp (by cases b <;> rfl)) hch
  · exact ne_of_mem_assignmentLine (List.all_eq_true.mp rfl) (isBareKeyChar_of_mem_toDigits n) hch

theorem withoutMark_lines (a : Assigned) : withoutMark (unlines a.lines) = unlines a.lines := by
  obtain ⟨keep, limit⟩ := a
  cases keep <;> cases limit <;> rfl

theorem Fits.assign (ha : a.Fits) (h : a.assign key text = some b) : b.Fits := by
  obtain ⟨-, -, value, -, rfl⟩ | ⟨-, -, n, hn, rfl⟩ := assign_eq_some_iff.mp h
  · exact ha
  · rintro _ ⟨⟩
    exact le_of_limit? hn

theorem Fits.readLine (ha : a.Fits) (h : a.readLine line = some b) : b.Fits := by
  rw [Assigned.readLine] at h
  split at h
  · cases h
    exact ha
  · obtain ⟨p, -, hp⟩ := Option.bind_eq_some_iff.mp h
    exact ha.assign hp

theorem Fits.foldlM_readLine {lines : List (List Char)} (ha : a.Fits)
    (h : lines.foldlM Assigned.readLine a = some b) : b.Fits := by
  induction lines generalizing a with
  | nil =>
    cases h
    exact ha
  | cons line lines ih =>
    rw [List.foldlM_cons, Option.bind_eq_bind, Option.bind_eq_some_iff] at h
    obtain ⟨a', hline, hlines⟩ := h
    exact ih (ha.readLine hline) hlines

end Assigned

/-- The lines of a document that are not blank and not only a comment. -/
def entries (document : String) : List (List Char) :=
  (documentLines (withoutMark document.toList)).filter fun line => !endsLine line

/-- Only the lines that assign something count, and they may stand in any order. -/
theorem ofDocument?_eq_of_perm {document document' : String}
    (h : (entries document).Perm (entries document')) :
    ofDocument? document = ofDocument? document' := by
  rw [ofDocument?, ofDocument?, ← Assigned.foldlM_readLine_filter,
    ← Assigned.foldlM_readLine_filter (documentLines (withoutMark document'.toList))]
  exact congrArg (Option.map Assigned.settings) (foldlM_eq_of_perm h Assigned.readLine_comm {})

/-- Every key is optional: the document of some assignments gives the settings that have these
values and the defaults for the rest. -/
theorem ofDocument?_document {a : Assigned} (h : a.Fits) :
    ofDocument? a.document = some a.settings := by
  have hread : (a.lines ++ [[]]).foldlM Assigned.readLine {} = some a := by
    rw [List.foldlM_append, Assigned.foldlM_readLine_lines h]
    rfl
  rw [ofDocument?, Assigned.document, String.toList_ofList, a.withoutMark_lines,
    documentLines_unlines fun _ hline _ => Assigned.ne_of_mem_lines hline, hread, Option.map_some]

theorem maxCombinations_le_of_ofDocument? {document : String} {s : Settings}
    (h : ofDocument? document = some s) : s.maxCombinations ≤ 0x7fffffffffffffff := by
  obtain ⟨a, ha, rfl⟩ := Option.map_eq_some_iff.mp h
  have hfits : a.Fits := Assigned.Fits.foldlM_readLine (fun _ hn => by cases hn) ha
  rw [Assigned.settings]
  cases hlimit : a.maxCombinations with
  | none =>
    change ({} : Settings).maxCombinations ≤ 0x7fffffffffffffff
    decide
  | some n => exact hfits n hlimit

/-- The settings that a document can give are those whose limit fits a machine word. -/
theorem exists_ofDocument?_eq_some_iff (s : Settings) :
    (∃ document, ofDocument? document = some s) ↔ s.maxCombinations ≤ 0x7fffffffffffffff := by
  constructor
  · rintro ⟨document, h⟩
    exact maxCombinations_le_of_ofDocument? h
  · intro hlimit
    have hfits : Assigned.Fits ⟨some s.keepBuiltins, some s.maxCombinations⟩ := by
      rintro n ⟨⟩
      exact hlimit
    exact ⟨_, ofDocument?_document hfits⟩

end Grounding.Settings
