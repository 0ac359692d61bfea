import Mathlib.Data.List.Chain
import Mathlib.Data.List.Induction
import Grounding.Term.Text

/-!
# Reading a text from its end

The text of a term is a row of tokens: marks, bare words and quoted names. From the front the tokens
cannot be told apart one by one, since a backslash in a quoted name is not escaped: whether a quote
after a backslash ends the name depends on all that follows.

From the end they can. A name is opened by a quote at the beginning or after a mark, so never after
a backslash, and every other quote in it stands after one. Hence two rows of tokens with one text
are the same, as long as words are kept apart by marks.
-/

namespace Grounding

/-- The characters that part words. -/
def markChars : List Char := ['(', ')', '[', ']', ',', '|']

/-- The marks that a word can stand after. -/
def openingChars : List Char := ['(', '[', ',', '|']

theorem openingChars_subset : openingChars ⊆ markChars := by decide

/-- A piece of a text. -/
inductive Token where
  | mark (c : Char)
  | bare (word : List Char)
  | quoted (name : List Char)

namespace Token

def chars : Token → List Char
  | mark c => [c]
  | bare word => word
  | quoted name => '\'' :: (escapeQuotes name ++ ['\''])

def isWord : Token → Bool
  | mark _ => false
  | bare _ | quoted _ => true

/-- Whether a word can stand after the token. -/
def opens : Token → Bool
  | mark c => openingChars.contains c
  | bare _ | quoted _ => false

/-- Marks are marks, and a bare word has at least one character and neither marks nor quotes. -/
def Proper : Token → Prop
  | mark c => c ∈ markChars
  | bare word => word ≠ [] ∧ ∀ c ∈ word, c ∉ markChars ∧ c ≠ '\''
  | quoted _ => True

/-- The text of a row of tokens. -/
def render (ts : List Token) : List Char := ts.flatMap chars

/-- Every word of the row stands at its beginning or after an opening mark. -/
structure WellSpaced (ts : List Token) : Prop where
  proper : ∀ t ∈ ts, t.Proper
  spaced : ts.IsChain fun s t => t.isWord → s.opens

/-- A reversed text after which a word may come: nothing, or one that ends with an opening mark. -/
def Opened (p : List Char) : Prop := ∀ c ∈ p.head?, c ∈ openingChars

variable {p q : List Char} {s t : Token} {ss ts : List Token}

/-- Words without marks that a mark or nothing comes before are as long as they can be. -/
theorem bare_inj {v w : List Char} (hv : ∀ c ∈ v, c ∉ markChars) (hw : ∀ c ∈ w, c ∉ markChars)
    (hp : Opened p) (hq : Opened q) (h : v ++ p = w ++ q) : v = w ∧ p = q := by
  induction v generalizing w with
  | nil =>
    cases w with
    | nil => exact ⟨rfl, h⟩
    | cons d w =>
      rw [List.nil_append, List.cons_append] at h
      exact absurd (openingChars_subset (hp d (by simp [h]))) (hw d (by simp))
  | cons c v ih =>
    cases w with
    | nil =>
      rw [List.nil_append, List.cons_append] at h
      exact absurd (openingChars_subset (hq c (by simp [← h]))) (hv c (by simp))
    | cons d w =>
      obtain ⟨rfl, hrest⟩ := List.cons_eq_cons.mp h
      rw [List.forall_mem_cons] at hv hw
      obtain ⟨rfl, hpq⟩ := ih hv.2 hw.2 hrest
      exact ⟨rfl, hpq⟩

theorem escapeQuotes_concat (name : List Char) (c : Char) :
    escapeQuotes (name ++ [c]) = escapeQuotes name ++ if c = '\'' then ['\\', c] else [c] := by
  induction name with
  | nil => rw [List.nil_append, escapeQuotes]; split <;> simp_all [escapeQuotes]
  | cons d name ih => rw [List.cons_append, escapeQuotes, escapeQuotes, ih]; split <;> simp

/-- Read from its end, a quoted name goes on until a quote that is not escaped, which cannot be one
of its own. -/
theorem quoted_inj {m n : List Char} (hp : p.head? ≠ some '\\') (hq : q.head? ≠ some '\\')
    (h : (escapeQuotes m).reverse ++ '\'' :: p = (escapeQuotes n).reverse ++ '\'' :: q) :
    m = n ∧ p = q := by
  -- the reversed text of a name with one character more
  have hconcat (name : List Char) (c : Char) (r : List Char) :
      (escapeQuotes (name ++ [c])).reverse ++ r =
        c :: ((if c = '\'' then ['\\'] else []) ++ ((escapeQuotes name).reverse ++ r)) := by
    rw [escapeQuotes_concat]
    split <;> simp
  induction m using List.reverseRecOn generalizing n with
  | nil =>
    rcases n.eq_nil_or_concat' with rfl | ⟨n, d, rfl⟩
    · exact ⟨rfl, (List.cons_eq_cons.mp h).2⟩
    · rw [hconcat] at h
      obtain ⟨rfl, h⟩ := List.cons_eq_cons.mp h
      exact absurd (by rw [h]; rfl) hp
  | append_singleton m c ih =>
    rcases n.eq_nil_or_concat' with rfl | ⟨n, d, rfl⟩
    · rw [hconcat] at h
      obtain ⟨rfl, h⟩ := List.cons_eq_cons.mp h
      exact absurd (by rw [← h]; rfl) hq
    · rw [hconcat, hconcat] at h
      obtain ⟨rfl, hrest⟩ := List.cons_eq_cons.mp h
      obtain ⟨rfl, hpq⟩ := ih (List.append_cancel_left hrest)
      exact ⟨rfl, hpq⟩

/-- The last character of a token tells which kind of token it is. -/
theorem exists_reverse_chars (ht : t.Proper) : ∃ c rest, t.chars.reverse = c :: rest ∧
    match t with
    | mark d => c = d ∧ c ∈ markChars
    | bare _ => c ∉ markChars ∧ c ≠ '\''
    | quoted _ => c = '\'' := by
  cases t with
  | mark d => exact ⟨d, [], rfl, rfl, ht⟩
  | bare word =>
    rcases word.eq_nil_or_concat' with rfl | ⟨word, c, rfl⟩
    · exact absurd rfl ht.1
    · exact ⟨c, word.reverse, by simp [chars], ht.2 c (by simp)⟩
  | quoted name => exact ⟨'\'', (escapeQuotes name).reverse ++ ['\''], by simp [chars], rfl⟩

/-- Two texts that end with a token each and are the same end with the same token. -/
theorem last_inj (hs : s.Proper) (ht : t.Proper) (hp : s.isWord → Opened p)
    (hq : t.isWord → Opened q) (h : s.chars.reverse ++ p = t.chars.reverse ++ q) :
    s = t ∧ p = q := by
  have hquote : '\'' ∉ markChars := by decide
  have hescape {r : List Char} (hr : Opened r) : r.head? ≠ some '\\' := fun he =>
    absurd (hr _ he) (by decide)
  obtain ⟨c, cs, hc, hcs⟩ := exists_reverse_chars hs
  obtain ⟨d, ds, hd, hds⟩ := exists_reverse_chars ht
  have hlast : c = d := by
    rw [hc, hd] at h
    exact (List.cons_eq_cons.mp h).1
  subst hlast
  cases s with
  | mark c' =>
    cases t with
    | mark d' =>
      obtain ⟨rfl, -⟩ := hcs
      obtain ⟨rfl, -⟩ := hds
      exact ⟨rfl, (List.cons_eq_cons.mp h).2⟩
    | bare w => exact absurd hcs.2 hds.1
    | quoted n => exact absurd (hds ▸ hcs.2) hquote
  | bare v =>
    cases t with
    | mark d' => exact absurd hds.2 hcs.1
    | bare w =>
      have hmarks {word : List Char} (hw : (bare word).Proper) :
          ∀ c ∈ word.reverse, c ∉ markChars := fun c hc => (hw.2 c (List.mem_reverse.mp hc)).1
      obtain ⟨hvw, hpq⟩ := bare_inj (hmarks hs) (hmarks ht) (hp rfl) (hq rfl) h
      exact ⟨congrArg bare (List.reverse_inj.mp hvw), hpq⟩
    | quoted n => exact absurd hds hcs.2
  | quoted m =>
    cases t with
    | mark d' => exact absurd (hcs ▸ hds.2) hquote
    | bare w => exact absurd hcs hds.2
    | quoted n =>
      simp only [chars, List.reverse_cons, List.reverse_append, List.reverse_nil, List.nil_append,
        List.cons_append, List.append_assoc, List.cons.injEq, true_and] at h
      obtain ⟨rfl, hpq⟩ := quoted_inj (hescape (hp rfl)) (hescape (hq rfl)) h
      exact ⟨rfl, hpq⟩

theorem reverse_render_concat (ts : List Token) (t : Token) :
    (render (ts ++ [t])).reverse = t.chars.reverse ++ (render ts).reverse := by
  simp [render]

/-- What comes before the last word of a row ends with an opening mark. -/
theorem WellSpaced.opened (h : WellSpaced (ts ++ [t])) (ht : t.isWord) :
    Opened (render ts).reverse := by
  rcases ts.eq_nil_or_concat' with rfl | ⟨ss, s, rfl⟩
  · intro c hc
    cases hc
  · have hopens : s.opens := (List.isChain_append.mp h.spaced).2.2 s (by simp) t rfl ht
    rw [reverse_render_concat]
    cases s with
    | mark c =>
      intro d hd
      cases hd
      exact List.elem_iff.mp hopens
    | bare | quoted => cases hopens

theorem WellSpaced.init (h : WellSpaced (ts ++ [t])) : WellSpaced ts where
  proper s hs := h.proper s (List.mem_append_left _ hs)
  spaced := h.spaced.left_of_append

/-- Two rows of tokens with one text are the same. -/
theorem render_inj (hs : WellSpaced ss) (ht : WellSpaced ts) (h : render ss = render ts) :
    ss = ts := by
  have hreverse := congrArg List.reverse h
  have hne {t : Token} (ht : t.Proper) : t.chars.reverse ≠ [] := by
    obtain ⟨c, rest, hc, -⟩ := exists_reverse_chars ht
    simp [hc]
  induction ss using List.reverseRecOn generalizing ts with
  | nil =>
    rcases ts.eq_nil_or_concat' with rfl | ⟨ts, t, rfl⟩
    · rfl
    · rw [reverse_render_concat] at hreverse
      exact absurd (List.append_eq_nil_iff.mp hreverse.symm).1 (hne (ht.proper t (by simp)))
  | append_singleton ss s ih =>
    rcases ts.eq_nil_or_concat' with rfl | ⟨ts, t, rfl⟩
    · rw [reverse_render_concat] at hreverse
      exact absurd (List.append_eq_nil_iff.mp hreverse).1 (hne (hs.proper s (by simp)))
    · rw [reverse_render_concat, reverse_render_concat] at hreverse
      obtain ⟨rfl, hrest⟩ := last_inj (hs.proper s (by simp)) (ht.proper t (by simp)) hs.opened
        ht.opened hreverse
      rw [ih hs.init ht.init (List.reverse_inj.mp hrest) hrest]

theorem render_append (ss ts : List Token) : render (ss ++ ts) = render ss ++ render ts :=
  List.flatMap_append

theorem WellSpaced.cons_mark {c : Char} (hc : c ∈ openingChars) (h : WellSpaced ts) :
    WellSpaced (mark c :: ts) where
  proper := List.forall_mem_cons.mpr ⟨openingChars_subset hc, h.proper⟩
  spaced := h.spaced.cons fun _ _ _ => List.elem_iff.mpr hc

/-- Anything can come before a mark. -/
theorem WellSpaced.append (hs : WellSpaced ss) (ht : WellSpaced ts)
    (hmark : ∀ t ∈ ts.head?, t.isWord = false) : WellSpaced (ss ++ ts) where
  proper t h := (List.mem_append.mp h).elim (hs.proper t) (ht.proper t)
  spaced := hs.spaced.append ht.spaced fun _ _ t ht hword => by
    rw [hmark t ht] at hword
    cases hword

theorem WellSpaced.single (ht : t.Proper) : WellSpaced [t] where
  proper := by simpa using ht
  spaced := .singleton t

end Token

end Grounding
