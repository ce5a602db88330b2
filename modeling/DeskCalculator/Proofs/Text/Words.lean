import DeskCalculator.Text
import Mathlib.Data.List.TakeWhile

/-!
# Trimming and words

Trimming a text and cutting it into words loses blanks only: the visible characters stay, in their
order (`visible_trim`, `flatten_words`). Normalizing removes blanks anyway, so a text has the same
normal form before and after (`normalize_trim`, `normalize_flatten_words`).

**Theorem (`trim_append_append`, `words_trim`).** Blanks around a text change neither what trimming
leaves nor the words. The first of the words is the first word of the trimmed text
(`words_eq_cons`).

**Descriptions.** The words of a text are the runs of other characters between its blanks
(`HasWords`). A text is trimmed if it has no blank at either end, and every text is such a text with
blanks around it (`TrimsTo`).

**Theorem (`words_eq_iff`).** `words` gives the words of a text. `trim` gives what is left of it
without the blanks around it (`trimsTo_trim`), and nothing else is (`TrimsTo.trim_eq`).
-/

namespace DeskCalculator.Text

/-! ## Descriptions -/

/-- The text has no characters but blanks. -/
def Blank (s : List Char) : Prop := ∀ c ∈ s, isBlank c

/-- The characters of a text that are no blanks. -/
def visible (s : List Char) : List Char := s.filter (!isBlank ·)

/-- One word: some characters, none of them blank. -/
structure IsWord (s : List Char) : Prop where
  ne_nil : s ≠ []
  visible : ∀ c ∈ s, isBlank c = false

instance (s : List Char) : Decidable (IsWord s) :=
  decidable_of_iff (s ≠ [] ∧ s.all fun c => !isBlank c)
    ⟨fun h => ⟨h.1, by simpa using h.2⟩, fun h => ⟨h.1, by simpa using h.2⟩⟩

/-- A text that starts with a blank, if it is not empty. It ends a word in front of it. -/
def EndsWord (s : List Char) : Prop := ∀ c ∈ s.head?, isBlank c

/-- A text without a blank at either end. -/
structure Trimmed (s : List Char) : Prop where
  head : ∀ c ∈ s.head?, isBlank c = false
  last : ∀ c ∈ s.getLast?, isBlank c = false

/-- `TrimsTo s t`: the text `s` is the trimmed text `t` with blanks around it. -/
inductive TrimsTo : List Char → List Char → Prop where
  | intro {front t back} : Blank front → Trimmed t → Blank back → TrimsTo (front ++ t ++ back) t

/-- `HasWords s words`: the text `s` has the given words, with blanks between them. -/
inductive HasWords : List Char → List (List Char) → Prop where
  | nil {s} : Blank s → HasWords s []
  | cons {front word rest words} : Blank front → IsWord word → EndsWord rest →
      HasWords rest words → HasWords (front ++ word ++ rest) (word :: words)

variable {s t front back word rest : List Char} {ws : List (List Char)}

/-! ## Visible characters -/

theorem blank_nil : Blank [] := by
  simp [Blank]

theorem visible_append (s t : List Char) : visible (s ++ t) = visible s ++ visible t :=
  List.filter_append s t

theorem visible_eq_nil_iff : visible s = [] ↔ Blank s := by
  simp [visible, Blank]

theorem visible_eq_self (h : ∀ c ∈ s, isBlank c = false) : visible s = s :=
  List.filter_eq_self.2 fun c hc => by simp [h c hc]

theorem normalize_congr (h : visible s = visible t) : normalize s = normalize t :=
  congrArg (·.flatMap lowercase) h

theorem normalize_of_blank (h : Blank s) : normalize s = [] := by
  rw [normalize_congr (t := []) (visible_eq_nil_iff.2 h)]
  rfl

theorem normalize_visible (s : List Char) : normalize (visible s) = normalize s := by
  refine normalize_congr (visible_eq_self fun c hc => ?_)
  simpa using (List.mem_filter.1 hc).2

/-! ## Trimming -/

theorem trimStart_append_of_blank (h : Blank front) (s : List Char) :
    trimStart (front ++ s) = trimStart s :=
  List.dropWhile_append_of_pos h

theorem trimEnd_append_of_blank (s : List Char) (h : Blank back) :
    trimEnd (s ++ back) = trimEnd s := by
  rw [trimEnd, trimEnd, List.reverse_append,
    List.dropWhile_append_of_pos fun c hc => h c (List.mem_reverse.1 hc)]

theorem trimStart_eq_nil_iff : trimStart s = [] ↔ Blank s :=
  List.dropWhile_eq_nil_iff

theorem visible_trimStart (s : List Char) : visible (trimStart s) = visible s := by
  have hstart : visible (s.takeWhile isBlank) = [] :=
    visible_eq_nil_iff.2 fun c hc => List.mem_takeWhile_imp hc
  rw [← List.nil_append (visible (trimStart s)), ← hstart, ← visible_append, trimStart,
    List.takeWhile_append_dropWhile]

theorem trimStart_append (hs : ¬ Blank s) (t : List Char) :
    trimStart (s ++ t) = trimStart s ++ t := by
  have hne : trimStart s ≠ [] := fun h => hs (trimStart_eq_nil_iff.1 h)
  simp only [trimStart, List.dropWhile_append] at hne ⊢
  rw [if_neg (by simpa using hne)]

/-- What trimming takes away are blanks at both ends. -/
theorem exists_trim (s : List Char) :
    ∃ front back, Blank front ∧ Blank back ∧ s = front ++ trim s ++ back := by
  have hend : ∀ t, t = trimEnd t ++ (t.reverse.takeWhile isBlank).reverse := by
    intro t
    rw [trimEnd, ← List.reverse_append, List.takeWhile_append_dropWhile, List.reverse_reverse]
  refine ⟨s.takeWhile isBlank, ((trimStart s).reverse.takeWhile isBlank).reverse, ?_, ?_, ?_⟩
  · exact fun c hc => List.mem_takeWhile_imp hc
  · exact fun c hc => List.mem_takeWhile_imp (List.mem_reverse.1 hc)
  · rw [List.append_assoc, trim, ← hend, trimStart, List.takeWhile_append_dropWhile]

theorem visible_trim (s : List Char) : visible (trim s) = visible s := by
  obtain ⟨front, back, hfront, hback, hs⟩ := exists_trim s
  have hvisible := congrArg visible hs
  rw [visible_append, visible_append, visible_eq_nil_iff.2 hfront, visible_eq_nil_iff.2 hback,
    List.nil_append, List.append_nil] at hvisible
  exact hvisible.symm

theorem normalize_trim (s : List Char) : normalize (trim s) = normalize s :=
  normalize_congr (visible_trim s)

theorem trim_of_blank (h : Blank s) : trim s = [] := by
  rw [trim, trimStart_eq_nil_iff.2 h]
  rfl

theorem trim_eq_nil_iff : trim s = [] ↔ Blank s := by
  refine ⟨fun h => ?_, trim_of_blank⟩
  rw [← visible_eq_nil_iff, ← visible_trim, h]
  rfl

theorem trim_append_append (hfront : Blank front) (s : List Char) (hback : Blank back) :
    trim (front ++ s ++ back) = trim s := by
  rw [trim, List.append_assoc, trimStart_append_of_blank hfront]
  by_cases hs : Blank s
  · rw [trimStart_append_of_blank hs, trimStart_eq_nil_iff.2 hback, trim_of_blank hs]
    rfl
  · rw [trimStart_append hs, trimEnd_append_of_blank _ hback, trim]

theorem trim_append_of_blank (s : List Char) (h : Blank back) : trim (s ++ back) = trim s :=
  trim_append_append blank_nil s h

theorem trim_trim (s : List Char) : trim (trim s) = trim s := by
  obtain ⟨front, back, hfront, hback, hs⟩ := exists_trim s
  rw [← trim_append_append hfront (trim s) hback, ← hs]

theorem trimStart_trim (s : List Char) : trimStart (trim s) = trim s := by
  have hsuffix : trimStart (trim s) <:+ trim s := List.dropWhile_suffix _
  refine hsuffix.eq_of_length (Nat.le_antisymm hsuffix.length_le ?_)
  have hprefix : ∀ t, (trimEnd t).length ≤ t.length := by
    intro t
    rw [trimEnd, List.length_reverse]
    exact Nat.le_trans (List.dropWhile_sublist _).length_le (Nat.le_of_eq List.length_reverse)
  calc (trim s).length = (trim (trim s)).length := by rw [trim_trim]
    _ ≤ (trimStart (trim s)).length := hprefix _

/-! ## The first word -/

theorem isBlank_of_mem_firstWord {c : Char} (h : c ∈ firstWord s) : isBlank c = false := by
  simpa using List.mem_takeWhile_imp h

/-- The normal form of a text starts with its first word in small letters. -/
theorem normalize_eq_firstWord_append (s : List Char) :
    normalize s = (firstWord s).flatMap lowercase ++ normalize (afterFirstWord s) := by
  have hfirst : normalize (firstWord s) = (firstWord s).flatMap lowercase :=
    congrArg (·.flatMap lowercase) (visible_eq_self fun c => isBlank_of_mem_firstWord)
  rw [← hfirst, ← normalize_append, firstWord_append_afterFirstWord]

/-! ## All words -/

theorem words_of_blank (h : Blank s) : words s = [] := by
  rw [words]
  split
  · rfl
  next hcons =>
    rw [trimStart_eq_nil_iff.2 h] at hcons
    cases hcons

theorem words_of_trimStart {c : Char} {r : List Char} (h : trimStart s = c :: r) :
    words s = firstWord (c :: r) :: words (afterFirstWord (c :: r)) := by
  rw [words]
  split
  next hnil =>
    rw [hnil] at h
    cases h
  next hcons =>
    rw [hcons] at h
    cases h
    rfl

theorem words_eq_nil_iff : words s = [] ↔ Blank s := by
  refine ⟨fun h => ?_, words_of_blank⟩
  by_contra hs
  obtain ⟨c, r, hcons⟩ :=
    List.exists_cons_of_ne_nil fun hnil => hs (trimStart_eq_nil_iff.1 hnil)
  rw [words_of_trimStart hcons] at h
  cases h

/-- The words of a text, joined, are its visible characters. -/
theorem flatten_words (s : List Char) : (words s).flatten = visible s := by
  fun_induction words s with
  | case1 s h => exact (visible_eq_nil_iff.2 (trimStart_eq_nil_iff.1 h)).symm
  | case2 s c r h ih =>
    have hvisible := congrArg visible (firstWord_append_afterFirstWord (c :: r))
    rw [visible_append, visible_eq_self fun c => isBlank_of_mem_firstWord] at hvisible
    rw [← visible_trimStart, h, List.flatten_cons, ih, hvisible]

/-- Cutting a text into words does not change its normal form. -/
theorem normalize_flatten_words (s : List Char) : normalize (words s).flatten = normalize s := by
  rw [flatten_words, normalize_visible]

theorem firstWord_append_of_blank (s : List Char) (h : Blank back) :
    firstWord (s ++ back) = firstWord s ∧
      afterFirstWord (s ++ back) = afterFirstWord s ++ back := by
  have hback : back.takeWhile (!isBlank ·) = [] ∧ back.dropWhile (!isBlank ·) = back := by
    cases back with
    | nil => exact ⟨rfl, rfl⟩
    | cons c back =>
      have hc := h c List.mem_cons_self
      exact ⟨List.takeWhile_cons_of_neg (by simp [hc]), List.dropWhile_cons_of_neg (by simp [hc])⟩
  induction s with
  | nil => exact hback
  | cons c s ih =>
    obtain ⟨htake, hdrop⟩ := ih
    simp only [firstWord, afterFirstWord] at htake hdrop ⊢
    by_cases hc : isBlank c
    · simp [hc]
    · simp [hc, htake, hdrop]

theorem words_append_of_blank (s : List Char) (h : Blank back) :
    words (s ++ back) = words s := by
  fun_induction words s with
  | case1 s hnil =>
    have hs := trimStart_eq_nil_iff.1 hnil
    exact words_of_blank fun c hc => (List.mem_append.1 hc).elim (hs c) (h c)
  | case2 s c r hcons ih =>
    have hs : ¬ Blank s := fun hs => by
      rw [trimStart_eq_nil_iff.2 hs] at hcons
      cases hcons
    obtain ⟨hfirst, hafter⟩ := firstWord_append_of_blank (c :: r) h
    rw [words_of_trimStart (c := c) (r := r ++ back) (by rw [trimStart_append hs, hcons]; rfl),
      ← List.cons_append, hfirst, hafter, ih]

theorem words_trim (s : List Char) : words (trim s) = words s := by
  obtain ⟨front, back, hfront, hback, hs⟩ := exists_trim s
  have hwords : words s = words (front ++ trim s) := by
    rw [← words_append_of_blank (front ++ trim s) hback, ← hs]
  rw [hwords, words, words, trimStart_append_of_blank hfront]

theorem words_eq_cons (h : trim s ≠ []) :
    words s = firstWord (trim s) :: words (afterFirstWord (trim s)) := by
  obtain ⟨c, r, hcons⟩ := List.exists_cons_of_ne_nil h
  rw [← words_trim, words_of_trimStart (by rw [trimStart_trim, hcons]), hcons]

/-! ## Where a word ends -/

theorem EndsWord.nil : EndsWord [] := by
  simp [EndsWord]

theorem EndsWord.of_blank (h : Blank s) (hs : s ≠ []) (t : List Char) : EndsWord (s ++ t) := by
  obtain ⟨c, s, rfl⟩ := List.exists_cons_of_ne_nil hs
  simpa [EndsWord] using h c List.mem_cons_self

theorem endsWord_afterFirstWord (s : List Char) : EndsWord (afterFirstWord s) := by
  intro c hc
  have hhead := List.head?_dropWhile_not (!isBlank ·) s
  rw [afterFirstWord] at hc
  rw [Option.mem_def.1 hc] at hhead
  simpa using hhead

/-- The first word reaches as far as the first blank. -/
theorem IsWord.firstWord_append (hw : IsWord word) (hrest : EndsWord rest) :
    firstWord (word ++ rest) = word ∧ afterFirstWord (word ++ rest) = rest := by
  have hall : ∀ c ∈ word, (!isBlank c) = true := fun c hc => by simp [hw.visible c hc]
  have hbreak : rest.takeWhile (!isBlank ·) = [] ∧ rest.dropWhile (!isBlank ·) = rest := by
    cases rest with
    | nil => exact ⟨rfl, rfl⟩
    | cons c rest => simp [hrest c rfl]
  constructor
  · rw [firstWord, List.takeWhile_append_of_pos hall, hbreak.1, List.append_nil]
  · rw [afterFirstWord, List.dropWhile_append_of_pos hall, hbreak.2]

/-- What does not start with a blank starts with a word. -/
theorem isWord_firstWord (hs : s ≠ []) (h : ∀ c ∈ s.head?, isBlank c = false) :
    IsWord (firstWord s) := by
  obtain ⟨c, s, rfl⟩ := List.exists_cons_of_ne_nil hs
  refine ⟨?_, fun d => isBlank_of_mem_firstWord⟩
  simp [firstWord, h c rfl]

/-! ## The words of a text -/

theorem IsWord.trimStart_append (hw : IsWord word) (rest : List Char) :
    trimStart (word ++ rest) = word ++ rest := by
  obtain ⟨c, word, rfl⟩ := List.exists_cons_of_ne_nil hw.ne_nil
  simp [trimStart, hw.visible c List.mem_cons_self]

theorem hasWords_words (s : List Char) : HasWords s (words s) := by
  fun_induction words s with
  | case1 s h => exact .nil (trimStart_eq_nil_iff.1 h)
  | case2 s c r h ih =>
    have hs : s = s.takeWhile isBlank ++ firstWord (c :: r) ++ afterFirstWord (c :: r) := by
      rw [List.append_assoc, firstWord_append_afterFirstWord, ← h, trimStart,
        List.takeWhile_append_dropWhile]
    have hword := isWord_firstWord (List.cons_ne_nil c r) (by
      simpa using isBlank_of_trimStart_eq_cons h)
    have hblank : Blank (s.takeWhile isBlank) := fun c hc => List.mem_takeWhile_imp hc
    have hcons := HasWords.cons hblank hword (endsWord_afterFirstWord _) ih
    rwa [← hs] at hcons

/-- The words of a text are uniquely determined. -/
theorem HasWords.words_eq (h : HasWords s ws) : words s = ws := by
  induction h with
  | nil h => exact words_of_blank h
  | @cons front word rest ws hfront hword hrest _ ih =>
    obtain ⟨hfirst, hafter⟩ := hword.firstWord_append hrest
    obtain ⟨c, r, hcons⟩ := List.exists_cons_of_ne_nil hword.ne_nil
    have hstart : trimStart (front ++ word ++ rest) = c :: (r ++ rest) := by
      rw [List.append_assoc, trimStart_append_of_blank hfront, hword.trimStart_append, hcons,
        List.cons_append]
    rw [words_of_trimStart hstart, ← List.cons_append, ← hcons, hfirst, hafter, ih]

theorem words_eq_iff : words s = ws ↔ HasWords s ws :=
  ⟨fun h => h ▸ hasWords_words s, HasWords.words_eq⟩

theorem HasWords.isWord (h : HasWords s ws) (hmem : word ∈ ws) : IsWord word := by
  induction h with
  | nil => cases hmem
  | cons _ hword _ _ ih =>
    rcases List.mem_cons.1 hmem with rfl | hmem
    · exact hword
    · exact ih hmem

/-! ## Trimmed texts -/

theorem IsWord.trimmed (h : IsWord s) : Trimmed s :=
  ⟨fun c hc => h.visible c (List.mem_of_mem_head? hc),
    fun c hc => h.visible c (List.mem_of_mem_getLast? hc)⟩

theorem Trimmed.append (hw : IsWord word) (gap : List Char) (ht : Trimmed t) (hne : t ≠ []) :
    Trimmed (word ++ gap ++ t) := by
  constructor
  · intro c hc
    rw [List.append_assoc, List.head?_append, List.head?_eq_some_head hw.ne_nil,
      Option.some_or] at hc
    exact hw.trimmed.head c ((List.head?_eq_some_head hw.ne_nil).trans hc)
  · intro c hc
    rw [List.getLast?_append, List.getLast?_eq_some_getLast hne, Option.some_or] at hc
    exact ht.last c ((List.getLast?_eq_some_getLast hne).trans hc)

theorem trimmed_trim (s : List Char) : Trimmed (trim s) := by
  constructor
  · intro c hc
    obtain ⟨r, hcons⟩ := List.head?_eq_some_iff.1 hc
    exact isBlank_of_trimStart_eq_cons ((trimStart_trim s).trans hcons)
  · intro c hc
    rw [trim, trimEnd, List.getLast?_reverse] at hc
    have hhead := List.head?_dropWhile_not isBlank (trimStart s).reverse
    rw [Option.mem_def.1 hc] at hhead
    simpa using hhead

theorem Trimmed.trim_eq (h : Trimmed s) : trim s = s := by
  have hdrop : ∀ t : List Char, (∀ c ∈ t.head?, isBlank c = false) → t.dropWhile isBlank = t := by
    intro t ht
    cases t with
    | nil => rfl
    | cons c t => exact List.dropWhile_cons_of_neg (by simp [ht c rfl])
  have hstart : trimStart s = s := hdrop s h.head
  have hend : s.reverse.dropWhile isBlank = s.reverse := by
    refine hdrop s.reverse fun c hc => h.last c ?_
    rwa [List.head?_reverse] at hc
  rw [trim, hstart, trimEnd, hend, List.reverse_reverse]

theorem trimsTo_trim (s : List Char) : TrimsTo s (trim s) := by
  obtain ⟨front, back, hfront, hback, hs⟩ := exists_trim s
  have htrim := TrimsTo.intro hfront (trimmed_trim s) hback
  rwa [← hs] at htrim

theorem TrimsTo.trim_eq (h : TrimsTo s t) : trim s = t := by
  cases h with
  | intro hfront ht hback => rw [trim_append_append hfront _ hback, ht.trim_eq]

/-- The first word of a text starts the trimmed text. -/
theorem HasWords.firstWord_eq (h : HasWords s (word :: ws)) (ht : TrimsTo s t) :
    t ≠ [] ∧ firstWord t = word := by
  have hne : trim s ≠ [] := by
    intro hnil
    have hwords := h.words_eq
    rw [words_of_blank (trim_eq_nil_iff.1 hnil)] at hwords
    cases hwords
  have hwords := h.words_eq
  rw [words_eq_cons hne, ht.trim_eq] at hwords
  exact ⟨ht.trim_eq ▸ hne, (List.cons.inj hwords).1⟩

theorem exists_word (h : ¬ Blank s) :
    ∃ word rest, IsWord word ∧ EndsWord rest ∧ trim s = word ++ rest := by
  refine ⟨firstWord (trim s), afterFirstWord (trim s), ?_, endsWord_afterFirstWord _,
    (firstWord_append_afterFirstWord _).symm⟩
  exact isWord_firstWord (fun hnil => h (trim_eq_nil_iff.1 hnil)) (trimmed_trim s).head

end DeskCalculator.Text
