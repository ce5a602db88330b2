import DeskCalculator.Calculator
import DeskCalculator.Proofs.Text.Words
import DeskCalculator.Proofs.Token.Shapes
import Mathlib

/-!
# Small letters

**Theorem (`isPlain_of_mem_lowercase`).** The small form of a character that is no blank has no
blanks and is its own small form.

The table of capital letters is checked by runs and not by letters. The small letters of a run lie
in a range that holds no blank (`capitalRuns_visible`) and that no capital of any run falls into,
unless capitals and small letters take turns there (`capitalRuns_avoid`).

**ASCII.** One capital letter outside ASCII has an ASCII letter as its small form, the Kelvin sign.
So a word in ASCII letters other than `k` is the small form of itself in any letter case, and of
nothing else (`flatMap_lowercase_eq_iff`).

**Spellings** (`Respelling`). Two texts are spellings of each other if they differ only in blanks,
wherever these stand, and in the case of ASCII letters.

**Theorem (`parse_evaluate_respelling`).** Spellings of each other are read as the same expression
and have the same value, or they fail in the same way. The reason is that they have the same normal
form (`Respelling.normalize_eq`). A normal form has no blanks and is its own normal form
(`normalize_normalize`), so it may take the place of the text.
-/

namespace DeskCalculator

namespace Text

/-! ## Runs -/

namespace CapitalRun

variable {run other : CapitalRun} {n m : Nat}

/-- The small letter of the last capital. -/
def lastSmall (run : CapitalRun) : Nat := run.small + (run.last - run.first)

/-- The capitals of the run are all odd or all even code points, and so are its small letters. -/
def alternates (run : CapitalRun) : Bool := run.step == 2 || run.first == run.last

/-- No small letter of `run` is a capital of `other`: their ranges do not meet, or odd and even code
points keep them apart. -/
def avoids (run other : CapitalRun) : Bool :=
  Nat.blt run.lastSmall other.first || Nat.blt other.last run.small ||
    (run.alternates && other.alternates && run.small % 2 != other.first % 2)

theorem of_small? (h : run.small? n = some m) :
    run.first ≤ n ∧ n ≤ run.last ∧ (n - run.first) % run.step = 0 ∧
      m = run.small + (n - run.first) := by
  unfold small? at h
  split at h
  next hn =>
    cases h
    exact ⟨hn.1, hn.2.1, hn.2.2, rfl⟩
  next => cases h

theorem le_lastSmall (h : run.small? n = some m) : run.small ≤ m ∧ m ≤ run.lastSmall := by
  obtain ⟨hfirst, hlast, -, rfl⟩ := of_small? h
  unfold lastSmall
  omega

/-- In an alternating run capitals lie an even distance from the first one. -/
theorem even_of_alternates (h : run.small? n = some m) (ha : run.alternates) :
    (n - run.first) % 2 = 0 := by
  obtain ⟨hfirst, hlast, hstep, -⟩ := of_small? h
  rcases Bool.or_eq_true_iff.1 ha with htwo | hsingle
  · rw [beq_iff_eq.1 htwo] at hstep
    exact hstep
  · have := beq_iff_eq.1 hsingle
    omega

theorem small?_eq_none_of_avoids (h : run.avoids other) (hm : run.small? n = some m) :
    other.small? m = none := by
  cases hother : other.small? m with
  | none => rfl
  | some k =>
    obtain ⟨hfirst, -, -, rfl⟩ := of_small? hm
    obtain ⟨hfirst', hlast', -, -⟩ := of_small? hother
    have hrange := le_lastSmall hm
    simp only [avoids, Bool.or_eq_true, Bool.and_eq_true, Nat.blt_eq, bne_iff_ne] at h
    obtain (hbefore | hbehind) | ⟨⟨halternates, halternates'⟩, hparity⟩ := h
    · omega
    · omega
    · have heven := even_of_alternates hm halternates
      have heven' := even_of_alternates hother halternates'
      omega

end CapitalRun

/-! ## The table -/

variable {c d : Char} {n m : Nat} {s t : List Char}

/-- The code points of the blanks. -/
def blankPoints : List Nat :=
  [0x09, 0x0A, 0x0B, 0x0C, 0x0D, 0x20, 0x85, 0xA0, 0x1680, 0x2000, 0x2001, 0x2002, 0x2003, 0x2004,
    0x2005, 0x2006, 0x2007, 0x2008, 0x2009, 0x200A, 0x2028, 0x2029, 0x202F, 0x205F, 0x3000]

theorem isBlank_iff : isBlank c ↔ c.toNat ∈ blankPoints := by
  simp only [isBlank, blankPoints, Bool.or_eq_true, Bool.and_eq_true, decide_eq_true_eq,
    beq_iff_eq, List.mem_cons, List.not_mem_nil, or_false]
  omega

theorem capitalRuns_avoid : ∀ run ∈ capitalRuns, capitalRuns.all run.avoids := by
  decide +kernel

theorem capitalRuns_visible :
    ∀ run ∈ capitalRuns, ∀ n ∈ blankPoints, n < run.small ∨ run.lastSmall < n := by
  decide +kernel

theorem capitalRuns_valid : ∀ run ∈ capitalRuns,
    run.lastSmall < 0xD800 ∨ 0xDFFF < run.small ∧ run.lastSmall < 0x110000 := by
  decide +kernel

/-- Outside ASCII, `İ` is not among the small letters. In ASCII only `k` is. -/
theorem capitalRuns_small : ∀ run ∈ capitalRuns,
    0x130 < run.small ∨ (0x80 ≤ run.small ∧ run.lastSmall < 0x130) ∨
      (run.small = 'k'.toNat ∧ run.lastSmall = 'k'.toNat) := by
  decide +kernel

theorem exists_run (h : smallLetter? n = some m) : ∃ run ∈ capitalRuns, run.small? n = some m :=
  List.exists_of_findSome?_eq_some h

theorem smallLetter?_of_smallLetter? (h : smallLetter? n = some m) : smallLetter? m = none := by
  obtain ⟨run, hrun, hm⟩ := exists_run h
  exact List.findSome?_eq_none_iff.2 fun other hother =>
    CapitalRun.small?_eq_none_of_avoids
      (List.all_eq_true.1 (capitalRuns_avoid run hrun) other hother) hm

theorem toNat_ofNat_of_smallLetter? (h : smallLetter? n = some m) : (Char.ofNat m).toNat = m := by
  obtain ⟨run, hrun, hm⟩ := exists_run h
  have hrange := CapitalRun.le_lastSmall hm
  have hvalid := capitalRuns_valid run hrun
  rw [Char.toNat_ofNat, if_pos]
  simp only [Nat.isValidChar]
  omega

theorem isBlank_of_smallLetter? (h : smallLetter? n = some m) : isBlank (Char.ofNat m) = false := by
  obtain ⟨run, hrun, hm⟩ := exists_run h
  have hrange := CapitalRun.le_lastSmall hm
  refine Bool.eq_false_iff.2 fun hblank => ?_
  rw [isBlank_iff, toNat_ofNat_of_smallLetter? h] at hblank
  have := capitalRuns_visible run hrun m hblank
  omega

theorem eq_or_le_of_smallLetter? (h : smallLetter? n = some m) :
    m = 'k'.toNat ∨ 0x80 ≤ m ∧ m ≠ 0x130 := by
  obtain ⟨run, hrun, hm⟩ := exists_run h
  have hrange := CapitalRun.le_lastSmall hm
  have hsmall := capitalRuns_small run hrun
  omega

/-! ## Characters -/

theorem lowercase_of_lt (h : c.toNat < 0x80) : lowercase c = [c.toLower] := by
  rw [lowercase, if_pos h]

theorem lowercase_of_smallLetter? (hn : 0x80 ≤ c.toNat) (hdotted : c.toNat ≠ 0x130)
    (h : smallLetter? c.toNat = some m) : lowercase c = [Char.ofNat m] := by
  rw [lowercase, if_neg (Nat.not_lt.2 hn), if_neg hdotted, h]

theorem lowercase_of_not_capital (hn : 0x80 ≤ c.toNat) (hdotted : c.toNat ≠ 0x130)
    (h : smallLetter? c.toNat = none) : lowercase c = [c] := by
  rw [lowercase, if_neg (Nat.not_lt.2 hn), if_neg hdotted, h]

theorem isPlain_toLower_of_lt (h : c.toNat < 0x80) (hc : isBlank c = false) :
    IsPlain c.toLower := by
  have hall : ∀ n < 0x80, isBlank (Char.ofNat n) = false → IsPlain (Char.ofNat n).toLower := by
    decide +kernel
  have hplain := hall c.toNat h
  rw [Char.ofNat_toNat] at hplain
  exact hplain hc

theorem isPlain_of_smallLetter? (h : smallLetter? n = some m) : IsPlain (Char.ofNat m) := by
  refine ⟨isBlank_of_smallLetter? h, ?_⟩
  have htoNat := toNat_ofNat_of_smallLetter? h
  rcases eq_or_le_of_smallLetter? h with rfl | ⟨hn, hdotted⟩
  · decide
  · rw [← htoNat] at hn hdotted
    exact lowercase_of_not_capital hn hdotted (htoNat.symm ▸ smallLetter?_of_smallLetter? h)

theorem isPlain_combiningDot : IsPlain (Char.ofNat 0x307) := by
  decide +kernel

/-- What a character that is no blank is written as in small letters is plain. -/
theorem isPlain_of_mem_lowercase (hc : isBlank c = false) (hd : d ∈ lowercase c) : IsPlain d := by
  by_cases hn : c.toNat < 0x80
  · rw [lowercase_of_lt hn] at hd
    rw [List.mem_singleton.1 hd]
    exact isPlain_toLower_of_lt hn hc
  have hn := Nat.not_lt.1 hn
  by_cases hdotted : c.toNat = 0x130
  · rw [lowercase, if_neg (Nat.not_lt.2 hn), if_pos hdotted] at hd
    obtain rfl | rfl : d = 'i' ∨ d = Char.ofNat 0x307 := by simpa using hd
    · decide
    · exact isPlain_combiningDot
  cases hsmall : smallLetter? c.toNat with
  | some m =>
    rw [lowercase_of_smallLetter? hn hdotted hsmall] at hd
    rw [List.mem_singleton.1 hd]
    exact isPlain_of_smallLetter? hsmall
  | none =>
    have hself := lowercase_of_not_capital hn hdotted hsmall
    rw [hself] at hd
    rw [List.mem_singleton.1 hd]
    exact ⟨hc, hself⟩

/-! ## Letter case in ASCII -/

theorem toLower_of_le (h : 0x80 ≤ c.toNat) : c.toLower = c := by
  refine Char.toLower_eq_of_not_isUpper fun hupper => ?_
  simp only [Char.isUpper, decide_eq_true_eq, UInt32.le_iff_toNat_le] at hupper
  have hlast : c.toNat ≤ 0x5A := hupper.2
  omega

theorem toNat_toLower_lt_iff : c.toLower.toNat < 0x80 ↔ c.toNat < 0x80 := by
  by_cases hn : c.toNat < 0x80
  · have hall : ∀ n < 0x80, (Char.ofNat n).toLower.toNat < 0x80 := by decide
    have hlt := hall c.toNat hn
    rw [Char.ofNat_toNat] at hlt
    exact iff_of_true hlt hn
  · rw [toLower_of_le (Nat.not_lt.1 hn)]

/-- Characters that differ in letter case only are blanks together and have the same small form. -/
theorem lowercase_congr (h : c.toLower = d.toLower) :
    isBlank c = isBlank d ∧ lowercase c = lowercase d := by
  by_cases hc : c.toNat < 0x80
  · have hd : d.toNat < 0x80 := by rwa [← toNat_toLower_lt_iff, ← h, toNat_toLower_lt_iff]
    refine ⟨?_, by rw [lowercase_of_lt hc, lowercase_of_lt hd, h]⟩
    have hall : ∀ n < 0x80, isBlank (Char.ofNat n).toLower = isBlank (Char.ofNat n) := by decide
    have hblank := hall c.toNat hc
    have hblank' := hall d.toNat hd
    rw [Char.ofNat_toNat] at hblank hblank'
    rw [← hblank, ← hblank', h]
  · have hd : ¬ d.toNat < 0x80 := by rwa [← toNat_toLower_lt_iff, ← h, toNat_toLower_lt_iff]
    rw [toLower_of_le (Nat.not_lt.1 hc), toLower_of_le (Nat.not_lt.1 hd)] at h
    rw [h]
    exact ⟨rfl, rfl⟩

/-- Outside ASCII every small form has a character that is not ASCII, except for that of the Kelvin
sign. -/
theorem exists_mem_lowercase (h : 0x80 ≤ c.toNat) :
    ∃ d ∈ lowercase c, d = 'k' ∨ 0x80 ≤ d.toNat := by
  by_cases hdotted : c.toNat = 0x130
  · refine ⟨Char.ofNat 0x307, ?_, .inr (by decide)⟩
    rw [lowercase, if_neg (Nat.not_lt.2 h), if_pos hdotted]
    exact List.mem_cons_of_mem _ List.mem_cons_self
  cases hsmall : smallLetter? c.toNat with
  | some m =>
    rw [lowercase_of_smallLetter? h hdotted hsmall]
    refine ⟨_, List.mem_cons_self, ?_⟩
    rcases eq_or_le_of_smallLetter? hsmall with rfl | ⟨hm, -⟩
    · exact .inl (Char.ofNat_toNat 'k')
    · exact .inr (by rwa [toNat_ofNat_of_smallLetter? hsmall])
  | none =>
    rw [lowercase_of_not_capital h hdotted hsmall]
    exact ⟨c, List.mem_cons_self, .inr h⟩

theorem flatMap_lowercase_of_lt (h : ∀ c ∈ s, c.toNat < 0x80) :
    s.flatMap lowercase = s.map Char.toLower := by
  rw [← List.flatMap_singleton' (s.map Char.toLower), List.flatMap_map]
  exact List.flatMap_congr fun c hc => lowercase_of_lt (h c hc)

/-- A text in ASCII without the letter `k` is the small form of the texts that differ from it in the
case of ASCII letters, and of no other text. -/
theorem flatMap_lowercase_eq_iff (ht : ∀ d ∈ t, d.toNat < 0x80 ∧ d ≠ 'k') :
    s.flatMap lowercase = t ↔ s.map Char.toLower = t := by
  constructor
  · intro h
    rw [← flatMap_lowercase_of_lt, h]
    intro c hc
    by_contra hn
    obtain ⟨d, hd, houtside⟩ := exists_mem_lowercase (Nat.not_lt.1 hn)
    obtain ⟨hascii, hk⟩ := ht d (h ▸ List.mem_flatMap_of_mem hc hd)
    exact houtside.elim hk (Nat.not_le.2 hascii)
  · intro h
    rw [flatMap_lowercase_of_lt, h]
    intro c hc
    rw [← toNat_toLower_lt_iff]
    exact (ht _ (h ▸ List.mem_map_of_mem hc)).1

end Text

/-! ## Spellings -/

namespace Text

/-- `Respelling s t`: the texts `s` and `t` differ only in blanks that one of them has and the other
has not, and in the case of ASCII letters. -/
inductive Respelling : List Char → List Char → Prop where
  | nil : Respelling [] []
  | character {c d s t} : c.toLower = d.toLower → Respelling s t → Respelling (c :: s) (d :: t)
  | removed {c s t} : isBlank c → Respelling s t → Respelling (c :: s) t
  | inserted {c s t} : isBlank c → Respelling s t → Respelling s (c :: t)

variable {s t : List Char}

theorem normalize_cons_of_isBlank {c : Char} (hc : isBlank c) (s : List Char) :
    normalize (c :: s) = normalize s := by
  rw [normalize_cons, if_pos hc, List.nil_append]

/-- Spellings of each other have the same normal form. -/
theorem Respelling.normalize_eq (h : Respelling s t) : normalize s = normalize t := by
  induction h with
  | nil => rfl
  | character hcase _ ih =>
    obtain ⟨hblank, hlower⟩ := lowercase_congr hcase
    rw [normalize_cons, normalize_cons, hblank, hlower, ih]
  | removed hc _ ih => rw [normalize_cons_of_isBlank hc, ih]
  | inserted hc _ ih => rw [normalize_cons_of_isBlank hc, ih]

theorem isPlain_of_mem_normalize {c : Char} (h : c ∈ normalize s) : IsPlain c := by
  obtain ⟨d, hd, hc⟩ := List.mem_flatMap.1 h
  exact isPlain_of_mem_lowercase (by simpa using (List.mem_filter.1 hd).2) hc

/-- A normal form is its own normal form. -/
theorem normalize_normalize (s : List Char) : normalize (normalize s) = normalize s :=
  normalize_eq_self fun _ => isPlain_of_mem_normalize

/-- In ASCII the normal form is a spelling of the text. -/
theorem respelling_normalize (h : ∀ c ∈ s, c.toNat < 0x80) : Respelling s (normalize s) := by
  induction s with
  | nil => exact .nil
  | cons c s ih =>
    have hs := ih fun d hd => h d (List.mem_cons_of_mem c hd)
    by_cases hc : isBlank c
    · rw [normalize_cons_of_isBlank hc]
      exact .removed hc hs
    · rw [normalize_cons, if_neg hc, lowercase_of_lt (h c List.mem_cons_self)]
      exact .character (Char.toLower_toLower_eq_toLower c).symm hs

end Text

theorem toList_normalize (s : String) : (normalize s).toList = Text.normalize s.toList := by
  rw [normalize, String.toList_ofList]

theorem parse_evaluate_congr {s t : String} (h : Text.normalize s.toList = Text.normalize t.toList)
    (limits : Limits) :
    parse limits s = parse limits t ∧ evaluate limits s = evaluate limits t := by
  have hparse : parse limits s = parse limits t := by rw [parse, parse, h]
  exact ⟨hparse, by rw [evaluate, evaluate, hparse]⟩

/-- Blanks and letter case never matter to an expression.

- Two texts that differ only in blanks and in the case of ASCII letters give the same tree with the
  same places, the same value, or the same failure with the same places and lengths, whatever the
  limits are.
- The normal form of a text has no blanks. It is its own normal form, and that of a concatenation is
  the concatenation of the normal forms. A text in ASCII differs from it as above.
- A text may be replaced by its normal form. -/
theorem parse_evaluate_respelling :
    (∀ (limits : Limits) (s t : String), Text.Respelling s.toList t.toList →
      parse limits s = parse limits t ∧ evaluate limits s = evaluate limits t) ∧
    (∀ s, normalize (normalize s) = normalize s) ∧
    (∀ s t, normalize (s ++ t) = normalize s ++ normalize t) ∧
    (∀ s, ∀ c ∈ (normalize s).toList, Text.isBlank c = false) ∧
    (∀ s : String, (∀ c ∈ s.toList, c.toNat < 0x80) →
      Text.Respelling s.toList (normalize s).toList) ∧
    ∀ (limits : Limits) (s : String),
      parse limits (normalize s) = parse limits s ∧
        evaluate limits (normalize s) = evaluate limits s := by
  refine ⟨fun limits s t h => ?_, fun s => ?_, fun s t => ?_, fun s c hc => ?_, fun s hs => ?_,
    fun limits s => ?_⟩
  · exact parse_evaluate_congr h.normalize_eq limits
  · rw [normalize, toList_normalize, Text.normalize_normalize, normalize]
  · rw [normalize, String.toList_append, Text.normalize_append, String.ofList_append]
    rfl
  · rw [toList_normalize] at hc
    exact (Text.isPlain_of_mem_normalize hc).1
  · rw [toList_normalize]
    exact Text.respelling_normalize hs
  · refine parse_evaluate_congr ?_ limits
    rw [toList_normalize, Text.normalize_normalize]

/-- A blank within a number, an ideographic space and capital letters change neither the tree with
its place nor the value. -/
theorem parse_evaluate_root_with_blanks :
    Text.Respelling "2*\u3000Sqrt(1 6)".toList "2*sqrt(16)".toList ∧
      parse {} "2*\u3000Sqrt(1 6)" =
        .ok (.binary .multiply (.literal 2) (.call .sqrt (.literal 16) (some 2))) ∧
      evaluate {} "2*\u3000Sqrt(1 6)" = .ok 8 := by
  have hspelling : Text.Respelling "2*\u3000Sqrt(1 6)".toList "2*sqrt(16)".toList :=
    .character rfl <| .character rfl <| .removed rfl <| .character rfl <| .character rfl <|
      .character rfl <| .character rfl <| .character rfl <| .character rfl <| .removed rfl <|
      .character rfl <| .character rfl .nil
  obtain ⟨hparse, hvalue⟩ := parse_evaluate_respelling.1 {} _ _ hspelling
  refine ⟨hspelling, hparse.trans ?_, hvalue.trans ?_⟩
  · decide +kernel
  · decide +kernel

end DeskCalculator
