import DeskCalculator.Proofs.Reading.Refusal
import DeskCalculator.Proofs.Text.Letters
import DeskCalculator.Session

/-!
# What a line asks for

**Theorem (`step_eq_of_parse`).** No expression starts with a command word. So a line that can be
read as an expression, whatever blanks and letter case it is written with, is evaluated, and the
session stays as it was. The normal form of a line starts with its first word in small letters. The
letters of a command word would be the start of the first token, but no function has a name that
starts with them, and the question mark stands in no expression (`not_accepted_of_mem_spellings`).

**Description** (`AsksFor`). The first word of a line decides. A command word counts in any mix of
capital and small ASCII letters. What stands behind it, without the blanks around, goes with it; two
of the words need no more, three need one expression each, and so on. Every other line that is not
blank is an expression.

**Theorem (`ofLine_eq_iff_asksFor`).** Every line is recognized as described, and in no other way.
So no argument of a command is empty or has blanks around it. The calculator compares words after
writing every letter small, also those outside ASCII; no such letter becomes one of a command word
(`ofWord?_eq_some_iff`).
-/

namespace DeskCalculator

section Recognition

variable {k : Keyword} {spelling : String} {rest word : List Char} {line : String} {s : Session}
  {e : Expr}

/-! ## Spellings of command words -/

namespace Keyword

theorem exists_spelling_of_ofWord? (h : ofWord? word = some k) :
    ∃ spelling ∈ k.spellings, spelling.toList = word.flatMap Text.lowercase := by
  simpa using List.find?_some h

/-- Every command word but the question mark starts with letters that no name of a function starts
with. -/
theorem letters_not_prefix : ∀ k ∈ all, ∀ spelling ∈ k.spellings, spelling = "?" ∨
    spelling.toList.head?.any (fun c => !Lexeme.isNumeral c && Lexeme.isLetter c) ∧
      ∀ f ∈ Function.all, ¬ spelling.toList.takeWhile Lexeme.isLetter <+: f.name.toList := by
  decide

theorem mem_all (k : Keyword) : k ∈ all := by
  cases k <;> decide

end Keyword

/-! ## First tokens -/

theorem Lexeme.takeWhile_isLetter_prefix (s t : List Char) :
    s.takeWhile isLetter <+: (s ++ t).takeWhile isLetter := by
  rw [List.takeWhile_append]
  split
  next hall =>
    rw [(List.takeWhile_prefix _).eq_of_length hall]
    exact List.prefix_append _ _
  next => exact List.prefix_rfl

/-- The first token of an expression is no stray character. If it is a name, a function has it. -/
theorem Accepted.exists_first {t : Token} {more : List Token} (h : Accepted (t :: more)) :
    t.kind ≠ .stray ∧ (t.kind = .name → ∃ f, Function.ofName? t.text = some f) := by
  have hstart : Accepted ([] ++ t :: more) := h
  obtain ⟨u, hu⟩ := hstart.exists_step .nil
  cases hu with
  | name hk hf => exact ⟨by simp [hk], fun _ => ⟨_, hf⟩⟩
  | number hk | group hk | sign hk =>
    exact ⟨by simp [hk], fun hname => by simp [hname] at hk⟩

/-- A text that starts with a command word in small letters is no expression. -/
theorem not_accepted_of_mem_spellings (h : spelling ∈ k.spellings) (rest : List Char) :
    ¬ Accepted (tokenize (spelling.toList ++ rest)) := by
  intro haccepted
  rcases Keyword.letters_not_prefix k k.mem_all spelling h with rfl | ⟨hhead, hnames⟩
  · have hcons : "?".toList ++ rest = '?' :: rest := rfl
    rw [hcons, tokenize, lexemes_cons_mark (by decide) (by decide), Token.inOrder_cons] at haccepted
    exact haccepted.exists_first.1 rfl
  · obtain ⟨c, letters, hcons⟩ : ∃ c letters, spelling.toList = c :: letters := by
      cases hspelling : spelling.toList with
      | nil => simp [hspelling] at hhead
      | cons c letters => exact ⟨c, letters, rfl⟩
    simp only [hcons, List.head?_cons, Option.any_some, Bool.and_eq_true, Bool.not_eq_true']
      at hhead
    obtain ⟨hnumeral, hletter⟩ := hhead
    -- The first token is the run of letters that starts with those of the command word.
    have hfirst : (Lexeme.first c (letters ++ rest)).1 =
        (spelling.toList ++ rest).takeWhile Lexeme.isLetter := by
      rw [Lexeme.first, if_neg (by simp [hnumeral]), if_pos hletter, hcons]
      rfl
    rw [hcons, List.cons_append, tokenize, lexemes_cons, Token.inOrder_cons] at haccepted
    obtain ⟨f, hf⟩ := haccepted.exists_first.2 (by
      obtain ⟨r, hr⟩ := Lexeme.exists_cons_of_first c (letters ++ rest)
      rw [hr, Token.ofText, TokenKind.ofText, if_neg (by simp [hnumeral]), if_pos hletter])
    have hname := Function.name_of_ofName? hf
    refine hnames f f.mem_all ?_
    rw [hname, Token.ofText, hfirst]
    exact Lexeme.takeWhile_isLetter_prefix _ _

/-! ## Lines -/

theorem Accepted.of_parse {limits : Limits} (h : parse limits line = .ok e) :
    Accepted (tokenize (Text.normalize line.toList)) :=
  ⟨e, Derives.of_parse h⟩

theorem Keyword.ofWord?_of_accepted (h : Accepted (tokenize (Text.normalize rest))) :
    ofWord? (Text.firstWord (Text.trim rest)) = none := by
  rw [← Text.normalize_trim, Text.normalize_eq_firstWord_append] at h
  cases hword : ofWord? (Text.firstWord (Text.trim rest)) with
  | none => rfl
  | some k =>
    obtain ⟨spelling, hmem, hspelling⟩ := exists_spelling_of_ofWord? hword
    rw [← hspelling] at h
    exact absurd h (not_accepted_of_mem_spellings hmem _)

theorem Text.trim_ne_nil_of_accepted (h : Accepted (tokenize (Text.normalize rest))) :
    Text.trim rest ≠ [] := by
  intro hnil
  rw [normalize_of_blank (trim_eq_nil_iff.1 hnil), tokenize, lexemes_nil, Token.inOrder_nil] at h
  obtain ⟨e, he⟩ := h
  obtain ⟨waiting, e', hsteps, -⟩ := he.reads.settleAll []
  cases hsteps

theorem Command.ofLine_of_parse {limits : Limits} (h : parse limits line = .ok e) :
    ofLine line = .ok (some (.evaluate (String.ofList (Text.trim line.toList)))) := by
  have haccepted := Accepted.of_parse h
  rw [ofLine, if_neg (Text.trim_ne_nil_of_accepted haccepted), ofTrimmed,
    Keyword.ofWord?_of_accepted haccepted]
  rfl

theorem evaluate_trim (limits : Limits) (s : List Char) :
    evaluate limits (String.ofList (Text.trim s)) = evaluate limits (String.ofList s) := by
  simp only [evaluate, parse, String.toList_ofList, Text.normalize_trim]

/-- A line that can be read as an expression, whatever blanks and letter case it is written with, is
answered with its value or with the failure of its evaluation, and the session stays as it was. -/
theorem step_eq_of_parse (h : parse s.limits line = .ok e) :
    Command.ofLine line = .ok (some (.evaluate (String.ofList (Text.trim line.toList)))) ∧
      (∀ x, evaluate s.limits line = .ok x → s.step line = (.ok (some (.value x)), s)) ∧
      ∀ f, evaluate s.limits line = .error f → s.step line = (.error (.failure f), s) := by
  have hcommand := Command.ofLine_of_parse h
  have hvalue : s.value (String.ofList (Text.trim line.toList)) = evaluate s.limits line := by
    rw [Session.value, evaluate_trim, String.ofList_toList]
  refine ⟨hcommand, ?_, ?_⟩
  · intro x hx
    simp only [Session.step, hcommand, Session.execute, hvalue, hx]
    rfl
  · intro f hf
    simp only [Session.step, hcommand, Session.execute, hvalue, hf]
    rfl

/-- Capital letters, a tab, blanks within a number and an ideographic space do not keep a line from
being evaluated, and the memory stays as it was. -/
theorem step_square_root_with_blanks :
    parse {} "\tSQRT( 1 6 ) / 2\u3000" =
        .ok (.binary .divide (.call .sqrt (.literal 16) none) (.literal 2)) ∧
      ({ memory := ⟨7⟩ } : Session).step "\tSQRT( 1 6 ) / 2\u3000" =
        (.ok (some (.value 2)), { memory := ⟨7⟩ }) := by
  have hread : parse {} "\tSQRT( 1 6 ) / 2\u3000" =
      .ok (.binary .divide (.call .sqrt (.literal 16) none) (.literal 2)) := by
    decide +kernel
  have hvalue : evaluate {} "\tSQRT( 1 6 ) / 2\u3000" = .ok 2 := by
    decide +kernel
  exact ⟨hread, (step_eq_of_parse (s := { memory := ⟨7⟩ }) hread).2.1 2 hvalue⟩

end Recognition

open Text (Blank IsWord EndsWord Trimmed TrimsTo HasWords)

/-! ## The description -/

namespace Keyword

/-- The word is this command word, in any mix of capital and small ASCII letters. -/
def Spells (k : Keyword) (word : List Char) : Prop :=
  ∃ spelling ∈ k.spellings, word.map Char.toLower = spelling.toList

/-- What a command word asks for that takes an expression. -/
def withExpression? : Keyword → Option (String → Command)
  | addToMemory => some .addToMemory
  | subtractFromMemory => some .subtractFromMemory
  | toRadians => some .toRadians
  | toDegrees => some .toDegrees
  | recallMemory | clearMemory | root | help | quit => none

/-- What a command word asks for that stands alone. -/
def alone? : Keyword → Option Command
  | recallMemory => some .recallMemory
  | clearMemory => some .clearMemory
  | help => some .help
  | quit => some .quit
  | addToMemory | subtractFromMemory | root | toRadians | toDegrees => none

/-- The line has nothing but the command word `k`. -/
inductive StandsAlone (k : Keyword) : List Char → Prop where
  | intro {front word back} : Blank front → k.Spells word → Blank back →
      StandsAlone k (front ++ word ++ back)

/-- The line has the command word `k` and behind it, after some blanks, the text `e`. -/
inductive Precedes (k : Keyword) (e : List Char) : List Char → Prop where
  | intro {front word gap back} : Blank front → k.Spells word → Blank gap → gap ≠ [] →
      Trimmed e → e ≠ [] → Blank back → Precedes k e (front ++ word ++ gap ++ e ++ back)

end Keyword

/-- `AsksFor line result`: the line asks for a command or, if it is blank, for nothing, or a command
word is used wrongly in it. -/
inductive AsksFor : List Char → Except Keyword (Option Command) → Prop where
  | nothing {s} : Blank s → AsksFor s (.ok none)
  | expression {s word others e} : HasWords s (word :: others) → (∀ k : Keyword, ¬ k.Spells word) →
      TrimsTo s e → AsksFor s (.ok (some (.evaluate (String.ofList e))))
  | argument {k : Keyword} {command e s} : k.withExpression? = some command → k.Precedes e s →
      AsksFor s (.ok (some (command (String.ofList e))))
  | root {x n e s} : Keyword.root.Precedes e s → HasWords e [x, n] →
      AsksFor s (.ok (some (.root (String.ofList x) (String.ofList n))))
  | alone {k : Keyword} {command s} : k.alone? = some command → k.StandsAlone s →
      AsksFor s (.ok (some command))
  | missing {k : Keyword} {s} : k.alone? = none → k.StandsAlone s → AsksFor s (.error k)
  | notTwo {e s} : Keyword.root.Precedes e s → (∀ x n, ¬ HasWords e [x, n]) →
      AsksFor s (.error .root)
  | surplus {k : Keyword} {command e s} : k.alone? = some command → k.Precedes e s →
      AsksFor s (.error k)

/-- The texts that a command comes with. -/
def Command.arguments : Command → List String
  | evaluate expression | addToMemory expression | subtractFromMemory expression
  | toRadians expression | toDegrees expression => [expression]
  | root radicand degree => [radicand, degree]
  | recallMemory | clearMemory | help | quit => []

variable {k : Keyword} {command : Command} {build : String → Command} {s e word : List Char}
  {result : Except Keyword (Option Command)}

/-! ## Words that are recognized -/

namespace Keyword

theorem isWord_spelling : ∀ k ∈ all, ∀ spelling ∈ k.spellings, IsWord spelling.toList := by
  decide

/-- Command words are in ASCII and do without the letter `k`. -/
theorem ascii_spelling {spelling : String} (h : spelling ∈ k.spellings) :
    ∀ d ∈ spelling.toList, d.toNat < 0x80 ∧ d ≠ 'k' := by
  have hall : ∀ k ∈ all, ∀ spelling ∈ k.spellings,
      spelling.toList.all fun d => d.toNat < 0x80 ∧ d ≠ 'k' := by
    decide
  exact fun d hd => of_decide_eq_true (List.all_eq_true.1 (hall k k.mem_all spelling h) d hd)

theorem find?_spelling : ∀ k ∈ all, ∀ spelling ∈ k.spellings,
    (all.find? fun k' => k'.spellings.any fun spelling' => spelling'.toList == spelling.toList) =
      some k := by
  decide +kernel

/-- A word is recognized by its ASCII letters, whatever their case. -/
theorem ofWord?_eq_some_iff : ofWord? word = some k ↔ k.Spells word := by
  constructor
  · intro h
    obtain ⟨spelling, hmem, hspelling⟩ := exists_spelling_of_ofWord? h
    exact ⟨spelling, hmem,
      (Text.flatMap_lowercase_eq_iff (ascii_spelling hmem)).1 hspelling.symm⟩
  · rintro ⟨spelling, hmem, hspelling⟩
    rw [ofWord?, (Text.flatMap_lowercase_eq_iff (ascii_spelling hmem)).2 hspelling]
    exact find?_spelling k k.mem_all spelling hmem

theorem ofWord?_eq_none_iff : ofWord? word = none ↔ ∀ k : Keyword, ¬ k.Spells word := by
  simp only [Option.eq_none_iff_forall_ne_some, ne_eq, ofWord?_eq_some_iff]

theorem Spells.isWord (h : k.Spells word) : IsWord word := by
  obtain ⟨spelling, hmem, hspelling⟩ := h
  have hword := isWord_spelling k k.mem_all spelling hmem
  rw [← hspelling] at hword
  refine ⟨fun hnil => hword.ne_nil (by rw [hnil]; rfl), fun c hc => ?_⟩
  rw [(Text.lowercase_congr (Char.toLower_toLower_eq_toLower c).symm).1]
  exact hword.visible _ (List.mem_map_of_mem hc)

/-! ## Lines with a command word -/

theorem ofTrimmed_of_spells (h : k.Spells word) {rest : List Char} (hrest : EndsWord rest) :
    Command.ofTrimmed (word ++ rest) = k.command (Text.trim rest) := by
  obtain ⟨hfirst, hafter⟩ := h.isWord.firstWord_append hrest
  rw [Command.ofTrimmed, hfirst, hafter, ofWord?_eq_some_iff.2 h]

end Keyword

theorem Command.ofLine_of_trimsTo {t : List Char} (h : TrimsTo s t) (ht : t ≠ []) :
    ofLine (String.ofList s) = (ofTrimmed t).map some := by
  simp only [ofLine, String.toList_ofList, h.trim_eq, if_neg ht]

namespace Keyword

theorem StandsAlone.ofLine_eq (h : k.StandsAlone s) :
    Command.ofLine (String.ofList s) = (k.command []).map some := by
  cases h with
  | @intro front word back hfront hspells hback =>
    have hword := hspells.isWord
    rw [Command.ofLine_of_trimsTo (.intro hfront hword.trimmed hback) hword.ne_nil,
      ← List.append_nil word, ofTrimmed_of_spells hspells .nil]
    rfl

theorem Precedes.ofLine_eq (h : k.Precedes e s) :
    Command.ofLine (String.ofList s) = (k.command e).map some := by
  cases h with
  | @intro front word gap back hfront hspells hgap hne he hnonempty hback =>
    have htrimmed := Trimmed.append hspells.isWord gap he hnonempty
    have hline : front ++ word ++ gap ++ e ++ back = front ++ (word ++ gap ++ e) ++ back := by
      simp only [List.append_assoc]
    have hargument : Text.trim (gap ++ e) = e := by
      rw [← List.append_nil (gap ++ e), Text.trim_append_append hgap e Text.blank_nil, he.trim_eq]
    rw [hline, Command.ofLine_of_trimsTo (.intro hfront htrimmed hback) (by simp [hnonempty]),
      List.append_assoc, ofTrimmed_of_spells hspells (.of_blank hgap hne e), hargument]

theorem command_of_withExpression? (h : k.withExpression? = some build) (he : e ≠ []) :
    k.command e = .ok (build (String.ofList e)) := by
  cases k <;> cases h <;> exact if_neg he

theorem command_nil_of_alone? (h : k.alone? = some command) : k.command [] = .ok command := by
  cases k <;> cases h <;> rfl

theorem command_of_alone? (h : k.alone? = some command) (he : e ≠ []) :
    k.command e = .error k := by
  cases k <;> cases h <;> exact if_neg he

theorem command_nil_of_alone?_eq_none (h : k.alone? = none) : k.command [] = .error k := by
  have hwords : Text.words [] = [] := Text.words_of_blank Text.blank_nil
  cases k with
  | root => simp only [command, hwords]
  | recallMemory | clearMemory | help | quit => cases h
  | addToMemory | subtractFromMemory | toRadians | toDegrees => rfl

theorem command_root_of_hasWords {x n : List Char} (h : HasWords e [x, n]) :
    root.command e = .ok (.root (String.ofList x) (String.ofList n)) := by
  simp only [command, h.words_eq]

theorem command_root_of_not_hasWords (h : ∀ x n, ¬ HasWords e [x, n]) :
    root.command e = .error .root := by
  simp only [command]
  split
  next x n hwords => exact absurd (Text.words_eq_iff.1 hwords) (h x n)
  next => rfl

end Keyword

/-! ## Every line -/

/-- What a line asks for is recognized. -/
theorem AsksFor.ofLine_eq (h : AsksFor s result) : Command.ofLine (String.ofList s) = result := by
  cases h with
  | nothing h => simp [Command.ofLine, Text.trim_eq_nil_iff.2 h]
  | @expression _ word others e hwords hnone htrims =>
    obtain ⟨he, hfirst⟩ := hwords.firstWord_eq htrims
    rw [Command.ofLine_of_trimsTo htrims he, Command.ofTrimmed, hfirst,
      Keyword.ofWord?_eq_none_iff.2 hnone]
    rfl
  | argument hk h =>
    rw [h.ofLine_eq]
    cases h with
    | intro _ _ _ _ _ he => rw [Keyword.command_of_withExpression? hk he]; rfl
  | root h hwords => rw [h.ofLine_eq, Keyword.command_root_of_hasWords hwords]; rfl
  | alone hk h => rw [h.ofLine_eq, Keyword.command_nil_of_alone? hk]; rfl
  | missing hk h => rw [h.ofLine_eq, Keyword.command_nil_of_alone?_eq_none hk]; rfl
  | notTwo h hwords => rw [h.ofLine_eq, Keyword.command_root_of_not_hasWords hwords]; rfl
  | surplus hk h =>
    rw [h.ofLine_eq]
    cases h with
    | intro _ _ _ _ _ he => rw [Keyword.command_of_alone? hk he]; rfl

/-- Behind a command word there is nothing but blanks, or a text to go with it. -/
theorem Keyword.Spells.standsAlone_or_precedes (h : k.Spells word) {front rest back : List Char}
    (hfront : Blank front) (hrest : EndsWord rest) (hback : Blank back) :
    k.StandsAlone (front ++ word ++ rest ++ back) ∨
      ∃ e, k.Precedes e (front ++ word ++ rest ++ back) := by
  by_cases hblank : Blank rest
  · left
    rw [List.append_assoc]
    exact .intro hfront h fun c hc => (List.mem_append.1 hc).elim (hblank c) (hback c)
  · right
    obtain ⟨gap, behind, hgap, hbehind, hsplit⟩ := Text.exists_trim rest
    have hne : Text.trim rest ≠ [] := fun hnil => hblank (Text.trim_eq_nil_iff.1 hnil)
    have hgapne : gap ≠ [] := by
      rintro rfl
      -- Without a gap the text would go on with a visible character.
      obtain ⟨c, t, hcons⟩ := List.exists_cons_of_ne_nil hne
      have hvisible := (Text.trimmed_trim rest).head c (by rw [hcons]; rfl)
      have hc := hrest c (by rw [hsplit, hcons]; rfl)
      rw [hvisible] at hc
      cases hc
    refine ⟨Text.trim rest, ?_⟩
    have hline : front ++ word ++ rest ++ back =
        front ++ word ++ gap ++ Text.trim rest ++ (behind ++ back) := by
      conv_lhs => rw [hsplit]
      simp only [List.append_assoc]
    rw [hline]
    exact .intro hfront h hgap hgapne (Text.trimmed_trim rest) hne
      fun c hc => (List.mem_append.1 hc).elim (hbehind c) (hback c)

theorem Keyword.Precedes.exists_asksFor (h : k.Precedes e s) : ∃ result, AsksFor s result := by
  cases hexpression : k.withExpression? with
  | some build => exact ⟨_, .argument hexpression h⟩
  | none =>
    cases halone : k.alone? with
    | some command => exact ⟨_, .surplus halone h⟩
    | none =>
      obtain rfl : k = .root := by
        cases k with
        | root => rfl
        | addToMemory | subtractFromMemory | toRadians | toDegrees => cases hexpression
        | recallMemory | clearMemory | help | quit => cases halone
      by_cases hwords : ∃ x n, HasWords e [x, n]
      · obtain ⟨x, n, hwords⟩ := hwords
        exact ⟨_, .root h hwords⟩
      · exact ⟨_, .notTwo h fun x n hxn => hwords ⟨x, n, hxn⟩⟩

theorem exists_asksFor (s : List Char) : ∃ result, AsksFor s result := by
  by_cases hblank : Blank s
  · exact ⟨_, .nothing hblank⟩
  obtain ⟨word, rest, hword, hrest, htrim⟩ := Text.exists_word hblank
  obtain ⟨front, back, hfront, hback, hs⟩ := Text.exists_trim s
  by_cases hspells : ∃ k : Keyword, k.Spells word
  · obtain ⟨k, hk⟩ := hspells
    have hline := hk.standsAlone_or_precedes hfront hrest hback
    rw [List.append_assoc front, ← htrim, ← hs] at hline
    rcases hline with hline | ⟨e, hline⟩
    · cases halone : k.alone? with
      | some command => exact ⟨_, .alone halone hline⟩
      | none => exact ⟨_, .missing halone hline⟩
    · exact hline.exists_asksFor
  · have hwords := Text.hasWords_words s
    rw [Text.words_eq_cons fun hnil => hblank (Text.trim_eq_nil_iff.1 hnil), htrim,
      (hword.firstWord_append hrest).1] at hwords
    exact ⟨_, .expression hwords (fun k hk => hspells ⟨k, hk⟩) (Text.trimsTo_trim s)⟩

/-- What is recognized is what a line asks for. -/
theorem asksFor_ofLine (line : String) : AsksFor line.toList (Command.ofLine line) := by
  obtain ⟨result, h⟩ := exists_asksFor line.toList
  have hresult := h.ofLine_eq
  rw [String.ofList_toList] at hresult
  rwa [hresult]

theorem AsksFor.arguments (h : AsksFor s (.ok (some command))) :
    ∀ argument ∈ command.arguments, argument.toList ≠ [] ∧ Trimmed argument.toList := by
  have hsingle : ∀ {e : List Char}, e ≠ [] → Trimmed e → ∀ argument ∈ [String.ofList e],
      argument.toList ≠ [] ∧ Trimmed argument.toList := by
    intro e hne he argument hargument
    rw [List.mem_singleton.1 hargument, String.toList_ofList]
    exact ⟨hne, he⟩
  cases h with
  | expression hwords _ htrims =>
    have hne := (hwords.firstWord_eq htrims).1
    cases htrims with
    | intro _ he _ => exact hsingle hne he
  | @argument k build e _ hk h =>
    have harguments : (build (String.ofList e)).arguments = [String.ofList e] := by
      cases k <;> cases hk <;> rfl
    cases h with
    | intro _ _ _ _ he hne _ =>
      rw [harguments]
      exact hsingle hne he
  | root _ hwords =>
    intro argument hargument
    obtain ⟨word, hword, rfl⟩ := List.mem_map.1
      (show argument ∈ [_, _].map String.ofList from hargument)
    have hword := hwords.isWord hword
    rw [String.toList_ofList]
    exact ⟨hword.ne_nil, hword.trimmed⟩
  | @alone k _ _ hk _ => cases k <;> cases hk <;> simp [Command.arguments]

end DeskCalculator
