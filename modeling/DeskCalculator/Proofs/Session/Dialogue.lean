import DeskCalculator.CommandLine
import DeskCalculator.Proofs.Session.Register
import Mathlib.Data.List.Forall2

/-!
# The dialogue of a session

What a session shows for an input is made of the answers that its lines get in one run.

**Cutting** (`CutsInto`). A text is cut after each line feed. Every text can be cut
(`exists_cutsInto`), and `linesOf` gives the pieces without their line feeds. Trimming takes a line
feed away with the blanks around it, so to a session the pieces are the same lines
(`CutsInto.map_trim`). Carriage returns in front of line feeds are trimmed as well
(`CarriageReturns.map_trim`), and a line feed at the end of the last line makes no further line
(`linesOf_append_singleton`).

**Theorem (`run_interactive`).** The program without expressions shows a greeting, then a prompt and
the answer for each line up to the first one that ends the session, and a last prompt if no line
does. Therefore

* what follows a line that ends the session does not matter,
* without a line that is refused, only its own prompt and answer are missing,
* carriage returns in front of line feeds do not matter, and
* neither does a line feed behind the last line.

A line that is refused leaves the session as it was, so the lines behind it are answered as before.
The other consequences hold because the lines, once trimmed, are the same.
-/

namespace DeskCalculator

/-! ## The lines of an input -/

section Lines

/-- `CutsInto text pieces`: the pieces are the text, cut after each line feed. What follows the last
line feed is a piece if it is not empty. -/
inductive CutsInto : List Char → List (List Char) → Prop where
  | nil : CutsInto [] []
  | last {s} : s ≠ [] → '\n' ∉ s → CutsInto s [s]
  | line {s rest pieces} : '\n' ∉ s → CutsInto rest pieces →
      CutsInto (s ++ '\n' :: rest) ((s ++ ['\n']) :: pieces)

/-- `CarriageReturns s t`: the text `t` is `s` with a carriage return in front of some of its line
feeds. -/
inductive CarriageReturns : List Char → List Char → Prop where
  | nil : CarriageReturns [] []
  | keep {c s t} : CarriageReturns s t → CarriageReturns (c :: s) (c :: t)
  | insert {s t} : CarriageReturns s t → CarriageReturns ('\n' :: s) ('\r' :: '\n' :: t)

variable {s t line rest : List Char} {c : Char} {pieces : List (List Char)}

/-! ## Lines -/

theorem linesOf_lineFeed (s : List Char) : linesOf ('\n' :: s) = [] :: linesOf s := by
  simp [linesOf]

theorem linesOf_cons_of_nil (hc : c ≠ '\n') (hs : linesOf s = []) : linesOf (c :: s) = [[c]] := by
  simp [linesOf, hc, hs]

theorem linesOf_cons_of_cons (hc : c ≠ '\n') (hs : linesOf s = line :: pieces) :
    linesOf (c :: s) = (c :: line) :: pieces := by
  simp [linesOf, hc, hs]

theorem linesOf_ne_nil (hs : s ≠ []) : linesOf s ≠ [] := by
  obtain ⟨c, s, rfl⟩ := List.exists_cons_of_ne_nil hs
  unfold linesOf
  split
  · exact List.cons_ne_nil _ _
  · split <;> exact List.cons_ne_nil _ _

theorem linesOf_append_lineFeed (hs : '\n' ∉ s) (t : List Char) :
    linesOf (s ++ '\n' :: t) = s :: linesOf t := by
  induction s with
  | nil => exact linesOf_lineFeed t
  | cons c s ih =>
    have hc : c ≠ '\n' := fun h => hs (h ▸ List.mem_cons_self)
    exact linesOf_cons_of_cons hc (ih fun h => hs (List.mem_cons_of_mem _ h))

theorem linesOf_of_not_mem (hne : s ≠ []) (hs : '\n' ∉ s) : linesOf s = [s] := by
  induction s with
  | nil => exact absurd rfl hne
  | cons c s ih =>
    have hc : c ≠ '\n' := fun h => hs (h ▸ List.mem_cons_self)
    by_cases hnil : s = []
    · subst hnil
      exact linesOf_cons_of_nil hc rfl
    · exact linesOf_cons_of_cons hc (ih hnil fun h => hs (List.mem_cons_of_mem _ h))

theorem linesOf_append (s t : List Char) :
    linesOf (s ++ '\n' :: t) = linesOf (s ++ ['\n']) ++ linesOf t := by
  induction s with
  | nil => simp [linesOf_lineFeed, linesOf]
  | cons c s ih =>
    by_cases hc : c = '\n'
    · subst hc
      simp [linesOf_lineFeed, ih]
    · obtain ⟨line, pieces, hlines⟩ :=
        List.exists_cons_of_ne_nil (linesOf_ne_nil (s := s ++ ['\n']) (by simp))
      rw [hlines] at ih
      rw [List.cons_append, List.cons_append, linesOf_cons_of_cons hc ih,
        linesOf_cons_of_cons hc hlines]
      rfl

/-- A line feed behind a text that does not end in one makes no further line. -/
theorem linesOf_append_singleton (s : List Char) (hc : c ≠ '\n') :
    linesOf (s ++ [c] ++ ['\n']) = linesOf (s ++ [c]) := by
  induction s with
  | nil => simp [linesOf, hc]
  | cons d s ih =>
    by_cases hd : d = '\n'
    · subst hd
      simp only [List.cons_append, linesOf_lineFeed, ih]
    · obtain ⟨line, pieces, hlines⟩ :=
        List.exists_cons_of_ne_nil (linesOf_ne_nil (s := s ++ [c]) (by simp))
      rw [List.cons_append, List.cons_append, linesOf_cons_of_cons hd hlines,
        linesOf_cons_of_cons hd (ih.trans hlines)]

/-! ## Pieces -/

theorem exists_cutsInto (s : List Char) : ∃ pieces, CutsInto s pieces := by
  induction s with
  | nil => exact ⟨[], .nil⟩
  | cons c s ih =>
    obtain ⟨pieces, hcut⟩ := ih
    by_cases hc : c = '\n'
    · subst hc
      exact ⟨_, .line (s := []) List.not_mem_nil hcut⟩
    · cases hcut with
      | nil => exact ⟨_, .last (List.cons_ne_nil c []) (by simpa using Ne.symm hc)⟩
      | last _ hs => exact ⟨_, .last (List.cons_ne_nil c s) (by simp [Ne.symm hc, hs])⟩
      | @line s rest pieces hs hcut =>
        exact ⟨_, .line (s := c :: s) (by simp [Ne.symm hc, hs]) hcut⟩

namespace CutsInto

theorem flatten_eq (h : CutsInto s pieces) : pieces.flatten = s := by
  induction h with
  | nil => rfl
  | last => simp
  | line _ _ ih => simp [ih]

theorem map_trim (h : CutsInto s pieces) :
    pieces.map Text.trim = (linesOf s).map Text.trim := by
  induction h with
  | nil => rfl
  | last hne hs => rw [linesOf_of_not_mem hne hs]
  | @line s rest pieces hs _ ih =>
    have hlineFeed : Text.Blank ['\n'] := by simp [Text.Blank, Text.isBlank]
    rw [linesOf_append_lineFeed hs, List.map_cons, List.map_cons, ih,
      Text.trim_append_of_blank s hlineFeed]

/-- Without one of its pieces, a text is cut into the others. -/
theorem of_append_cons {before after : List (List Char)}
    (h : CutsInto s (before ++ line :: after)) :
    CutsInto (before ++ after).flatten (before ++ after) := by
  induction before generalizing s with
  | nil =>
    cases h with
    | last => exact .nil
    | line _ hrest => exact hrest.flatten_eq.symm ▸ hrest
  | cons first before ih =>
    generalize hothers : before ++ line :: after = others at h
    rw [List.cons_append, hothers] at h
    cases h with
    | last => simp at hothers
    | @line s rest _ hs hrest =>
      have hcut := CutsInto.line hs (ih (hothers ▸ hrest))
      simpa using hcut

end CutsInto

/-! ## Carriage returns -/

/-- Carriage returns in front of line feeds are the last characters of their lines. -/
theorem CarriageReturns.forall₂_linesOf (h : CarriageReturns s t) :
    List.Forall₂ (fun l l' => l' = l ∨ l' = l ++ ['\r']) (linesOf s) (linesOf t) := by
  induction h with
  | nil => exact .nil
  | @keep c s t _ ih =>
    by_cases hc : c = '\n'
    · subst hc
      rw [linesOf_lineFeed, linesOf_lineFeed]
      exact .cons (.inl rfl) ih
    · generalize hs : linesOf s = lines at ih
      generalize ht : linesOf t = lines' at ih
      cases ih with
      | nil =>
        rw [linesOf_cons_of_nil hc hs, linesOf_cons_of_nil hc ht]
        exact .cons (.inl rfl) .nil
      | cons hline hrest =>
        rw [linesOf_cons_of_cons hc hs, linesOf_cons_of_cons hc ht]
        refine .cons ?_ hrest
        rcases hline with rfl | rfl
        · exact .inl rfl
        · exact .inr rfl
  | insert _ ih =>
    rw [linesOf_lineFeed, linesOf_cons_of_cons (by decide) (linesOf_lineFeed _)]
    exact .cons (.inr rfl) ih

/-- Trimming takes the carriage returns away. -/
theorem CarriageReturns.map_trim (h : CarriageReturns s t) :
    (linesOf t).map Text.trim = (linesOf s).map Text.trim := by
  have hreturn : Text.Blank ['\r'] := by simp [Text.Blank, Text.isBlank]
  have hlines := h.forall₂_linesOf
  generalize linesOf s = lines at hlines ⊢
  generalize linesOf t = lines' at hlines ⊢
  induction hlines with
  | nil => rfl
  | cons hline _ ih =>
    rw [List.map_cons, List.map_cons, ih]
    rcases hline with rfl | rfl
    · rfl
    · rw [Text.trim_append_of_blank _ hreturn]

end Lines

/-! ## What is shown -/

/-- How an answer is shown: a value and the memory by their digits, a failure by its kind and its
message. A line of blanks and the end of the session show nothing. -/
inductive Rendering : Answer → String → Prop where
  | value (x : Float) : Rendering (.ok (some (.value x))) (Decimal.plainText x ++ "\n")
  | memory (x : Float) :
    Rendering (.ok (some (.memory x))) ("memory: " ++ Decimal.plainText x ++ "\n")
  | memoryCleared : Rendering (.ok (some .memoryCleared)) "memory cleared\n"
  | help : Rendering (.ok (some .help)) (helpText ++ "\n")
  | quit : Rendering (.ok (some .quit)) ""
  | blank : Rendering (.ok none) ""
  | domain {f : Failure} (h : f.isDomain) :
    Rendering (.error (.failure f)) ("math error: " ++ f.message ++ "\n")
  | failure {f : Failure} (h : ¬ f.isDomain) :
    Rendering (.error (.failure f)) ("error: " ++ f.message ++ "\n")
  | usage (k : Keyword) : Rendering (.error (.usage k)) ("error: usage: " ++ k.usage ++ "\n")

/-- The answers up to and including the first one that ends the session. -/
def upToQuit : List Answer → List Answer
  | [] => []
  | answer :: rest => if answer.quits then [answer] else answer :: upToQuit rest

/-- The prompts and answers that are shown, one after the other. -/
def exchanges (answers : List Answer) : String :=
  String.join (answers.map fun answer => prompt ++ answer.text)

/-- What is shown for the answers to all lines of an input. -/
def shown (answers : List Answer) : String :=
  exchanges (upToQuit answers) ++ if answers.any Answer.quits then "" else prompt

namespace Session

/-- The answers to lines, one after the other. -/
def answers (s : Session) (lines : List (List Char)) : List Answer :=
  (s.run (lines.map String.ofList)).map Prod.fst

/-- The session after some lines. -/
def after (s : Session) (lines : List (List Char)) : Session :=
  lines.foldl (fun s line => (s.step (String.ofList line)).2) s

end Session

variable {s : Session} {xs ys : List Answer} {lines lines' : List (List Char)}

/-! ## Answers -/

theorem rendering_text (answer : Answer) : Rendering answer answer.text := by
  cases answer with
  | ok outcome =>
    cases outcome with
    | none => exact .blank
    | some outcome =>
      cases outcome with
      | value x => exact .value x
      | memory x => exact .memory x
      | memoryCleared => exact .memoryCleared
      | help => exact .help
      | quit => exact .quit
  | error refusal =>
    cases refusal with
    | failure f =>
      by_cases hdomain : f.isDomain
      · rw [Answer.text, Refusal.text, Failure.report_of_isDomain hdomain]
        exact .domain hdomain
      · rw [Answer.text, Refusal.text, Failure.report_of_not_isDomain hdomain]
        exact .failure hdomain
    | usage k =>
      have htext : "error: " ++ (Refusal.usage k).message = "error: usage: " ++ k.usage := by
        rw [Refusal.message, ← String.append_assoc]
        rfl
      rw [Answer.text, Refusal.text, htext]
      exact .usage k

theorem upToQuit_of_not_quits (h : ∀ answer ∈ xs, ¬ answer.quits) (ys : List Answer) :
    upToQuit (xs ++ ys) = xs ++ upToQuit ys := by
  induction xs with
  | nil => rfl
  | cons answer xs ih =>
    rw [List.cons_append, upToQuit, if_neg (h answer List.mem_cons_self),
      ih fun a ha => h a (List.mem_cons_of_mem _ ha)]
    rfl

theorem upToQuit_of_quits (h : ∃ answer ∈ xs, answer.quits) (ys : List Answer) :
    upToQuit (xs ++ ys) = upToQuit xs := by
  induction xs with
  | nil => simp at h
  | cons answer xs ih =>
    rw [List.cons_append, upToQuit, upToQuit]
    by_cases hquits : answer.quits
    · rw [if_pos hquits, if_pos hquits]
    · have hrest : ∃ answer ∈ xs, answer.quits := by simpa [hquits] using h
      rw [if_neg hquits, if_neg hquits, ih hrest]

theorem exchanges_append (xs ys : List Answer) :
    exchanges (xs ++ ys) = exchanges xs ++ exchanges ys := by
  simp [exchanges]

theorem shown_of_not_quits (h : ∀ answer ∈ xs, ¬ answer.quits) (ys : List Answer) :
    shown (xs ++ ys) = exchanges xs ++ shown ys := by
  have hany : (xs ++ ys).any Answer.quits = ys.any Answer.quits := by
    rw [List.any_append, List.any_eq_false.2 h, Bool.false_or]
  rw [shown, upToQuit_of_not_quits h, exchanges_append, hany, shown, String.append_assoc]

theorem shown_cons {answer : Answer} (h : ¬ answer.quits) (ys : List Answer) :
    shown (answer :: ys) = prompt ++ answer.text ++ shown ys := by
  have happend := shown_of_not_quits (List.forall_mem_singleton.2 h) ys
  simpa [exchanges] using happend

theorem shown_of_quits (h : ∃ answer ∈ xs, answer.quits) (ys : List Answer) :
    shown (xs ++ ys) = shown xs := by
  have hany : xs.any Answer.quits := List.any_eq_true.2 h
  rw [shown, upToQuit_of_quits h, shown, List.any_append, hany, Bool.true_or]

/-! ## Runs -/

namespace Session

theorem answers_cons (s : Session) (line : List Char) (lines : List (List Char)) :
    s.answers (line :: lines) =
      (s.step (String.ofList line)).1 :: (s.step (String.ofList line)).2.answers lines := rfl

theorem answers_append (s : Session) (lines lines' : List (List Char)) :
    s.answers (lines ++ lines') = s.answers lines ++ (s.after lines).answers lines' := by
  induction lines generalizing s with
  | nil => rfl
  | cons line lines ih =>
    rw [List.cons_append, answers_cons, answers_cons, ih]
    rfl

theorem step_congr {line line' : List Char} (h : Text.trim line = Text.trim line') (s : Session) :
    s.step (String.ofList line) = s.step (String.ofList line') := by
  simp only [step, Command.ofLine, String.toList_ofList, h]

/-- To a session only the trimmed lines matter. -/
theorem answers_congr (h : lines.map Text.trim = lines'.map Text.trim) (s : Session) :
    s.answers lines = s.answers lines' := by
  induction lines generalizing s lines' with
  | nil =>
    obtain rfl : lines' = [] := List.map_eq_nil_iff.1 h.symm
    rfl
  | cons line lines ih =>
    obtain ⟨line', rest, rfl, hline, hrest⟩ := List.map_eq_cons_iff.1 h.symm
    rw [answers_cons, answers_cons, step_congr hline, ih hrest.symm]

theorem shown_answers_append {before : List (List Char)}
    (h : ∀ answer ∈ s.answers before, ¬ answer.quits) (lines : List (List Char)) :
    shown (s.answers (before ++ lines)) =
      exchanges (s.answers before) ++ shown ((s.after before).answers lines) := by
  rw [answers_append, shown_of_not_quits h]

/-- A line that is refused adds its own prompt and answer to what the other lines show. -/
theorem shown_answers_of_refusal {before : List (List Char)} {line : List Char} {refusal : Refusal}
    (h : ∀ answer ∈ s.answers before, ¬ answer.quits)
    (hrefused : ((s.after before).step (String.ofList line)).1 = .error refusal)
    (lines : List (List Char)) :
    shown (s.answers (before ++ line :: lines)) =
      exchanges (s.answers before) ++ (prompt ++ refusal.text) ++
        shown ((s.after before).answers lines) := by
  have hkept := step_of_refusal hrefused
  have hstays : ¬ Answer.quits (.error refusal) := by simp [Answer.quits]
  rw [shown_answers_append h, answers_cons, hrefused, hkept, shown_cons hstays]
  simp only [Answer.text, String.append_assoc]

/-- Prompts and answers follow one another as in a run of the session. -/
theorem converse_eq (s : Session) (lines : List (List Char)) :
    s.converse (lines.map String.ofList) = shown (s.answers lines) := by
  induction lines generalizing s with
  | nil => rfl
  | cons line lines ih =>
    rw [List.map_cons, converse, answers_cons]
    by_cases hquits : (s.step (String.ofList line)).1.quits
    · rw [reply_of_quits hquits]
      simp [shown, upToQuit, exchanges, hquits]
    · rw [reply_of_not_quits hquits, shown_cons hquits, ← ih]

end Session

theorem Options.run_eq {o : Options} (h : o.expressions = []) (input : String) :
    o.run input =
      ⟨0, greeting ++ shown (({ limits := o.limits } : Session).answers (linesOf input.toList)),
        ""⟩ := by
  rw [Options.run, if_pos h, Session.transcript, Session.converse_eq]

/-- For all limits and every input, the program without expressions ends with code 0 and shows a
greeting and then, as far as the first line that ends the session, a prompt and an answer for every
line; if no line ends the session, a last prompt follows. Every answer is shown as `Rendering` says.
What stands behind a line that ends the session does not matter; a line that is refused can be left
out, with its prompt and answer; carriage returns at the ends of lines and a line feed behind the
last line do not matter. -/
theorem run_interactive (tree : Bool) (maxDepth maxLength : Option Nat) (input : String) :
    let o : Options := { tree, maxDepth, maxLength }
    let s : Session := { limits := o.limits }
    (∃ pieces, CutsInto input.toList pieces) ∧
      (∀ pieces, CutsInto input.toList pieces →
        o.run input = ⟨0, greeting ++ shown (s.answers pieces), ""⟩) ∧
      (∀ answer, Rendering answer answer.text) ∧
      (∀ pieces more, CutsInto (input ++ "\n").toList pieces →
        (∃ answer ∈ s.answers pieces, answer.quits) →
        o.run (input ++ "\n" ++ more) = o.run (input ++ "\n")) ∧
      (∀ before line after refusal, CutsInto input.toList (before ++ line :: after) →
        (∀ answer ∈ s.answers before, ¬ answer.quits) →
        ((s.after before).step (String.ofList line)).1 = .error refusal →
        ∃ rest,
          (o.run input).out =
            greeting ++ exchanges (s.answers before) ++ (prompt ++ refusal.text) ++ rest ∧
          (o.run (String.ofList (before ++ after).flatten)).out =
            greeting ++ exchanges (s.answers before) ++ rest) ∧
      (∀ t, CarriageReturns input.toList t → o.run (String.ofList t) = o.run input) ∧
      (∀ c ∈ input.toList.getLast?, c ≠ '\n' → o.run (input ++ "\n") = o.run input) := by
  intro o s
  have hrun : ∀ text, o.run text = ⟨0, greeting ++ shown (s.answers (linesOf text.toList)), ""⟩ :=
    fun text => Options.run_eq rfl text
  have hpieces : ∀ text pieces, CutsInto text.toList pieces →
      o.run text = ⟨0, greeting ++ shown (s.answers pieces), ""⟩ := by
    intro text pieces hcut
    rw [hrun, Session.answers_congr hcut.map_trim]
  refine ⟨exists_cutsInto _, hpieces input, rendering_text, ?_, ?_, ?_, ?_⟩
  · intro pieces more hcut hquits
    have hlines : linesOf (input ++ "\n" ++ more).toList =
        linesOf (input ++ "\n").toList ++ linesOf more.toList := by
      simpa using linesOf_append input.toList more.toList
    rw [Session.answers_congr hcut.map_trim] at hquits
    rw [hrun, hrun, hlines, Session.answers_append, shown_of_quits hquits]
  · intro before line after refusal hcut hbefore hrefused
    have hdeleted := hcut.of_append_cons
    rw [← String.toList_ofList (l := (before ++ after).flatten)] at hdeleted
    refine ⟨shown ((s.after before).answers after), ?_, ?_⟩
    · rw [hpieces input _ hcut, Session.shown_answers_of_refusal hbefore hrefused]
      simp only [String.append_assoc]
    · rw [hpieces _ _ hdeleted, Session.shown_answers_append hbefore, String.append_assoc]
  · intro t hreturns
    rw [hrun, hrun, String.toList_ofList, Session.answers_congr hreturns.map_trim]
  · intro c hc hlineFeed
    obtain ⟨front, hfront⟩ := List.getLast?_eq_some_iff.1 hc
    have hlines := linesOf_append_singleton front hlineFeed
    rw [← hfront] at hlines
    rw [hrun, hrun, String.toList_append, ← hlines]
    rfl

/-- Of four lines the second is refused: without it the others are answered as before. The fourth
line ends the session, so nothing behind it is read. -/
theorem run_interactive_refusal_and_quit :
    let o : Options := {}
    o.run ("m+ 2\n1/0\nmr\nquit\n" ++ "1+1") = o.run "m+ 2\n1/0\nmr\nquit\n" ∧
      (∃ rest,
        (o.run "m+ 2\n1/0\nmr\nquit").out =
          greeting ++ "> memory: 2\n" ++ "> math error: Division by zero\n" ++ rest ∧
        (o.run "m+ 2\nmr\nquit").out = greeting ++ "> memory: 2\n" ++ rest) ∧
      o.run "m+ 2\n1/0\r\nmr\nquit" = o.run "m+ 2\n1/0\nmr\nquit" ∧
      o.run "m+ 2\n1/0\nmr\nquit\n" = o.run "m+ 2\n1/0\nmr\nquit" := by
  intro o
  obtain ⟨-, -, -, hquit, hdelete, hreturns, hlineFeed⟩ :=
    run_interactive false none none "m+ 2\n1/0\nmr\nquit"
  have hclosed : "m+ 2\n1/0\nmr\nquit" ++ "\n" = "m+ 2\n1/0\nmr\nquit\n" := by decide
  have hpieces : CutsInto "m+ 2\n1/0\nmr\nquit\n".toList
      ["m+ 2\n".toList, "1/0\n".toList, "mr\n".toList, "quit\n".toList] :=
    .line (s := "m+ 2".toList) (by decide) <| .line (s := "1/0".toList) (by decide) <|
      .line (s := "mr".toList) (by decide) <| .line (s := "quit".toList) (by decide) .nil
  have hopen : CutsInto "m+ 2\n1/0\nmr\nquit".toList
      (["m+ 2\n".toList] ++ "1/0\n".toList :: ["mr\n".toList, "quit".toList]) :=
    .line (s := "m+ 2".toList) (by decide) <| .line (s := "1/0".toList) (by decide) <|
      .line (s := "mr".toList) (by decide) <| .last (by decide) (by decide)
  have hreturn : CarriageReturns "m+ 2\n1/0\nmr\nquit".toList
      "m+ 2\n1/0\r\nmr\nquit".toList :=
    .keep <| .keep <| .keep <| .keep <| .keep <| .keep <| .keep <| .keep <| .insert <|
      .keep <| .keep <| .keep <| .keep <| .keep <| .keep <| .keep .nil
  rw [hclosed] at hquit hlineFeed
  have hquits := hquit _ "1+1" hpieces (by decide +kernel)
  obtain ⟨rest, hwith, hwithout⟩ := hdelete _ _ _ (.failure .divisionByZero) hopen
    (by decide +kernel) (by decide +kernel)
  have hbefore : exchanges (({ limits := o.limits } : Session).answers ["m+ 2\n".toList]) =
      "> memory: 2\n" := by decide +kernel
  have hrefusal : prompt ++ (Refusal.failure .divisionByZero).text =
      "> math error: Division by zero\n" := by decide
  have hdeleted : String.ofList (["m+ 2\n".toList] ++ ["mr\n".toList, "quit".toList]).flatten =
      "m+ 2\nmr\nquit" := by decide
  rw [hdeleted] at hwithout
  refine ⟨hquits, ⟨rest, ?_, ?_⟩, ?_, hlineFeed 't' (by decide) (by decide)⟩
  · rw [← hbefore, ← hrefusal]
    exact hwith
  · rw [← hbefore]
    exact hwithout
  · rw [← hreturns _ hreturn, String.ofList_toList]

end DeskCalculator
