import DeskCalculator.Proofs.Session.Dialogue

/-!
# Batches and sessions agree

**Records** (`Recorded`). Of each expression a batch shows its value, or its tree, or its failure.
Results go to the output and failures to the errors.

**Theorem (`run_batch`).** A batch writes one record for each expression, in their order, and what
it writes for an expression does not depend on the others. Its code is 0 exactly if no errors are
written. Trees are missing exactly for texts that cannot be read, and such a failure is no math
error (`isDomain_of_parse_eq_error`).

A session gives the same value, or the same failure, for an expression on a line of its own,
whatever is in its memory (`step_of_hasWords`). Only lines that are blank or begin with a command
word are different.
-/

namespace DeskCalculator

open Text (HasWords)

/-- `Recorded limits view x record`: what is written for the expression `x`, to the output (`ok`) or
to the errors (`error`). -/
inductive Recorded (limits : Limits) : View → String → Except String String → Prop where
  | value {x v} : evaluate limits x = .ok v →
      Recorded limits .value x (.ok (x ++ " = " ++ Decimal.plainText v ++ "\n"))
  | mathError {x f} : evaluate limits x = .error f → f.isDomain →
      Recorded limits .value x (.error (x ++ ": " ++ "math error: " ++ f.message ++ "\n"))
  | error {x f} : evaluate limits x = .error f → ¬ f.isDomain →
      Recorded limits .value x (.error (x ++ ": " ++ "error: " ++ f.message ++ "\n"))
  | tree {x e} : parse limits x = .ok e →
      Recorded limits .tree x (.ok (e.toJson.write .indented ++ "\n"))
  | noTree {x f} : parse limits x = .error f →
      Recorded limits .tree x (.error (x ++ ": " ++ "error: " ++ f.message ++ "\n"))

/-- The session answers the line `x` with what a batch with the given limits says of the expression
`x`: the same value or the same report of a failure. It stays as it was and goes on with the next
line. -/
structure AnsweredAlike (limits : Limits) (s : Session) (x : String) : Prop where
  value : ∀ v, (Batch.run limits .value [x]).out = x ++ " = " ++ v ++ "\n" ↔
    ∃ y, (s.step x).1 = .ok (some (.value y)) ∧ (s.step x).1.text = v ++ "\n"
  failure : ∀ report, (Batch.run limits .value [x]).err = x ++ ": " ++ report ++ "\n" ↔
    ∃ f, (s.step x).1 = .error (.failure f) ∧ (s.step x).1.text = report ++ "\n"
  kept : (s.step x).2 = s
  shown : ∀ rest, s.converse ((linesOf (x.toList ++ '\n' :: rest)).map String.ofList) =
    prompt ++ (s.step x).1.text ++ s.converse ((linesOf rest).map String.ofList)

variable {limits : Limits} {view : View} {s : Session} {x : String} {failure : Failure}
  {word : List Char} {others : List (List Char)}

/-! ## Failures of reading -/

theorem Expr.isDomain_of_ofTokens_eq_error {maxDepth size : Nat} {tokens : List Token}
    (h : ofTokens maxDepth size tokens = .error failure) : failure.isDomain = false := by
  rcases Expr.ofTokens_eq_error_iff_run.1 h with hrun | ⟨r, -, hfinish⟩
  · obtain ⟨before, t, after, r, -, -, ht⟩ := Reading.run_eq_error hrun
    rcases Reading.step_eq_error ht with ⟨rfl, -⟩ | ⟨expected, rfl⟩ <;> rfl
  · obtain ⟨expected, rfl⟩ := Reading.finish_eq_error hfinish
    rfl

/-- A text that cannot be read is no matter of mathematics. -/
theorem isDomain_of_parse_eq_error (h : parse limits x = .error failure) :
    failure.isDomain = false := by
  unfold parse parseNormal at h
  split at h
  · cases h
    rfl
  · exact Expr.isDomain_of_ofTokens_eq_error h

/-! ## Records -/

namespace Batch

theorem record_value (limits : Limits) (x : String) :
    record limits .value x =
      match evaluate limits x with
      | .ok v => .ok (x ++ " = " ++ Decimal.plainText v ++ "\n")
      | .error f => .error (x ++ ": " ++ f.report ++ "\n") := by
  unfold record result
  cases evaluate limits x <;> rfl

theorem record_tree (limits : Limits) (x : String) :
    record limits .tree x =
      match parse limits x with
      | .ok e => .ok (e.toJson.write .indented ++ "\n")
      | .error f => .error (x ++ ": " ++ f.report ++ "\n") := by
  unfold record result
  cases parse limits x <;> rfl

theorem errOf_record_eq_empty_iff :
    errOf (record limits view x) = "" ↔ isResult (record limits view x) := by
  unfold record
  cases result limits view x with
  | ok line => simp [errOf, isResult]
  | error f => simp [errOf, isResult]

theorem join_eq_empty_iff {texts : List String} :
    String.join texts = "" ↔ ∀ t ∈ texts, t = "" := by
  rw [← String.toList_eq_nil_iff, String.toList_join]
  simp

theorem run_code (limits : Limits) (view : View) (xs : List String) :
    (run limits view xs).code = if (run limits view xs).err = "" then 0 else 1 := by
  have hiff : (xs.map (record limits view)).all isResult ↔
      String.join ((xs.map (record limits view)).map errOf) = "" := by
    simp only [join_eq_empty_iff, List.all_eq_true, List.forall_mem_map, errOf_record_eq_empty_iff]
  exact if_congr hiff rfl rfl

theorem run_append (limits : Limits) (view : View) (xs ys : List String) :
    (run limits view (xs ++ ys)).out = (run limits view xs).out ++ (run limits view ys).out ∧
      (run limits view (xs ++ ys)).err = (run limits view xs).err ++ (run limits view ys).err := by
  simp [run, report]

end Batch

theorem Recorded.record_eq {record : Except String String} (h : Recorded limits view x record) :
    Batch.record limits view x = record := by
  cases h with
  | value h => rw [Batch.record_value, h]
  | mathError h hdomain =>
    simp only [Batch.record_value, h, Failure.report_of_isDomain hdomain, String.append_assoc]
  | error h hdomain =>
    simp only [Batch.record_value, h, Failure.report_of_not_isDomain hdomain, String.append_assoc]
  | tree h => rw [Batch.record_tree, h]
  | @noTree _ f h =>
    have hdomain : ¬ f.isDomain := by simp [isDomain_of_parse_eq_error h]
    simp only [Batch.record_tree, h, Failure.report_of_not_isDomain hdomain, String.append_assoc]

theorem exists_recorded (limits : Limits) (view : View) (x : String) :
    ∃ record, Recorded limits view x record := by
  cases view with
  | value =>
    cases h : evaluate limits x with
    | ok v => exact ⟨_, .value h⟩
    | error f =>
      by_cases hdomain : f.isDomain
      · exact ⟨_, .mathError h hdomain⟩
      · exact ⟨_, .error h hdomain⟩
  | tree =>
    cases h : parse limits x with
    | ok e => exact ⟨_, .tree h⟩
    | error f => exact ⟨_, .noTree h⟩

theorem recorded_iff {record : Except String String} :
    Recorded limits view x record ↔ Batch.record limits view x = record := by
  constructor
  · exact Recorded.record_eq
  · rintro rfl
    obtain ⟨record, h⟩ := exists_recorded limits view x
    rwa [h.record_eq]

theorem forall₂_recorded_iff {xs : List String} {records : List (Except String String)} :
    List.Forall₂ (Recorded limits view) xs records ↔
      xs.map (Batch.record limits view) = records := by
  have hrecorded : Recorded limits view = fun x record => Batch.record limits view x = record :=
    funext₂ fun _ _ => propext recorded_iff
  rw [hrecorded, ← List.forall₂_eq_eq_eq, List.forall₂_map_left_iff]

/-! ## Lines of a session -/

/-- A line that begins with no command word is answered with its value or its failure, and the
session stays as it was. -/
theorem Session.step_of_hasWords (hwords : HasWords x.toList (word :: others))
    (hnone : ∀ k : Keyword, ¬ k.Spells word) :
    s.step x =
      match evaluate s.limits x with
      | .ok v => (.ok (some (.value v)), s)
      | .error f => (.error (.failure f), s) := by
  have hcommand := (AsksFor.expression hwords hnone (Text.trimsTo_trim x.toList)).ofLine_eq
  rw [String.ofList_toList] at hcommand
  have hvalue : s.value (String.ofList (Text.trim x.toList)) = evaluate s.limits x := by
    rw [value, evaluate_trim, String.ofList_toList]
  simp only [step, hcommand, execute, hvalue]
  cases evaluate s.limits x <;> rfl

theorem Session.converse_line (hx : '\n' ∉ x.toList)
    (hstays : ¬ (s.step x).1.quits) (rest : List Char) :
    s.converse ((linesOf (x.toList ++ '\n' :: rest)).map String.ofList) =
      prompt ++ (s.step x).1.text ++
        (s.step x).2.converse ((linesOf rest).map String.ofList) := by
  rw [linesOf_append_lineFeed hx, List.map_cons, String.ofList_toList, converse,
    reply_of_not_quits hstays]

theorem Batch.run_singleton (limits : Limits) (view : View) (x : String) :
    (run limits view [x]).out = outOf (record limits view x) ∧
      (run limits view [x]).err = errOf (record limits view x) := by
  simp [run, report]

/-- A line that begins with no command word is answered like the expression in a batch. -/
theorem AnsweredAlike.of_hasWords (hx : '\n' ∉ x.toList)
    (hwords : HasWords x.toList (word :: others)) (hnone : ∀ k : Keyword, ¬ k.Spells word) :
    AnsweredAlike s.limits s x := by
  have hstep := s.step_of_hasWords hwords hnone
  have hkept : (s.step x).2 = s := by
    rw [hstep]
    cases evaluate s.limits x <;> rfl
  have hstays : ¬ (s.step x).1.quits := by
    rw [hstep]
    cases evaluate s.limits x <;> simp [Answer.quits]
  have hshown := Session.converse_line hx hstays
  rw [hkept] at hshown
  obtain ⟨hout, herr⟩ := Batch.run_singleton s.limits .value x
  rw [Batch.record_value] at hout herr
  refine ⟨fun v => ?_, fun report => ?_, hkept, hshown⟩
  · rw [hout, hstep]
    cases evaluate s.limits x <;> simp [Batch.outOf, Answer.text, Outcome.text]
  · rw [herr, hstep]
    cases evaluate s.limits x <;> simp [Batch.errOf, Answer.text, Refusal.text]

theorem Batch.err_tree_eq (limits : Limits) (x : String) :
    (run limits .tree [x]).err =
      match parse limits x with
      | .ok _ => ""
      | .error f => x ++ ": " ++ "error: " ++ f.message ++ "\n" := by
  rw [(run_singleton limits .tree x).2, record_tree]
  cases h : parse limits x with
  | ok e => rfl
  | error f =>
    have hdomain : ¬ f.isDomain := by simp [isDomain_of_parse_eq_error h]
    simp only [errOf, Failure.report_of_not_isDomain hdomain, String.append_assoc]

/-- A batch writes one record for each expression, in their order, and it says of an expression what
a session says of it.

- The output and the errors are put together from the records of the expressions, and those of two
  lists of expressions from those of each list.
- The code is 0 if no errors are written and 1 otherwise. It is that of the program.
- In a batch of trees there is an error exactly for a text that cannot be read, and it is never
  called a math error.
- A line that contains no line feed, is not blank and begins with no command word is answered alike
  in every session with the same limits. -/
theorem run_batch (limits : Limits) (view : View) (xs ys : List String) :
    (∃ records, List.Forall₂ (Recorded limits view) xs records ∧
      (∀ records', List.Forall₂ (Recorded limits view) xs records' → records' = records) ∧
      (Batch.run limits view xs).out = String.join (records.map Batch.outOf) ∧
      (Batch.run limits view xs).err = String.join (records.map Batch.errOf)) ∧
    ((Batch.run limits view (xs ++ ys)).out =
        (Batch.run limits view xs).out ++ (Batch.run limits view ys).out ∧
      (Batch.run limits view (xs ++ ys)).err =
        (Batch.run limits view xs).err ++ (Batch.run limits view ys).err) ∧
    (Batch.run limits view xs).code = (if (Batch.run limits view xs).err = "" then 0 else 1) ∧
    (∀ o : Options, o.limits = limits → o.view = view → o.expressions = xs → xs ≠ [] →
      ∀ input, o.run input = Batch.run limits view xs) ∧
    (∀ x, ((Batch.run limits .tree [x]).err ≠ "" ↔ ∃ f, parse limits x = .error f) ∧
      ∀ f, parse limits x = .error f →
        (Batch.run limits .tree [x]).err = x ++ ": " ++ "error: " ++ f.message ++ "\n") ∧
    ∀ (s : Session) x word others, s.limits = limits → '\n' ∉ x.toList →
      HasWords x.toList (word :: others) → (∀ k : Keyword, ¬ k.Spells word) →
        AnsweredAlike limits s x := by
  refine ⟨⟨_, forall₂_recorded_iff.2 rfl, fun records' h => (forall₂_recorded_iff.1 h).symm,
      rfl, rfl⟩, Batch.run_append limits view xs ys, Batch.run_code limits view xs, ?_,
    fun x => ⟨?_, ?_⟩, ?_⟩
  · rintro o rfl rfl rfl hne input
    exact if_neg hne
  · rw [Batch.err_tree_eq]
    cases parse limits x <;> simp
  · intro f h
    rw [Batch.err_tree_eq, h]
  · rintro s x word others rfl hx hwords hnone
    exact AnsweredAlike.of_hasWords hx hwords hnone

/-- A value and a division by zero are written and answered alike, also with blanks in them, and a
text that is no expression has no tree. -/
theorem run_batch_division_by_zero :
    ({ expressions := ["6 / 2", "1/0"] } : Options).run "" =
        Batch.run {} .value ["6 / 2", "1/0"] ∧
      (∃ f, parse {} "2+" = .error f ∧
        (Batch.run {} .tree ["2+"]).err = "2+" ++ ": " ++ "error: " ++ f.message ++ "\n") ∧
      AnsweredAlike {} { memory := ⟨7⟩ } "6 / 2" ∧
      AnsweredAlike {} { memory := ⟨7⟩ } "1/0" := by
  obtain ⟨-, -, -, hprogram, htrees, halike⟩ := run_batch {} .value ["6 / 2", "1/0"] []
  have hparse : parse {} "2+" = .error (.invalidExpression 2 .endOfInput .operand) := by
    decide +kernel
  have hspaced : HasWords "6 / 2".toList [['6'], ['/'], ['2']] :=
    Text.words_eq_iff.1 (by decide +kernel)
  have hdense : HasWords "1/0".toList [['1', '/', '0']] :=
    Text.words_eq_iff.1 (by decide +kernel)
  exact ⟨hprogram _ rfl rfl rfl (by decide) "", ⟨_, hparse, (htrees "2+").2 _ hparse⟩,
    halike _ _ _ _ rfl (by decide) hspaced (Keyword.ofWord?_eq_none_iff.1 (by decide +kernel)),
    halike _ _ _ _ rfl (by decide) hdense (Keyword.ofWord?_eq_none_iff.1 (by decide +kernel))⟩

end DeskCalculator
