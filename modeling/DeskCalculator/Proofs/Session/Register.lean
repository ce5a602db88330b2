import DeskCalculator.Proofs.Session.Commands

/-!
# The memory over a session

**What a line does with the memory** (`MemoryUse.ofLine?`) can be told from its words. `m+` and `m-`
need words behind them that have a value; `mr` and `mc` need that there are none. Every other line,
whether it has an outcome or not, leaves the memory alone.

**Theorem (`register_run`).** After every line of a session the register holds the fold of what the
lines so far do with it, from zero on. The uses of the memory are answered with the register after
them. All other lines are answered as if they were the first of their session.
-/

namespace DeskCalculator

/-- What a line does with the memory. -/
inductive MemoryUse where
  | add (x : Float)
  | subtract (x : Float)
  | read
  | clear
deriving Repr, DecidableEq

namespace MemoryUse

/-- What a command word does with the memory, with the other words of its line. Together they are
the expression that goes with it. -/
def ofKeyword? (limits : Limits) (k : Keyword) (others : List (List Char)) : Option MemoryUse :=
  let value := (evaluate limits (String.ofList others.flatten)).toOption
  match k, others with
  | .addToMemory, _ :: _ => value.map add
  | .subtractFromMemory, _ :: _ => value.map subtract
  | .recallMemory, [] => some read
  | .clearMemory, [] => some clear
  | _, _ => none

/-- What a line does with the memory: its first word is a command word. -/
def ofLine? (limits : Limits) (line : String) : Option MemoryUse :=
  match Text.words line.toList with
  | [] => none
  | word :: others => (Keyword.ofWord? word).bind fun k => ofKeyword? limits k others

/-- The register after a use, from the register before it. -/
def apply (x : Float) : MemoryUse → Float
  | add y => x + y
  | subtract y => x - y
  | read => x
  | clear => 0.0

end MemoryUse

/-- The register after a line, from the register before it. -/
def registerAfter (limits : Limits) (x : Float) (line : String) : Float :=
  ((MemoryUse.ofLine? limits line).map (·.apply x)).getD x

/-- The register after some lines of a session. -/
def register (limits : Limits) (lines : List String) : Float :=
  lines.foldl (registerAfter limits) 0.0

/-- The answer to a line that leaves `x` in the register. -/
def answerWith (limits : Limits) (x : Float) (line : String) : Answer :=
  match MemoryUse.ofLine? limits line with
  | some (.add _) | some (.subtract _) | some .read => .ok (some (.memory x))
  | some .clear | none => (({ limits } : Session).step line).1

variable {limits : Limits} {line : String} {c : Command} {s : List Char}

/-! ## What a line does -/

theorem evaluate_flatten_words (limits : Limits) (s : List Char) :
    evaluate limits (String.ofList (Text.words s).flatten) =
      evaluate limits (String.ofList (Text.trim s)) := by
  simp only [evaluate, parse, String.toList_ofList, Text.normalize_flatten_words,
    Text.normalize_trim]

namespace MemoryUse

/-- What a command does with the memory. -/
def ofCommand? (limits : Limits) : Command → Option MemoryUse
  | .addToMemory expression => (evaluate limits expression).toOption.map add
  | .subtractFromMemory expression => (evaluate limits expression).toOption.map subtract
  | .recallMemory => some read
  | .clearMemory => some clear
  | .evaluate _ | .root _ _ | .toRadians _ | .toDegrees _ | .help | .quit => none

/-- A command word does with the words behind it what its command does. -/
theorem ofKeyword?_words (limits : Limits) (k : Keyword) (s : List Char) :
    ofKeyword? limits k (Text.words s) =
      match k.command (Text.trim s) with
      | .ok c => ofCommand? limits c
      | .error _ => none := by
  by_cases hs : Text.Blank s
  · have hnil : Text.words [] = [] := Text.words_of_blank Text.blank_nil
    rw [Text.words_of_blank hs, Text.trim_of_blank hs]
    cases k with
    | root => simp only [Keyword.command, hnil]; rfl
    | _ => rfl
  · obtain ⟨word, others, hwords⟩ :=
      List.exists_cons_of_ne_nil fun hnil => hs (Text.words_eq_nil_iff.1 hnil)
    have htrim : Text.trim s ≠ [] := fun hnil => hs (Text.trim_eq_nil_iff.1 hnil)
    have hvalue := evaluate_flatten_words limits s
    rw [hwords] at hvalue ⊢
    cases k with
    | addToMemory | subtractFromMemory =>
      simp only [ofKeyword?, hvalue, Keyword.command, Keyword.withArgument, if_neg htrim,
        ofCommand?]
    | root =>
      simp only [ofKeyword?, Keyword.command]
      rcases Text.words (Text.trim s) with - | ⟨radicand, - | ⟨degree, - | _⟩⟩ <;> rfl
    | toRadians | toDegrees =>
      simp only [ofKeyword?, Keyword.command, Keyword.withArgument, if_neg htrim, ofCommand?]
    | recallMemory | clearMemory | help | quit =>
      simp only [ofKeyword?, Keyword.command, Keyword.withoutArgument, if_neg htrim]

theorem ofLine?_eq (limits : Limits) (line : String) :
    ofLine? limits line =
      match Command.ofLine line with
      | .ok (some c) => ofCommand? limits c
      | .ok none | .error _ => none := by
  by_cases hline : Text.trim line.toList = []
  · have hwords := Text.words_of_blank (Text.trim_eq_nil_iff.1 hline)
    simp [ofLine?, hwords, Command.ofLine, hline]
  · simp only [ofLine?, Text.words_eq_cons hline, Command.ofLine, if_neg hline, Command.ofTrimmed]
    cases Keyword.ofWord? (Text.firstWord (Text.trim line.toList)) with
    | none => rfl
    | some k =>
      rw [Option.bind_some, ofKeyword?_words]
      dsimp only
      cases k.command (Text.trim (Text.afterFirstWord (Text.trim line.toList))) <;> rfl

end MemoryUse

namespace Session

variable {s : Session}

theorem execute_eq (s : Session) (c : Command) :
    s.execute c =
      match MemoryUse.ofCommand? s.limits c with
      | some .clear => .ok (.memoryCleared, { s with memory := .cleared })
      | some use =>
        .ok (.memory (use.apply s.memory.value), { s with memory := ⟨use.apply s.memory.value⟩ })
      | none => (({ limits := s.limits } : Session).execute c).map fun r => (r.1, s) := by
  cases c with
  | evaluate expression | toRadians expression | toDegrees expression | addToMemory expression
  | subtractFromMemory expression =>
    simp only [execute, value, MemoryUse.ofCommand?]
    cases evaluate s.limits expression <;> rfl
  | root radicand degree =>
    simp only [execute, value, MemoryUse.ofCommand?]
    cases evaluate s.limits radicand with
    | error f => rfl
    | ok x =>
      cases evaluate s.limits degree with
      | error f => rfl
      | ok n =>
        simp only [bind, Except.bind]
        cases nthRoot x n <;> rfl
  | recallMemory | clearMemory | help | quit => rfl

theorem step_of_command (h : Command.ofLine line = .ok (some c)) :
    s.step line =
      match s.execute c with
      | .error f => (.error (.failure f), s)
      | .ok (outcome, next) => (.ok (some outcome), next) := by
  cases hc : s.execute c with
  | error f => simp only [step, h, hc]
  | ok r => simp only [step, h, hc]

/-- A line changes the register as its words say, and nothing else. -/
theorem step_eq (s : Session) (line : String) :
    s.step line =
      (answerWith s.limits (registerAfter s.limits s.memory.value line) line,
        { s with memory := ⟨registerAfter s.limits s.memory.value line⟩ }) := by
  have huse := MemoryUse.ofLine?_eq s.limits line
  unfold answerWith registerAfter
  cases hline : Command.ofLine line with
  | error k => simp [huse, hline, step]
  | ok asked =>
    cases asked with
    | none => simp [huse, hline, step]
    | some c =>
      rw [hline] at huse
      rw [step_of_command hline, step_of_command hline, execute_eq s c, huse]
      dsimp only
      cases hc : MemoryUse.ofCommand? s.limits c with
      | none => cases ({ limits := s.limits } : Session).execute c <;> rfl
      | some use =>
        cases use with
        | add x | subtract x | read => rfl
        | clear => rw [execute_eq, hc]; rfl

/-- A line that is refused leaves the session as it was. -/
theorem step_of_refusal {refusal : Refusal} (h : (s.step line).1 = .error refusal) :
    (s.step line).2 = s := by
  unfold step at h ⊢
  split at h
  · rfl
  · rfl
  next c _ =>
    cases hc : s.execute c with
    | error f => rfl
    | ok r =>
      rw [hc] at h
      cases h

theorem getElem?_run (s : Session) (before : List String) (line : String) (after : List String) :
    (s.run (before ++ line :: after))[before.length]? =
      some (answerWith s.limits
          ((before ++ [line]).foldl (registerAfter s.limits) s.memory.value) line,
        { s with
          memory := ⟨(before ++ [line]).foldl (registerAfter s.limits) s.memory.value⟩ }) := by
  induction before generalizing s with
  | nil =>
    rw [List.nil_append, run, step_eq]
    rfl
  | cons first before ih =>
    rw [List.cons_append, run, List.length_cons, List.getElem?_cons_succ, ih, step_eq]
    rfl

end Session

/-- Lines that fail, and lines after `quit`, count like all others. -/
example :
    register {} ["m+ 2+3", "M-\t1. 5", "m+ log(0)", "m+", "quit", "mr", " m+ 1 / 2"] = 4.0 := by
  decide +kernel

end DeskCalculator
