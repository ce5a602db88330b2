import DeskCalculator.Proofs.Evaluation.Replacement

/-!
# What the marks of an expression point at

A mark of an expression is a place in the text that it was read from.

**Theorem (`parse_marks`).** At the place of a mark the text of its call stands, and no two calls
have the same mark. If evaluation complains about a sign, the text of the call at that place has a
negative value on its own, and the complaint names the function and this value.

**Balance** (`Text.Balanced`). Every parenthesis of the text has its partner in it. Behind an
opening parenthesis there is at most one closing one with a balanced text in front of it, the one
that matches (`Balanced.eq_of_closing`).

A call stands among the tokens just as it is written (`Derives.standsAmong`), and its marks are in
the order of their names (`Derives.marks_sublist`). On its own the text of a call is cut into the
tokens that it has in the whole, and a sign in front of it would be allowed (`evaluate_callText`).
-/

namespace DeskCalculator

/-! ## Balanced parentheses -/

namespace Text

/-- Every parenthesis of the text has its partner in it. -/
inductive Balanced : List Char → Prop
  | nil : Balanced []
  | cons {c s} : c ≠ '(' → c ≠ ')' → Balanced s → Balanced (c :: s)
  | group {s t} : Balanced s → Balanced t → Balanced ('(' :: (s ++ ')' :: t))

namespace Balanced

variable {s t u v : List Char}

theorem append (hs : Balanced s) (ht : Balanced t) : Balanced (s ++ t) := by
  induction hs with
  | nil => exact ht
  | cons hopen hclose _ ih => exact .cons hopen hclose ih
  | @group s r hs _ _ ih =>
    rw [List.cons_append, List.append_assoc, List.cons_append]
    exact .group hs ih

theorem of_not_mem (hopen : '(' ∉ s) (hclose : ')' ∉ s) : Balanced s := by
  induction s with
  | nil => exact .nil
  | cons c s ih =>
    rw [List.mem_cons, not_or] at hopen hclose
    exact .cons (Ne.symm hopen.1) (Ne.symm hclose.1) (ih hopen.2 hclose.2)

theorem parenthesized (h : Balanced s) : Balanced ('(' :: (s ++ [')'])) :=
  .group h .nil

/-- At most one closing parenthesis has a balanced text in front of it. -/
theorem eq_of_closing (hs : Balanced s) (ht : Balanced t) (h : s ++ ')' :: u = t ++ ')' :: v) :
    s = t := by
  induction hs generalizing t u v with
  | nil =>
    cases ht with
    | nil => rfl
    | cons _ hclose _ => exact absurd (List.cons.inj h).1.symm hclose
    | group _ _ => cases (List.cons.inj h).1
  | cons hopen hclose _ ih =>
    cases ht with
    | nil => exact absurd (List.cons.inj h).1 hclose
    | cons _ _ ht =>
      obtain ⟨rfl, hrest⟩ := List.cons.inj h
      rw [ih ht hrest]
    | group _ _ => exact absurd (List.cons.inj h).1 hopen
  | group _ _ ihs ihr =>
    cases ht with
    | nil => cases (List.cons.inj h).1
    | cons hopen _ _ => exact absurd (List.cons.inj h).1.symm hopen
    | group ht hq =>
      simp only [List.cons_append, List.append_assoc, List.cons.injEq, true_and] at h
      obtain rfl := ihs ht h
      have hrest := (List.cons.inj (List.append_cancel_left h)).2
      rw [ihr hq hrest]

end Balanced

end Text

/-! ## Calls in a text -/

theorem Text.append_inj_of_byteLength {s t u v : List Char} (hlength : byteLength s = byteLength t)
    (h : s ++ u = t ++ v) : s = t ∧ u = v := by
  induction s generalizing t with
  | nil =>
    cases t with
    | nil => exact ⟨rfl, h⟩
    | cons d t => exact absurd hlength (Nat.ne_of_lt (byteLength_pos (List.cons_ne_nil d t)))
  | cons c s ih =>
    cases t with
    | nil => exact absurd hlength.symm (Nat.ne_of_lt (byteLength_pos (List.cons_ne_nil c s)))
    | cons d t =>
      obtain ⟨rfl, hrest⟩ := List.cons.inj h
      simp only [byteLength_cons, Nat.add_left_cancel_iff] at hlength
      obtain ⟨rfl, hv⟩ := ih hlength hrest
      exact ⟨rfl, hv⟩

/-- The text of a call: the name and the argument in parentheses. -/
def Function.callText (f : Function) (argument : List Char) : List Char :=
  f.name.toList ++ '(' :: (argument ++ [')'])

/-- At a byte of the text `n` a call of `f` stands, and `argument` is what stands up to the matching
parenthesis. -/
structure CallAt (n : List Char) (place : Nat) (f : Function) (argument : List Char) : Prop where
  tiles : ∃ before after, n = before ++ (f.callText argument ++ after) ∧
    Text.byteLength before = place
  balanced : Text.Balanced argument

/-- At a place of a text at most one call stands, and its argument is determined. -/
theorem CallAt.unique {n : List Char} {place : Nat} {f f' : Function}
    {argument argument' : List Char}
    (h : CallAt n place f argument) (h' : CallAt n place f' argument') :
    f = f' ∧ argument = argument' := by
  obtain ⟨before, after, htext, hplace⟩ := h.tiles
  obtain ⟨before', after', htext', hplace'⟩ := h'.tiles
  rw [htext'] at htext
  obtain ⟨-, hcall⟩ := Text.append_inj_of_byteLength (hplace'.trans hplace.symm) htext
  have hletters : ∀ g : Function, ∀ c ∈ g.name.toList, decide (c ≠ '(') = true := by
    intro g c hc
    have hnot : '(' ∉ g.name.toList := by cases g <;> decide
    exact decide_eq_true (ne_of_mem_of_not_mem hc hnot)
  simp only [Function.callText, List.append_assoc, List.cons_append, List.nil_append] at hcall
  have hname := congrArg (List.takeWhile (· ≠ '(')) hcall
  rw [List.takeWhile_append_of_pos (hletters f'), List.takeWhile_append_of_pos (hletters f)]
    at hname
  simp only [ne_eq, not_true_eq_false, decide_false, Bool.false_eq_true, not_false_eq_true,
    List.takeWhile_cons_of_neg, List.append_nil] at hname
  rw [hname] at hcall
  have hrest := (List.cons.inj (List.append_cancel_left hcall)).2
  refine ⟨?_, h.balanced.eq_of_closing h'.balanced hrest.symm⟩
  have hf := Function.ofName?_name f
  rw [← hname, Function.ofName?_name] at hf
  exact (Option.some.inj hf).symm

namespace Expr

/-- The marks of the calls in the order of reading: a call comes before its argument, and the left
operand before the right one. -/
def marks : Expr → List Nat
  | literal _ => []
  | binary _ left right => left.marks ++ right.marks
  | call _ argument unsignedAt => unsignedAt.toList ++ argument.marks
  | negation operand => operand.marks

end Expr

/-! ## Calls among tokens -/

variable {k : Phrase} {b : Bool} {ts all : List Token} {t : Token} {e a : Expr} {f : Function}
  {place : Nat} {n l : List Char}

/-- Among the tokens a call of `f` stands, its name at `place`. What is in its parentheses derives
the argument. -/
inductive StandsAmong (place : Nat) (f : Function) (a : Expr) : List Token → Prop
  | intro (before after) {name opening inside closing} : name.position = place → name.kind = .name →
      Function.ofName? name.text = some f → opening.kind = .opening → Derives .sum true inside a →
      closing.kind = .closing →
      StandsAmong place f a (before ++ name :: opening :: (inside ++ closing :: after))

theorem StandsAmong.mono (h : StandsAmong place f a ts) (hall : ts <:+: all) :
    StandsAmong place f a all := by
  obtain ⟨front, back, rfl⟩ := hall
  cases h with
  | intro before after hplace hname hf hopen ha hclose =>
    have hcall :=
      StandsAmong.intro (front ++ before) (after ++ back) hplace hname hf hopen ha hclose
    simpa using hcall

theorem Expr.marks_call_sublist {unsignedAt : Option Nat} {name opening closing : Token}
    (ha : a.marks.Sublist (ts.map Token.position))
    (hmark : unsignedAt.toList.Sublist [name.position]) :
    (unsignedAt.toList ++ a.marks).Sublist
      ((name :: opening :: (ts ++ [closing])).map Token.position) := by
  have hinside : a.marks.Sublist ((opening :: (ts ++ [closing])).map Token.position) := by
    rw [List.map_cons, List.map_append]
    exact (ha.trans (List.sublist_append_left _ _)).cons _
  exact hmark.append hinside

namespace Derives

/-- A marked call of a phrase stands among its tokens, and its mark is the place of its name. -/
theorem standsAmong (h : Derives k b ts e) (hpart : (Expr.call f a (some place)).Within e) :
    StandsAmong place f a ts := by
  induction h with
  | ofProduct _ ih | ofPower _ ih | ofOperand _ ih => exact ih hpart
  | @add _ ls op rs _ _ _ _ _ ihl ihr | @subtract _ ls op rs _ _ _ _ _ ihl ihr
  | @multiply _ ls op rs _ _ _ _ _ ihl ihr | @divide _ ls op rs _ _ _ _ _ ihl ihr
  | @power _ ls op rs _ _ _ _ _ ihl ihr =>
    cases hpart with
    | left hpart => exact (ihl hpart).mono (List.prefix_append ls _).isInfix
    | right hpart => exact (ihr hpart).mono ⟨ls ++ [op], [], by simp⟩
  | number _ | signedNumber _ _ => cases hpart
  | @group _ opening _ closing _ _ _ _ ih => exact (ih hpart).mono ⟨[opening], [closing], rfl⟩
  | @call b name _ opening _ closing _ hname hf hopen ha hclose ih =>
    cases b with
    | true =>
      cases hpart with
      | argument hpart => exact (ih hpart).mono ⟨[name, opening], [closing], rfl⟩
    | false =>
      cases hpart with
      | refl => exact .intro [] [] rfl hname hf hopen ha hclose
      | argument hpart => exact (ih hpart).mono ⟨[name, opening], [closing], rfl⟩
  | @signedCall sign s name f' opening _ closing a' _ hname hf hopen ha hclose ih =>
    have hcall : (Expr.call f a (some place)).Within (.call f' a' (some name.position)) := by
      cases sign with
      | plus => exact hpart
      | minus =>
        cases hpart with
        | operand hpart => exact hpart
    cases hcall with
    | refl => exact .intro [s] [] rfl hname hf hopen ha hclose
    | argument hpart => exact (ih hpart).mono ⟨[s, name, opening], [closing], rfl⟩

theorem marks_sublist (h : Derives k b ts e) : e.marks.Sublist (ts.map Token.position) := by
  induction h with
  | ofProduct _ ih | ofPower _ ih | ofOperand _ ih => exact ih
  | add _ _ _ ihl ihr | subtract _ _ _ ihl ihr | multiply _ _ _ ihl ihr | divide _ _ _ ihl ihr
  | power _ _ _ ihl ihr =>
    rw [List.map_append, List.map_cons]
    exact ihl.append (ihr.cons _)
  | number _ | signedNumber _ _ => exact List.nil_sublist _
  | group _ _ _ ih =>
    rw [List.map_cons, List.map_append]
    exact (ih.trans (List.sublist_append_left _ _)).cons _
  | @call b name _ _ _ _ _ _ _ _ _ _ ih =>
    refine Expr.marks_call_sublist ih ?_
    cases b with
    | true => exact List.nil_sublist _
    | false => exact .refl _
  | @signedCall sign _ _ _ _ _ _ _ _ _ _ _ _ _ ih =>
    cases sign with
    | plus => exact .cons _ (Expr.marks_call_sublist ih (.refl _))
    | minus => exact .cons _ (Expr.marks_call_sublist ih (.refl _))

end Derives

/-! ## Texts of calls -/

namespace Token

/-- The token is a lexeme of the text `n`, with the kind that this has. -/
def CutFrom (n : List Char) (t : Token) : Prop := t.text ∈ lexemes n ∧ t.kind = .ofText t.text

theorem cutFrom_of_mem_tokenize (h : t ∈ tokenize n) : t.CutFrom n := by
  rw [tokenize] at h
  refine ⟨?_, kind_of_mem_inOrder h⟩
  rw [← map_text_inOrder 0 (lexemes n)]
  exact List.mem_map_of_mem h

namespace CutFrom

theorem balanced (h : t.CutFrom n) (hname : t.kind = .name → ∃ f, Function.ofName? t.text = some f)
    (hopen : t.kind ≠ .opening) (hclose : t.kind ≠ .closing) : Text.Balanced t.text := by
  obtain ⟨hmem, hkind⟩ := h
  rw [hkind] at hname hopen hclose
  rcases kind_of_mem_lexemes hmem with ⟨hnumeral, -⟩ | hk | ⟨c, hc, -, hmark⟩
  · refine .of_not_mem (fun hparen => ?_) fun hparen => ?_ <;>
    · have := hnumeral _ hparen
      simp [Lexeme.isNumeral] at this
  · obtain ⟨f, hf⟩ := hname hk
    rw [← Function.name_of_ofName? hf]
    exact .of_not_mem (by cases f <;> decide) (by cases f <;> decide)
  · rw [hmark] at hopen hclose
    rw [hc]
    refine .cons ?_ ?_ .nil <;>
    · rintro rfl
      simp [TokenKind.ofMark] at hopen hclose

theorem text_of_kind (h : t.CutFrom n) :
    (t.kind = .opening → t.text = ['(']) ∧ (t.kind = .closing → t.text = [')']) := by
  obtain ⟨hmem, hkind⟩ := h
  rw [hkind]
  constructor
  · intro hk
    obtain ⟨c, hc, hjoins⟩ := exists_mark_of_kind hmem (.inr (.inl hk))
    rw [hc, TokenKind.ofText_mark hjoins] at hk
    rw [hc, TokenKind.eq_of_ofMark_opening hk]
  · intro hk
    obtain ⟨c, hc, hjoins⟩ := exists_mark_of_kind hmem (.inr (.inr hk))
    rw [hc, TokenKind.ofText_mark hjoins] at hk
    rw [hc, TokenKind.eq_of_ofMark_closing hk]

end CutFrom

theorem alike_inOrder_map_text (h : ∀ t ∈ ts, t.CutFrom n) (p : Nat) :
    List.Forall₂ Alike ts (inOrder p (ts.map text)) := by
  induction ts generalizing p with
  | nil => exact .nil
  | cons t ts ih =>
    rw [List.forall_mem_cons] at h
    exact .cons ⟨h.1.2, rfl⟩ (ih h.2 _)

end Token

theorem balanced_of_parentheses {opening closing : Token} (hopen : opening.kind = .opening)
    (hclose : closing.kind = .closing) (hts : ∀ t ∈ opening :: (ts ++ [closing]), t.CutFrom n)
    (h : (∀ t ∈ ts, t.CutFrom n) → Text.Balanced (ts.map Token.text).flatten) :
    Text.Balanced ((opening :: (ts ++ [closing])).map Token.text).flatten := by
  rw [List.forall_mem_cons, List.forall_mem_append, List.forall_mem_singleton] at hts
  obtain ⟨ho, hinside, hc⟩ := hts
  simpa [ho.text_of_kind.1 hopen, hc.text_of_kind.2 hclose] using (h hinside).parenthesized

/-- The text of a phrase is balanced. -/
theorem Derives.balanced (h : Derives k b ts e) (hts : ∀ t ∈ ts, t.CutFrom n) :
    Text.Balanced (ts.map Token.text).flatten := by
  induction h with
  | ofProduct _ ih | ofPower _ ih | ofOperand _ ih => exact ih hts
  | add _ hop _ ihl ihr | subtract _ hop _ ihl ihr | multiply _ hop _ ihl ihr
  | divide _ hop _ ihl ihr | power _ hop _ ihl ihr =>
    rw [List.forall_mem_append, List.forall_mem_cons] at hts
    obtain ⟨hls, ht, hrs⟩ := hts
    simpa using (ihl hls).append
      ((ht.balanced (by simp [hop]) (by simp [hop]) (by simp [hop])).append (ihr hrs))
  | number hk =>
    have hnumber := (hts _ List.mem_cons_self).balanced (by simp [hk]) (by simp [hk]) (by simp [hk])
    simpa using hnumber
  | group hopen _ hclose ih => exact balanced_of_parentheses hopen hclose hts ih
  | call hname hf hopen _ hclose ih =>
    obtain ⟨hn, hts⟩ := List.forall_mem_cons.1 hts
    exact (hn.balanced (fun _ => ⟨_, hf⟩) (by simp [hname]) (by simp [hname])).append
      (balanced_of_parentheses hopen hclose hts ih)
  | signedNumber hsign hk =>
    obtain ⟨hs, hu⟩ := List.forall_mem_cons.1 hts
    rw [List.forall_mem_singleton] at hu
    simpa using (hs.balanced (by simp [hsign]) (by simp [hsign]) (by simp [hsign])).append
      (hu.balanced (by simp [hk]) (by simp [hk]) (by simp [hk]))
  | signedCall hsign hname hf hopen _ hclose ih =>
    obtain ⟨hs, hts⟩ := List.forall_mem_cons.1 hts
    obtain ⟨hn, hts⟩ := List.forall_mem_cons.1 hts
    exact (hs.balanced (by simp [hsign]) (by simp [hsign]) (by simp [hsign])).append
      ((hn.balanced (fun _ => ⟨_, hf⟩) (by simp [hname]) (by simp [hname])).append
        (balanced_of_parentheses hopen hclose hts ih))

/-! ## The call at a place -/

section Call

variable {limits : Limits} {s : String} {before inside after : List Token}
  {name opening closing : Token} {x v : Float}
  (hparse : parse limits s = .ok e)
  (htokens : tokenize (Text.normalize s.toList) =
    before ++ name :: opening :: (inside ++ closing :: after))
  (hname : name.kind = .name) (hf : Function.ofName? name.text = some f)
  (hopen : opening.kind = .opening) (ha : Derives .sum true inside a)
  (hclose : closing.kind = .closing)

include htokens hf hopen hclose in
theorem flatten_text_call :
    ((name :: opening :: (inside ++ [closing])).map Token.text).flatten =
      f.callText (inside.map Token.text).flatten := by
  have hcut : ∀ t ∈ before ++ name :: opening :: (inside ++ closing :: after),
      t.CutFrom (Text.normalize s.toList) := fun t ht =>
    Token.cutFrom_of_mem_tokenize (htokens ▸ ht)
  have hopening := (hcut opening (by simp)).text_of_kind.1 hopen
  have hclosing := (hcut closing (by simp)).text_of_kind.2 hclose
  simp [Function.callText, Function.name_of_ofName? hf, hopening, hclosing]

include htokens hf hopen ha hclose in
theorem callAt_of_tokenize :
    CallAt (Text.normalize s.toList) name.position f (inside.map Token.text).flatten where
  tiles := by
    refine ⟨(before.map Token.text).flatten, (after.map Token.text).flatten, ?_,
      (position_of_tokenize_eq htokens).symm⟩
    rw [← flatten_text_call htokens hf hopen hclose, ← flatten_text_tokenize (Text.normalize _),
      htokens]
    simp
  balanced := ha.balanced fun t ht =>
    Token.cutFrom_of_mem_tokenize (n := Text.normalize s.toList) (by simp [htokens, ht])

include htokens hf hopen hclose in
theorem lexemes_callText : lexemes (f.callText (inside.map Token.text).flatten) =
    (name :: opening :: (inside ++ [closing])).map Token.text := by
  have htext := flatten_text_call htokens hf hopen hclose
  have hall : lexemes (Text.normalize s.toList) = before.map Token.text ++
      ((name :: opening :: (inside ++ [closing])).map Token.text ++ after.map Token.text) := by
    rw [← Token.map_text_inOrder 0 (lexemes _), ← tokenize, htokens]
    simp
  have hbehind := lexemes_flatten_of_append hall
  rw [← htext]
  refine lexemes_eq_of_append hbehind (.of_last ?_ _)
  rw [htext, Function.callText, ← List.cons_append, ← List.append_assoc, List.getLast?_concat]
  rintro _ ⟨⟩
  decide

include htokens hname hf hopen ha hclose in
/-- On its own a call is read as it is in the whole, but without a mark. -/
theorem exists_derives_callText (hx : a.evaluateDirectly = .ok x) (hv : f.apply x = .ok v) :
    List.Forall₂ Token.Alike (name :: opening :: (inside ++ [closing]))
      (tokenize (f.callText (inside.map Token.text).flatten)) ∧
    ∃ c, Derives .sum true (tokenize (f.callText (inside.map Token.text).flatten)) c ∧
      c.evaluateDirectly.toOption = some v := by
  have halike : List.Forall₂ Token.Alike (name :: opening :: (inside ++ [closing]))
      (tokenize (f.callText (inside.map Token.text).flatten)) := by
    rw [tokenize, lexemes_callText htokens hf hopen hclose]
    refine Token.alike_inOrder_map_text (n := Text.normalize s.toList) (fun t ht => ?_) 0
    exact Token.cutFrom_of_mem_tokenize
      (List.IsInfix.subset ⟨before, after, by simp [htokens]⟩ ht)
  refine ⟨halike, ?_⟩
  have hcall : Derives .sum true (name :: opening :: (inside ++ [closing])) (.call f a none) :=
    Derives.of_operand (.call (b := true) hname hf hopen ha hclose) .sum
  obtain ⟨c, hc, hsame⟩ := hcall.exists_alike Expr.likeness_sameValue
    (Reading.flagAlike_self Expr.likeness_sameValue true) halike
  refine ⟨c, hc, ?_⟩
  rw [← hsame, Expr.evaluateDirectly_call hx hv, Expr.withoutSign_of_fits fun _ => rfl]
  rfl

include hparse htokens in
theorem nesting_call_le {read : List Token}
    (hread : read <+: name :: opening :: (inside ++ [closing])) :
    nesting read ≤ limits.maxDepth := by
  have hderives := Derives.of_parse hparse
  rw [htokens] at hderives
  have hprefix : before ++ read <+: tokenize (Text.normalize s.toList) := by
    rw [htokens, List.prefix_append_right_inj]
    exact hread.trans ⟨after, by simp⟩
  have hle := nesting_le_of_parse hparse hprefix
  -- In front of the call nothing is closed that was not opened there.
  have hbefore := hderives.nesting_nonneg (List.prefix_append before _)
  rw [nesting_append] at hle
  omega

include hparse htokens hname hf hopen ha hclose in
theorem evaluate_callText (hx : a.evaluateDirectly = .ok x) (hv : f.apply x = .ok v) :
    evaluate limits (String.ofList (f.callText (inside.map Token.text).flatten)) = .ok v := by
  obtain ⟨halike, c, hc, hvalue⟩ :=
    exists_derives_callText htokens hname hf hopen ha hclose hx hv
  have hlength := length_le_of_parse hparse
  have hnormal : Text.normalize (f.callText (inside.map Token.text).flatten) =
      f.callText (inside.map Token.text).flatten :=
    Text.normalize_eq_self (isPlain_of_derives hc)
  obtain ⟨front, back, htext, -⟩ := (callAt_of_tokenize htokens hf hopen ha hclose).tiles
  have hparts := congrArg List.length htext
  have hread := hc.ofTokens_eq_of_nesting
    (fun read hread => nesting_le_of_alike halike
      (fun read hread => nesting_call_le hparse htokens hread) hread)
    (Text.byteLength (f.callText (inside.map Token.text).flatten))
  have hcall :
      parse limits (String.ofList (f.callText (inside.map Token.text).flatten)) = .ok c := by
    rw [parse_of_length_le limits (by simp [hnormal] at hparts ⊢; omega), String.toList_ofList,
      hnormal, hread]
  exact (evaluate_eq_ok_iff hcall).2 hvalue

end Call

/-! ## Texts -/

variable {limits : Limits} {s : String}

/-- The marks of an expression point at its calls in the text.

- At the place of a mark the text of its call stands.
- In the order of reading the marks increase, so no two calls share one.
- If a value with a sign is refused at some place, the text of the call there has this value on its
  own. What was found is shown as the name of its function and the value. -/
theorem parse_marks (h : parse limits s = .ok e) :
    (∀ f a place, (Expr.call f a (some place)).Within e →
      ∃ argument, CallAt (Text.normalize s.toList) place f argument) ∧
    e.marks.Pairwise (· < ·) ∧
    ∀ place found expected,
      evaluate limits s = .error (.invalidExpression place found expected) →
      ∃ f a argument v, (Expr.call f a (some place)).Within e ∧
        CallAt (Text.normalize s.toList) place f argument ∧
        evaluate limits (String.ofList (f.callText argument)) = .ok v ∧ v < 0.0 ∧
        found.text = f.name ++ "(...) = " ++ Decimal.plainText v := by
  have hderives := Derives.of_parse h
  refine ⟨fun f a place hpart => ?_, ?_, fun place found expected hfails => ?_⟩
  · generalize htokens : tokenize (Text.normalize s.toList) = tokens at hderives
    cases hderives.standsAmong hpart with
    | intro before after hplace hname hf hopen ha hclose =>
      subst hplace
      exact ⟨_, callAt_of_tokenize htokens hf hopen ha hclose⟩
  · have hplaces := pairwise_position_tokenize (Text.normalize s.toList)
    exact (List.pairwise_map.2 hplaces).sublist hderives.marks_sublist
  · rw [evaluate, h] at hfails
    obtain ⟨f, v, ⟨a, x, hpart, hx, hv, hneg⟩, rfl, -⟩ := Expr.arisesIn_of_evaluate hfails
    generalize htokens : tokenize (Text.normalize s.toList) = tokens at hderives
    cases hderives.standsAmong hpart with
    | intro before after hplace hname hf hopen ha hclose =>
      subst hplace
      exact ⟨f, a, _, v, hpart, callAt_of_tokenize htokens hf hopen ha hclose,
        evaluate_callText h htokens hname hf hopen ha hclose hx hv, hneg, rfl⟩

/-- The marks of three calls, of which the second is in the argument of the first. -/
theorem marks_of_nested_calls :
    ∃ e, parse {} "2 * Sin(1-Cos(0)) + -Ln(3)^2" = .ok e ∧ e.marks = [2, 8, 17] ∧
      (∃ argument, CallAt "2*sin(1-cos(0))+-ln(3)^2".toList 8 .cos argument) ∧
      e.marks.Pairwise (· < ·) := by
  obtain ⟨e, hparse, hmarks, a, hpart⟩ :
      ∃ e, parse {} "2 * Sin(1-Cos(0)) + -Ln(3)^2" = .ok e ∧ e.marks = [2, 8, 17] ∧
        ∃ a, (Expr.call .cos a (some 8)).Within e :=
    ⟨.binary .add
        (.binary .multiply (.literal 2) (.call .sin (.binary .subtract (.literal 1)
          (.call .cos (.literal 0) (some 8))) (some 2)))
        (.binary .power (.negation (.call .ln (.literal 3) (some 17))) (.literal 2)),
      by decide +kernel, rfl, _, .left (.right (.argument (.right .refl)))⟩
  obtain ⟨hcalls, horder, -⟩ := parse_marks hparse
  have hnormal : Text.normalize "2 * Sin(1-Cos(0)) + -Ln(3)^2".toList =
      "2*sin(1-cos(0))+-ln(3)^2".toList := by
    decide +kernel
  exact ⟨e, hparse, hmarks, hnormal ▸ hcalls _ _ _ hpart, horder⟩

end DeskCalculator
