import Bytewright.Verification.Cfgscript.Accepted

/-! # Scanner and parser make progress -/

namespace Bytewright.Cfgscript

open Bytewright.Common Bytewright.Library

/-! ### Bytes that are consumed -/

/-- Whenever `m` returns, it went over at least `n` bytes. -/
abbrev Consumes {α : Type} (n : Nat) (m : Scan α) : Prop := Lowers (fun l : Lexer => l.rest.length) n m

section Consumes

variable {α β : Type} {m m' : Scan α} {f : α → Scan β} {i : Nat} {p : UInt8 → Bool}
  {l l' : Lexer} {bs : Bytes}

theorem Consumes.lexError {at_ : Nat} {msg : String} : Consumes i (lexError at_ msg : Scan α) :=
  .fails fun _ _ _ h => by cases h

theorem Consumes.lexError_bind {at_ : Nat} {msg : String} :
    Consumes i (Cfgscript.lexError at_ msg >>= f) :=
  .fails fun _ _ _ h => by cases h

/-! ### The cursor -/

theorem advance_consumes : Consumes 1 advance := by
  intro l c l' h
  cases hrest : l.rest with
  | nil => simp [advance, bind_run, hrest] at h
  | cons d rest =>
      rw [advance_run hrest] at h
      cases h
      simp [hrest]

theorem skip_consumes : Consumes 0 advance := advance_consumes.mono (Nat.zero_le _)

theorem scanWhile_split (p : UInt8 → Bool) (bs : Bytes) (l : Lexer) (hl : l.rest = bs) :
    (Lexer.scanWhile p bs l).1 ++ (Lexer.scanWhile p bs l).2.rest = bs := by
  induction bs generalizing l with
  | nil => exact hl
  | cons b bs ih =>
      rw [Lexer.scanWhile]
      split
      · exact congrArg (b :: ·) (ih (l.forward b bs) (by simp))
      · exact hl

theorem advanceWhile_split (h : advanceWhile p l = .ok bs l') : l.rest = bs ++ l'.rest := by
  have hsplit := scanWhile_split p l.rest l rfl
  simp only [advanceWhile, bind_run, get_run, set_run, pure_run] at h
  cases h
  exact hsplit.symm

theorem advanceWhile_consumes : Consumes 0 (advanceWhile p) := by
  intro l bs l' h
  show l'.rest.length ≤ l.rest.length
  rw [advanceWhile_split h, List.length_append]
  omega

/-- A byte of the class is next. -/
theorem advanceWhile_lt (hl : l.atEnd = false) (hp : p l.peek = true)
    (h : advanceWhile p l = .ok bs l') : l'.rest.length < l.rest.length := by
  cases hrest : l.rest with
  | nil => simp [Lexer.atEnd, hrest] at hl
  | cons c rest =>
      rw [Lexer.peek_cons hrest] at hp
      rcases (scanWhile_all p l.rest l).2 c rest hrest hp with ⟨cs, hcs⟩
      have hbs : (Lexer.scanWhile p l.rest l).1 = bs := by
        simp only [advanceWhile, bind_run, get_run, set_run, pure_run] at h
        cases h
        rfl
      rw [← hrest, advanceWhile_split h, ← hbs, hcs, List.length_append, List.length_cons]
      omega

theorem scanComment_length (bs : Bytes) (l : Lexer) (hl : l.rest = bs) :
    (Lexer.scanComment bs l).2.rest.length ≤ bs.length := by
  induction bs generalizing l with
  | nil => rw [Lexer.scanComment, hl]
  | cons c bs ih =>
      cases bs with
      | nil => simp [Lexer.scanComment]
      | cons d bs =>
          rw [Lexer.scanComment]
          split
          · simp
            omega
          · have hrest := ih (l.forward c (d :: bs)) (by simp)
            simp only [List.length_cons] at hrest ⊢
            omega

/-! ### Trivia, one piece at a time -/

/-- A round of `skip_trivia`: whether another one follows. -/
def triviaRound : Scan Bool := do
  let l ← get
  if l.atEnd then return false
  let c := l.peek
  if isSpace c then
    let _ ← advance
    return true
  else if c = ch '#' then
    let _ ← advanceWhile (· ≠ ch '\n')
    return true
  else if c = ch '/' ∧ l.peek 1 = ch '/' then
    let _ ← advance
    let _ ← advance
    let _ ← advanceWhile (· ≠ ch '\n')
    return true
  else if c = ch '/' ∧ l.peek 1 = ch '*' then
    let start := l.pos
    let _ ← advance
    let _ ← advance
    let l ← get
    let (closed, l) := Lexer.scanComment l.rest l
    set l
    if !closed then lexError start "unterminated block comment"
    return true
  else return false

theorem skipTriviaLoop_succ (fuel : Nat) :
    skipTriviaLoop (fuel + 1) = do
      if ← triviaRound then skipTriviaLoop fuel else return () := by
  have hite : ∀ {c : Prop} [Decidable c] (x y : Scan Bool) (k : Bool → Scan Unit),
      (if c then x else y) >>= k = if c then x >>= k else y >>= k := by
    intro c _ x y k
    split <;> rfl
  simp only [skipTriviaLoop, triviaRound, bind_assoc, hite, pure_bind, if_true, Bool.false_eq_true,
    if_false]

/-- A round that is not the last consumes, and the last one does nothing. -/
theorem triviaRound_cases {more : Bool} (h : triviaRound l = .ok more l') :
    (more = true ∧ l'.rest.length < l.rest.length) ∨ (more = false ∧ l' = l) := by
  have hround : ∀ {m : Scan Bool}, Returns m (· = true) → Consumes 1 m → m l = .ok more l' →
      (more = true ∧ l'.rest.length < l.rest.length) ∨ (more = false ∧ l' = l) :=
    fun hreturns hconsumes hrun => .inl ⟨hreturns _ _ _ hrun, hconsumes _ _ _ hrun⟩
  rw [triviaRound, bind_of_ok (get_run l), ite_run] at h
  split at h
  · cases h
    exact .inr ⟨rfl, rfl⟩
  · next hend =>
    rw [ite_run] at h
    split at h
    · exact hround (.bind fun _ => .pure rfl) (advance_consumes.first fun _ => .pure) h
    · rw [ite_run] at h
      split at h
      · next hhash =>
        rw [bind_eq_ok] at h
        rcases h with ⟨bs, l₁, hrun, h⟩
        cases h
        exact .inl ⟨rfl, advanceWhile_lt (by simpa using hend) (by rw [hhash]; decide) hrun⟩
      · rw [ite_run] at h
        split at h
        · refine hround (.bind fun _ => .bind fun _ => .bind fun _ => .pure rfl) ?_ h
          exact advance_consumes.first fun _ => skip_consumes.after fun _ =>
            advanceWhile_consumes.after fun _ => .pure
        · rw [ite_run] at h
          split at h
          · refine hround (.bind fun _ => .bind fun _ => .bind fun l₁ => .bind fun _ => ?_) ?_ h
            · exact .ite (fun _ => .bind fun _ => .pure rfl) fun _ => .pure rfl
            · refine advance_consumes.first fun _ => skip_consumes.after fun _ => ?_
              intro l₁ a l₂ hrun
              have hlen := scanComment_length l₁.rest l₁ rfl
              rw [bind_of_ok (get_run l₁)] at hrun
              rw [bind_of_ok (set_run _ _), ite_run] at hrun
              split at hrun
              · cases hrun
              · cases hrun
                exact hlen
          · cases h
            exact .inr ⟨rfl, rfl⟩

/-- More rounds than bytes change nothing. -/
theorem skipTriviaLoop_fuel {fuel fuel' : Nat} (hfuel : l.rest.length < fuel)
    (hfuel' : l.rest.length < fuel') : skipTriviaLoop fuel l = skipTriviaLoop fuel' l := by
  induction fuel generalizing l fuel' with
  | zero => omega
  | succ fuel ih =>
      obtain ⟨fuel', rfl⟩ := Nat.exists_eq_add_one_of_ne_zero (Nat.ne_zero_of_lt hfuel')
      rw [skipTriviaLoop_succ, skipTriviaLoop_succ, bind_run, bind_run]
      cases hround : triviaRound l with
      | error e l₁ => rfl
      | ok more l₁ =>
          rcases triviaRound_cases hround with ⟨rfl, hlt⟩ | ⟨rfl, -⟩
          · exact ih (by omega) (by omega)
          · rfl

theorem skipTrivia_run (l : Lexer) : skipTrivia l = skipTriviaLoop (l.rest.length + 1) l := by
  rw [skipTrivia, bind_of_ok (get_run l)]

theorem nextToken_of_round (h : triviaRound l = .ok true l') : nextToken l = nextToken l' := by
  rcases triviaRound_cases h with ⟨-, hlt⟩ | ⟨hmore, -⟩
  · have hskip : skipTrivia l = skipTrivia l' := by
      rw [skipTrivia_run, skipTrivia_run, skipTriviaLoop_succ, bind_of_ok h]
      exact skipTriviaLoop_fuel hlt (Nat.lt_succ_self _)
    rw [nextToken, bind_run, bind_run, hskip]
  · cases hmore

theorem nextToken_of_stop (h : triviaRound l = .ok false l') : nextToken l = lexToken l := by
  rcases triviaRound_cases h with ⟨hmore, -⟩ | ⟨-, rfl⟩
  · cases hmore
  · have hskip : skipTrivia l' = .ok () l' := by
      rw [skipTrivia_run, skipTriviaLoop_succ, bind_of_ok h]
      rfl
    rw [nextToken, bind_of_ok hskip]

theorem nextToken_of_fault {e : Fault} (h : triviaRound l = .error e l') :
    nextToken l = .error e l' := by
  have hskip : skipTrivia l = .error e l' := by
    rw [skipTrivia_run, skipTriviaLoop_succ, bind_of_error h]
  rw [nextToken, bind_of_error hskip]

/-- The next token is behind the trivia, which goes round by round. -/
theorem nextToken_induction {motive : Lexer → Prop}
    (round : ∀ l l₁, triviaRound l = .ok true l₁ → motive l₁ → motive l)
    (stop : ∀ l, triviaRound l = .ok false l → motive l)
    (fault : ∀ l l₁ e, triviaRound l = .error e l₁ → motive l) (l : Lexer) : motive l := by
  induction hn : l.rest.length using Nat.strong_induction_on generalizing l with
  | _ n ih =>
      cases hround : triviaRound l with
      | error e l₁ => exact fault l l₁ e hround
      | ok more l₁ =>
          rcases triviaRound_cases hround with ⟨rfl, hlt⟩ | ⟨rfl, rfl⟩
          · exact round l l₁ hround (ih _ (hn ▸ hlt) l₁ rfl)
          · exact stop l₁ hround

/-! ### Tokens -/

theorem lexHex_consumes : Consumes 1 lexHex := by
  refine Lowers.get.after fun l => advance_consumes.first fun _ => ?_
  refine skip_consumes.after fun _ => advanceWhile_consumes.after fun _ => ?_
  exact .ite Consumes.lexError_bind .pure

theorem lexFraction_consumes : Consumes 0 lexFraction := by
  refine Lowers.get.after fun l => .ite ?_ .pure
  exact skip_consumes.after fun _ => advanceWhile_consumes.after fun _ => .pure

theorem lexExponent_consumes : Consumes 0 lexExponent := by
  refine Lowers.get.after fun l => .ite (.ite ?_ .pure) .pure
  have hdigits : ∀ f : Bytes → Option Int, Consumes 0 (advanceWhile isDigit >>= fun bs => pure (f bs)) :=
    fun f => advanceWhile_consumes.after fun _ => .pure
  refine skip_consumes.after fun _ => Lowers.get.after fun l₁ => ?_
  exact .ite (skip_consumes.after fun _ => hdigits _) (hdigits _)

theorem decimalToken_consumes (start : Nat) (digits : Bytes) (fraction : Option Bytes)
    (exponent : Option Int) : Consumes 0 (decimalToken start digits fraction exponent) := by
  unfold decimalToken
  refine .ite (.ite (.fails fun _ _ _ h => by cases h) .pure) ?_
  dsimp only
  split
  · exact .pure
  · exact .fails fun _ _ _ h => by cases h

theorem lexNumber_lt {t : Token} (hl : l.atEnd = false) (hdigit : isDigit l.peek = true)
    (h : lexNumber l = .ok t l') : l'.rest.length < l.rest.length := by
  rw [lexNumber, bind_of_ok (get_run l), ite_run] at h
  split at h
  · exact lexHex_consumes _ _ _ h
  · rw [bind_eq_ok] at h
    rcases h with ⟨digits, l₁, hdigits, h⟩
    have hlt := advanceWhile_lt hl hdigit hdigits
    have hrest : l'.rest.length ≤ l₁.rest.length :=
      (lexFraction_consumes.after fun fraction => lexExponent_consumes.after fun exponent =>
        decimalToken_consumes l.pos digits fraction exponent) _ _ _ h
    omega

theorem utf8Bytes_consumes (cp : UInt32) (esc : Nat) : Consumes 0 (utf8Bytes cp esc) := by
  unfold utf8Bytes
  exact .ite Consumes.lexError_bind (.ite .pure (.ite .pure (.ite .pure .pure)))

theorem lexHexEscape_consumes (esc : Nat) : Consumes 0 (lexHexEscape esc) := by
  refine Lowers.get.after fun l => .ite Consumes.lexError_bind ?_
  exact skip_consumes.after fun _ => skip_consumes.after fun _ => .pure

theorem unicodeLoop_consumes (esc left : Nat) (cp : UInt32) (count : Nat) :
    Consumes 0 (unicodeLoop esc left cp count) := by
  induction left generalizing cp count with
  | zero => exact .fails fun _ _ _ h => by cases h
  | succ left ih =>
      refine Lowers.get.after fun l => .ite ?_ .pure
      exact skip_consumes.after fun _ => .ite Consumes.lexError_bind (ih _ _)

theorem lexUnicodeEscape_consumes (esc : Nat) : Consumes 0 (lexUnicodeEscape esc) := by
  refine Lowers.get.after fun l => .ite Consumes.lexError_bind ?_
  refine skip_consumes.after fun _ => (unicodeLoop_consumes _ _ _ _).after fun out => .ite Consumes.lexError_bind ?_
  exact Lowers.get.after fun l => .ite Consumes.lexError_bind (skip_consumes.after fun _ => utf8Bytes_consumes _ _)

theorem lexEscape_consumes : Consumes 1 lexEscape := by
  refine Lowers.get.after fun l => advance_consumes.first fun _ => Lowers.get.after fun l₁ => ?_
  refine .ite Consumes.lexError_bind (skip_consumes.after fun e => ?_)
  cases simpleEscape? e with
  | some b => exact .pure
  | none => exact .ite (lexHexEscape_consumes _) (.ite (lexUnicodeEscape_consumes _) Consumes.lexError)

theorem lexStringLoop_consumes (opening fuel : Nat) : Consumes 0 (lexStringLoop opening fuel) := by
  induction fuel with
  | zero => exact .fails fun _ _ _ h => by cases h
  | succ fuel ih =>
      refine Lowers.get.after fun l => .ite Consumes.lexError_bind (.ite ?_ (.ite Consumes.lexError (.ite ?_ ?_)))
      · exact skip_consumes.after fun _ => .pure
      · exact skip_consumes.after fun _ => ih.after fun _ => .pure
      · exact (lexEscape_consumes.mono (Nat.zero_le _)).after fun _ => ih.after fun _ => .pure

theorem lexString_consumes : Consumes 1 lexString :=
  Lowers.get.after fun _ => advance_consumes.first fun _ => Lowers.get.after fun _ =>
    (lexStringLoop_consumes _ _).after fun _ => .pure

theorem lexPunctuator_consumes : Consumes 1 lexPunctuator := by
  refine Lowers.get.after fun l => advance_consumes.first fun c => Lowers.get.after fun l₁ => ?_
  split
  · exact .ite (skip_consumes.after fun _ => .pure) .pure
  · exact Consumes.lexError

/-- A token that is not the end of the input has bytes. -/
theorem lexToken_lt {t : Token} (hl : l.atEnd = false) (h : lexToken l = .ok t l') :
    l'.rest.length < l.rest.length := by
  rw [lexToken, bind_of_ok (get_run l)] at h
  simp only [hl, Bool.false_eq_true, if_false] at h
  rw [ite_run] at h
  split at h
  · next hstart =>
    rw [lexIdentOrKeyword, bind_of_ok (get_run l), bind_eq_ok] at h
    rcases h with ⟨word, l₁, hword, h⟩
    cases h
    exact advanceWhile_lt hl (by simp [isIdentPart, hstart]) hword
  · rw [ite_run] at h
    split at h
    · next hdigit => exact lexNumber_lt hl hdigit h
    · rw [ite_run] at h
      split at h
      · exact lexString_consumes _ _ _ h
      · exact lexPunctuator_consumes _ _ _ h

theorem lexToken_of_atEnd (hl : l.atEnd = true) :
    lexToken l = .ok { kind := .kEof, offset := l.pos } l := by
  simp [lexToken, bind_run, hl]

theorem nextToken_left {t : Token} (h : nextToken l = .ok t l') :
    l'.rest.length ≤ l.rest.length ∧ (t.kind ≠ .kEof → l'.rest.length < l.rest.length) := by
  induction l using nextToken_induction with
  | round l l₁ hround ih =>
      rw [nextToken_of_round hround] at h
      rcases triviaRound_cases hround with ⟨-, hlt⟩ | ⟨hmore, -⟩
      · have := ih h
        exact ⟨by omega, fun ht => by have := this.2 ht; omega⟩
      · cases hmore
  | stop l hround =>
      rw [nextToken_of_stop hround] at h
      cases hl : l.atEnd with
      | true =>
          rw [lexToken_of_atEnd hl] at h
          cases h
          exact ⟨Nat.le_refl _, fun ht => absurd rfl ht⟩
      | false =>
          have hlt := lexToken_lt hl h
          exact ⟨Nat.le_of_lt hlt, fun _ => hlt⟩
  | fault l l₁ e hround =>
      rw [nextToken_of_fault hround] at h
      cases h

instance : LawfulTokenSource Lexer where
  left_le h := (nextToken_left h).1
  left_lt h ht := (nextToken_left h).2 ht

end Consumes

/-! ### Tokens that are taken -/

section Parsing

variable {σ : Type} [TokenSource σ] {α : Type} {p q : Parser σ}

/-- Whenever `m` returns, at least `n` tokens fewer are to come. -/
abbrev Advances (n : Nat) (m : Parse σ α) : Prop := Lowers Parser.left n m

theorem Advances.raise_bind {β : Type} {n : Nat} {code : ErrorCode} {at_ : Nat} {msg : String}
    {f : β → Parse σ α} : Advances n (Common.raise code at_ msg >>= f) :=
  .fails fun _ _ _ h => by cases h

theorem check_advances (kind : TokenKind) : Advances 0 (check kind : Parse σ Bool) :=
  Lowers.get.after fun _ => .pure

variable [LawfulTokenSource σ]

theorem take_advances : Advances 0 (take : Parse σ Token) := fun _ _ _ => left_le_of_take

theorem expect_advances {kind : TokenKind} (hkind : kind ≠ .kEof) (what : String) :
    Advances 1 (expect kind what : Parse σ Token) := by
  intro p t q h
  rcases expect_eq_ok h with ⟨hcur, -, htake⟩
  exact left_of_take htake (hcur ▸ hkind)

theorem accept_advances (kind : TokenKind) : Advances 0 (accept kind : Parse σ Bool) :=
  Lowers.get.after fun _ => .ite (take_advances.after fun _ => .pure) .pure

theorem parseExpr_advances (depth : Nat) : Advances 0 (parseExpr depth : Parse σ Expr) := by
  intro p e q h
  rcases (productions_sound _).expr h with ⟨ts, hts, hder⟩
  have := hts.left_le hder.not_eof
  omega

theorem parsePath_advances (fuel : Nat) : Advances 0 (parsePath fuel : Parse σ (List Bytes)) := by
  induction fuel with
  | zero => exact .fails fun _ _ _ h => by cases h
  | succ fuel ih =>
      refine (accept_advances .kDot).after fun _ => .ite ?_ .pure
      exact ((expect_advances (by decide) _).mono (Nat.zero_le _)).after fun _ => ih.after fun _ => .pure

theorem parseAssignment_advances (path : List Bytes) (offset : Nat) :
    Advances 0 (parseAssignment path offset : Parse σ ParsedStatement) := by
  refine ((expect_advances (by decide) _).mono (Nat.zero_le _)).after fun _ => ?_
  refine (parseExpr_advances 1).after fun _ => ?_
  exact ((expect_advances (by decide) _).mono (Nat.zero_le _)).after fun _ => .pure

section Blocks

variable {nested : Parse σ ParsedStatement}

theorem parseChildren_advances (hnested : Advances 0 nested) (offset fuel : Nat) :
    Advances 0 (parseChildren nested offset fuel) := by
  induction fuel with
  | zero => exact .fails fun _ _ _ h => by cases h
  | succ fuel ih =>
      refine (check_advances .kRBrace).after fun _ => .ite .pure ?_
      refine (check_advances .kEof).after fun _ => .ite Advances.raise_bind ?_
      refine (accept_advances .kSemicolon).after fun _ => .ite ih ?_
      exact hnested.after fun _ => ih.after fun _ => .pure

theorem parseBlock_advances (hnested : Advances 0 nested) (offset : Nat) :
    Advances 0 (parseBlock nested offset) := by
  refine ((expect_advances (by decide) _).mono (Nat.zero_le _)).after fun _ => Lowers.get.after fun p => ?_
  refine (parseChildren_advances hnested offset p.fuel).after fun _ => ?_
  exact ((expect_advances (by decide) _).mono (Nat.zero_le _)).after fun _ => .pure

theorem parseStatementWith_advances (hnested : Advances 0 nested) :
    Advances 1 (parseStatementWith nested) := by
  refine Lowers.get.after fun p => (check_advances .kInclude).after fun _ => .ite ?_ ?_
  · refine take_advances.after fun _ => (expect_advances (by decide) _).first fun _ => ?_
    exact ((expect_advances (by decide) _).mono (Nat.zero_le _)).after fun _ => .pure
  · refine (expect_advances (by decide) _).first fun _ => (check_advances .kString).after fun _ => .ite ?_ ?_
    · refine take_advances.after fun _ => Lowers.get.after fun _ => .ite Advances.raise_bind ?_
      exact (parseBlock_advances hnested _).after fun _ => .pure
    · refine (check_advances .kLBrace).after fun _ => .ite ?_ ?_
      · exact (parseBlock_advances hnested _).after fun _ => .pure
      · exact Lowers.get.after fun q => (parsePath_advances q.fuel).after fun _ =>
          parseAssignment_advances _ _

end Blocks

/-- A statement has a token. -/
theorem parseStatementIn_advances (room : Nat) : Advances 1 (parseStatementIn room : Parse σ _) := by
  induction room with
  | zero => exact .fails fun _ _ _ => tooDeep_ne_ok
  | succ room ih => exact parseStatementWith_advances (ih.mono (Nat.zero_le _))

/-- As many rounds as tokens are enough for the statements of a document. -/
theorem parseStatements_fuel {fuel fuel' : Nat} {stmts : List ParsedStatement}
    (h : parseStatements fuel p = .ok stmts q) (hfuel : p.left < fuel') :
    parseStatements fuel' p = .ok stmts q := by
  induction fuel generalizing fuel' p stmts with
  | zero => cases h
  | succ fuel ih =>
      obtain ⟨fuel', rfl⟩ := Nat.exists_eq_add_one_of_ne_zero (Nat.ne_zero_of_lt hfuel)
      rw [parseStatements, bind_of_ok (check_run _ p)] at h ⊢
      split at h
      · next heof =>
        rw [if_pos heof]
        exact h
      · next heof =>
        rw [if_neg heof]
        rw [bind_eq_ok] at h
        rcases h with ⟨semi, p₁, hsemi, h⟩
        rw [bind_of_ok hsemi]
        rcases accept_eq_ok hsemi with ⟨rfl, hkind, htake⟩ | ⟨rfl, -, rfl⟩
        · have hlt := left_of_take htake (by rw [hkind]; decide)
          exact ih h (by omega)
        · simp only [Bool.false_eq_true, if_false] at h ⊢
          rw [bind_eq_ok] at h
          rcases h with ⟨st, p₂, hst, h⟩
          rw [bind_eq_ok] at h
          rcases h with ⟨rest, p₃, hrest, h⟩
          have hlt := parseStatementIn_advances _ _ _ _ hst
          cases h
          rw [bind_of_ok hst, bind_of_ok (ih hrest (by omega))]
          rfl

end Parsing

end Bytewright.Cfgscript
