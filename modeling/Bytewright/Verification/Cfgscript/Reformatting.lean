import Bytewright.Verification.Cfgscript.Safety

/-! # Tokens, written out with trivia between them -/

namespace Bytewright.Cfgscript

open Bytewright.Common Bytewright.Library

/-! ### Where trivia ends -/

/-- Neither white space nor a comment stands in front of `text`. -/
def Quiet : Bytes → Prop
  | [] => True
  | c :: rest => isSpace c = false ∧ c ≠ ch '#' ∧
      (c = ch '/' → Stops (fun d => d == ch '/' || d == ch '*') rest)

section Stop

variable {text rest : Bytes} {t : Token} {l : Lexer}

theorem quiet_of_solid (h : ∀ c ∈ text.head?, solid c = true) : Quiet text := by
  cases text with
  | nil => trivial
  | cons c rest =>
      have hc := h c rfl
      simp only [solid, Bool.and_eq_true, Bool.not_eq_true', bne_iff_ne] at hc
      exact ⟨hc.1.1, hc.1.2, fun hslash => absurd hslash hc.2⟩

theorem triviaRound_stop (h : Quiet text) (hl : l.rest = text) : triviaRound l = .ok false l := by
  cases text with
  | nil => simp [triviaRound, bind_run, Lexer.atEnd, hl]
  | cons c rest =>
      rcases h with ⟨hspace, hhash, hslash⟩
      have hnext : c = ch '/' → l.peek 1 ≠ ch '/' ∧ l.peek 1 ≠ ch '*' := by
        intro hc
        rw [Lexer.peek_one hl]
        cases rest with
        | nil => decide
        | cons d rest => simpa using hslash hc d rfl
      have hline : ¬ (c = ch '/' ∧ l.peek 1 = ch '/') := fun hc => (hnext hc.1).1 hc.2
      have hblock : ¬ (c = ch '/' ∧ l.peek 1 = ch '*') := fun hc => (hnext hc.1).2 hc.2
      simp [triviaRound, bind_run, Lexer.atEnd_cons hl, Lexer.peek_cons hl, hspace, hhash, hline,
        hblock]

/-- A token right at the cursor is read at its place. -/
theorem Lexes.nextToken (h : Lexes text t rest) (hquiet : Quiet text) (hl : l.rest = text) :
    ∃ l', nextToken l = .ok { t with offset := l.pos } l' ∧ l'.rest = rest ∧
      l'.pos + rest.length = l.pos + text.length := by
  rcases h l hl with ⟨l', htoken, hl'⟩
  have hnext : Cfgscript.nextToken l = .ok { t with offset := l.pos } l' := by
    rw [nextToken_of_stop (triviaRound_stop hquiet hl), htoken]
  refine ⟨l', hnext, hl', ?_⟩
  rcases (contained_nextToken l).onward hnext with ⟨bs, hrest, hpos⟩
  rw [← hl, ← hl', hrest, List.length_append, hpos]
  omega

end Stop

/-! ### Escaped strings -/

theorem escapeByte_printable (c : UInt8) : ∀ b ∈ escapeByte c, 0x20 ≤ b ∧ b ≤ 0x7E := by
  -- decided over the list: the bounded quantifier may be decided over all bytes
  have hall : ∀ c : UInt8, ((escapeByte c).all fun b => 0x20 ≤ b && b ≤ 0x7E) = true :=
    forall_byte (by decide +kernel)
  simpa using hall c

theorem quiet_quoted (s rest : Bytes) : Quiet (quoted s ++ rest) := by
  have hquote : solid (ch '\"') = true := by decide
  exact quiet_of_solid (by rw [quoted_append]; simpa using hquote)

/-- Between quotes the escaped form of any string is one token, whose text is the string, and the
cursor is left behind the closing quote. The escaped form is printable ASCII. -/
theorem nextToken_escapeString (s rest : Bytes) (pos line column : Nat) :
    (∃ l', nextToken
        { rest := ascii "\"" ++ escapeString s ++ ascii "\"" ++ rest, pos, line, column } =
          .ok { kind := .kString, offset := pos, text := s } l' ∧
        l'.rest = rest ∧ l'.pos = pos + (escapeString s).length + 2) ∧
    ∀ b ∈ escapeString s, 0x20 ≤ b ∧ b ≤ 0x7E := by
  constructor
  · rcases (lexes_quoted s rest).nextToken (quiet_quoted s rest)
      (l := ⟨quoted s ++ rest, pos, line, column⟩) rfl with ⟨l', hnext, hl', hpos⟩
    refine ⟨l', hnext, hl', ?_⟩
    rw [quoted_append] at hpos
    simp only [List.length_cons, List.length_append] at hpos
    omega
  · intro b hb
    rcases List.mem_flatMap.mp hb with ⟨c, -, hb⟩
    exact escapeByte_printable c b hb

/-! ### Trivia -/

/-- The body of a block comment, which closes nowhere but at its end. -/
def ClosedBody (body : Bytes) : Prop :=
  ∀ front back, body ++ ascii "*/" = front ++ ascii "*/" ++ back → back = []

/-- White space, newline-terminated line comments and closed block comments. -/
inductive Trivia : Bytes → Prop where
  | nil : Trivia []
  | space {c : UInt8} {ws : Bytes} (hc : isSpace c = true) (hws : Trivia ws) : Trivia (c :: ws)
  | hash {body ws : Bytes} (hbody : ch '\n' ∉ body) (hws : Trivia ws) :
      Trivia (ch '#' :: (body ++ ch '\n' :: ws))
  | slashes {body ws : Bytes} (hbody : ch '\n' ∉ body) (hws : Trivia ws) :
      Trivia (ch '/' :: ch '/' :: (body ++ ch '\n' :: ws))
  | block {body ws : Bytes} (hbody : ClosedBody body) (hws : Trivia ws) :
      Trivia (ch '/' :: ch '*' :: (body ++ ch '*' :: ch '/' :: ws))

/-- What may stand between two tokens: trivia that begins with white space. -/
structure Gap (ws : Bytes) : Prop where
  trivia : Trivia ws
  start : ∃ c rest, ws = c :: rest ∧ isSpace c = true

section Trivia

variable {body ws text : Bytes} {l : Lexer}

theorem triviaRound_space {c : UInt8} (hc : isSpace c = true) (hl : l.rest = c :: text) :
    ∃ l', triviaRound l = .ok true l' ∧ l'.rest = text := by
  refine ⟨l.forward c text, ?_, by simp⟩
  simp [triviaRound, bind_run, Lexer.atEnd_cons hl, Lexer.peek_cons hl, hc, advance_run hl]

theorem advanceWhile_line (hbody : ch '\n' ∉ body) (hl : l.rest = body ++ ch '\n' :: text) :
    ∃ l', advanceWhile (fun c => !decide (c = ch '\n')) l = .ok body l' ∧
      l'.rest = ch '\n' :: text := by
  refine advanceWhile_run (fun b hb => ?_) (by simp [Stops]) hl
  have hne : b ≠ ch '\n' := fun heq => hbody (heq ▸ hb)
  simpa using hne

theorem triviaRound_hash (hbody : ch '\n' ∉ body) (hl : l.rest = ch '#' :: (body ++ ch '\n' :: text)) :
    ∃ l', triviaRound l = .ok true l' ∧ l'.rest = ch '\n' :: text := by
  have hclass : isSpace (ch '#') = false := by decide
  have hstart : l.rest = (ch '#' :: body) ++ ch '\n' :: text := hl
  have hbody : ch '\n' ∉ ch '#' :: body := by
    rw [List.mem_cons, not_or]
    exact ⟨by decide, hbody⟩
  rcases advanceWhile_line hbody hstart with ⟨l', hline, hl'⟩
  refine ⟨l', ?_, hl'⟩
  simp [triviaRound, bind_run, Lexer.atEnd_cons hl, Lexer.peek_cons hl, hclass, hline]

theorem triviaRound_slashes (hbody : ch '\n' ∉ body)
    (hl : l.rest = ch '/' :: ch '/' :: (body ++ ch '\n' :: text)) :
    ∃ l', triviaRound l = .ok true l' ∧ l'.rest = ch '\n' :: text := by
  have hclass : isSpace (ch '/') = false ∧ ch '/' ≠ ch '#' := by decide
  rcases advance_cons hl with ⟨l₁, hfirst, hl₁⟩
  rcases advance_cons hl₁ with ⟨l₂, hsecond, hl₂⟩
  rcases advanceWhile_line hbody hl₂ with ⟨l', hline, hl'⟩
  refine ⟨l', ?_, hl'⟩
  simp [triviaRound, bind_run, Lexer.atEnd_cons hl, Lexer.peek_cons hl, Lexer.peek_one hl, hclass,
    hfirst, hsecond, hline]

theorem ClosedBody.tail {c : UInt8} (h : ClosedBody (c :: body)) : ClosedBody body := by
  intro front back heq
  apply h (c :: front) back
  simpa using heq

/-- Without a star a body cannot close. -/
theorem ClosedBody.of_notMem (h : ch '*' ∉ body) : ClosedBody body := by
  induction body with
  | nil =>
      intro front back heq
      have hlen := congrArg List.length heq
      simp only [List.length_append, List.length_nil] at hlen
      exact List.length_eq_zero_iff.mp (by omega)
  | cons c body ih =>
      rw [List.mem_cons, not_or] at h
      intro front back heq
      cases front with
      | nil => exact absurd (List.cons.inj heq).1.symm h.1
      | cons f front => exact ih h.2 front back (List.cons.inj heq).2

/-- The loop over a comment goes just to where the comment closes. -/
theorem scanComment_run (hbody : ClosedBody body) (hl : l.rest = body ++ (ch '*' :: ch '/' :: text)) :
    ∃ l', Lexer.scanComment l.rest l = (true, l') ∧ l'.rest = text := by
  induction body generalizing l with
  | nil =>
      rw [List.nil_append] at hl
      rw [hl, Lexer.scanComment, if_pos ⟨rfl, rfl⟩]
      exact ⟨_, rfl, Lexer.rest_forward ..⟩
  | cons c body ih =>
      rcases hrest : body ++ (ch '*' :: ch '/' :: text) with _ | ⟨d, rest⟩
      · simp at hrest
      · rw [List.cons_append, hrest] at hl
        have hopen : ¬ (c = ch '*' ∧ d = ch '/') := by
          rintro ⟨rfl, rfl⟩
          cases body with
          | nil => exact absurd (List.cons.inj hrest).1 (by decide)
          | cons e body =>
              have he : e = ch '/' := (List.cons.inj hrest).1
              have hback := hbody [] (body ++ ascii "*/") (by rw [he]; rfl)
              simp [ascii] at hback
        rcases ih hbody.tail (l := l.forward c (d :: rest)) (by rw [Lexer.rest_forward, hrest]) with
          ⟨l', hscan, hl'⟩
        rw [Lexer.rest_forward] at hscan
        rw [hl, Lexer.scanComment, if_neg hopen]
        exact ⟨l', hscan, hl'⟩

theorem triviaRound_block (hbody : ClosedBody body)
    (hl : l.rest = ch '/' :: ch '*' :: (body ++ (ch '*' :: ch '/' :: text))) :
    ∃ l', triviaRound l = .ok true l' ∧ l'.rest = text := by
  have hclass : isSpace (ch '/') = false ∧ ch '/' ≠ ch '#' ∧ ch '*' ≠ ch '/' := by decide
  rcases advance_cons hl with ⟨l₁, hfirst, hl₁⟩
  rcases advance_cons hl₁ with ⟨l₂, hsecond, hl₂⟩
  rcases scanComment_run hbody hl₂ with ⟨l', hscan, hl'⟩
  refine ⟨l', ?_, hl'⟩
  simp [triviaRound, bind_run, Lexer.atEnd_cons hl, Lexer.peek_cons hl, Lexer.peek_one hl, hclass,
    hfirst, hsecond, hscan]

/-- The scanner gets from `l` to `l'` over trivia. -/
structure Skips (l l' : Lexer) : Prop where
  next : nextToken l = nextToken l'
  onward : l.Onward l'

theorem Skips.refl (l : Lexer) : Skips l l := ⟨rfl, .refl l⟩

theorem Skips.round {l' l'' : Lexer} (h : triviaRound l = .ok true l') (h' : Skips l' l'') :
    Skips l l'' :=
  ⟨(nextToken_of_round h).trans h'.next, ((contained_triviaRound l).onward h).trans h'.onward⟩

theorem newline_space : isSpace (ch '\n') = true := by decide

theorem skips_trivia (h : Trivia ws) (hl : l.rest = ws ++ text) : ∃ l', Skips l l' ∧ l'.rest = text := by
  induction h generalizing l with
  | nil => exact ⟨l, .refl l, hl⟩
  | space hc _ ih =>
      rcases triviaRound_space hc hl with ⟨l₁, hround, hl₁⟩
      rcases ih hl₁ with ⟨l', hskips, hl'⟩
      exact ⟨l', hskips.round hround, hl'⟩
  | hash hbody _ ih =>
      rw [List.cons_append, List.append_assoc] at hl
      rcases triviaRound_hash hbody hl with ⟨l₁, hround, hl₁⟩
      rcases triviaRound_space newline_space hl₁ with ⟨l₂, hnewline, hl₂⟩
      rcases ih hl₂ with ⟨l', hskips, hl'⟩
      exact ⟨l', (hskips.round hnewline).round hround, hl'⟩
  | slashes hbody _ ih =>
      rw [List.cons_append, List.cons_append, List.append_assoc] at hl
      rcases triviaRound_slashes hbody hl with ⟨l₁, hround, hl₁⟩
      rcases triviaRound_space newline_space hl₁ with ⟨l₂, hnewline, hl₂⟩
      rcases ih hl₂ with ⟨l', hskips, hl'⟩
      exact ⟨l', (hskips.round hnewline).round hround, hl'⟩
  | block hbody _ ih =>
      rw [List.cons_append, List.cons_append, List.append_assoc] at hl
      rcases triviaRound_block hbody hl with ⟨l₁, hround, hl₁⟩
      rcases ih hl₁ with ⟨l', hskips, hl'⟩
      exact ⟨l', hskips.round hround, hl'⟩

/-- `Lexer::next` in front of trivia is `Lexer::next` behind it. -/
theorem nextToken_trivia (h : Trivia ws) (hl : l.rest = ws ++ text) :
    ∃ l', nextToken l = nextToken l' ∧ l'.rest = text ∧ l'.pos = l.pos + ws.length := by
  rcases skips_trivia h hl with ⟨l', ⟨hnext, bs, hbs, hpos⟩, hl'⟩
  have happend : ws ++ text = bs ++ text := by rw [← hl, hbs, hl']
  have hws : ws = bs := List.append_cancel_right happend
  exact ⟨l', hnext, hl', hws ▸ hpos⟩

end Trivia

/-! ### Lexemes -/

/-- The punctuators and operators, as they are written. -/
def symbols : List (TokenKind × Bytes) :=
  [(.kLBrace, ascii "\x7b"), (.kRBrace, ascii "\x7d"), (.kLBracket, ascii "["), (.kRBracket, ascii "]"),
    (.kLParen, ascii "("), (.kRParen, ascii ")"), (.kSemicolon, ascii ";"), (.kComma, ascii ","),
    (.kAssign, ascii "="), (.kDot, ascii "."), (.kQuestion, ascii "?"), (.kColon, ascii ":"),
    (.kPlus, ascii "+"), (.kMinus, ascii "-"), (.kStar, ascii "*"), (.kSlash, ascii "/"),
    (.kPercent, ascii "%"), (.kShl, ascii "<<"), (.kShr, ascii ">>"), (.kLt, ascii "<"),
    (.kLe, ascii "<="), (.kGt, ascii ">"), (.kGe, ascii ">="), (.kEq, ascii "=="), (.kNe, ascii "!="),
    (.kAmp, ascii "&"), (.kCaret, ascii "^"), (.kPipe, ascii "|"), (.kAndAnd, ascii "&&"),
    (.kOrOr, ascii "||"), (.kBang, ascii "!"), (.kTilde, ascii "~")]

/-- A token as it is written: a name or keyword, an integer by its decimal digits, a string, a
punctuator or operator. -/
inductive Lexeme where
  | word (text : Bytes) (h : IsWord text)
  | integer (digits : Bytes) (hne : digits ≠ []) (hdigits : ∀ b ∈ digits, isDigit b = true)
      (hfits : decimalValue digits < 2 ^ 63)
  | string (s : Bytes)
  | symbol (kind : TokenKind) (text : Bytes) (h : (kind, text) ∈ symbols)

namespace Lexeme

def spelling : Lexeme → Bytes
  | word text _ => text
  | integer digits _ _ _ => digits
  | string s => quoted s
  | symbol _ text _ => text

/-- The token that is spelled so. -/
def token : Lexeme → Token
  | word text _ => { kind := (keyword? text).getD .kIdent, text }
  | integer digits _ _ _ => { kind := .kInt, intValue := Int64.ofNat (decimalValue digits) }
  | string s => { kind := .kString, text := s }
  | symbol kind _ _ => { kind }

end Lexeme

/-- What the dispatch makes of a symbol in front of one of `ends`. -/
def Dispatched (ends : List UInt8) (kind : TokenKind) : Bytes → Prop
  | [c] => isSpace c = false ∧ c ≠ ch '#' ∧ Punctuating c ∧
      ∀ d ∈ ends, punctuator? c d = some (kind, false)
  | [c, d] => solid c = true ∧ Punctuating c ∧ punctuator? c d = some (kind, true)
  | _ => False

instance (ends : List UInt8) (kind : TokenKind) : (text : Bytes) → Decidable (Dispatched ends kind text)
  | [] => .isFalse id
  | [c] =>
    letI := List.decidableBAll (fun d => punctuator? c d = some (kind, false)) ends
    inferInstanceAs (Decidable (isSpace c = false ∧ c ≠ ch '#' ∧ Punctuating c ∧
      ∀ d ∈ ends, punctuator? c d = some (kind, false)))
  | [c, d] => inferInstanceAs (Decidable (solid c = true ∧ Punctuating c ∧
      punctuator? c d = some (kind, true)))
  | _ :: _ :: _ :: _ => .isFalse id

/-- White space, and what is seen at the end of the input. -/
def breaks : List UInt8 := [0, ch ' ', ch '\t', ch '\r', ch '\n', 0x0C, 0x0B]

theorem symbols_dispatched : ∀ s ∈ symbols, Dispatched breaks s.1 s.2 := by decide +kernel

/-- White space goes on with no token. -/
theorem space_class : ∀ c : UInt8, isSpace c = true → c ∈ breaks ∧ isIdentPart c = false ∧
    isDigit c = false ∧ c ≠ ch '.' ∧ c ≠ ch 'e' ∧ c ≠ ch 'E' ∧ c ≠ ch 'x' ∧ c ≠ ch 'X' ∧ c ≠ ch '/' ∧
    c ≠ ch '*' :=
  forall_byte (by decide +kernel)

section Break

variable {rest : Bytes} (hrest : Stops (fun c => !isSpace c) rest)

include hrest

/-- What holds of white space holds of what follows. -/
theorem stops_of_space {p : UInt8 → Bool} (hp : ∀ c, isSpace c = true → p c = false) : Stops p rest :=
  fun c hc => hp c (by simpa using hrest c hc)

theorem head_mem_breaks : rest.head?.getD 0 ∈ breaks := by
  cases rest with
  | nil => decide
  | cons c rest => exact (space_class c (by simpa using hrest c rfl)).1

theorem endsInteger_of_space (digits : Bytes) : EndsInteger digits rest := by
  cases rest with
  | nil =>
      exact ⟨by simp [Stops], rfl, rfl, fun _ => by simp [Stops]⟩
  | cons c rest =>
      rcases space_class c (by simpa using hrest c rfl) with
        ⟨-, -, hdigit, hdot, he, hE, hx, hX, -⟩
      constructor
      · simpa [Stops] using hdigit
      · cases rest <;> simp [startsFraction, hdot]
      · rcases rest with _ | ⟨s, _ | ⟨d, rest⟩⟩ <;> simp [startsExponent, he, hE]
      · simp [Stops, hx, hX]

/-- A token ends where white space or the end of the input follows. -/
theorem Lexeme.lexes (t : Lexeme) : Lexes (t.spelling ++ rest) t.token rest := by
  cases t with
  | word text h => exact lexes_word h (stops_of_space hrest fun c hc => (space_class c hc).2.1)
  | integer digits hne hdigits hfits =>
      exact lexes_digits hne hdigits (endsInteger_of_space hrest digits) hfits
  | string s => exact lexes_quoted s rest
  | symbol kind text h =>
      have hdispatched := symbols_dispatched _ h
      rcases text with _ | ⟨c, _ | ⟨d, _ | ⟨e, text⟩⟩⟩
      · exact hdispatched.elim
      · exact lexes_one hdispatched.2.2.1 (hdispatched.2.2.2 _ (head_mem_breaks hrest))
      · exact lexes_two hdispatched.2.1 hdispatched.2.2
      · exact hdispatched.elim

theorem Lexeme.quiet (t : Lexeme) : Quiet (t.spelling ++ rest) := by
  cases t with
  | word text h =>
      rcases h.start with ⟨c, cs, rfl, hc⟩
      exact quiet_of_solid (by simpa [spelling] using solid_of_identStart c hc)
  | integer digits hne hdigits hfits => exact quiet_of_solid (solid_digits hne hdigits rest)
  | string s => exact quiet_quoted s rest
  | symbol kind text h =>
      have hdispatched := symbols_dispatched _ h
      rcases text with _ | ⟨c, _ | ⟨d, _ | ⟨e, text⟩⟩⟩
      · exact hdispatched.elim
      · refine ⟨hdispatched.1, hdispatched.2.1, fun _ => stops_of_space hrest fun d hd => ?_⟩
        rcases space_class d hd with ⟨-, -, -, -, -, -, -, -, hslash, hstar⟩
        simp [hslash, hstar]
      · exact quiet_of_solid (by simpa [spelling] using hdispatched.1)
      · exact hdispatched.elim

end Break

/-! ### Written out -/

/-- Tokens, each with the trivia behind it. -/
abbrev Layout := List (Lexeme × Bytes)

namespace Layout

def text (items : Layout) : Bytes := items.flatMap fun item => item.1.spelling ++ item.2

/-- The tokens, at the offsets where they are written when the first is at `pos`. -/
def tokens (pos : Nat) : Layout → List Token
  | [] => []
  | (t, ws) :: rest =>
    { t.token with offset := pos } :: tokens (pos + t.spelling.length + ws.length) rest

/-- Between two tokens there is a gap. There may be one behind the last. -/
def Separated : Layout → Prop
  | [] => True
  | [(_, ws)] => ws = [] ∨ Gap ws
  | (_, ws) :: next :: rest => Gap ws ∧ Separated (next :: rest)

theorem Separated.head {t : Lexeme} {ws : Bytes} {rest : Layout} (h : Separated ((t, ws) :: rest)) :
    Trivia ws ∧ Stops (fun c => !isSpace c) (ws ++ text rest) ∧ Separated rest := by
  have hgap (h : Gap ws) : Stops (fun c => !isSpace c) (ws ++ text rest) := by
    rcases h.start with ⟨c, cs, rfl, hc⟩
    simpa [Stops] using hc
  cases rest with
  | nil =>
      rcases h with rfl | h
      · exact ⟨.nil, by simp [Stops, text], trivial⟩
      · exact ⟨h.trivia, hgap h, trivial⟩
  | cons next rest => exact ⟨h.1.trivia, hgap h.1, h.2⟩

end Layout

/-- Behind the last token there is nothing but ends of input. -/
theorem nextTokens_eof (k : Nat) {ws : Bytes} {l : Lexer} (hws : Trivia ws) (hl : l.rest = ws) :
    ∃ l', nextTokens k l =
      .ok (List.replicate k { kind := .kEof, offset := l.pos + ws.length }) l' := by
  induction k generalizing ws l with
  | zero => exact ⟨l, rfl⟩
  | succ k ih =>
      have hl : l.rest = ws ++ [] := by rw [hl, List.append_nil]
      rcases nextToken_trivia hws hl with ⟨l₁, hskip, hl₁, hpos⟩
      rcases lexes_eof.nextToken trivial hl₁ with ⟨l₂, hnext, hl₂, hpos₂⟩
      rcases ih .nil hl₂ with ⟨l', hrest⟩
      have hend : l₂.pos = l.pos + ws.length := by
        simp only [List.length_nil, Nat.add_zero] at hpos₂
        rw [hpos₂, hpos]
      refine ⟨l', ?_⟩
      rw [nextTokens, bind_of_ok (hskip.trans hnext), bind_of_ok hrest, hpos, hend]
      rfl

theorem nextTokens_layout (k : Nat) {items : Layout} {ws : Bytes} {l : Lexer} (hws : Trivia ws)
    (hitems : items.Separated) (hl : l.rest = ws ++ items.text) :
    ∃ l', nextTokens (items.length + k) l =
      .ok (items.tokens (l.pos + ws.length) ++
        List.replicate k { kind := .kEof, offset := l.pos + l.rest.length }) l' := by
  induction items generalizing ws l with
  | nil =>
      rw [Layout.text, List.flatMap_nil, List.append_nil] at hl
      rw [List.length_nil, Nat.zero_add, hl]
      exact nextTokens_eof k hws hl
  | cons item items ih =>
      rcases item with ⟨t, gap⟩
      rcases hitems.head with ⟨hgap, hstops, hitems⟩
      have htext : Layout.text ((t, gap) :: items) = t.spelling ++ (gap ++ Layout.text items) := by
        rw [Layout.text, List.flatMap_cons, List.append_assoc]
        rfl
      rw [htext] at hl
      rcases nextToken_trivia hws hl with ⟨l₁, hskip, hl₁, hpos⟩
      rcases (t.lexes hstops).nextToken (t.quiet hstops) hl₁ with ⟨l₂, hnext, hl₂, hpos₂⟩
      rcases ih hgap hitems hl₂ with ⟨l', hrest⟩
      have hplace : l₂.pos + gap.length = l.pos + ws.length + t.spelling.length + gap.length := by
        simp only [List.length_append] at hpos₂
        omega
      have hend : l₂.pos + l₂.rest.length = l.pos + l.rest.length := by
        rw [hl, hl₂, List.length_append]
        simp only [List.length_append] at hpos₂ ⊢
        omega
      refine ⟨l', ?_⟩
      rw [List.length_cons, Nat.succ_add, nextTokens, bind_of_ok (hskip.trans hnext), bind_of_ok hrest,
        hpos, hplace, hend]
      rfl

/-- However a list of tokens is laid out, `Lexer::next` returns just these tokens, each at its offset,
and then ends of input. -/
theorem nextTokens_reformatted (lead : Bytes) (items : Layout) (k : Nat) (hlead : Trivia lead)
    (hitems : items.Separated) :
    ∃ l', nextTokens (items.length + k) { rest := lead ++ items.text } =
      .ok (items.tokens lead.length ++
        List.replicate k { kind := .kEof, offset := (lead ++ items.text).length }) l' := by
  rcases nextTokens_layout k hlead hitems (l := { rest := lead ++ items.text }) rfl with ⟨l', h⟩
  simp only [Nat.zero_add] at h
  exact ⟨l', h⟩

/-- A comment between a name and an operator, and white space at the end. -/
theorem nextTokens_reformatted_comment :
    ∃ l', nextTokens (2 + 2) { rest := ascii "x /*<*/ << " } =
      .ok [{ kind := .kIdent, text := ascii "x" }, { kind := .kShl, offset := 8 },
        { kind := .kEof, offset := 11 }, { kind := .kEof, offset := 11 }] l' :=
  nextTokens_reformatted []
    [(.word (ascii "x") ⟨⟨_, _, rfl, by decide +kernel⟩, by decide +kernel⟩, ascii " /*<*/ "),
      (.symbol .kShl (ascii "<<") (by decide +kernel), ascii " ")] 2 .nil
    ⟨⟨.space (by decide +kernel) (.block (.of_notMem (by decide : ch '*' ∉ [ch '<']))
        (.space (by decide +kernel) .nil)),
      _, _, rfl, by decide +kernel⟩, .inr ⟨.space (by decide +kernel) .nil, _, _, rfl, by decide +kernel⟩⟩

end Bytewright.Cfgscript
