import Bytewright.Model.Cfgscript.Serializer
import Bytewright.Verification.Common.ByteReader

/-! # What the scanner reads

Every spelling that the serializer uses, as the token the scanner makes of it. -/

namespace Bytewright.Cfgscript

open Bytewright.Common Bytewright.Library

/-- White space only. -/
def Blank (ws : Bytes) : Prop := ∀ c ∈ ws, isSpace c = true

/-- `text` does not go on with a byte of the class `p`. -/
def Stops (p : UInt8 → Bool) (text : Bytes) : Prop := ∀ c ∈ text.head?, p c = false

instance (p : UInt8 → Bool) (text : Bytes) : Decidable (Stops p text) :=
  inferInstanceAs (Decidable (∀ c ∈ text.head?, p c = false))

/-- `text` begins with the token `t`, up to its offset, and has `rest` behind it. White space in
front of it changes nothing. -/
def Scans (text : Bytes) (t : Token) (rest : Bytes) : Prop :=
  ∀ (ws : Bytes) (l : Lexer), Blank ws → l.rest = ws ++ text →
    ∃ offset l', nextToken l = .ok { t with offset } l' ∧ l'.rest = rest

/-- In front of `text` the dispatch reads the token `t` at its offset, and leaves `rest`. -/
def Lexes (text : Bytes) (t : Token) (rest : Bytes) : Prop :=
  ∀ l : Lexer, l.rest = text → ∃ l', lexToken l = .ok { t with offset := l.pos } l' ∧ l'.rest = rest

/-- The scanner throws in front of `text`. -/
def Unscannable (text : Bytes) : Prop :=
  ∀ (ws : Bytes) (l : Lexer), Blank ws → l.rest = ws ++ text → ∃ e l', nextToken l = .error e l'

theorem Blank.nil : Blank [] := by simp [Blank]

theorem Blank.append {ws us : Bytes} (h : Blank ws) (h' : Blank us) : Blank (ws ++ us) := by
  intro c hc
  rcases List.mem_append.mp hc with hc | hc
  · exact h c hc
  · exact h' c hc

theorem Scans.blank {ws text rest : Bytes} {t : Token} (h : Scans text t rest) (hws : Blank ws) :
    Scans (ws ++ text) t rest := by
  intro us l hus hl
  exact h (us ++ ws) l (hus.append hws) (by rw [hl, List.append_assoc])

/-! ### The cursor -/

section Cursor

variable {l : Lexer} {c : UInt8} {bs rest : Bytes} {p : UInt8 → Bool}

@[simp] theorem Lexer.rest_forward (l : Lexer) (c : UInt8) (rest : Bytes) :
    (l.forward c rest).rest = rest := by
  unfold Lexer.forward
  split <;> rfl

theorem advance_run (h : l.rest = c :: rest) : advance l = .ok c (l.forward c rest) := by
  simp [advance, bind_run, h]

theorem advance_cons (h : l.rest = c :: rest) : ∃ l', advance l = .ok c l' ∧ l'.rest = rest :=
  ⟨_, advance_run h, Lexer.rest_forward ..⟩

@[simp] theorem Lexer.peek_cons (h : l.rest = c :: rest) : l.peek = c := by
  simp [Lexer.peek, h]

theorem Lexer.peek_one (h : l.rest = c :: rest) : l.peek 1 = rest.headD 0 := by
  cases rest <;> simp [Lexer.peek, h]

theorem Lexer.atEnd_cons (h : l.rest = c :: rest) : l.atEnd = false := by
  simp [Lexer.atEnd, h]

/-- A loop over a class of bytes goes just over the bytes that are in it. -/
theorem scanWhile_run (hbs : ∀ b ∈ bs, p b = true) (hrest : Stops p rest)
    (hl : l.rest = bs ++ rest) :
    ∃ l', Lexer.scanWhile p (bs ++ rest) l = (bs, l') ∧ l'.rest = rest := by
  induction bs generalizing l with
  | nil =>
      refine ⟨l, ?_, hl⟩
      cases rest with
      | nil => rfl
      | cons c rest => simp [Lexer.scanWhile, hrest c rfl]
  | cons b bs ih =>
      have hb := hbs b (List.mem_cons_self ..)
      rcases @ih (l.forward b (bs ++ rest)) (fun c hc => hbs c (List.mem_cons_of_mem _ hc))
        (by simp) with ⟨l', hscan, hl'⟩
      exact ⟨l', by simp [Lexer.scanWhile, hb, hscan], hl'⟩

theorem advanceWhile_run (hbs : ∀ b ∈ bs, p b = true) (hrest : Stops p rest)
    (hl : l.rest = bs ++ rest) : ∃ l', advanceWhile p l = .ok bs l' ∧ l'.rest = rest := by
  rcases scanWhile_run hbs hrest hl with ⟨l', hscan, hl'⟩
  refine ⟨l', ?_, hl'⟩
  simp [advanceWhile, bind_run, hl, hscan]

end Cursor

/-! ### White space -/

/-- Neither white space nor the begin of a comment. -/
def solid (c : UInt8) : Bool := !isSpace c && c != ch '#' && c != ch '/'

theorem skipTriviaLoop_run {ws text : Bytes} (hws : Blank ws) (htext : ∀ c ∈ text.head?, solid c = true) :
    ∀ (fuel : Nat) (l : Lexer), ws.length < fuel → l.rest = ws ++ text →
      ∃ l', skipTriviaLoop fuel l = .ok () l' ∧ l'.rest = text := by
  induction ws with
  | nil =>
      intro fuel l hfuel hl
      obtain ⟨fuel, rfl⟩ := Nat.exists_eq_add_one_of_ne_zero (Nat.ne_zero_of_lt hfuel)
      refine ⟨l, ?_, hl⟩
      cases text with
      | nil => simp [skipTriviaLoop, bind_run, Lexer.atEnd, hl]
      | cons c text =>
          have hc := htext c rfl
          simp only [solid, Bool.and_eq_true, Bool.not_eq_true', bne_iff_ne] at hc
          simp [skipTriviaLoop, bind_run, Lexer.atEnd_cons hl, Lexer.peek_cons hl, hc]
  | cons w ws ih =>
      intro fuel l hfuel hl
      obtain ⟨fuel, rfl⟩ := Nat.exists_eq_add_one_of_ne_zero (Nat.ne_zero_of_lt hfuel)
      have hw := hws w (List.mem_cons_self ..)
      rcases ih (fun c hc => hws c (List.mem_cons_of_mem _ hc)) fuel (l.forward w (ws ++ text))
        (by simpa using hfuel) (by simp) with ⟨l', hloop, hl'⟩
      refine ⟨l', ?_, hl'⟩
      rw [skipTriviaLoop, bind_of_ok (get_run l)]
      simp [bind_run, Lexer.atEnd_cons hl, Lexer.peek_cons hl, hw, advance_run hl, hloop]

/-- Behind the white space the dispatch reads the token. -/
theorem nextToken_run {ws text : Bytes} {l : Lexer} (hws : Blank ws)
    (htext : ∀ c ∈ text.head?, solid c = true) (hl : l.rest = ws ++ text) :
    ∃ l', nextToken l = lexToken l' ∧ l'.rest = text := by
  have hfuel : ws.length < l.rest.length + 1 := by
    rw [hl, List.length_append]
    omega
  rcases skipTriviaLoop_run hws htext _ l hfuel hl with ⟨l', hskip, hl'⟩
  have hskip : skipTrivia l = .ok () l' := by rw [skipTrivia, bind_of_ok (get_run l), hskip]
  exact ⟨l', by rw [nextToken, bind_of_ok hskip], hl'⟩

theorem Lexes.scans {text rest : Bytes} {t : Token} (h : Lexes text t rest)
    (htext : ∀ c ∈ text.head?, solid c = true) : Scans text t rest := by
  intro ws l hws hl
  rcases nextToken_run hws htext hl with ⟨l₁, hnext, hl₁⟩
  rcases h l₁ hl₁ with ⟨l', htoken, hl'⟩
  exact ⟨l₁.pos, l', hnext.trans htoken, hl'⟩

theorem lexes_eof : Lexes [] {} [] := by
  refine fun l hl => ⟨l, ?_, hl⟩
  simp [lexToken, bind_run, Lexer.atEnd, hl]

theorem scans_eof : Scans [] {} [] := lexes_eof.scans (by simp)

/-! ### Names and keywords -/

/-- A word: a name or a keyword. -/
structure IsWord (word : Bytes) : Prop where
  start : ∃ c cs, word = c :: cs ∧ isIdentStart c = true
  part : ∀ c ∈ word, isIdentPart c = true

/-- A name, as an identifier of the source is. -/
structure IsName (word : Bytes) : Prop extends IsWord word where
  notKeyword : keyword? word = none

theorem solid_of_identStart : ∀ c : UInt8, isIdentStart c = true → solid c = true :=
  forall_byte (by decide +kernel)

theorem lexes_word {word rest : Bytes} (h : IsWord word) (hrest : Stops isIdentPart rest) :
    Lexes (word ++ rest) { kind := (keyword? word).getD .kIdent, text := word } rest := by
  rcases h.start with ⟨c, cs, rfl, hc⟩
  intro l hl
  rcases advanceWhile_run h.part hrest hl with ⟨l', hword, hl'⟩
  refine ⟨l', ?_, hl'⟩
  simp [lexToken, bind_run, Lexer.atEnd_cons hl, Lexer.peek_cons hl, hc, lexIdentOrKeyword, hword]

theorem scans_word {word rest : Bytes} (h : IsWord word) (hrest : Stops isIdentPart rest) :
    Scans (word ++ rest) { kind := (keyword? word).getD .kIdent, text := word } rest := by
  have hlexes := lexes_word h hrest
  rcases h.start with ⟨c, cs, rfl, hc⟩
  exact hlexes.scans (by simpa using solid_of_identStart c hc)

theorem scans_name {word rest : Bytes} (h : IsName word) (hrest : Stops isIdentPart rest) :
    Scans (word ++ rest) { kind := .kIdent, text := word } rest := by
  have := scans_word h.toIsWord hrest
  rwa [h.notKeyword] at this

/-! ### Punctuators -/

/-- The dispatch has nothing else that begins with `c`. -/
def Punctuating (c : UInt8) : Prop := isIdentStart c = false ∧ isDigit c = false ∧ c ≠ ch '\"'

instance (c : UInt8) : Decidable (Punctuating c) := by unfold Punctuating; infer_instance

theorem lexes_one {c : UInt8} {rest : Bytes} {kind : TokenKind} (hc : Punctuating c)
    (h : punctuator? c (rest.head?.getD 0) = some (kind, false)) : Lexes (c :: rest) { kind } rest := by
  rcases hc with ⟨hident, hdigit, hquote⟩
  refine fun l hl => ⟨l.forward c rest, ?_, by simp⟩
  have hpeek : (l.forward c rest).peek = rest.head?.getD 0 := by
    cases rest <;> simp [Lexer.peek]
  simp [lexToken, bind_run, Lexer.atEnd_cons hl, Lexer.peek_cons hl, hident, hdigit, hquote,
    lexPunctuator, advance_run hl, hpeek, h]

theorem lexes_two {c d : UInt8} {rest : Bytes} {kind : TokenKind} (hc : Punctuating c)
    (h : punctuator? c d = some (kind, true)) : Lexes (c :: d :: rest) { kind } rest := by
  rcases hc with ⟨hident, hdigit, hquote⟩
  refine fun l hl => ⟨(l.forward c (d :: rest)).forward d rest, ?_, by simp⟩
  have hsecond := Lexer.rest_forward l c (d :: rest)
  simp [lexToken, bind_run, Lexer.atEnd_cons hl, Lexer.peek_cons hl, hident, hdigit, hquote,
    lexPunctuator, advance_run hl, Lexer.peek_cons hsecond, advance_run hsecond, h]

theorem scans_punctuator {c : UInt8} {rest : Bytes} {kind : TokenKind}
    (hc : c ∈ ascii "\x7b\x7d[];,.=-") (h : punctuator? c (rest.head?.getD 0) = some (kind, false)) :
    Scans (c :: rest) { kind } rest := by
  have hclass : ∀ c ∈ ascii "\x7b\x7d[];,.=-", solid c = true ∧ Punctuating c := by decide +kernel
  rcases hclass c hc with ⟨hsolid, hpunctuating⟩
  exact (lexes_one hpunctuating h).scans (by simpa using hsolid)

/-! ### Numbers -/

theorem isDigit_iff (c : UInt8) : isDigit c = true ↔ IsDigit c := by
  revert c
  unfold IsDigit
  exact forall_byte (by decide +kernel)

/-- A fraction begins: a dot and a digit. -/
def startsFraction : Bytes → Bool
  | c :: d :: _ => c == ch '.' && isDigit d
  | _ => false

/-- An exponent begins: an `e`, a sign or none, and a digit. -/
def startsExponent : Bytes → Bool
  | e :: s :: d :: _ =>
    (e == ch 'e' || e == ch 'E') && (isDigit s || (s == ch '+' || s == ch '-') && isDigit d)
  | [e, s] => (e == ch 'e' || e == ch 'E') && isDigit s
  | _ => false

/-- What is behind the digits makes neither a longer nor another literal of them. -/
structure EndsInteger (digits rest : Bytes) : Prop where
  digit : Stops isDigit rest
  fraction : startsFraction rest = false
  exponent : startsExponent rest = false
  hex : digits = [ch '0'] → Stops (fun c => c == ch 'x' || c == ch 'X') rest

theorem digit_class : ∀ c : UInt8, isDigit c = true →
    solid c = true ∧ isIdentStart c = false ∧ c ≠ ch 'x' ∧ c ≠ ch 'X' ∧ c ≠ ch '+' ∧ c ≠ ch '-' :=
  forall_byte (by decide +kernel)

theorem lexFraction_none {l : Lexer} (h : startsFraction l.rest = false) :
    lexFraction l = .ok none l := by
  cases hl : l.rest with
  | nil => simp [lexFraction, bind_run, Lexer.atEnd, hl]
  | cons c rest =>
      rw [hl] at h
      cases rest with
      | nil =>
          have hend : isDigit 0 = false := by decide
          simp [lexFraction, bind_run, Lexer.peek_one hl, hend]
      | cons d rest =>
          have hfraction : ¬ (c = ch '.' ∧ isDigit d = true) := by
            simpa [startsFraction] using h
          simp [lexFraction, bind_run, Lexer.atEnd_cons hl, Lexer.peek_cons hl, Lexer.peek_one hl,
            hfraction]

theorem lexExponent_none {l : Lexer} (h : startsExponent l.rest = false) :
    lexExponent l = .ok none l := by
  have hend : isDigit 0 = false := by decide
  have hsign : (0 : UInt8) ≠ ch '+' ∧ (0 : UInt8) ≠ ch '-' := by decide
  cases hl : l.rest with
  | nil => simp [lexExponent, bind_run, Lexer.atEnd, hl]
  | cons e rest =>
      by_cases he : e = ch 'e' ∨ e = ch 'E'
      · have hlook : isDigit (l.peek (if l.peek 1 = ch '+' ∨ l.peek 1 = ch '-' then 2 else 1)) =
            false := by
          rw [hl] at h
          rcases rest with _ | ⟨s, _ | ⟨d, rest⟩⟩
          · simp [Lexer.peek, hl, hsign, hend]
          · have hs : isDigit s = false := by simpa [startsExponent, he] using h
            split <;> simp [Lexer.peek, hl, hs, hend]
          · have hsd : isDigit s = false ∧ ((s = ch '+' ∨ s = ch '-') → isDigit d = false) := by
              simpa [startsExponent, he] using h
            have hs : l.peek 1 = s := by simp [Lexer.peek, hl]
            rw [hs]
            split
            · next hsigned => simpa [Lexer.peek, hl] using hsd.2 hsigned
            · simpa [hs] using hsd.1
        simp [lexExponent, bind_run, Lexer.atEnd_cons hl, Lexer.peek_cons hl, he, hlook]
      · simp [lexExponent, bind_run, Lexer.atEnd_cons hl, Lexer.peek_cons hl, he]

/-- `std::stoll` converts what an `std::int64_t` can hold. -/
theorem decimalToken_run (start : Nat) {digits : Bytes} (h : decimalValue digits < 2 ^ 63)
    (l : Lexer) : decimalToken start digits none none l = .ok
      { kind := .kInt, offset := start, intValue := Int64.ofNat (decimalValue digits) } l := by
  have hsmall : ¬ 9223372036854775808 ≤ decimalValue digits := by omega
  simp [decimalToken, hsmall]

theorem decimalToken_throws (start : Nat) {digits : Bytes} (h : 2 ^ 63 ≤ decimalValue digits)
    (l : Lexer) : decimalToken start digits none none l =
      .error (.thrown ⟨.kBadLength, start, kNumberRange⟩) l := by
  have hlarge : 9223372036854775808 ≤ decimalValue digits := by omega
  simp [decimalToken, hlarge]

/-- An integer literal is converted when the scanner has gone over its digits. -/
theorem lexToken_digits {digits rest : Bytes} {l : Lexer} (hne : digits ≠ [])
    (hdigits : ∀ b ∈ digits, isDigit b = true) (hrest : EndsInteger digits rest)
    (hl : l.rest = digits ++ rest) :
    ∃ l', lexToken l = decimalToken l.pos digits none none l' ∧ l'.rest = rest := by
  rcases advanceWhile_run hdigits hrest.digit hl with ⟨l', hscan, hl'⟩
  have hfraction := lexFraction_none (l := l') (by rw [hl', hrest.fraction])
  have hexponent := lexExponent_none (l := l') (by rw [hl', hrest.exponent])
  refine ⟨l', ?_, hl'⟩
  cases digits with
  | nil => exact absurd rfl hne
  | cons d ds =>
      rcases digit_class d (hdigits d List.mem_cons_self) with ⟨-, hident, -⟩
      have hd : isDigit d = true := hdigits d List.mem_cons_self
      have hhex : ¬ (d = ch '0' ∧ (l.peek 1 = ch 'x' ∨ l.peek 1 = ch 'X')) := by
        rintro ⟨rfl, hx⟩
        rw [Lexer.peek_one hl] at hx
        cases ds with
        | nil =>
            cases rest with
            | nil => exact absurd hx (by decide)
            | cons c rest =>
                have hstop := hrest.hex rfl c rfl
                simp only [Bool.or_eq_false_iff, beq_eq_false_iff_ne] at hstop
                exact hx.elim hstop.1 hstop.2
        | cons d' ds =>
            rcases digit_class d' (hdigits d' (by simp)) with ⟨-, -, hx', hX', -⟩
            exact hx.elim hx' hX'
      simp [lexToken, bind_run, Lexer.atEnd_cons hl, Lexer.peek_cons hl, hident, hd, lexNumber, hhex,
        hscan, hfraction, hexponent]

theorem lexes_digits {digits rest : Bytes} (hne : digits ≠ [])
    (hdigits : ∀ b ∈ digits, isDigit b = true) (hrest : EndsInteger digits rest)
    (hfits : decimalValue digits < 2 ^ 63) :
    Lexes (digits ++ rest) { kind := .kInt, intValue := Int64.ofNat (decimalValue digits) } rest := by
  intro l hl
  rcases lexToken_digits hne hdigits hrest hl with ⟨l', htoken, hl'⟩
  exact ⟨l', by rw [htoken, decimalToken_run _ hfits], hl'⟩

theorem solid_digits {digits : Bytes} (hne : digits ≠ []) (hdigits : ∀ b ∈ digits, isDigit b = true)
    (rest : Bytes) : ∀ c ∈ (digits ++ rest).head?, solid c = true := by
  cases digits with
  | nil => exact absurd rfl hne
  | cons d ds => simpa using (digit_class d (hdigits d List.mem_cons_self)).1

/-- What the serializer writes behind a value. -/
def follows : List UInt8 := ascii ";,]"

theorem endsInteger_follows {c : UInt8} (hc : c ∈ follows) (digits rest : Bytes) :
    EndsInteger digits (c :: rest) := by
  have hclass : ∀ c ∈ follows, isDigit c = false ∧ c ≠ ch '.' ∧ c ≠ ch 'e' ∧ c ≠ ch 'E' ∧
      c ≠ ch 'x' ∧ c ≠ ch 'X' := by decide +kernel
  rcases hclass c hc with ⟨hdigit, hdot, he, hE, hx, hX⟩
  constructor
  · simpa [Stops] using hdigit
  · cases rest <;> simp [startsFraction, hdot]
  · rcases rest with _ | ⟨s, _ | ⟨d, rest⟩⟩ <;> simp [startsExponent, he, hE]
  · simp [Stops, hx, hX]

theorem isDigit_decimal (n : Nat) : ∀ b ∈ decimal n, isDigit b = true := fun b hb =>
  (isDigit_iff b).mpr (isDigit_of_mem_decimal n b hb)

theorem lexToken_decimal {n : Nat} {c : UInt8} {rest : Bytes} {l : Lexer} (hc : c ∈ follows)
    (hl : l.rest = decimal n ++ c :: rest) :
    ∃ l', lexToken l = decimalToken l.pos (decimal n) none none l' ∧ l'.rest = c :: rest :=
  lexToken_digits (decimal_ne_nil n) (isDigit_decimal n) (endsInteger_follows hc _ rest) hl

theorem solid_decimal (n : Nat) (rest : Bytes) : ∀ c ∈ (decimal n ++ rest).head?, solid c = true :=
  solid_digits (decimal_ne_nil n) (isDigit_decimal n) rest

theorem scans_decimal {n : Nat} {c : UInt8} (rest : Bytes) (hc : c ∈ follows) (hn : n < 2 ^ 63) :
    Scans (decimal n ++ c :: rest) { kind := .kInt, intValue := Int64.ofNat n } (c :: rest) := by
  have hlexes := lexes_digits (decimal_ne_nil n) (isDigit_decimal n) (endsInteger_follows hc _ rest)
    (by rwa [decimalValue_decimal])
  rw [decimalValue_decimal] at hlexes
  exact hlexes.scans (solid_decimal n _)

/-- A literal of `2 ^ 63` or more is out of range. -/
theorem unscannable_decimal {n : Nat} {c : UInt8} (rest : Bytes) (hc : c ∈ follows) (hn : 2 ^ 63 ≤ n) :
    Unscannable (decimal n ++ c :: rest) := by
  intro ws l hws hl
  rcases nextToken_run hws (solid_decimal n _) hl with ⟨l', hnext, hl'⟩
  rcases lexToken_decimal hc hl' with ⟨l'', htoken, -⟩
  refine ⟨.thrown ⟨.kBadLength, l'.pos, kNumberRange⟩, l'', ?_⟩
  rw [hnext, htoken, decimalToken_throws _ (by rwa [decimalValue_decimal])]

/-! ### Strings -/

/-- The three ways a byte of a string is spelled. -/
theorem escapeByte_cases (c : UInt8) :
    (escapeByte c = [c] ∧ c ≠ ch '\\' ∧ c ≠ ch '\"' ∧ c ≠ ch '\n') ∨
      (∃ e, escapeByte c = [ch '\\', e] ∧ simpleEscape? e = some c) ∨
      escapeByte c = [ch '\\', ch 'x', hexDigit (c.toNat / 16), hexDigit (c.toNat % 16)] := by
  unfold escapeByte
  split
  · next h => exact .inr (.inl ⟨ch '\\', rfl, by rw [h]; decide⟩)
  · next hback =>
    split
    · next h => exact .inr (.inl ⟨ch '\"', rfl, by rw [h]; decide⟩)
    · next hquote =>
      split
      · next h => exact .inr (.inl ⟨ch 'n', rfl, by rw [h]; decide⟩)
      · next hnewline =>
        split
        · next h => exact .inr (.inl ⟨ch 'r', rfl, by rw [h]; decide⟩)
        · split
          · next h => exact .inr (.inl ⟨ch 't', rfl, by rw [h]; decide⟩)
          · split
            · exact .inr (.inr rfl)
            · exact .inl ⟨rfl, hback, hquote, hnewline⟩

/-- Two hex digits spell the byte they come from. -/
theorem hexDigits_spell : ∀ c : UInt8, isHexDigit (hexDigit (c.toNat / 16)) = true ∧
    isHexDigit (hexDigit (c.toNat % 16)) = true ∧
    UInt8.ofNat (16 * hexValue (hexDigit (c.toNat / 16)) + hexValue (hexDigit (c.toNat % 16))) = c :=
  forall_byte (by decide +kernel)

theorem lexEscape_simple {e c : UInt8} {rest : Bytes} {l : Lexer} (he : simpleEscape? e = some c)
    (hl : l.rest = ch '\\' :: e :: rest) : ∃ l', lexEscape l = .ok [c] l' ∧ l'.rest = rest := by
  refine ⟨(l.forward (ch '\\') (e :: rest)).forward e rest, ?_, by simp⟩
  simp [lexEscape, bind_run, advance_run hl,
    Lexer.atEnd_cons (Lexer.rest_forward l (ch '\\') (e :: rest)),
    advance_run (Lexer.rest_forward l (ch '\\') (e :: rest)), he]

theorem lexHexEscape_run (esc : Nat) {hi lo : UInt8} {rest : Bytes} {l : Lexer}
    (hhi : isHexDigit hi = true) (hlo : isHexDigit lo = true) (hl : l.rest = hi :: lo :: rest) :
    ∃ l', lexHexEscape esc l = .ok [UInt8.ofNat (16 * hexValue hi + hexValue lo)] l' ∧
      l'.rest = rest := by
  have hpeek : l.peek 1 = lo := Lexer.peek_one hl
  refine ⟨(l.forward hi (lo :: rest)).forward lo rest, ?_, by simp⟩
  simp [lexHexEscape, bind_run, Lexer.peek_cons hl, hpeek, hhi, hlo, advance_run hl,
    advance_run (Lexer.rest_forward l hi (lo :: rest))]

theorem lexEscape_hex {c : UInt8} {rest : Bytes} {l : Lexer}
    (hl : l.rest = ch '\\' :: ch 'x' :: hexDigit (c.toNat / 16) :: hexDigit (c.toNat % 16) :: rest) :
    ∃ l', lexEscape l = .ok [c] l' ∧ l'.rest = rest := by
  rcases advance_cons hl with ⟨l₁, hback, hl₁⟩
  rcases advance_cons hl₁ with ⟨l₂, hx, hl₂⟩
  rcases hexDigits_spell c with ⟨hhi, hlo, hvalue⟩
  rcases lexHexEscape_run l.pos hhi hlo hl₂ with ⟨l', hhex, hl'⟩
  rw [hvalue] at hhex
  have hsimple : simpleEscape? (ch 'x') = none := by decide
  refine ⟨l', ?_, hl'⟩
  simp [lexEscape, bind_run, hback, Lexer.atEnd_cons hl₁, hx, hsimple, hhex]

theorem escapeString_cons (c : UInt8) (s : Bytes) :
    escapeString (c :: s) = escapeByte c ++ escapeString s := rfl

/-- A round at the closing quote. -/
theorem lexStringLoop_quote {rest : Bytes} {l : Lexer} (opening fuel : Nat)
    (hl : l.rest = ch '\"' :: rest) :
    lexStringLoop opening (fuel + 1) l = .ok [] (l.forward (ch '\"') rest) := by
  simp [lexStringLoop, bind_run, Lexer.atEnd_cons hl, Lexer.peek_cons hl, advance_run hl]

/-- A round at a backslash. -/
theorem lexStringLoop_escape {tail : Bytes} {l : Lexer} (opening fuel : Nat)
    (hl : l.rest = ch '\\' :: tail) :
    lexStringLoop opening (fuel + 1) l =
      (lexEscape >>= fun bs => lexStringLoop opening fuel >>= fun s => pure (bs ++ s)) l := by
  have hquote : ch '\\' ≠ ch '\"' := by decide
  have hnewline : ch '\\' ≠ ch '\n' := by decide
  rw [lexStringLoop, bind_of_ok (get_run l)]
  simp [Lexer.atEnd_cons hl, Lexer.peek_cons hl, hquote, hnewline]

theorem lexStringLoop_run (opening : Nat) (s rest : Bytes) :
    ∀ (fuel : Nat) (l : Lexer), s.length < fuel → l.rest = escapeString s ++ ch '\"' :: rest →
      ∃ l', lexStringLoop opening fuel l = .ok s l' ∧ l'.rest = rest := by
  induction s with
  | nil =>
      intro fuel l hfuel hl
      obtain ⟨fuel, rfl⟩ := Nat.exists_eq_add_one_of_ne_zero (Nat.ne_zero_of_lt hfuel)
      exact ⟨l.forward (ch '\"') rest, lexStringLoop_quote opening fuel hl, by simp⟩
  | cons c s ih =>
      intro fuel l hfuel hl
      obtain ⟨fuel, rfl⟩ := Nat.exists_eq_add_one_of_ne_zero (Nat.ne_zero_of_lt hfuel)
      have hfuel : s.length < fuel := by simpa using hfuel
      rw [escapeString_cons, List.append_assoc] at hl
      rcases escapeByte_cases c with ⟨hc, hback, hquote, hnewline⟩ | hc
      · rw [hc, List.singleton_append] at hl
        rcases ih fuel (l.forward c _) hfuel (Lexer.rest_forward ..) with ⟨l', hloop, hl'⟩
        refine ⟨l', ?_, hl'⟩
        simp [lexStringLoop, bind_run, Lexer.atEnd_cons hl, Lexer.peek_cons hl, hquote, hnewline, hback,
          advance_run hl, hloop]
      · have hescape : ∃ tail l₁, l.rest = ch '\\' :: tail ∧ lexEscape l = .ok [c] l₁ ∧
            l₁.rest = escapeString s ++ ch '\"' :: rest := by
          rcases hc with ⟨e, hc, he⟩ | hc
          · rw [hc] at hl
            rcases lexEscape_simple he hl with ⟨l₁, hrun, hl₁⟩
            exact ⟨_, l₁, hl, hrun, hl₁⟩
          · rw [hc] at hl
            rcases lexEscape_hex hl with ⟨l₁, hrun, hl₁⟩
            exact ⟨_, l₁, hl, hrun, hl₁⟩
        rcases hescape with ⟨tail, l₁, hl, hrun, hl₁⟩
        rcases ih fuel l₁ hfuel hl₁ with ⟨l', hloop, hl'⟩
        refine ⟨l', ?_, hl'⟩
        rw [lexStringLoop_escape opening fuel hl, bind_of_ok hrun, bind_of_ok hloop]
        rfl

theorem length_le_escapeString (s : Bytes) : s.length ≤ (escapeString s).length := by
  induction s with
  | nil => simp
  | cons c s ih =>
      have hpos : 1 ≤ (escapeByte c).length := by
        rcases escapeByte_cases c with ⟨h, -⟩ | ⟨e, h, -⟩ | h <;> simp [h]
      rw [escapeString_cons, List.length_append, List.length_cons]
      omega

theorem quoted_append (s rest : Bytes) :
    quoted s ++ rest = ch '\"' :: (escapeString s ++ ch '\"' :: rest) := by
  rw [quoted, List.append_assoc, List.append_assoc]
  rfl

/-- Behind an opening quote the loop makes the token. -/
theorem lexToken_quote {text : Bytes} {l : Lexer} (hl : l.rest = ch '\"' :: text) :
    lexToken l = (lexStringLoop l.pos (text.length + 1) >>= fun s =>
      pure { kind := .kString, offset := l.pos, text := s }) (l.forward (ch '\"') text) := by
  have hclass : isIdentStart (ch '\"') = false ∧ isDigit (ch '\"') = false := by decide
  have htoken : lexToken l = lexString l := by
    simp [lexToken, bind_run, Lexer.atEnd_cons hl, Lexer.peek_cons hl, hclass]
  rw [htoken, lexString, bind_of_ok (get_run l), bind_of_ok (advance_run hl),
    bind_of_ok (get_run _), Lexer.rest_forward]

theorem lexes_quoted (s rest : Bytes) : Lexes (quoted s ++ rest) { kind := .kString, text := s } rest := by
  rw [quoted_append]
  intro l hl
  have hfuel : s.length < (escapeString s ++ ch '\"' :: rest).length + 1 := by
    have := length_le_escapeString s
    simp
    omega
  rcases lexStringLoop_run l.pos s rest _ (l.forward (ch '\"') _) hfuel (Lexer.rest_forward ..) with
    ⟨l', hloop, hl'⟩
  refine ⟨l', ?_, hl'⟩
  rw [lexToken_quote hl, bind_of_ok hloop]
  rfl

theorem scans_quoted (s rest : Bytes) :
    Scans (quoted s ++ rest) { kind := .kString, text := s } rest := by
  have hsolid : solid (ch '\"') = true := by decide
  exact (lexes_quoted s rest).scans (by rw [quoted_append]; simpa using hsolid)

end Bytewright.Cfgscript
