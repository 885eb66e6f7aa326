import Bytewright.Verification.Cfgscript.Progress
import Mathlib.Data.List.GetD

/-! # Scanning in front of a new line

What the scanner reads depends neither on where the text is nor on what follows on a new line. -/

namespace Bytewright.Cfgscript

open Bytewright.Common Bytewright.Library

/-- The token without its offset. -/
def Token.erase (t : Token) : Token := { t with offset := 0 }

/-- `l'` is in front of what `l` is in front of, with `suf` behind it. -/
def Extends (suf : Bytes) (l l' : Lexer) : Prop := l'.rest = l.rest ++ suf

/-- Nothing, or what begins with a newline. -/
def OnNewLine (suf : Bytes) : Prop := ∀ c ∈ suf.head?, c = ch '\n'

/-- `n` reads with `suf` behind the text what `m` reads without. -/
abbrev Repeats {α γ : Type} (suf : Bytes) (g : α → γ) (m n : Scan α) : Prop :=
  Follows (fun _ => False) (Extends suf) g m n

section Repeats

variable {α β γ : Type} {suf : Bytes} {l l' : Lexer} {g : α → γ} {m n : Scan α}

theorem Repeats.get_bind {f f' : Lexer → Scan α}
    (h : ∀ l l', Extends suf l l' → Repeats suf g (f l) (f' l')) :
    Repeats suf g (get >>= f) (get >>= f') :=
  Follows.get_bind h fun _ hs => hs.elim

theorem Repeats.of_step
    (h : ∀ {l l₁ l' a}, m l = .ok a l₁ → Extends suf l l' →
      ∃ b l₁', n l' = .ok b l₁' ∧ g b = g a ∧ Extends suf l₁ l₁') : Repeats suf g m n where
  stays _ hs := hs
  step hm hst := .inr (h hm hst)

theorem Repeats.run {l₁ : Lexer} {a : α} (h : Repeats suf g m n) (hm : m l = .ok a l₁)
    (hl : Extends suf l l') : ∃ b l₁', n l' = .ok b l₁' ∧ g b = g a ∧ Extends suf l₁ l₁' :=
  (h.step hm hl).resolve_left id

theorem Repeats.run_id {l₁ : Lexer} {a : α} (h : Repeats suf id m n) (hm : m l = .ok a l₁)
    (hl : Extends suf l l') : ∃ l₁', n l' = .ok a l₁' ∧ Extends suf l₁ l₁' := by
  rcases h.run hm hl with ⟨b, l₁', hn, rfl, hl₁⟩
  exact ⟨l₁', hn, hl₁⟩

theorem Repeats.lexError {at_ : Nat} {msg : String} : Repeats suf g (lexError at_ msg) n :=
  .fails fun _ _ _ h => by cases h

theorem Repeats.lexError_bind {at_ : Nat} {msg : String} {f : β → Scan α} :
    Repeats suf g (Cfgscript.lexError at_ msg >>= f) n :=
  .fails fun _ _ _ h => by cases h

theorem Repeats.raise {code : ErrorCode} {at_ : Nat} {msg : String} :
    Repeats suf g (raise code at_ msg) n :=
  .fails fun _ _ _ h => by cases h

/-! ### What is next -/

/-- Behind the last byte a class that has both zero and the newline, or none of them, cannot tell
the end of the text from `suf`. -/
theorem Extends.peek (h : Extends suf l l') (hsuf : OnNewLine suf) {f : UInt8 → β}
    (hf : f (ch '\n') = f 0) {k : Nat} (hk : k ≤ l.rest.length) : f (l'.peek k) = f (l.peek k) := by
  rw [Lexer.peek, Lexer.peek, h]
  rcases Nat.lt_or_eq_of_le hk with hlt | rfl
  · rw [List.getD_append _ _ _ _ hlt]
  · rw [List.getD_append_right _ _ _ _ (Nat.le_refl _), Nat.sub_self,
      List.getD_eq_default _ _ (Nat.le_refl _)]
    cases suf with
    | nil => rfl
    | cons c suf => rw [hsuf c rfl, List.getD_cons_zero, hf]

theorem Lexer.length_pos (l : Lexer) (h : l.atEnd = false) : 1 ≤ l.rest.length := by
  cases hrest : l.rest with
  | nil => simp [Lexer.atEnd, hrest] at h
  | cons c rest => simp

theorem Lexer.length_pos_of_peek (l : Lexer) (h : l.peek ≠ 0) : 1 ≤ l.rest.length := by
  apply l.length_pos
  cases hrest : l.rest with
  | nil => simp [Lexer.peek, hrest] at h
  | cons c rest => exact Lexer.atEnd_cons hrest

theorem Extends.cons (h : Extends suf l l') {c : UInt8} {rest : Bytes} (hl : l.rest = c :: rest) :
    l'.rest = c :: (rest ++ suf) := by
  rw [h, hl, List.cons_append]

theorem Extends.atEnd (h : Extends suf l l') (hl : l.atEnd = false) : l'.atEnd = false := by
  cases hrest : l.rest with
  | nil => simp [Lexer.atEnd, hrest] at hl
  | cons c rest => exact Lexer.atEnd_cons (h.cons hrest)

theorem Extends.peek_zero (h : Extends suf l l') (hl : l.atEnd = false) : l'.peek = l.peek := by
  cases hrest : l.rest with
  | nil => simp [Lexer.atEnd, hrest] at hl
  | cons c rest => rw [Lexer.peek_cons hrest, Lexer.peek_cons (h.cons hrest)]

/-- A class without the newline: the next byte is in it only if there was one before `suf`. -/
theorem Extends.next (h : Extends suf l l') (hsuf : OnNewLine suf) {f : UInt8 → Bool}
    (hf : f (ch '\n') = false) : (!l'.atEnd && f l'.peek) = (!l.atEnd && f l.peek) := by
  cases hrest : l.rest with
  | nil =>
      have hrest' : l'.rest = suf := by simpa [Extends, hrest] using h
      cases suf with
      | nil => simp [Lexer.atEnd, hrest, hrest']
      | cons c suf => simp [Lexer.atEnd, hrest, hrest', Lexer.peek, hsuf c rfl, hf]
  | cons c rest => rw [h.atEnd (Lexer.atEnd_cons hrest), h.peek_zero (Lexer.atEnd_cons hrest),
      Lexer.atEnd_cons hrest]

/-! ### The cursor -/

theorem advance_repeats : Repeats suf id advance advance := by
  refine .of_step fun {l l₁ l' a} hm hl => ?_
  cases hrest : l.rest with
  | nil => simp [advance, bind_run, hrest] at hm
  | cons c rest =>
      rw [advance_run hrest] at hm
      cases hm
      exact ⟨a, _, advance_run (hl.cons hrest), rfl, by simp [Extends]⟩

theorem scanWhile_extends {p : UInt8 → Bool} (hp : p (ch '\n') = false) (hsuf : OnNewLine suf)
    (rest : Bytes) (l l' : Lexer) (hl : l.rest = rest) (hl' : l'.rest = rest ++ suf) :
    (Lexer.scanWhile p (rest ++ suf) l').1 = (Lexer.scanWhile p rest l).1 ∧
      Extends suf (Lexer.scanWhile p rest l).2 (Lexer.scanWhile p (rest ++ suf) l').2 := by
  induction rest generalizing l l' with
  | nil =>
      cases suf with
      | nil => exact ⟨rfl, by simpa [Extends, Lexer.scanWhile, hl] using hl'⟩
      | cons c suf =>
          have hstop : Lexer.scanWhile p ([] ++ c :: suf) l' = ([], l') := by
            simp [Lexer.scanWhile, hsuf c rfl, hp]
          rw [hstop]
          exact ⟨rfl, by simpa [Extends, Lexer.scanWhile, hl] using hl'⟩
  | cons c rest ih =>
      have htail := ih (l.forward c rest) (l'.forward c (rest ++ suf)) (by simp) (by simp)
      cases hc : p c with
      | false => simpa [Lexer.scanWhile, hc, Extends, hl] using hl'
      | true => simpa [Lexer.scanWhile, hc] using htail

theorem advanceWhile_repeats {p : UInt8 → Bool} (hp : p (ch '\n') = false) (hsuf : OnNewLine suf) :
    Repeats suf id (advanceWhile p) (advanceWhile p) := by
  refine .of_step fun {l l₁ l' a} hm hl => ?_
  have hscan := scanWhile_extends hp hsuf l.rest l l' rfl hl
  simp only [advanceWhile, bind_run, get_run, set_run, pure_run] at hm ⊢
  cases hm
  rw [hl]
  exact ⟨_, _, rfl, hscan.1, hscan.2⟩

/-- A block comment that is closed ends before `suf`. -/
theorem scanComment_extends (rest : Bytes) (l l' : Lexer)
    (h : (Lexer.scanComment rest l).1 = true) :
    (Lexer.scanComment (rest ++ suf) l').1 = true ∧
      Extends suf (Lexer.scanComment rest l).2 (Lexer.scanComment (rest ++ suf) l').2 := by
  induction rest generalizing l l' with
  | nil => cases h
  | cons c rest ih =>
      cases rest with
      | nil => cases h
      | cons d rest =>
          simp only [List.cons_append, Lexer.scanComment] at h ⊢
          split
          · exact ⟨rfl, by simp [Extends]⟩
          · next hopen =>
            rw [if_neg hopen] at h
            exact ih _ _ h

/-! ### Names and numbers -/

variable (hsuf : OnNewLine suf)
include hsuf

theorem lexIdentOrKeyword_repeats : Repeats suf Token.erase lexIdentOrKeyword lexIdentOrKeyword := by
  refine .get_bind fun l l' _ => (advanceWhile_repeats (by decide) hsuf).map fun word word' hword => ?_
  cases hword
  rfl

theorem lexHex_repeats : Repeats suf Token.erase lexHex lexHex := by
  refine .get_bind fun l l' _ => advance_repeats.bind fun _ _ _ => advance_repeats.bind fun _ _ _ => ?_
  refine (advanceWhile_repeats (by decide) hsuf).bind fun digits digits' hdigits => ?_
  cases hdigits
  exact .ite Iff.rfl Repeats.lexError_bind (.pure rfl)

theorem lexFraction_repeats : Repeats suf id lexFraction lexFraction := by
  refine .get_bind fun l l' hl => ?_
  have hcond : (!l'.atEnd && l'.peek == ch '.' && isDigit (l'.peek 1)) =
      (!l.atEnd && l.peek == ch '.' && isDigit (l.peek 1)) := by
    rw [hl.next hsuf (f := (· == ch '.')) (by decide)]
    cases hrest : l.rest with
    | nil => simp [Lexer.atEnd, hrest]
    | cons c rest => rw [hl.peek hsuf (f := isDigit) (by decide) (k := 1) (by simp [hrest])]
  rw [hcond]
  refine .ite Iff.rfl (advance_repeats.bind fun _ _ _ => ?_) (.pure rfl)
  exact (advanceWhile_repeats (by decide) hsuf).map fun _ _ hdigits => congrArg some hdigits

theorem lexExponent_repeats : Repeats suf id lexExponent lexExponent := by
  refine .get_bind fun l l' hl => ?_
  rw [hl.next hsuf (f := fun c => c == ch 'e' || c == ch 'E') (by decide)]
  by_cases hnext : (!l.atEnd && (l.peek == ch 'e' || l.peek == ch 'E')) = true
  · have hend : l.atEnd = false := by
      rw [Bool.and_eq_true, Bool.not_eq_true'] at hnext
      exact hnext.1
    have hlen := l.length_pos hend
    have hsign := hl.peek hsuf (f := fun c => c == ch '+' || c == ch '-') (by decide) hlen
    -- the sign is a byte of the text, so the byte behind it is in the text or right behind it
    have hlook : (if l.peek 1 == ch '+' || l.peek 1 == ch '-' then 2 else 1) ≤ l.rest.length := by
      by_cases hlast : l.rest.length = 1
      · have hzero : l.peek 1 = 0 := List.getD_eq_default _ _ (by omega)
        rw [hzero, if_neg (by decide)]
        exact hlen
      · split <;> omega
    rw [if_pos hnext, if_pos hnext]
    dsimp only
    rw [hsign, hl.peek hsuf (f := isDigit) (by decide) hlook]
    refine .ite Iff.rfl (advance_repeats.bind fun _ _ _ => Repeats.get_bind fun l₁ l₁' hl₁ => ?_)
      (.pure rfl)
    have hsign₁ := hl₁.peek hsuf (f := fun c => c == ch '+' || c == ch '-') (by decide) (Nat.zero_le _)
    have hminus := hl₁.peek hsuf (f := fun c => c == ch '-') (by decide) (Nat.zero_le _)
    rw [hsign₁, hminus]
    have hdigits : ∀ f : Bytes → Option Int, Repeats suf id
        (advanceWhile isDigit >>= fun bs => pure (f bs)) (advanceWhile isDigit >>= fun bs => pure (f bs)) :=
      fun f => (advanceWhile_repeats (by decide) hsuf).map fun _ _ hbs => congrArg f hbs
    exact .ite Iff.rfl (advance_repeats.bind fun _ _ _ => hdigits _) (hdigits _)
  · rw [if_neg hnext, if_neg hnext]
    exact .pure rfl

omit hsuf in
theorem decimalToken_repeats (start start' : Nat) (digits : Bytes) (fraction : Option Bytes)
    (exponent : Option Int) : Repeats suf Token.erase (decimalToken start digits fraction exponent)
      (decimalToken start' digits fraction exponent) := by
  unfold decimalToken
  refine .ite Iff.rfl (.ite Iff.rfl (.fails fun _ _ _ h => by cases h) (.pure rfl)) ?_
  dsimp only
  split
  · exact .pure rfl
  · exact Repeats.raise

theorem lexNumber_repeats : Repeats suf Token.erase lexNumber lexNumber := by
  refine .get_bind fun l l' hl => ?_
  have hzero := hl.peek hsuf (f := fun c => decide (c = ch '0')) (by decide) (Nat.zero_le _)
  have hhex : l.peek = ch '0' ∧ (l.peek 1 = ch 'x' ∨ l.peek 1 = ch 'X') ↔
      l'.peek = ch '0' ∧ (l'.peek 1 = ch 'x' ∨ l'.peek 1 = ch 'X') := by
    rw [decide_eq_decide.mp hzero]
    refine and_congr_right fun hpeek => ?_
    have hlen : 1 ≤ l.rest.length := l.length_pos_of_peek (by rw [hpeek]; decide)
    have hx := hl.peek hsuf (f := fun c => decide (c = ch 'x' ∨ c = ch 'X')) (by decide) hlen
    exact (decide_eq_decide.mp hx).symm
  refine .ite hhex (lexHex_repeats hsuf) ?_
  refine (advanceWhile_repeats (by decide) hsuf).bind fun digits digits' hdigits => ?_
  refine (lexFraction_repeats hsuf).bind fun fraction fraction' hfraction => ?_
  refine (lexExponent_repeats hsuf).bind fun exponent exponent' hexponent => ?_
  cases hdigits
  cases hfraction
  cases hexponent
  exact decimalToken_repeats ..

/-! ### Strings -/

omit hsuf in
theorem utf8Bytes_repeats (cp : UInt32) (esc esc' : Nat) :
    Repeats suf id (utf8Bytes cp esc) (utf8Bytes cp esc') := by
  unfold utf8Bytes
  refine .ite Iff.rfl Repeats.lexError_bind ?_
  exact .ite Iff.rfl (.pure rfl) (.ite Iff.rfl (.pure rfl) (.ite Iff.rfl (.pure rfl) (.pure rfl)))

theorem lexHexEscape_repeats (esc esc' : Nat) :
    Repeats suf id (lexHexEscape esc) (lexHexEscape esc') := by
  refine Repeats.get_bind fun l l' hl => ?_
  by_cases hhex : (!isHexDigit l.peek || !isHexDigit (l.peek 1)) = true
  · rw [if_pos hhex]
    exact Repeats.lexError_bind
  · have hpeek : l.peek ≠ 0 := by
      intro hzero
      have hnone : isHexDigit 0 = false := by decide
      simp [hzero, hnone] at hhex
    have hlen := l.length_pos_of_peek hpeek
    have hhex' : (!isHexDigit l'.peek || !isHexDigit (l'.peek 1)) =
        (!isHexDigit l.peek || !isHexDigit (l.peek 1)) := by
      rw [hl.peek hsuf (f := isHexDigit) (by decide) hlen,
        hl.peek hsuf (f := isHexDigit) (by decide) (Nat.zero_le _)]
    rw [hhex']
    refine .ite Iff.rfl Repeats.lexError_bind ?_
    refine advance_repeats.bind fun hi hi' hhi => advance_repeats.bind fun lo lo' hlo => ?_
    cases hhi
    cases hlo
    exact .pure rfl

theorem unicodeLoop_repeats (esc esc' left : Nat) (cp : UInt32) (count : Nat) :
    Repeats suf id (unicodeLoop esc left cp count) (unicodeLoop esc' left cp count) := by
  induction left generalizing cp count with
  | zero => exact .fails fun _ _ _ h => by cases h
  | succ left ih =>
      refine Repeats.get_bind fun l l' hl => ?_
      rw [hl.next hsuf (f := isHexDigit) (by decide)]
      refine .ite Iff.rfl (advance_repeats.bind fun c c' hc => ?_) (.pure rfl)
      cases hc
      exact .ite Iff.rfl Repeats.lexError_bind (ih _ _)

theorem lexUnicodeEscape_repeats (esc esc' : Nat) :
    Repeats suf id (lexUnicodeEscape esc) (lexUnicodeEscape esc') := by
  refine Repeats.get_bind fun l l' hl => ?_
  have hopen := hl.peek hsuf (f := fun c => decide (c ≠ ch '{')) (by decide) (Nat.zero_le _)
  refine .ite (decide_eq_decide.mp hopen).symm Repeats.lexError_bind ?_
  refine advance_repeats.bind fun _ _ _ => (unicodeLoop_repeats hsuf ..).bind fun out out' hout => ?_
  cases hout
  refine .ite Iff.rfl Repeats.lexError_bind (Repeats.get_bind fun l₁ l₁' hl₁ => ?_)
  have hclose := hl₁.next hsuf (f := fun c => decide (c = ch '}')) (by decide)
  have hclose' : (l₁.atEnd || l₁.peek ≠ ch '}') = (l₁'.atEnd || l₁'.peek ≠ ch '}') := by
    simpa [Bool.not_and] using (congrArg not hclose).symm
  rw [hclose']
  exact .ite Iff.rfl Repeats.lexError_bind (advance_repeats.bind fun _ _ _ => utf8Bytes_repeats ..)

theorem lexEscape_repeats : Repeats suf id lexEscape lexEscape := by
  refine Repeats.get_bind fun l l' _ => advance_repeats.bind fun _ _ _ => ?_
  refine Repeats.get_bind fun l₁ l₁' hl₁ => ?_
  cases hend : l₁.atEnd with
  | true => exact Repeats.lexError_bind
  | false =>
      rw [hl₁.atEnd hend]
      refine .ite Iff.rfl Repeats.lexError_bind (advance_repeats.bind fun e e' he => ?_)
      cases he
      cases simpleEscape? e with
      | some b => exact .pure rfl
      | none =>
          exact .ite Iff.rfl (lexHexEscape_repeats hsuf ..)
            (.ite Iff.rfl (lexUnicodeEscape_repeats hsuf ..) Repeats.lexError)

theorem lexStringLoop_repeats (opening opening' : Nat) {fuel fuel' : Nat} (hfuel : fuel ≤ fuel') :
    Repeats suf id (lexStringLoop opening fuel) (lexStringLoop opening' fuel') := by
  induction fuel generalizing fuel' with
  | zero => exact .fails fun _ _ _ h => by cases h
  | succ fuel ih =>
      obtain ⟨fuel', rfl⟩ := Nat.exists_eq_add_one_of_ne_zero (Nat.ne_zero_of_lt hfuel)
      have ih := ih (Nat.le_of_succ_le_succ hfuel)
      refine Repeats.get_bind fun l l' hl => ?_
      cases hend : l.atEnd with
      | true => exact Repeats.lexError_bind
      | false =>
          rw [hl.atEnd hend, hl.peek_zero hend]
          refine .ite Iff.rfl Repeats.lexError_bind ?_
          refine .ite Iff.rfl (advance_repeats.map fun _ _ _ => rfl) ?_
          refine .ite Iff.rfl Repeats.lexError (.ite Iff.rfl ?_ ?_)
          · exact advance_repeats.bind fun _ _ _ => ih.map fun _ _ hbs => congrArg (l.peek :: ·) hbs
          · refine (lexEscape_repeats hsuf).bind fun bs bs' hbs => ih.map fun _ _ htail => ?_
            cases hbs
            exact congrArg (bs ++ ·) htail

theorem lexString_repeats : Repeats suf Token.erase lexString lexString := by
  refine Repeats.get_bind fun l l' _ => advance_repeats.bind fun _ _ _ => ?_
  refine Repeats.get_bind fun l₁ l₁' hl₁ => ?_
  have hfuel : l₁.rest.length + 1 ≤ l₁'.rest.length + 1 := by
    rw [hl₁, List.length_append]
    omega
  refine (lexStringLoop_repeats hsuf _ _ hfuel).map fun text text' htext => ?_
  cases htext
  rfl

/-! ### The next token -/

omit hsuf in
theorem punctuator_newline (c : UInt8) : punctuator? c (ch '\n') = punctuator? c 0 :=
  forall_byte (p := fun c => punctuator? c (ch '\n') = punctuator? c 0) (by decide +kernel) c

theorem lexPunctuator_repeats : Repeats suf Token.erase lexPunctuator lexPunctuator := by
  refine Repeats.get_bind fun l l' _ => advance_repeats.bind fun c c' hc => ?_
  cases hc
  refine Repeats.get_bind fun l₁ l₁' hl₁ => ?_
  rw [hl₁.peek hsuf (f := punctuator? c) (punctuator_newline c) (Nat.zero_le _)]
  cases punctuator? c l₁.peek with
  | some out =>
      exact .ite Iff.rfl (advance_repeats.map fun _ _ _ => rfl) (.pure rfl)
  | none => exact Repeats.lexError

theorem lexToken_repeats (hl : Extends suf l l') (hend : l.atEnd = false) {t : Token} {l₁ : Lexer}
    (h : lexToken l = .ok t l₁) :
    ∃ t' l₁', lexToken l' = .ok t' l₁' ∧ t'.erase = t.erase ∧ Extends suf l₁ l₁' := by
  rw [lexToken, bind_of_ok (get_run l)] at h
  rw [lexToken, bind_of_ok (get_run l')]
  simp only [hend, hl.atEnd hend, hl.peek_zero hend, Bool.false_eq_true, if_false] at h ⊢
  refine Repeats.run ?_ h hl
  exact .ite Iff.rfl (lexIdentOrKeyword_repeats hsuf) (.ite Iff.rfl (lexNumber_repeats hsuf)
    (.ite Iff.rfl (lexString_repeats hsuf) (lexPunctuator_repeats hsuf)))

/-! ### Trivia -/

omit hsuf in
/-- The body of a block comment and what closes it. -/
theorem comment_repeats (start start' : Nat) :
    Repeats suf id
      (do
        let l ← get
        let (closed, l) := Lexer.scanComment l.rest l
        set l
        if !closed then lexError start "unterminated block comment"
        return true)
      (do
        let l ← get
        let (closed, l) := Lexer.scanComment l.rest l
        set l
        if !closed then lexError start' "unterminated block comment"
        return true) := by
  refine .of_step fun {l l₁ l' more} h hl => ?_
  have hcomment := @scanComment_extends suf l.rest l l'
  rw [← hl] at hcomment
  rw [bind_of_ok (get_run l)] at h
  rw [bind_of_ok (get_run l')]
  rcases hscan : Lexer.scanComment l.rest l with ⟨closed, l₂⟩
  rcases hscan' : Lexer.scanComment l'.rest l' with ⟨closed', l₂'⟩
  simp only [hscan, hscan'] at h hcomment ⊢
  cases closed with
  | false => cases h
  | true =>
      rcases hcomment rfl with ⟨rfl, hl₂⟩
      cases h
      exact ⟨true, l₂', rfl, rfl, hl₂⟩

/-- Unless the text is at its end, a piece of trivia, or that there is none, does not depend on what
is behind. -/
theorem triviaRound_repeats (hl : Extends suf l l') (hend : l.atEnd = false) {more : Bool} {l₁ : Lexer}
    (h : triviaRound l = .ok more l₁) :
    ∃ l₁', triviaRound l' = .ok more l₁' ∧ Extends suf l₁ l₁' := by
  have hlen := l.length_pos hend
  have hslash := hl.peek hsuf (f := fun c => decide (c = ch '/')) (by decide) hlen
  have hstar := hl.peek hsuf (f := fun c => decide (c = ch '*')) (by decide) hlen
  rw [triviaRound, bind_of_ok (get_run l)] at h
  rw [triviaRound, bind_of_ok (get_run l')]
  simp only [hend, hl.atEnd hend, hl.peek_zero hend, decide_eq_decide.mp hslash,
    decide_eq_decide.mp hstar, Bool.false_eq_true, if_false] at h ⊢
  have hline : Repeats suf id (advanceWhile (· ≠ ch '\n') >>= fun _ => pure true)
      (advanceWhile (· ≠ ch '\n') >>= fun _ => pure true) :=
    (advanceWhile_repeats (by decide) hsuf).map fun _ _ _ => rfl
  have hskip : ∀ {m n : Scan Bool}, Repeats suf id m n →
      Repeats suf id (do let _ ← advance; m) (do let _ ← advance; n) :=
    fun hmn => advance_repeats.bind fun _ _ _ => hmn
  refine Repeats.run_id ?_ h hl
  refine .ite Iff.rfl (hskip (.pure rfl)) (.ite Iff.rfl hline ?_)
  refine .ite Iff.rfl (hskip (hskip hline)) (.ite Iff.rfl ?_ (.pure rfl))
  exact hskip (hskip (comment_repeats l.pos l'.pos))

/-- The next token is read in front of `suf` as well, unless the text has none: then `suf` is read. -/
theorem nextToken_repeats {t : Token} {l₁ : Lexer} (hl : Extends suf l l')
    (h : nextToken l = .ok t l₁) :
    (∃ t' l₁', nextToken l' = .ok t' l₁' ∧ t'.erase = t.erase ∧ Extends suf l₁ l₁' ∧ t.kind ≠ .kEof) ∨
      (t.erase = {} ∧ l₁.rest = [] ∧ ∃ l₂ : Lexer, l₂.rest = suf ∧ nextToken l' = nextToken l₂) := by
  induction l using nextToken_induction generalizing l' with
  | round l l₂ hround ih =>
      cases hend : l.atEnd with
      | true => simp [triviaRound, bind_run, hend] at hround
      | false =>
          rcases triviaRound_repeats hsuf hl hend hround with ⟨l₂', hround', hl₂⟩
          rw [nextToken_of_round hround] at h
          rw [nextToken_of_round hround']
          exact ih hl₂ h
  | stop l hround =>
      rw [nextToken_of_stop hround] at h
      cases hend : l.atEnd with
      | true =>
          -- the longer text goes on with `suf`, trivia or not
          rw [lexToken_of_atEnd hend] at h
          have hrest : l.rest = [] := by simpa [Lexer.atEnd] using hend
          cases h
          exact .inr ⟨rfl, hrest, l', by rw [hl, hrest, List.nil_append], rfl⟩
      | false =>
          rcases triviaRound_repeats hsuf hl hend hround with ⟨l₂', hround', -⟩
          rcases lexToken_repeats hsuf hl hend h with ⟨t', l₁', ht', herase, hl₁⟩
          rw [nextToken_of_stop hround']
          exact .inl ⟨t', l₁', ht', herase, hl₁, lexToken_ne_eof hend h⟩
  | fault l l₁ e hround =>
      rw [nextToken_of_fault hround] at h
      cases h

end Repeats

end Bytewright.Cfgscript
