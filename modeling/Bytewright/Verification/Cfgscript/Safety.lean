import Bytewright.Verification.Cfgscript.Progress

/-! # The scanner stays inside its buffer

No call of `advance` is made at the end of the buffer, and no loop goes on for ever. -/

namespace Bytewright.Cfgscript

open Bytewright.Common Bytewright.Library

/-! ### The cursor and the buffer -/

/-- The cursor stands in `data`, with the bytes from its position on still to come. -/
structure Lexer.On (data : Bytes) (l : Lexer) : Prop where
  inside : l.pos ≤ data.length
  rest_eq : l.rest = data.drop l.pos

/-- `l'` stands further on in the buffer of `l`, behind the bytes that `l` has and it has not. -/
def Lexer.Onward (l l' : Lexer) : Prop := ∃ bs, l.rest = bs ++ l'.rest ∧ l'.pos = l.pos + bs.length

section Cursor

variable {l l' l'' : Lexer} {data : Bytes} {c : UInt8} {rest : Bytes}

theorem Lexer.on_start (data : Bytes) : Lexer.On data { rest := data } := ⟨Nat.zero_le _, rfl⟩

theorem Lexer.On.length_rest (h : l.On data) : l.pos + l.rest.length = data.length := by
  have := h.inside
  rw [h.rest_eq, List.length_drop]
  omega

/-- A guarded read sees the byte at its index, and 0 behind the buffer. -/
theorem Lexer.On.peek (h : l.On data) (ahead : Nat) :
    l.peek ahead = if l.pos + ahead < data.length then data.getD (l.pos + ahead) 0 else 0 := by
  rw [Lexer.peek, h.rest_eq, List.getD_eq_getElem?_getD, List.getElem?_drop]
  split
  · rw [List.getD_eq_getElem?_getD]
  · next hend => rw [List.getElem?_eq_none (Nat.le_of_not_lt hend), Option.getD_none]

/-- The unguarded read is undefined exactly behind the buffer. -/
theorem Lexer.On.advance_undefined (h : l.On data) :
    (∃ l', advance l = .error .undefined l') ↔ data.length ≤ l.pos := by
  have hlen := h.length_rest
  cases hrest : l.rest with
  | nil => simp_all [advance, bind_run]
  | cons c rest =>
      rw [advance_run hrest]
      simp_all
      omega

theorem Lexer.Onward.refl (l : Lexer) : l.Onward l := ⟨[], rfl, rfl⟩

theorem Lexer.Onward.trans (h : l.Onward l') (h' : l'.Onward l'') : l.Onward l'' := by
  rcases h with ⟨bs, hrest, hpos⟩
  rcases h' with ⟨cs, hrest', hpos'⟩
  refine ⟨bs ++ cs, by rw [hrest, hrest', List.append_assoc], ?_⟩
  rw [hpos', hpos, List.length_append, Nat.add_assoc]

theorem Lexer.onward_forward (h : l.rest = c :: rest) : l.Onward (l.forward c rest) := by
  refine ⟨[c], by simp [h], ?_⟩
  unfold Lexer.forward
  split <;> rfl

theorem Lexer.On.onward (h : l.On data) (hto : l.Onward l') : l'.On data := by
  rcases hto with ⟨bs, hrest, hpos⟩
  have hlen := h.length_rest
  rw [hrest, List.length_append] at hlen
  refine ⟨by omega, ?_⟩
  rw [hpos, ← List.drop_drop, ← h.rest_eq, hrest, List.drop_left]

theorem Lexer.Onward.pos_lt (h : l.Onward l') (hlt : l'.rest.length < l.rest.length) :
    l.pos < l'.pos := by
  rcases h with ⟨bs, hrest, hpos⟩
  rw [hrest, List.length_append] at hlt
  omega

/-- What is seen ahead is there, unless it is the byte 0. -/
theorem Lexer.lt_of_peek_ne {k : Nat} (h : l.peek k ≠ 0) : k < l.rest.length := by
  by_contra hend
  apply h
  rw [Lexer.peek, List.getD_eq_getElem?_getD, List.getElem?_eq_none (Nat.le_of_not_lt hend),
    Option.getD_none]

theorem Lexer.rest_of_atEnd (h : l.atEnd = false) : ∃ c rest, l.rest = c :: rest := by
  cases hrest : l.rest with
  | nil => simp [Lexer.atEnd, hrest] at h
  | cons c rest => exact ⟨c, rest, rfl⟩

theorem Lexer.rest_of_peek (h : l.peek ≠ 0) : ∃ c rest, l.rest = c :: rest := by
  have hlt := Lexer.lt_of_peek_ne h
  cases hrest : l.rest with
  | nil => simp [hrest] at hlt
  | cons c rest => exact ⟨c, rest, rfl⟩

theorem Lexer.rest_of_peek_one (h : l.peek 1 ≠ 0) : ∃ c d rest, l.rest = c :: d :: rest := by
  have hlt := Lexer.lt_of_peek_ne h
  rcases hrest : l.rest with _ | ⟨c, _ | ⟨d, rest⟩⟩
  · simp [hrest] at hlt
  · simp [hrest] at hlt
  · exact ⟨c, d, rest, rfl⟩

theorem scanWhile_onward (p : UInt8 → Bool) (bs : Bytes) (l : Lexer) (hl : l.rest = bs) :
    l.Onward (Lexer.scanWhile p bs l).2 := by
  induction bs generalizing l with
  | nil => exact .refl l
  | cons b bs ih =>
      rw [Lexer.scanWhile]
      split
      · exact (Lexer.onward_forward hl).trans (ih (l.forward b bs) (by simp))
      · exact .refl l

theorem scanComment_onward (bs : Bytes) (l : Lexer) (hl : l.rest = bs) :
    l.Onward (Lexer.scanComment bs l).2 := by
  induction bs generalizing l with
  | nil => exact .refl l
  | cons c bs ih =>
      cases bs with
      | nil => exact Lexer.onward_forward hl
      | cons d bs =>
          rw [Lexer.scanComment]
          split
          · exact (Lexer.onward_forward hl).trans (Lexer.onward_forward (Lexer.rest_forward ..))
          · exact (Lexer.onward_forward hl).trans (ih (l.forward c (d :: bs)) (by simp))

end Cursor

/-! ### The loops, written with `peek` and `advance` -/

/-- `while (!at_end() && p(peek())) advance();` -/
def advanceLoop (p : UInt8 → Bool) : (fuel : Nat) → Scan Bytes
  | 0 => throw .diverged
  | fuel + 1 => do
    let l ← get
    if !l.atEnd && p l.peek then
      let c ← advance
      return c :: (← advanceLoop p fuel)
    else return []

/-- The loop over the body of a block comment: whether it is closed. -/
def commentLoop : (fuel : Nat) → Scan Bool
  | 0 => throw .diverged
  | fuel + 1 => do
    let l ← get
    if l.atEnd then return false
    if l.peek = ch '*' ∧ l.peek 1 = ch '/' then
      let _ ← advance
      let _ ← advance
      return true
    let _ ← advance
    commentLoop fuel

theorem advanceLoop_run (p : UInt8 → Bool) {fuel : Nat} {l : Lexer} (hfuel : l.rest.length < fuel) :
    advanceLoop p fuel l = .ok (Lexer.scanWhile p l.rest l).1 (Lexer.scanWhile p l.rest l).2 := by
  induction fuel generalizing l with
  | zero => omega
  | succ fuel ih =>
      rw [advanceLoop, bind_of_ok (get_run l)]
      cases hrest : l.rest with
      | nil => simp [Lexer.atEnd, hrest, Lexer.scanWhile]
      | cons c rest =>
          rw [hrest, List.length_cons] at hfuel
          rw [Lexer.scanWhile]
          by_cases hp : p c = true
          · have hloop := ih (l := l.forward c rest) (by rw [Lexer.rest_forward]; omega)
            rw [Lexer.rest_forward] at hloop
            simp [Lexer.atEnd_cons hrest, Lexer.peek_cons hrest, hp, bind_run, advance_run hrest, hloop]
          · simp [Lexer.atEnd_cons hrest, Lexer.peek_cons hrest, hp]

theorem commentLoop_run {fuel : Nat} {l : Lexer} (hfuel : l.rest.length < fuel) :
    commentLoop fuel l = .ok (Lexer.scanComment l.rest l).1 (Lexer.scanComment l.rest l).2 := by
  induction fuel generalizing l with
  | zero => omega
  | succ fuel ih =>
      rw [commentLoop, bind_of_ok (get_run l)]
      rcases hrest : l.rest with _ | ⟨c, _ | ⟨d, rest⟩⟩
      · simp [Lexer.atEnd, hrest, Lexer.scanComment]
      · rw [hrest, List.length_singleton] at hfuel
        have hnext : l.peek 1 = 0 := Lexer.peek_one hrest
        have hloop := ih (l := l.forward c []) (by rw [Lexer.rest_forward]; simpa using hfuel)
        have hzero : (0 : UInt8) ≠ ch '/' := by decide
        rw [Lexer.rest_forward] at hloop
        simp [Lexer.atEnd_cons hrest, Lexer.peek_cons hrest, hnext, hzero, bind_run, advance_run hrest,
          hloop, Lexer.scanComment]
      · rw [hrest, List.length_cons] at hfuel
        have hnext : l.peek 1 = d := Lexer.peek_one hrest
        rw [Lexer.scanComment]
        by_cases hclose : c = ch '*' ∧ d = ch '/'
        · have hsecond := advance_run (Lexer.rest_forward l c (d :: rest))
          rw [if_pos hclose]
          simp [Lexer.atEnd_cons hrest, Lexer.peek_cons hrest, hnext, if_pos hclose, bind_run,
            advance_run hrest, hsecond]
        · have hloop := ih (l := l.forward c (d :: rest)) (by rw [Lexer.rest_forward]; omega)
          rw [Lexer.rest_forward] at hloop
          simp [Lexer.atEnd_cons hrest, Lexer.peek_cons hrest, hnext, hclose, bind_run,
            advance_run hrest, hloop]

/-- Every loop over a class of bytes is the one of the source, with as many rounds as it needs. -/
theorem advanceWhile_eq_loop (p : UInt8 → Bool) :
    advanceWhile p = (get >>= fun l => advanceLoop p (l.rest.length + 1)) := by
  funext l
  rw [bind_of_ok (get_run l), advanceLoop_run p (Nat.lt_succ_self _)]
  rfl

theorem scanComment_eq_loop :
    (get >>= fun l => do
      set (Lexer.scanComment l.rest l).2
      return (Lexer.scanComment l.rest l).1) =
      (get >>= fun l => commentLoop (l.rest.length + 1)) := by
  funext l
  rw [bind_of_ok (get_run l), bind_of_ok (get_run l), commentLoop_run (Nat.lt_succ_self _)]
  rfl

/-! ### Calls that stay in the buffer -/

/-- The call reads nothing behind the buffer, and its loops end: from `l` it throws an exception, or
returns further on in the buffer. -/
def Contained {α : Type} (m : Scan α) (l : Lexer) : Prop :=
  match m l with
  | .ok _ l' => l.Onward l'
  | .error e _ => ∃ error, e = .thrown error

namespace Contained

variable {α β : Type} {m m' : Scan α} {f : α → Scan β} {l l' : Lexer}

theorem onward {a : α} (h : Contained m l) (hm : m l = .ok a l') : l.Onward l' := by
  rw [Contained, hm] at h
  exact h

theorem thrown {e : Fault} (h : Contained m l) (hm : m l = .error e l') : ∃ error, e = .thrown error := by
  rw [Contained, hm] at h
  exact h

theorem pure {a : α} : Contained (Pure.pure a) l := Lexer.Onward.refl l

theorem raise {code : ErrorCode} {at_ : Nat} {msg : String} :
    Contained (Common.raise code at_ msg : Scan α) l := ⟨_, rfl⟩

theorem lexError {at_ : Nat} {msg : String} : Contained (Cfgscript.lexError at_ msg : Scan α) l := ⟨_, rfl⟩

theorem lexError_bind {at_ : Nat} {msg : String} {f : α → Scan β} :
    Contained (Cfgscript.lexError at_ msg >>= f) l := ⟨_, rfl⟩

theorem bind (hm : Contained m l) (hf : ∀ a l', m l = .ok a l' → l.Onward l' → Contained (f a) l') :
    Contained (m >>= f) l := by
  unfold Contained
  cases hrun : m l with
  | error e l' =>
      rw [bind_of_error hrun]
      exact hm.thrown hrun
  | ok a l' =>
      have hto := hm.onward hrun
      have hrest := hf a l' hrun hto
      rw [bind_of_ok hrun]
      cases hrun' : f a l' with
      | error e l'' => exact hrest.thrown hrun'
      | ok b l'' => exact hto.trans (hrest.onward hrun')

theorem get_bind {f : Lexer → Scan α} (h : Contained (f l) l) : Contained (get >>= f) l := h

theorem ite {c : Prop} [Decidable c] (h : c → Contained m l) (h' : ¬c → Contained m' l) :
    Contained (if c then m else m') l := by
  split
  · next hc => exact h hc
  · next hc => exact h' hc

/-- A byte is there to be consumed. -/
theorem advance_bind {f : UInt8 → Scan α} {c : UInt8} {rest : Bytes} (hl : l.rest = c :: rest)
    (hf : ∀ l', l'.rest = rest → Contained (f c) l') : Contained (advance >>= f) l := by
  refine bind ?_ fun d l' hrun _ => ?_
  · rw [Contained, advance_run hl]
    exact Lexer.onward_forward hl
  · rw [advance_run hl] at hrun
    cases hrun
    exact hf _ (Lexer.rest_forward ..)

theorem advanceWhile (p : UInt8 → Bool) : Contained (Cfgscript.advanceWhile p) l :=
  scanWhile_onward p l.rest l rfl

end Contained

/-! ### Trivia -/

section Scanner

variable {l : Lexer} {c d : UInt8} {rest : Bytes}

theorem ne_zero_of_class {p : UInt8 → Bool} (hzero : p 0 = false) {c : UInt8} (h : p c = true) :
    c ≠ 0 := by
  rintro rfl
  rw [hzero] at h
  cases h

theorem contained_blockComment (start : Nat) :
    Contained (do
      let l ← get
      let (closed, l) := Lexer.scanComment l.rest l
      set l
      if !closed then lexError start "unterminated block comment"
      return true) l := by
  refine .get_bind (.bind (scanComment_onward l.rest l rfl) fun _ l' _ _ => ?_)
  exact .ite (fun _ => .lexError_bind) fun _ => .pure

theorem contained_triviaRound (l : Lexer) : Contained triviaRound l := by
  refine .get_bind (.ite (fun _ => .pure) fun hend => ?_)
  obtain ⟨c, rest, hrest⟩ := Lexer.rest_of_atEnd (Bool.eq_false_iff.mpr hend)
  refine .ite (fun _ => .advance_bind hrest fun _ _ => .pure) fun _ => ?_
  refine .ite (fun _ => (Contained.advanceWhile _).bind fun _ _ _ _ => .pure) fun _ => ?_
  refine .ite (fun hline => ?_) fun _ => .ite (fun hblock => ?_) fun _ => .pure
  · obtain ⟨c, d, rest, hrest⟩ := Lexer.rest_of_peek_one (by rw [hline.2]; decide)
    refine .advance_bind hrest fun l₁ hrest₁ => .advance_bind hrest₁ fun _ _ => ?_
    exact (Contained.advanceWhile _).bind fun _ _ _ _ => .pure
  · obtain ⟨c, d, rest, hrest⟩ := Lexer.rest_of_peek_one (by rw [hblock.2]; decide)
    exact .advance_bind hrest fun l₁ hrest₁ => .advance_bind hrest₁ fun _ _ =>
      contained_blockComment l.pos

/-! ### Numbers -/

theorem contained_lexHex (hl : l.rest = c :: d :: rest) : Contained lexHex l := by
  refine .get_bind (.advance_bind hl fun l₁ hl₁ => .advance_bind hl₁ fun _ _ => ?_)
  exact (Contained.advanceWhile _).bind fun _ _ _ _ => .ite (fun _ => .lexError_bind) fun _ => .pure

theorem contained_lexFraction : Contained lexFraction l := by
  refine .get_bind (.ite (fun h => ?_) fun _ => .pure)
  simp only [Bool.and_eq_true, Bool.not_eq_true'] at h
  obtain ⟨c, rest, hrest⟩ := Lexer.rest_of_atEnd h.1.1
  exact .advance_bind hrest fun _ _ => (Contained.advanceWhile _).bind fun _ _ _ _ => .pure

theorem contained_lexExponent : Contained lexExponent l := by
  refine .get_bind (.ite (fun h => .ite (fun _ => ?_) fun _ => .pure) fun _ => .pure)
  simp only [Bool.and_eq_true, Bool.not_eq_true'] at h
  obtain ⟨c, rest, hrest⟩ := Lexer.rest_of_atEnd h.1
  refine .advance_bind hrest fun l₁ _ => .get_bind (.ite (fun hsign => ?_) fun _ => ?_)
  · have hne : l₁.peek ≠ 0 := by
      simp only [Bool.or_eq_true, beq_iff_eq] at hsign
      rcases hsign with hsign | hsign
      · rw [hsign]
        decide
      · rw [hsign]
        decide
    obtain ⟨c, rest, hrest⟩ := Lexer.rest_of_peek hne
    exact .advance_bind hrest fun _ _ => (Contained.advanceWhile _).bind fun _ _ _ _ => .pure
  · exact (Contained.advanceWhile _).bind fun _ _ _ _ => .pure

theorem contained_decimalToken (start : Nat) (digits : Bytes) (fraction : Option Bytes)
    (exponent : Option Int) : Contained (decimalToken start digits fraction exponent) l := by
  refine .ite (fun _ => .ite (fun _ => Contained.raise.bind fun _ _ _ _ => .pure) fun _ => .pure) fun _ => ?_
  dsimp only
  split
  · exact .pure
  · exact .raise

theorem contained_lexNumber : Contained lexNumber l := by
  refine .get_bind (.ite (fun hhex => ?_) fun _ => ?_)
  · have hne : l.peek 1 ≠ 0 := by
      rcases hhex.2 with h | h
      · rw [h]
        decide
      · rw [h]
        decide
    obtain ⟨c, d, rest, hrest⟩ := Lexer.rest_of_peek_one hne
    exact contained_lexHex hrest
  · exact (Contained.advanceWhile _).bind fun _ _ _ _ => contained_lexFraction.bind fun _ _ _ _ =>
      contained_lexExponent.bind fun _ _ _ _ => contained_decimalToken _ _ _ _

/-! ### Strings -/

theorem contained_utf8Bytes (cp : UInt32) (esc : Nat) : Contained (utf8Bytes cp esc) l := by
  refine .ite (fun _ => .lexError_bind) fun _ => .ite (fun _ => .pure) fun _ => ?_
  exact .ite (fun _ => .pure) fun _ => .ite (fun _ => .pure) fun _ => .pure

theorem contained_lexHexEscape (esc : Nat) : Contained (lexHexEscape esc) l := by
  refine .get_bind (.ite (fun _ => .lexError_bind) fun h => ?_)
  simp only [Bool.or_eq_true, Bool.not_eq_true', not_or, Bool.not_eq_false] at h
  have hne : l.peek 1 ≠ 0 := ne_zero_of_class (p := isHexDigit) (by decide) h.2
  obtain ⟨c, d, rest, hrest⟩ := Lexer.rest_of_peek_one hne
  exact .advance_bind hrest fun l₁ hrest₁ => .advance_bind hrest₁ fun _ _ => .pure

/-- The seventh digit throws, so the rounds do not run out. -/
theorem contained_unicodeLoop (esc left : Nat) (cp : UInt32) (count : Nat)
    (hleft : left + count = 7) (hcount : count ≤ 6) : Contained (unicodeLoop esc left cp count) l := by
  induction left generalizing cp count l with
  | zero => omega
  | succ left ih =>
      refine .get_bind (.ite (fun h => ?_) fun _ => .pure)
      simp only [Bool.and_eq_true, Bool.not_eq_true'] at h
      obtain ⟨c, rest, hrest⟩ := Lexer.rest_of_atEnd h.1
      refine .advance_bind hrest fun l₁ _ => .ite (fun _ => .lexError_bind) fun hmany => ?_
      exact ih _ _ (by omega) (by omega)

theorem contained_lexUnicodeEscape (esc : Nat) : Contained (lexUnicodeEscape esc) l := by
  refine .get_bind (.ite (fun _ => .lexError_bind) fun hopen => ?_)
  have hopen : l.peek = ch '{' := Decidable.not_not.mp hopen
  obtain ⟨c, rest, hrest⟩ := Lexer.rest_of_peek (by rw [hopen]; decide)
  refine .advance_bind hrest fun l₁ _ => ?_
  refine (contained_unicodeLoop esc 7 0 0 rfl (by omega)).bind fun out l₂ _ _ => ?_
  refine .ite (fun _ => .lexError_bind) fun _ => .get_bind (.ite (fun _ => .lexError_bind) fun h => ?_)
  simp only [Bool.or_eq_true, not_or, Bool.not_eq_true] at h
  obtain ⟨c, rest, hrest⟩ := Lexer.rest_of_atEnd h.1
  exact .advance_bind hrest fun _ _ => contained_utf8Bytes _ _

theorem contained_lexEscape (hl : l.rest = c :: rest) : Contained lexEscape l := by
  refine .get_bind (.advance_bind hl fun l₁ _ => .get_bind (.ite (fun _ => .lexError_bind) fun hend => ?_))
  obtain ⟨e, rest, hrest⟩ := Lexer.rest_of_atEnd (Bool.eq_false_iff.mpr hend)
  refine .advance_bind hrest fun l₂ _ => ?_
  cases simpleEscape? e with
  | some b => exact .pure
  | none =>
      exact .ite (fun _ => contained_lexHexEscape _) fun _ =>
        .ite (fun _ => contained_lexUnicodeEscape _) fun _ => .lexError

/-- Every round consumes a byte, so the rounds do not run out. -/
theorem contained_lexStringLoop (opening fuel : Nat) (hfuel : l.rest.length < fuel) :
    Contained (lexStringLoop opening fuel) l := by
  induction fuel generalizing l with
  | zero => omega
  | succ fuel ih =>
      refine .get_bind (.ite (fun _ => .lexError_bind) fun hend => ?_)
      obtain ⟨c, rest, hrest⟩ := Lexer.rest_of_atEnd (Bool.eq_false_iff.mpr hend)
      rw [hrest, List.length_cons] at hfuel
      refine .ite (fun _ => .advance_bind hrest fun _ _ => .pure) fun _ => ?_
      refine .ite (fun _ => .lexError) fun _ => .ite (fun _ => ?_) fun _ => ?_
      · refine .advance_bind hrest fun l₁ hrest₁ => ?_
        exact (ih (by rw [hrest₁]; omega)).bind fun _ _ _ _ => .pure
      · refine (contained_lexEscape hrest).bind fun bs l₁ hescape _ => ?_
        have hlt := lexEscape_consumes _ _ _ hescape
        simp only [hrest, List.length_cons] at hlt
        exact (ih (by omega)).bind fun _ _ _ _ => .pure

theorem contained_lexString (hl : l.rest = c :: rest) : Contained lexString l := by
  refine .get_bind (.advance_bind hl fun l₁ _ => .get_bind ?_)
  exact (contained_lexStringLoop _ _ (Nat.lt_succ_self _)).bind fun _ _ _ _ => .pure

/-! ### Tokens -/

theorem punctuator_two {c d : UInt8} {kind : TokenKind} (h : punctuator? c d = some (kind, true)) :
    d ≠ 0 := by
  have hzero : ∀ c : UInt8, (punctuator? c 0).map (·.2) ≠ some true := forall_byte (by decide +kernel)
  rintro rfl
  apply hzero c
  rw [h, Option.map_some]

theorem contained_lexPunctuator (hl : l.rest = c :: rest) : Contained lexPunctuator l := by
  refine .get_bind (.advance_bind hl fun l₁ hl₁ => .get_bind ?_)
  split
  · next kind two hpunct =>
    refine .ite (fun htwo => ?_) fun _ => .pure
    rw [htwo] at hpunct
    obtain ⟨d, rest, hrest⟩ := Lexer.rest_of_peek (punctuator_two hpunct)
    exact .advance_bind hrest fun _ _ => .pure
  · exact .lexError

theorem contained_lexToken (l : Lexer) : Contained lexToken l := by
  refine .get_bind (.ite (fun _ => .pure) fun hend => ?_)
  obtain ⟨c, rest, hrest⟩ := Lexer.rest_of_atEnd (Bool.eq_false_iff.mpr hend)
  refine .ite (fun _ => ?_) fun _ => .ite (fun _ => contained_lexNumber) fun _ => ?_
  · exact .get_bind ((Contained.advanceWhile _).bind fun _ _ _ _ => .pure)
  · exact .ite (fun _ => contained_lexString hrest) fun _ => contained_lexPunctuator hrest

theorem contained_nextToken (l : Lexer) : Contained nextToken l := by
  induction l using nextToken_induction with
  | round l l₁ hround ih =>
      have hto := (contained_triviaRound l).onward hround
      unfold Contained
      rw [nextToken_of_round hround]
      cases hnext : nextToken l₁ with
      | ok t l' => exact hto.trans (ih.onward hnext)
      | error e l' => exact ih.thrown hnext
  | stop l hround =>
      unfold Contained
      rw [nextToken_of_stop hround]
      exact contained_lexToken l
  | fault l l₁ e hround =>
      unfold Contained
      rw [nextToken_of_fault hround]
      exact (contained_triviaRound l).thrown hround

end Scanner

/-! ### Calls one after the other -/

/-- The tokens of `n` calls of `Lexer::next`. -/
def nextTokens : (n : Nat) → Scan (List Token)
  | 0 => return []
  | n + 1 => do
    let t ← nextToken
    return t :: (← nextTokens n)

theorem contained_nextTokens (n : Nat) (l : Lexer) : Contained (nextTokens n) l := by
  induction n generalizing l with
  | zero => exact .pure
  | succ n ih =>
      exact (contained_nextToken l).bind fun t l₁ _ _ => (ih l₁).bind fun ts _ _ _ => .pure

/-- With more calls than bytes left, one of them finds the end if none throws. -/
theorem nextTokens_reach {n : Nat} {l l' : Lexer} {ts : List Token} (hn : l.rest.length < n)
    (h : nextTokens n l = .ok ts l') : ∃ t ∈ ts, t.kind = .kEof := by
  induction n generalizing l ts with
  | zero => omega
  | succ n ih =>
      rw [nextTokens, bind_eq_ok] at h
      rcases h with ⟨t, l₁, hnext, h⟩
      rw [bind_eq_ok] at h
      rcases h with ⟨rest, l₂, hrest, h⟩
      cases h
      by_cases ht : t.kind = .kEof
      · exact ⟨t, List.mem_cons_self, ht⟩
      · have hlt := (nextToken_left hnext).2 ht
        rcases ih (by omega) hrest with ⟨u, hu, heof⟩
        exact ⟨u, List.mem_cons_of_mem t hu, heof⟩

/-- All reads are those of `peek` and `advance`, in the loops too. From the start of any buffer
`Lexer::next` never reads behind it, where `advance` is undefined, and never loops for ever: wherever
the cursor stands, the call throws an exception or comes to stand in the buffer again, at the end of
the input or further on. So one call more than there are bytes throws or finds the end. -/
theorem nextToken_safe (data : Bytes) :
    (∀ p, advanceWhile p = (get >>= fun l => advanceLoop p (l.rest.length + 1))) ∧
    ((get >>= fun l => do
      set (Lexer.scanComment l.rest l).2
      return (Lexer.scanComment l.rest l).1) =
      (get >>= fun l => commentLoop (l.rest.length + 1))) ∧
    Lexer.On data { rest := data } ∧
    (∀ l : Lexer, l.On data →
      ((∃ l', advance l = .error .undefined l') ↔ data.length ≤ l.pos) ∧
      match nextToken l with
      | .ok t l' => l'.On data ∧ (t.kind = .kEof ∨ l.pos < l'.pos)
      | .error e _ => ∃ error, e = .thrown error) ∧
    match nextTokens (data.length + 1) { rest := data } with
    | .ok ts _ => ∃ t ∈ ts, t.kind = .kEof
    | .error e _ => ∃ error, e = .thrown error := by
  refine ⟨advanceWhile_eq_loop, scanComment_eq_loop, Lexer.on_start data, fun l h => ⟨h.advance_undefined, ?_⟩, ?_⟩
  · cases hnext : nextToken l with
    | error e l' => exact (contained_nextToken l).thrown hnext
    | ok t l' =>
        have hto := (contained_nextToken l).onward hnext
        refine ⟨h.onward hto, ?_⟩
        by_cases ht : t.kind = .kEof
        · exact .inl ht
        · exact .inr (hto.pos_lt ((nextToken_left hnext).2 ht))
  · cases htokens : nextTokens (data.length + 1) { rest := data } with
    | error e l' => exact (contained_nextTokens _ _).thrown htokens
    | ok ts l' => exact nextTokens_reach (Nat.lt_succ_self _) htokens

/-- An open comment behind a name. -/
theorem nextToken_safe_openComment :
    match nextToken { rest := ascii "/*", pos := 1, column := 2 } with
    | .ok t l' => l'.On (ascii "a/*") ∧ (t.kind = .kEof ∨ 1 < l'.pos)
    | .error e _ => ∃ error, e = .thrown error :=
  ((nextToken_safe (ascii "a/*")).2.2.2.1 { rest := ascii "/*", pos := 1, column := 2 }
    ⟨by decide +kernel, by decide +kernel⟩).2

end Bytewright.Cfgscript
